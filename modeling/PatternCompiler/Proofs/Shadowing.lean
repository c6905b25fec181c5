import PatternCompiler.Proofs.Bindless
import PatternCompiler.Proofs.Comparators

/-!
# Literals behind literals

Where every case is a literal, a test that fails leaves out the later literals that the tested one
covers. Covering is equality of what the literals denote, with one exception: the symbol `nil` is
tested by identity, which does not answer for a list, so it does not cover the empty list. As
covering is transitive, the tests are for the literals that no earlier one covers.
-/

namespace PatternCompiler

set_option autoImplicit false

namespace Literal

variable {a b c l t : Literal}

/-! ## Covering -/

/-- The failure of the test for the first literal refutes the second one. -/
def covers (l t : Literal) : Bool := t.equivalence.implies l.equivalence && t.equiv l.equivalence l

theorem equiv_structural_iff : a.equiv .structural b = true ↔ ∀ v, a.denotes v = b.denotes v := by
  constructor
  · exact denotes_of_equiv
  · intro h
    have ha : a.denotes (Value.ofLiteral a ⟨0⟩).1 = true := denotes_ofLiteral a ⟨0⟩
    exact equiv_of_common ha (h _ ▸ ha)

theorem equiv_structural_symm (h : a.equiv .structural b = true) : b.equiv .structural a = true :=
  equiv_structural_iff.mpr fun v => (equiv_structural_iff.mp h v).symm

theorem equiv_structural_trans (hab : a.equiv .structural b = true)
    (hbc : b.equiv .structural c = true) : a.equiv .structural c = true :=
  equiv_structural_iff.mpr fun v =>
    (equiv_structural_iff.mp hab v).trans (equiv_structural_iff.mp hbc v)

/-- A comparator that suits a literal suits the literals that are equal to it, unless it is
identity and suits them as `nil`. -/
theorem equivalence_of_equiv (h : l.equiv .structural t = true) :
    t.equivalence.implies l.equivalence = true ↔ ¬ (l = nil ∧ t = list []) := by
  cases l <;> cases t <;>
    simp_all [equiv, equivOther, equivAtom, isNil, fixnum?, nil, equivalence, kind,
      Kind.equivalence, Equivalence.implies, Equivalence.rank]

theorem covers_iff :
    l.covers t = true ↔ l.equiv .structural t = true ∧ ¬ (l = nil ∧ t = list []) := by
  rw [covers, Bool.and_eq_true]
  constructor
  · rintro ⟨himplies, hequiv⟩
    have hstructural : l.equiv .structural t = true :=
      equiv_structural_symm (equiv_structural_iff.mpr (denotes_of_equiv hequiv))
    exact ⟨hstructural, (equivalence_of_equiv hstructural).mp himplies⟩
  · rintro ⟨hstructural, hexcept⟩
    have hcomparable : l.comparable l.equivalence = true :=
      comparable_of_equivalence (Equivalence.implies_refl _)
    exact ⟨(equivalence_of_equiv hstructural).mpr hexcept,
      equiv_of_comparable (equiv_structural_symm hstructural) hcomparable⟩

theorem covers_trans (hab : a.covers b = true) (hbc : b.covers c = true) : a.covers c = true := by
  have hcb : c.equivalence.rank ≤ b.equivalence.rank :=
    of_decide_eq_true (Bool.and_eq_true_iff.mp hbc).1
  have hba : b.equivalence.rank ≤ a.equivalence.rank :=
    of_decide_eq_true (Bool.and_eq_true_iff.mp hab).1
  have hstructural := equiv_structural_trans (covers_iff.mp hab).1 (covers_iff.mp hbc).1
  exact covers_iff.mpr ⟨hstructural,
    (equivalence_of_equiv hstructural).mp (decide_eq_true (hcb.trans hba))⟩

/-- What a failing test says about another literal. -/
theorem setOutcome_eq_covers (l t : Literal) :
    setOutcome [l] l.equivalence false [t] t.equivalence =
      if l.covers t then some false else none := by
  simp only [setOutcome, covers, List.all_cons, List.all_nil, List.any_cons, List.any_nil,
    Bool.and_true, Bool.or_false, Bool.false_eq_true, if_false]
  rfl

/-! ## The first of each kind -/

/-- The literals, each with its case, that no earlier one covers. -/
def uncovered (entries : List (Literal × Nat)) : List (Literal × Nat) :=
  entries.eraseDupsBy fun later earlier => earlier.1.covers later.1

/-- The entries that are left when a literal has been tested in vain. -/
def remaining (l : Literal) (entries : List (Literal × Nat)) : List (Literal × Nat) :=
  entries.filter fun entry => !l.covers entry.1

variable {entries : List (Literal × Nat)} {i : Nat}

theorem uncovered_cons (entry : Literal × Nat) (entries : List (Literal × Nat)) :
    uncovered (entry :: entries) = entry :: uncovered (remaining entry.1 entries) := by
  simp only [uncovered, remaining, List.eraseDupsBy_cons, Bool.decide_eq_false]

theorem mem_remaining : (t, i) ∈ remaining l entries ↔ (t, i) ∈ entries ∧ l.covers t = false := by
  rw [remaining, List.mem_filter, Bool.not_eq_true']

/-- Induction on the tests that fail. -/
theorem remaining_induction {motive : List (Literal × Nat) → Prop} (nil : motive [])
    (cons : ∀ entry entries, motive (remaining entry.1 entries) → motive (entry :: entries)) :
    ∀ entries, motive entries
  | [] => nil
  | entry :: entries => cons entry entries (remaining_induction nil cons _)
termination_by entries => entries.length
decreasing_by exact Nat.lt_succ_of_le (List.length_filter_le ..)

theorem uncovered_sublist (entries : List (Literal × Nat)) :
    (uncovered entries).Sublist entries := by
  induction entries using remaining_induction with
  | nil => exact .slnil
  | cons entry entries ih =>
      rw [uncovered_cons]
      exact (ih.trans List.filter_sublist).cons_cons entry

/-- An entry remains to be tested if it is covered by no earlier one, whether or not that one was
itself tested. -/
theorem mem_uncovered (hsorted : entries.Pairwise fun a b => a.2 < b.2) :
    (t, i) ∈ uncovered entries ↔
      (t, i) ∈ entries ∧ ∀ l j, (l, j) ∈ entries → j < i → l.covers t = false := by
  induction entries using remaining_induction with
  | nil => exact iff_of_false List.not_mem_nil fun h => List.not_mem_nil h.1
  | cons entry entries ih =>
      obtain ⟨hfirst, hrest⟩ := List.pairwise_cons.mp hsorted
      rw [uncovered_cons, List.mem_cons, ih (hrest.filter _), mem_remaining, List.mem_cons]
      constructor
      · rintro (rfl | ⟨⟨hmem, hcovers⟩, hnone⟩)
        · refine ⟨.inl rfl, fun l j hj hlt => ?_⟩
          rcases List.mem_cons.mp hj with heq | hj
          · cases heq
            exact absurd hlt (lt_irrefl _)
          · exact absurd hlt (hfirst _ hj).not_gt
        · refine ⟨.inr hmem, fun l j hj hlt => ?_⟩
          rcases List.mem_cons.mp hj with rfl | hj
          · exact hcovers
          · -- What covers an entry is covered by the first one only if the entry is so, too.
            by_contra hlt'
            have hl : l.covers t = true := Bool.of_not_eq_false hlt'
            cases hfl : entry.1.covers l with
            | true => exact Bool.false_ne_true (hcovers.symm.trans (covers_trans hfl hl))
            | false => exact hlt' (hnone l j (mem_remaining.mpr ⟨hj, hfl⟩) hlt)
      · rintro ⟨rfl | hmem, hnone⟩
        · exact .inl rfl
        · refine .inr ⟨⟨hmem, hnone _ _ List.mem_cons_self (hfirst _ hmem)⟩, fun l j hj => ?_⟩
          exact hnone l j (List.mem_cons_of_mem _ (mem_remaining.mp hj).1)

end Literal

/-! ## Queues of literals -/

namespace Queue

open Literal (covers uncovered remaining)

variable {ε : Type}

/-- Branches that try one literal each. -/
def ofEntries (root : Name) (entries : List (Literal × Nat)) : Queue ε :=
  entries.map fun entry => Branch.ofCase root entry.2 (.literal entry.1)

theorem ofPatterns_literals (root : Name) (literals : List Literal) :
    ofPatterns root (literals.map .literal) = (ofEntries root literals.zipIdx : Queue ε) := by
  rw [ofPatterns, List.mapIdx_eq_zipIdx_map, List.zipIdx_map, List.map_map]
  rfl

variable [BEq ε] {options : Options} {mentions : ε → Name → Bool}

theorem refineBranch_literal (root : Name) (l t : Literal) (case : Nat) :
    Knowledge.refineBranch ⟨.member root [l] l.equivalence, false⟩ mentions
        (Branch.ofCase root case (.literal t) : Branch ε) =
      if l.covers t then none else some (Branch.ofCase root case (.literal t)) := by
  have hverdict (free : Bool) : Knowledge.verdict
      (⟨.member root [l] l.equivalence, false⟩ : Knowledge ε) free root (.literal t) =
        if l.covers t then some false else none := by
    simp only [Knowledge.verdict, Knowledge.decideMember, if_true,
      Literal.setOutcome_eq_covers]
  obtain ⟨free, -, heq⟩ := Knowledge.exists_refineBranch_eq
    ⟨.member root [l] l.equivalence, false⟩ mentions (Branch.ofCase root case (.literal t))
  rw [heq]
  simp only [Branch.ofCase, Knowledge.residueAll, Knowledge.residuePending, Fact.subject?, if_true,
    Knowledge.residue, hverdict]
  split <;> rfl

/-- A failing test leaves out exactly the branches whose literals it covers. -/
theorem refine_ofEntries (root : Name) (l : Literal) (entries : List (Literal × Nat)) :
    refine mentions (.equal root l l.equivalence) false (ofEntries root entries) =
      ofEntries root (remaining l entries) := by
  simp only [refine, Fact.ofTest?, ofEntries, remaining]
  induction entries with
  | nil => rfl
  | cons entry entries ih =>
      rw [List.map_cons, List.filterMap_cons, refineBranch_literal, ih, List.filter_cons]
      cases l.covers entry.1 with
      | true => rfl
      | false => rfl

theorem sized_ofEntries (hsplit : options.splitBranches = true) (root : Name)
    (entries : List (Literal × Nat)) :
    Sized options mentions (ofEntries root entries) (uncovered entries).length
      {case | case ∈ (uncovered entries).map Prod.snd} := by
  induction entries using Literal.remaining_induction with
  | nil =>
      have hnone : {case | case ∈ (uncovered []).map Prod.snd} = ∅ := by simp [uncovered]
      rw [hnone]
      exact sized_nil
  | cons entry entries ih =>
      have hcases : {case | case ∈ (uncovered (entry :: entries)).map Prod.snd} =
          {entry.2} ∪ {case | case ∈ (uncovered (remaining entry.1 entries)).map Prod.snd} := by
        ext case
        simp [Literal.uncovered_cons]
      have htests : (uncovered (entry :: entries)).length =
          1 + 0 + (uncovered (remaining entry.1 entries)).length := by
        rw [Literal.uncovered_cons, List.length_cons]
        omega
      let asked : Test ε := .equal root entry.1 entry.1.equivalence
      have hstep : step options mentions (ofEntries root (entry :: entries)) =
          .test asked
            (⟨[], .empty, .select entry.2⟩ :: refine mentions asked true (ofEntries root entries))
            (ofEntries root (remaining entry.1 entries)) := by
        rw [← refine_ofEntries]
        change testStep options mentions asked ⟨[], .empty, .select entry.2⟩
          (ofEntries root entries) = _
        rw [testStep, if_pos hsplit]
      rw [hcases, htests]
      exact (sized_select rfl).test ih hstep

end Queue

/-! ## Cases of literals -/

/-- An earlier literal is structurally equal to this one, other than the symbol `nil` to the empty
list. -/
def Shadowed (literals : List Literal) (case : Nat) : Prop :=
  ∃ earlier l t, earlier < case ∧ literals[earlier]? = some l ∧ literals[case]? = some t ∧
    l.equiv .structural t = true ∧ ¬ (l = .nil ∧ t = .list [])

/-- The cases that are tested are those that are not shadowed. -/
theorem mem_cases_uncovered {literals : List Literal} {case : Nat} :
    case ∈ (Literal.uncovered literals.zipIdx).map Prod.snd ↔
      case < literals.length ∧ ¬ Shadowed literals case := by
  have hsorted : literals.zipIdx.Pairwise fun a b => a.2 < b.2 := by
    rw [← List.pairwise_map, List.zipIdx_map_snd]
    exact List.pairwise_lt_range'
  rw [List.mem_map]
  constructor
  · rintro ⟨⟨t, i⟩, hmem, rfl⟩
    obtain ⟨ht, hnone⟩ := (Literal.mem_uncovered hsorted).mp hmem
    rw [List.mk_mem_zipIdx_iff_getElem?] at ht
    refine ⟨(List.getElem?_eq_some_iff.mp ht).1, ?_⟩
    rintro ⟨earlier, l, t', hlt, hl, ht', hshadow⟩
    cases ht.symm.trans ht'
    have hcovers := hnone l earlier (List.mk_mem_zipIdx_iff_getElem?.mpr hl) hlt
    exact Bool.false_ne_true (hcovers.symm.trans (Literal.covers_iff.mpr hshadow))
  · rintro ⟨hlt, hshadow⟩
    have ht : literals[case]? = some literals[case] := List.getElem?_eq_getElem hlt
    refine ⟨(literals[case], case), (Literal.mem_uncovered hsorted).mpr
      ⟨List.mk_mem_zipIdx_iff_getElem?.mpr ht, fun l earlier hl hearlier => ?_⟩, rfl⟩
    rw [← Bool.not_eq_true, Literal.covers_iff]
    intro hcovers
    exact hshadow ⟨earlier, l, _, hearlier, List.mk_mem_zipIdx_iff_getElem?.mp hl, ht, hcovers⟩

theorem ncard_uncovered (literals : List Literal) :
    {case | case < literals.length ∧ ¬ Shadowed literals case}.ncard =
      (Literal.uncovered literals.zipIdx).length := by
  have hnodup : ((Literal.uncovered literals.zipIdx).map Prod.snd).Nodup := by
    refine ((Literal.uncovered_sublist literals.zipIdx).map Prod.snd).nodup ?_
    rw [List.zipIdx_map_snd]
    exact List.nodup_range'
  have hcases : {case | case < literals.length ∧ ¬ Shadowed literals case} =
      ((Literal.uncovered literals.zipIdx).map Prod.snd).toFinset := by
    ext case
    rw [List.coe_toFinset, Set.mem_ofPred_eq, Set.mem_ofPred_eq, mem_cases_uncovered]
  rw [hcases, Set.ncard_coe_finset, List.toFinset_card_of_nodup hnodup, List.length_map]

section Compile

variable {ε : Type} [BEq ε] {options : Options} {σ κ : Type} {cases : List (Case σ ε κ)}
  {literals : List Literal}

omit [BEq ε] in
theorem isWellFormed_of_literals (hcases : cases.map Case.pattern = literals.map .literal) :
    ∀ c ∈ cases, c.pattern.isWellFormed = true :=
  isWellFormed_of_map hcases (List.forall_mem_map.mpr fun _ _ => rfl)

theorem sized_of_literals (hsplit : options.splitBranches = true) (mentions : ε → Name → Bool)
    (hcases : cases.map Case.pattern = literals.map .literal) (root : Name) :
    Queue.Sized options mentions (Queue.ofPatterns root (cases.map Case.pattern))
      (Literal.uncovered literals.zipIdx).length
      {case | case ∈ (Literal.uncovered literals.zipIdx).map Prod.snd} := by
  rw [hcases, Queue.ofPatterns_literals]
  exact Queue.sized_ofEntries hsplit root _

/-- With splitting, a case of a literal is reported exactly if an earlier one shadows it, and there
is one test for every other case. -/
theorem literal_cases_reported_iff_shadowed (e : Emitter σ ε κ) (subject : ε)
    (hsplit : options.splitBranches = true)
    (hcases : cases.map Case.pattern = literals.map .literal) (session : Session σ) :
    ∃ compiled session', compile e options subject cases session = (.ok compiled, session') ∧
      (∀ case p, ⟨case, p⟩ ∈ compiled.warnings ↔ options.warnUnreachable = true ∧
        (∃ c, cases[case]? = some c ∧ c.allowUnreachable = false ∧ c.pattern = p) ∧
        Shadowed literals case) ∧
      compiled.stats.tests = {case | case < cases.length ∧ ¬ Shadowed literals case}.ncard := by
  have hlength : cases.length = literals.length := by
    simpa only [List.length_map] using congrArg List.length hcases
  obtain ⟨compiled, session', hcompile, htests, -, hwarnings⟩ :=
    compile_sized e subject (isWellFormed_of_literals hcases)
      (sized_of_literals hsplit e.mentions hcases) session
  refine ⟨compiled, session', hcompile, fun case p => ?_, ?_⟩
  · rw [hwarnings, Set.mem_ofPred_eq, mem_cases_uncovered, ← hlength]
    refine and_congr_right fun _ => and_congr_right fun ⟨c, hc, _⟩ => ?_
    have hlt : case < cases.length := (List.getElem?_eq_some_iff.mp hc).1
    simp only [hlt, true_and, not_not]
  · rw [htests, hlength, ncard_uncovered]

/-- A character shadows its code point, and the empty list the symbol `nil`. -/
theorem literal_cases_reported_iff_shadowed_of_code_point :
    let literals : List Literal := [.char 'b', .int 98, .list [], .nil]
    let cases : List (Case ObjectSupply Form Form) :=
      literals.map fun l => ⟨.literal l, fun _ _ => return .nil, false⟩
    ∃ compiled session',
      compile (formEmitter (Vocabulary.intern .initial).1.operators) {} (.int 3) cases
        ⟨⟨.initial, 0⟩, ⟨0⟩⟩ = (.ok compiled, session') ∧
      ⟨1, .literal (.int 98)⟩ ∈ compiled.warnings ∧ ⟨3, .literal .nil⟩ ∈ compiled.warnings ∧
      compiled.stats.tests = 2 := by
  intro literals cases
  have hsplit : ({} : Options).splitBranches = true := rfl
  have hcases : cases.map Case.pattern = literals.map .literal := rfl
  obtain ⟨compiled, session', hcompile, hwarnings, htests⟩ :=
    literal_cases_reported_iff_shadowed (formEmitter (Vocabulary.intern .initial).1.operators)
      (.int 3) hsplit hcases ⟨⟨.initial, 0⟩, ⟨0⟩⟩
  have hint : Shadowed literals 1 :=
    ⟨0, .char 'b', .int 98, by decide, rfl, rfl, by decide, by simp⟩
  have hnil : Shadowed literals 3 :=
    ⟨2, .list [], .nil, by decide, rfl, rfl, by decide, by simp [Literal.nil]⟩
  refine ⟨compiled, session', hcompile, (hwarnings _ _).mpr ⟨rfl, ⟨_, rfl, rfl, rfl⟩, hint⟩,
    (hwarnings _ _).mpr ⟨rfl, ⟨_, rfl, rfl, rfl⟩, hnil⟩, ?_⟩
  rw [htests]
  exact ncard_uncovered literals

/-- The symbol `nil` and the empty list are structurally equal, but the second one is tested all the
same and not reported. -/
theorem empty_list_not_shadowed_by_nil :
    let literals : List Literal := [.nil, .list []]
    let cases : List (Case ObjectSupply Form Form) :=
      literals.map fun l => ⟨.literal l, fun _ _ => return .nil, false⟩
    Literal.nil.equiv .structural (.list []) = true ∧
      ∃ compiled session',
        compile (formEmitter (Vocabulary.intern .initial).1.operators) {} (.int 3) cases
          ⟨⟨.initial, 0⟩, ⟨0⟩⟩ = (.ok compiled, session') ∧
        compiled.warnings = [] ∧ compiled.stats.tests = 2 := by
  intro literals cases
  refine ⟨by decide, ?_⟩
  have hsplit : ({} : Options).splitBranches = true := rfl
  have hcases : cases.map Case.pattern = literals.map .literal := rfl
  obtain ⟨compiled, session', hcompile, htests, -, hwarnings⟩ :=
    compile_sized (formEmitter (Vocabulary.intern .initial).1.operators) (.int 3)
      (isWellFormed_of_literals hcases) (sized_of_literals hsplit _ hcases) ⟨⟨.initial, 0⟩, ⟨0⟩⟩
  refine ⟨compiled, session', hcompile, List.eq_nil_iff_forall_not_mem.mpr ?_, htests⟩
  rintro ⟨case, p⟩ hmem
  obtain ⟨-, ⟨c, hc, -⟩, hunreached⟩ := (hwarnings case p).mp hmem
  have hlt : case < 2 := (List.getElem?_eq_some_iff.mp hc).1
  have hreached : (Literal.uncovered literals.zipIdx).map Prod.snd = List.range 2 := by
    decide
  rw [hreached] at hunreached
  exact hunreached (List.mem_range.mpr hlt)

end Compile

end PatternCompiler
