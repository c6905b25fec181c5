import PatternCompiler.Proofs.Bindless

/-!
# Tests that decide nothing

A test of one predicate decides no other predicate. Where every case is a conjunction of two
predicates that occur nowhere else, all that splitting does is to take conjunctions apart, so all
later cases go on into both sides of every test, and each case more than doubles the tree.
-/

namespace PatternCompiler

set_option autoImplicit false

variable {ε : Type} {root : Name}

/-- The branch tries two predicates on the subject. Their conjunction may be taken apart. -/
inductive Branch.Tries (root : Name) : (ε × ε) × Nat → Branch ε → Prop where
  | whole (p q : ε) (case : Nat) : Tries root ((p, q), case)
      ⟨[.pattern root (.and [.predicate p, .predicate q])], .empty, .select case⟩
  | apart (p q : ε) (case : Nat) : Tries root ((p, q), case)
      ⟨[.pattern root (.predicate p), .pattern root (.predicate q)], .empty, .select case⟩

/-- The branches try these predicates for these cases, in order. -/
def Queue.Tries (root : Name) : List ((ε × ε) × Nat) → Queue ε → Prop :=
  List.Forall₂ (Branch.Tries root)

variable [BEq ε] {mentions : ε → Name → Bool} {f : ε} {outcome : Bool}

/-- The function is none of the predicates. -/
def Absent (f : ε) (entries : List ((ε × ε) × Nat)) : Prop :=
  ∀ e ∈ entries, (f == e.1.1) = false ∧ (f == e.1.2) = false

theorem absent_of_forall {entries : List ((ε × ε) × Nat)}
    (h : ∀ g ∈ (entries.map Prod.fst).flatMap fun f => [f.1, f.2], (f == g) = false) :
    Absent f entries := by
  intro e he
  have hmem (g : ε) (hg : g ∈ [e.1.1, e.1.2]) : (f == g) = false :=
    h g (List.mem_flatMap.mpr ⟨e.1, List.mem_map_of_mem he, hg⟩)
  exact ⟨hmem _ List.mem_cons_self, hmem _ (List.mem_cons_of_mem _ List.mem_cons_self)⟩

/-! ## Refinement -/

namespace Knowledge

/-- Knowledge about a predicate says nothing about another one. -/
theorem verdict_of_ne (free : Bool) {g : ε} (h : (f == g) = false) :
    verdict ⟨.predicate root f, outcome⟩ free root (.predicate g) = none := by
  simp [verdict, predicateVerdict, h]

theorem verdictAll_of_ne (free : Bool) {p q : ε} (hp : (f == p) = false)
    (hq : (f == q) = false) :
    verdictAll ⟨.predicate root f, outcome⟩ free root [.predicate p, .predicate q] = none := by
  simp only [verdictAll, verdict_of_ne free hp, verdict_of_ne free hq]

end Knowledge

/-- An undecided conjunction is at most taken apart. -/
theorem Branch.Tries.refine {entry : (ε × ε) × Nat} {branch : Branch ε}
    (h : branch.Tries root entry) (hp : (f == entry.1.1) = false) (hq : (f == entry.1.2) = false) :
    ∃ branch', Knowledge.refineBranch ⟨.predicate root f, outcome⟩ mentions branch = some branch' ∧
      branch'.Tries root entry := by
  obtain ⟨free, -, heq⟩ :=
    Knowledge.exists_refineBranch_eq ⟨.predicate root f, outcome⟩ mentions branch
  cases h with
  | whole p q case =>
      refine ⟨_, heq.trans ?_, .apart p q case⟩
      simp [Knowledge.residueAll, Knowledge.residuePending, Fact.subject?,
        Knowledge.residue, Knowledge.residueItems, Knowledge.remainder,
        Knowledge.verdict.eq_def _ _ _ (.and _), Knowledge.verdictAll_of_ne _ hp hq,
        Knowledge.verdict_of_ne _ hp, Knowledge.verdict_of_ne _ hq]
  | apart p q case =>
      refine ⟨_, heq.trans ?_, .apart p q case⟩
      simp [Knowledge.residueAll, Knowledge.residuePending, Fact.subject?,
        Knowledge.residue, Knowledge.remainder, Knowledge.verdict_of_ne _ hp,
        Knowledge.verdict_of_ne _ hq]

namespace Queue

variable {entries : List ((ε × ε) × Nat)} {queue : Queue ε}

/-- No branch is dropped on either side of a test that occurs in none of them. -/
theorem Tries.refine (h : Tries root entries queue) (hf : Absent f entries) :
    Tries root entries (Queue.refine mentions (.predicate root f []) outcome queue) := by
  simp only [Queue.refine, Fact.ofTest?, List.isEmpty_nil, if_true]
  induction h with
  | nil => exact .nil
  | cons hbranch _ ih =>
      obtain ⟨⟨hp, hq⟩, hrest⟩ := List.forall_mem_cons.mp hf
      obtain ⟨branch', hsome, htries⟩ := hbranch.refine hp hq
      rw [List.filterMap_cons_some hsome]
      exact .cons htries (ih hrest)

variable (options : Options) (mentions : ε → Name → Bool)

/-- Both sides of a test that occurs in none of the later branches still try all of these. -/
theorem Tries.step (h : Tries root entries queue) (hf : Absent f entries)
    (pending : List (Pending ε)) (case : Nat) :
    ∃ yes no, step options mentions
        (⟨.pattern root (.predicate f) :: pending, .empty, .select case⟩ :: queue) =
          .test (.predicate root f []) (⟨pending, .empty, .select case⟩ :: yes) no ∧
      Tries root entries yes ∧ Tries root entries no := by
  change ∃ yes no, testStep options mentions (.predicate root f []) ⟨pending, .empty, .select case⟩
    queue = _ ∧ _
  unfold testStep
  split
  · exact ⟨_, _, rfl, h.refine hf, h.refine hf⟩
  · exact ⟨_, _, rfl, h, h⟩

/-! ## Size -/

/-- There are two tests for the first case, and whatever the later cases need is needed behind the
failure of either. -/
theorem Tries.sized_apart (h : Tries root entries queue) {p q : ε} (case : Nat) {tests : Nat}
    {cases : Set Nat} (hp : Absent p entries) (hq : Absent q entries)
    (hrest : ∀ queue, Tries root entries queue → Sized options mentions queue tests cases) :
    Sized options mentions
      (⟨[.pattern root (.predicate p), .pattern root (.predicate q)], .empty, .select case⟩ ::
        queue)
      (2 + 2 * tests) ({case} ∪ cases) := by
  obtain ⟨yes, no, hstep, hyes, hno⟩ :=
    h.step options mentions hp [.pattern root (.predicate q)] case
  obtain ⟨yes', no', hstep', -, hno'⟩ := hyes.step options mentions hq [] case
  have hselect : Sized options mentions (⟨[], .empty, .select case⟩ :: yes') 0 {case} :=
    sized_select rfl
  have hsized := (hselect.test (hrest no' hno') hstep').test (hrest no hno) hstep
  rw [Set.union_assoc, Set.union_self] at hsized
  have htests : 1 + (1 + 0 + tests) + tests = 2 + 2 * tests := by omega
  rwa [htests] at hsized

/-- The tree of conjunctions of pairwise different predicates. -/
theorem Tries.sized (h : Tries root entries queue)
    (hne : ((entries.map Prod.fst).flatMap fun f => [f.1, f.2]).Pairwise
      fun f g => (f == g) = false) :
    Sized options mentions queue (2 ^ (entries.length + 1) - 2)
      {case | case ∈ entries.map Prod.snd} := by
  induction entries generalizing queue with
  | nil =>
      cases h
      have hnone : {case | case ∈ ([] : List ((ε × ε) × Nat)).map Prod.snd} = ∅ := by simp
      rw [hnone]
      exact sized_nil
  | cons entry entries ih =>
      obtain ⟨⟨p, q⟩, case⟩ := entry
      rw [List.map_cons, List.flatMap_cons, List.cons_append, List.singleton_append,
        List.pairwise_cons, List.pairwise_cons] at hne
      obtain ⟨hp, hq, hothers⟩ := hne
      have hcases : {other | other ∈ (((p, q), case) :: entries).map Prod.snd} =
          {case} ∪ {other | other ∈ entries.map Prod.snd} := by
        ext other
        simp
      have htests : 2 ^ ((((p, q), case) :: entries).length + 1) - 2 =
          2 + 2 * (2 ^ (entries.length + 1) - 2) := by
        have hpow : 1 ≤ 2 ^ entries.length := Nat.one_le_two_pow
        rw [List.length_cons]
        omega
      rw [hcases, htests]
      cases h with
      | cons hbranch hqueue =>
          have hapart := Tries.sized_apart options mentions hqueue case
            (absent_of_forall fun g hg => hp g (List.mem_cons_of_mem _ hg)) (absent_of_forall hq)
            fun queue hqueue => ih hqueue hothers
          cases hbranch with
          | whole => exact hapart.advance rfl
          | apart => exact hapart

omit [BEq ε] in
/-- The conjunctions of two predicates each, as they are given. -/
theorem ofPatterns_tries (root : Name) (preds : List (ε × ε)) :
    Tries root preds.zipIdx
      (ofPatterns root (preds.map fun f => .and [.predicate f.1, .predicate f.2])) := by
  rw [ofPatterns, List.mapIdx_eq_zipIdx_map, List.zipIdx_map, List.map_map]
  exact List.forall₂_map_right_iff.mpr (List.forall₂_same.mpr fun e _ => .whole e.1.1 e.1.2 e.2)

end Queue

/-- Cases of two predicates each, of which no two are equal, more than double the tests one after
another, whatever the options. Every case is used once and none is reported. -/
theorem undecided_tests_double {σ κ : Type} (e : Emitter σ ε κ) (options : Options) (subject : ε)
    {cases : List (Case σ ε κ)} {preds : List (ε × ε)}
    (hcases : cases.map Case.pattern = preds.map fun f => .and [.predicate f.1, .predicate f.2])
    (hne : (preds.flatMap fun f => [f.1, f.2]).Pairwise fun f g => (f == g) = false)
    (session : Session σ) :
    ∃ compiled session', compile e options subject cases session = (.ok compiled, session') ∧
      compiled.stats.tests = 2 ^ (preds.length + 1) - 2 ∧
      compiled.stats.uses = preds.length ∧ compiled.warnings = [] := by
  have hlength : cases.length = preds.length := by
    rw [← List.length_map (f := Case.pattern), hcases, List.length_map]
  have hwell := isWellFormed_of_map hcases (List.forall_mem_map.mpr fun _ _ => rfl)
  have hsized (root : Name) : Queue.Sized options e.mentions
      (Queue.ofPatterns root (cases.map Case.pattern)) (2 ^ (preds.length + 1) - 2)
      {case | case ∈ List.range' 0 preds.length} := by
    have htries := Queue.ofPatterns_tries root preds
    have hsized := htries.sized options e.mentions
      ((List.zipIdx_map_fst 0 preds).symm ▸ hne)
    rw [List.length_zipIdx, List.zipIdx_map_snd] at hsized
    rw [hcases]
    exact hsized
  have hall : ∀ case < cases.length, case ∈ List.range' 0 preds.length := by
    intro case hcase
    rw [List.mem_range'_1]
    omega
  obtain ⟨compiled, session', hcompile, htests, huses, hwarnings⟩ :=
    compile_sized e subject hwell hsized session
  refine ⟨compiled, session', hcompile, htests, hlength ▸ huses hall, ?_⟩
  rw [List.eq_nil_iff_forall_not_mem]
  rintro ⟨case, p⟩ hmem
  obtain ⟨-, ⟨c, hc, -⟩, hunreached⟩ := (hwarnings case p).mp hmem
  exact hunreached (hall case (List.getElem?_eq_some_iff.mp hc).1)

/-- Two cases of two predicates make six tests. -/
theorem undecided_tests_double_of_type_checks :
    let vocabulary := (Vocabulary.intern .initial).1
    let preds : List (Form × Form) :=
      [(.function ⟨14⟩, .function ⟨15⟩), (.function ⟨16⟩, .call vocabulary.operators.eql [.int 3])]
    let cases : List (Case ObjectSupply Form Form) :=
      preds.map fun f => ⟨.and [.predicate f.1, .predicate f.2], fun _ _ => return .nil, false⟩
    ∃ compiled session',
      compile (formEmitter vocabulary.operators) {} (.int 3) cases ⟨⟨.initial, 0⟩, ⟨0⟩⟩ =
        (.ok compiled, session') ∧
      compiled.stats.tests = 6 ∧ compiled.stats.uses = 2 ∧ compiled.warnings = [] := by
  intro vocabulary preds cases
  have hne : (preds.flatMap fun f => [f.1, f.2]).Pairwise fun f g => (f == g) = false := by decide
  exact undecided_tests_double (formEmitter vocabulary.operators) {} (.int 3) rfl hne _

end PatternCompiler
