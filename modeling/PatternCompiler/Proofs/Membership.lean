import Mathlib.Data.List.Chain
import PatternCompiler.Proofs.Emission
import PatternCompiler.Proofs.Folding

/-!
# Membership in sets of literals

The outcome of one membership test decides others as the comparison of literals says, whichever
objects the constants are made of. Alternatives that only compare with literals are folded into
membership tests: runs are as long as they can be, nothing is skipped or repeated, and the test on a
set succeeds exactly when some literal of the set compares equal under its own comparator.
-/

namespace PatternCompiler

set_option autoImplicit false

/-! ## Known memberships -/

/-- Once it is known whether a value is in one set, under one comparator, what is concluded about
another set and another comparator is so. Every constant is made anew, when the value exists. -/
theorem known_membership_decides {known asked : List Literal} {eqv askedEqv : Equivalence}
    {holds b : Bool} (h : setOutcome known eqv holds asked askedEqv = some b) {v : Value}
    {made made' : Literal → ObjectSupply} (hmade : ∀ m ∈ known, v.MadeBefore (made m))
    (hmade' : ∀ t ∈ asked, v.MadeBefore (made' t))
    (hv : (∃ m ∈ known, v.equiv eqv (Value.ofLiteral m (made m)).1 = true) ↔ holds = true) :
    (∃ t ∈ asked, v.equiv askedEqv (Value.ofLiteral t (made' t)).1 = true) ↔ b = true := by
  have equals {set : List Literal} {e : Equivalence} {supplies : Literal → ObjectSupply}
      (hnew : ∀ l ∈ set, v.MadeBefore (supplies l)) :
      (∃ l ∈ set, v.equiv e (Value.ofLiteral l (supplies l)).1 = true) ↔
        set.any (v.equals e) = true := by
    rw [List.any_eq_true]
    refine exists_congr fun l => and_congr_right fun hl => ?_
    rw [Literal.equiv_new l e (hnew l hl), Literal.equals_eq]
  rw [equals hmade, ← Bool.eq_iff_iff] at hv
  rw [equals hmade', setOutcome_sound h hv]

/-- What is one of two numbers, one of them written as a character, is among numbers and a text. -/
theorem known_membership_decides_code_point :
    setOutcome [.char 'a', .int 3] .numericIdentity true [.int 97, .str "a", .int 3] .structural =
        some true ∧
      ((∃ t ∈ [Literal.int 97, .str "a", .int 3],
        (Value.int 97).equiv .structural (Value.ofLiteral t ⟨0⟩).1 = true) ↔ true = true) := by
  have h : setOutcome [.char 'a', .int 3] .numericIdentity true [.int 97, .str "a", .int 3]
      .structural = some true := by decide
  have hknown : (∃ m ∈ [Literal.char 'a', .int 3],
      (Value.int 97).equiv .numericIdentity (Value.ofLiteral m ⟨0⟩).1 = true) ↔ true = true :=
    iff_of_true ⟨.char 'a', List.mem_cons_self, by decide⟩ rfl
  exact ⟨h, known_membership_decides h (fun _ _ => trivial) (fun _ _ => trivial) hknown⟩

/-! ## Folded runs -/

section

variable {ε : Type}

/-- A plain comparison as the literal it compares with, any other pattern as it is. -/
def Pattern.read (p : Pattern ε) : Pattern ε := (p.quoted?.map .literal).getD p

/-- The alternatives that a match of folded alternatives is for. -/
def Pending.expansion : Pending ε → List (Pattern ε)
  | .pattern _ p => [p]
  | .member _ set _ => set.map .literal
  | .sameAs .. => []

/-- The match only compares with literals. -/
def Pending.isComparison : Pending ε → Bool
  | .pattern _ p => p.quoted?.isSome
  | .member .. => true
  | .sameAs .. => false

/-- The match takes the place of a run of alternatives: of a single one, or of several plain
comparisons, with the comparator that all their literals need. -/
inductive Pending.Replaces (subject : Name) : Pending ε → List (Pattern ε) → Prop where
  | single (p : Pattern ε) : Replaces subject (.pattern subject p) [p]
  | run {ps : List (Pattern ε)} {set : List Literal}
      (hset : ps.map Pattern.quoted? = set.map some) (hmany : 2 ≤ set.length) :
      Replaces subject (.member subject set (.ofLiterals set)) ps

/-- The alternatives are cut into runs, one for each of the matches that take their place. -/
def Pending.ReplaceAll (subject : Name) (ms : List (Pending ε)) (alternatives : List (Pattern ε)) :
    Prop :=
  ∃ runs : List (List (Pattern ε)),
    List.Forall₂ (Pending.Replaces subject) ms runs ∧ runs.flatten = alternatives

/-- What folding makes of alternatives: runs of them, of which no two in a row could be one. -/
structure FoldsExactly (subject : Name) (alternatives : List (Pattern ε)) (ms : List (Pending ε)) :
    Prop where
  runs : Pending.ReplaceAll subject ms alternatives
  maximal : ms.IsChain fun m m' => ¬ (m.isComparison = true ∧ m'.isComparison = true)

namespace Pending

variable {subject : Name} {alternatives alternatives' : List (Pattern ε)}
  {ms ms' : List (Pending ε)}

theorem map_read_of_quoted {ps : List (Pattern ε)} {set : List Literal}
    (h : ps.map Pattern.quoted? = set.map some) : ps.map Pattern.read = set.map .literal := by
  induction ps generalizing set with
  | nil =>
      obtain rfl := List.map_eq_nil_iff.mp h.symm
      rfl
  | cons p ps ih =>
      cases set with
      | nil => cases h
      | cons l set =>
          obtain ⟨hp, hps⟩ := List.cons.inj h
          rw [List.map_cons, List.map_cons, ih hps, Pattern.read, hp]
          rfl

theorem Replaces.read_expansion {m : Pending ε} {ps : List (Pattern ε)}
    (h : m.Replaces subject ps) : m.expansion.map Pattern.read = ps.map Pattern.read := by
  cases h with
  | single p => rfl
  | run hset hmany =>
      rw [map_read_of_quoted hset, Pending.expansion, List.map_map]
      rfl

namespace ReplaceAll

/-- Expanded, the matches are the alternatives in their order. -/
theorem read_expansion (h : ReplaceAll subject ms alternatives) :
    (ms.flatMap Pending.expansion).map Pattern.read = alternatives.map Pattern.read := by
  obtain ⟨runs, hruns, rfl⟩ := h
  induction hruns with
  | nil => rfl
  | cons hm _ ih =>
      rw [List.flatMap_cons, List.flatten_cons, List.map_append, List.map_append,
        hm.read_expansion, ih]

theorem nil : ReplaceAll subject ([] : List (Pending ε)) [] := ⟨[], .nil, rfl⟩

theorem cons {m : Pending ε} {ps : List (Pattern ε)} (hm : m.Replaces subject ps)
    (h : ReplaceAll subject ms alternatives) :
    ReplaceAll subject (m :: ms) (ps ++ alternatives) := by
  obtain ⟨runs, hruns, rfl⟩ := h
  exact ⟨ps :: runs, .cons hm hruns, List.flatten_cons⟩

theorem append (h : ReplaceAll subject ms alternatives)
    (h' : ReplaceAll subject ms' alternatives') :
    ReplaceAll subject (ms ++ ms') (alternatives ++ alternatives') := by
  obtain ⟨runs, hruns, rfl⟩ := h
  induction hruns with
  | nil => exact h'
  | cons hm _ ih =>
      rw [List.cons_append, List.flatten_cons, List.append_assoc]
      exact .cons hm ih

/-- A run that has ended takes its place as one match, if there is anything in it. -/
theorem of_matchesOfRun {run : List (Pattern ε × Literal)}
    (hrun : ∀ e ∈ run, e.1.quoted? = some e.2) :
    ReplaceAll subject (matchesOfRun subject run) (run.map Prod.fst) := by
  unfold matchesOfRun
  split
  · exact nil
  · rename_i p l
    exact cons (.single p) nil
  · rename_i hempty hsingle
    have hset : (run.map Prod.fst).map Pattern.quoted? = (run.map Prod.snd).map some := by
      rw [List.map_map, List.map_map]
      exact List.map_congr_left hrun
    have hmany : 2 ≤ (run.map Prod.snd).length := by
      match run with
      | [] => exact absurd rfl hempty
      | [(p, l)] => exact absurd rfl (hsingle p l)
      | _ :: _ :: _ => simp
    rw [← List.append_nil (run.map Prod.fst)]
    exact cons (.run hset hmany) nil

theorem of_foldFrom {run : List (Pattern ε × Literal)} (hrun : ∀ e ∈ run, e.1.quoted? = some e.2)
    (ps : List (Pattern ε)) :
    ReplaceAll subject (foldFrom subject run ps) (run.map Prod.fst ++ ps) := by
  induction ps generalizing run with
  | nil =>
      rw [List.append_nil]
      exact of_matchesOfRun hrun
  | cons p ps ih =>
      rw [foldFrom]
      split
      · rename_i l hquoted
        have hrun' : ∀ e ∈ run ++ [(p, l)], e.1.quoted? = some e.2 :=
          List.forall_mem_append.mpr ⟨hrun, fun e he => List.mem_singleton.mp he ▸ hquoted⟩
        have hlonger := ih hrun'
        rwa [List.map_append, List.append_assoc] at hlonger
      · exact (of_matchesOfRun hrun).append (cons (.single p) (ih fun _ he => by cases he))

end ReplaceAll

/-- The match that ends a run is no comparison, so no run could have been longer. -/
theorem foldFrom_maximal (run : List (Pattern ε × Literal)) (ps : List (Pattern ε)) :
    (foldFrom subject run ps).IsChain
      fun m m' => ¬ (m.isComparison = true ∧ m'.isComparison = true) := by
  have hrun (run : List (Pattern ε × Literal)) : (matchesOfRun subject run).IsChain
      fun m m' => ¬ (m.isComparison = true ∧ m'.isComparison = true) := by
    unfold matchesOfRun
    split
    · exact .nil
    · exact .singleton _
    · exact .singleton _
  induction ps generalizing run with
  | nil => exact hrun run
  | cons p ps ih =>
      rw [foldFrom]
      split
      · exact ih _
      · rename_i hquoted
        have hp : (Pending.pattern subject p).isComparison = false := by
          rw [Pending.isComparison, hquoted]
          rfl
        refine List.isChain_append.mpr ⟨hrun run, List.isChain_cons.mpr ⟨?_, ih []⟩, ?_⟩
        · intro m _ hboth
          rw [hp] at hboth
          cases hboth.1
        · intro m _ m' hm' hboth
          obtain rfl := Option.some.inj hm'
          rw [hp] at hboth
          cases hboth.2

end Pending

theorem alternativeMatches_foldsExactly (subject : Name) (alternatives : List (Pattern ε)) :
    FoldsExactly subject alternatives (alternativeMatches true subject alternatives) where
  runs := Pending.ReplaceAll.of_foldFrom (fun _ he => by cases he) alternatives
  maximal := Pending.foldFrom_maximal [] alternatives

end

/-! ## Emitted membership tests -/

section

variable {vocabulary : Vocabulary} {subject : Form} {scope : Scope} {s s' : ObjectSupply}
  {v : Value}

/-- The search leaves what the subject makes and finds out whether some literal denotes it. -/
theorem eval_membershipTest (hvocabulary : vocabulary.Standard) (set : List Literal)
    (made : ObjectSupply) (h : subject.eval vocabulary.functions scope s = .ok (v, s')) :
    ∃ r, ((formEmitter vocabulary.operators).membershipTest subject set (.ofLiterals set)
        made).1.eval vocabulary.functions scope s = .ok (r, s') ∧
      r.isTruthy = set.any fun l => l.denotes v := by
  obtain ⟨r, hr, htruth⟩ := Builtin.tailFrom_newList (.membership (.ofLiterals set))
    (Equivalence.ofLiterals_suits set) (Literal.denotes_ofLiterals set made) v
    (Value.ofLiterals set made).2
  refine ⟨r, ?_, htruth⟩
  have hfuncall : Builtin.membership (.ofLiterals set) ≠ .funcall := by
    cases Equivalence.ofLiterals set <;> decide
  have hargs : Form.evalList vocabulary.functions [subject, .quote (Value.newList
      (Value.ofLiterals set made).1 (Value.ofLiterals set made).2).1] scope s =
      .ok ([v, (Value.newList (Value.ofLiterals set made).1 (Value.ofLiterals set made).2).1],
        s') := by
    rw [Form.evalList, EvalM.bind_of_ok h]
    rfl
  change Form.eval vocabulary.functions (.call (vocabulary.operators.membership _) _) scope s = _
  rw [Form.eval, FunctionTable.resolve, hvocabulary.membership, pure_bind, EvalM.bind_of_ok hargs,
    FunctionTable.apply_eq_run _ hfuncall, Builtin.run_membership, hr]
  rfl

/-- A plain comparison accepts exactly the values that its literal denotes. -/
theorem attempt_accepts_of_quoted (vocabulary : Vocabulary) {p : Pattern Form} {l : Literal}
    (h : p.quoted? = some l) (v : Value) (env : Bindings) (s : ObjectSupply) :
    (∃ s₁, Matcher.attempt vocabulary p v env Matcher.accept s = .ok (some env, s₁)) ↔
      l.denotes v = true := by
  obtain ⟨s₁, -, heq⟩ := Matcher.attempt_of_quoted vocabulary h v env Matcher.accept s
  rw [heq]
  cases l.denotes v with
  | true => exact iff_of_true ⟨s₁, rfl⟩ rfl
  | false => exact iff_of_false (by rintro ⟨_, h⟩; cases h) Bool.false_ne_true

theorem attempt_accepts_of_run (vocabulary : Vocabulary) {ps : List (Pattern Form)}
    {set : List Literal} (h : ps.map Pattern.quoted? = set.map some) (v : Value) (env : Bindings)
    (s : ObjectSupply) :
    (∃ p ∈ ps, ∃ s₁, Matcher.attempt vocabulary p v env Matcher.accept s = .ok (some env, s₁)) ↔
      (set.any fun l => l.denotes v) = true := by
  induction ps generalizing set with
  | nil =>
      obtain rfl := List.map_eq_nil_iff.mp h.symm
      exact iff_of_false (by rintro ⟨_, hp, _⟩; cases hp) Bool.false_ne_true
  | cons p ps ih =>
      cases set with
      | nil => cases h
      | cons l set =>
          obtain ⟨hp, hps⟩ := List.cons.inj h
          rw [List.exists_mem_cons_iff, attempt_accepts_of_quoted vocabulary hp, ih hps,
            List.any_cons, Bool.or_eq_true]

/-- Folding cuts alternatives into runs that are as long as they can be, keeps their order and
reads the literals of those that only compare. The test it folds a run into succeeds exactly if one
of its literals compares equal by the comparator that this literal needs, whichever objects the
constants are made of, which is when one of the alternatives matches. -/
theorem folding_is_exact :
    (∀ {ε : Type} (subject : Name) (alternatives : List (Pattern ε)),
      FoldsExactly subject alternatives (alternativeMatches true subject alternatives) ∧
        ((alternativeMatches true subject alternatives).flatMap Pending.expansion).map
          Pattern.read = alternatives.map Pattern.read) ∧
    ∀ {vocabulary : Vocabulary}, vocabulary.Standard →
      ∀ (set : List Literal) (made : ObjectSupply) {subject : Form} {scope : Scope}
        {s s' : ObjectSupply} {v : Value},
        subject.eval vocabulary.functions scope s = .ok (v, s') →
        ∃ r, ((formEmitter vocabulary.operators).membershipTest subject set (.ofLiterals set)
            made).1.eval vocabulary.functions scope s = .ok (r, s') ∧
          (∀ constant : Literal → ObjectSupply, r.isTruthy = true ↔
            ∃ l ∈ set, v.equiv l.equivalence (Value.ofLiteral l (constant l)).1 = true) ∧
          ∀ (name : Name) (alternatives : List (Pattern Form)),
            (Pending.member name set (.ofLiterals set)).Replaces name alternatives →
            ∀ (env : Bindings) (s₁ : ObjectSupply), r.isTruthy = true ↔
              ∃ p ∈ alternatives, ∃ s₂,
                Matcher.attempt vocabulary p v env Matcher.accept s₁ = .ok (some env, s₂) := by
  refine ⟨fun subject alternatives => ?_, fun {_} hvocabulary set made _ _ _ _ v hsubject => ?_⟩
  · have hfolds := alternativeMatches_foldsExactly subject alternatives
    exact ⟨hfolds, hfolds.runs.read_expansion⟩
  · obtain ⟨r, hr, htruth⟩ := eval_membershipTest hvocabulary set made hsubject
    refine ⟨r, hr, fun constant => ?_, fun name alternatives hreplaces env s₁ => ?_⟩
    · have himplies (l : Literal) : l.equivalence.implies l.equivalence = true := by
        simp [Equivalence.implies]
      simp only [htruth, List.any_eq_true, Literal.equiv_ofLiteral (himplies _)]
    · cases hreplaces with
      | run hset hmany => rw [htruth, attempt_accepts_of_run _ hset]

/-- A number and a character inside a conjunction are tested at once; the character is found. -/
theorem folding_is_exact_of_code_point :
    ∃ r, ((formEmitter (Vocabulary.intern .initial).1.operators).membershipTest
        (.quote (.int 97)) [.int 3, .char 'a'] (.ofLiterals [.int 3, .char 'a'])
        ⟨0⟩).1.eval (Vocabulary.intern .initial).1.functions [] ⟨0⟩ = .ok (r, ⟨0⟩) ∧
      r.isTruthy = true ∧
      ∃ p ∈ [.literal (.int 3), .and [.literal (.char 'a')]], ∃ s₂,
        Matcher.attempt (Vocabulary.intern .initial).1 p (.int 97) [] Matcher.accept ⟨0⟩ =
          .ok (some [], s₂) := by
  have hsubject : (Form.quote (.int 97)).eval (Vocabulary.intern .initial).1.functions [] ⟨0⟩ =
      .ok (.int 97, ⟨0⟩) := rfl
  obtain ⟨r, hr, hconstants, hmatches⟩ := folding_is_exact.2
    (Vocabulary.intern_standard SymbolTable.initial_coherent) [.int 3, .char 'a'] ⟨0⟩ hsubject
  have htruth : r.isTruthy = true := (hconstants fun _ => ⟨0⟩).mpr ⟨.char 'a', by simp, by decide⟩
  exact ⟨r, hr, htruth,
    (hmatches .nil _ (.run (by rfl) (by decide)) [] ⟨0⟩).mp htruth⟩

end

end PatternCompiler
