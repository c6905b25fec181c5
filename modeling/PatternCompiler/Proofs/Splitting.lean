import PatternCompiler.Proofs.Meaning
import PatternCompiler.Queue.Residue

/-!
# Splitting is sound

What a test has shown lets the compiler leave out matches and whole branches. A match left out as
known to succeed would have succeeded without binding anything, and a branch left out would not have
been chosen. Both may have failed with an error that is now gone, so nothing is said about errors.
-/

namespace PatternCompiler

set_option autoImplicit false

variable {ε : Type}

/-! ## Matches that cannot succeed -/

/-- If it gives a result in the first of the runs, it has found nothing. -/
def Barren {frozen : Bool} (w : Pairing frozen) (m : EvalM (Option Bindings)) : Prop :=
  ∀ (found : Option Bindings) (s : ObjectSupply), m w.left = .ok (found, s) →
    found = none ∧ w.left.next ≤ s.next

section

variable {frozen : Bool} {w : Pairing frozen} {m : EvalM (Option Bindings)}

theorem barren_none : Barren w (pure none) := by
  intro found s h
  cases h
  exact ⟨rfl, Nat.le_refl _⟩

/-- Neither run has found anything. -/
def Pairing.Neither (_ : Pairing frozen) (a b : Option Bindings) : Prop := a = none ∧ b = none

theorem Pairing.neither_report : Report (Neither : Pairing frozen → _ → _ → Prop) where
  none _ := ⟨rfl, rfl⟩
  isNone_eq h := by rw [h.1, h.2]

/-- Finding nothing is what a run does that gives up at once. -/
theorem Barren.simulates (h : Barren w m) : Simulates False w Pairing.Neither m (pure none) where
  ok {found s} hfound := by
    obtain ⟨hnone, hle⟩ := h found s hfound
    exact ⟨none, w.advance s w.right hle (Nat.le_refl _), rfl, rfl,
      w.extends_advance hle (Nat.le_refl _), hnone, rfl⟩
  error hfalse := hfalse.elim

theorem barren_of_simulates {m' : EvalM (Option Bindings)}
    (h : Simulates False w Pairing.Neither m m') : Barren w m := by
  intro found s hfound
  obtain ⟨_, w', -, rfl, hw, hnone⟩ := h.ok hfound
  exact ⟨hnone.1, hw.left⟩

end

namespace Interpretation

open Matcher (Continuation)

variable {frozen : Bool} {N : Name → Prop} {w : Pairing frozen} {I : Interpretation ε}
  {env env' : Bindings}

/-- Nothing is found if what is left to do finds nothing. -/
theorem attempt_barren (p : Pattern ε) {v v' : Value} {k : Continuation}
    (hp : w.RespectsPattern I p) (hb : ∀ x ∈ p.binders, N x) (hv : w.Relates v v')
    (he : w.RelatesEnv N env env')
    (hk : ∀ {w' : Pairing frozen} {e e' : Bindings}, w.Extends w' → w'.RelatesEnv N e e' →
      Barren w' (k e)) :
    Barren w (I.attempt p v env k) :=
  barren_of_simulates (attempt_simulates p Pairing.neither_report hp hb hv he
    fun hw he' => (hk hw he').simulates)

theorem attemptPending_barren {rep : Repertoire ε} {σ σ' : Valuation} {m : Pending ε}
    (h : w.Respects I rep σ σ') (hm : m.From rep) (hN : ∀ x ∈ m.binders, N x)
    (he : w.RelatesEnv N env env') {k : Continuation}
    (hk : ∀ {w' : Pairing frozen} {e e' : Bindings}, w.Extends w' → w'.RelatesEnv N e e' →
      Barren w' (k e)) :
    Barren w (I.attemptPending σ m env k) :=
  barren_of_simulates (attemptPending_simulates Pairing.neither_report h hm hN he
    fun hw he' => (hk hw he').simulates)

end Interpretation

/-! ## Verdicts -/

namespace Knowledge

open Matcher (Continuation)

variable {frozen : Bool} {I : Interpretation ε} {rep : Repertoire ε} {σ σ' : Valuation}
  {N : Name → Prop} {w : Pairing frozen} {subject : Name} {env env' : Bindings}

/-- What a verdict on a match promises: the match goes straight to what is left to do, or it never
gets there. -/
def Promise (w : Pairing frozen) (env : Bindings) (run : Continuation → EvalM (Option Bindings)) :
    Bool → Prop
  | true => ∀ (κ : Continuation) (found : Option Bindings) (s : ObjectSupply),
      run κ w.left = .ok (found, s) → ∃ s₁, w.left.next ≤ s₁.next ∧ κ env s₁ = .ok (found, s)
  | false => ∀ κ : Continuation, Barren w (run κ)

/-- A match that ends in a comparison keeps what the comparison promises. -/
theorem promise_of_continueIf {run : Continuation → EvalM (Option Bindings)} {b : Bool}
    (h : ∀ (κ : Continuation) (found : Option Bindings) (s : ObjectSupply),
      run κ w.left = .ok (found, s) →
        ∃ s₁, w.left.next ≤ s₁.next ∧ Matcher.continueIf b env κ s₁ = .ok (found, s)) :
    Promise w env run b := by
  cases b with
  | true => exact h
  | false =>
      intro κ found s hfound
      obtain ⟨s₁, hle, hfound⟩ := h κ found s hfound
      cases hfound
      exact ⟨rfl, hle⟩

theorem literal_promise (l : Literal) {b : Bool} (hb : (σ subject).equals l.equivalence l = b) :
    Promise w env (I.attempt (.literal l) (σ subject) env) b := by
  have hown := l.equivalence.implies_refl
  rw [Literal.equals_eq, Literal.comparable_of_equivalence hown, Bool.true_and] at hb
  refine promise_of_continueIf fun κ found s h => ?_
  rw [Interpretation.attempt] at h
  obtain ⟨constant, s₁, hconstant, h⟩ := EvalM.bind_eq_ok.mp h
  obtain ⟨rfl, rfl⟩ := EvalM.allocate_eq_ok.mp hconstant
  rw [Literal.equiv_ofLiteral hown, hb] at h
  exact ⟨_, l.ofLiteral_next_le _, h⟩

theorem not_promise {p : Pattern ε} {v : Value} {b : Bool}
    (h : Promise w env (I.attempt p v env) b) :
    Promise w env (I.attempt (.not p) v env) (!b) := by
  cases b with
  | true =>
      intro κ found s hfound
      rw [Interpretation.attempt] at hfound
      obtain ⟨matched, s₁, hmatched, hfound⟩ := EvalM.bind_eq_ok.mp hfound
      obtain ⟨s₂, hle, hmatched⟩ := h Matcher.accept matched s₁ hmatched
      cases hmatched
      cases hfound
      exact ⟨rfl, hle⟩
  | false =>
      intro κ found s hfound
      rw [Interpretation.attempt] at hfound
      obtain ⟨matched, s₁, hmatched, hfound⟩ := EvalM.bind_eq_ok.mp hfound
      obtain ⟨rfl, hle⟩ := h Matcher.accept matched s₁ hmatched
      exact ⟨s₁, hle, hfound⟩

theorem Promise.simulates {run : Continuation → EvalM (Option Bindings)}
    (h : Promise w env run true) (he : w.RelatesEnv N env env') {κ κ' : Continuation}
    (hκ : ∀ {w' : Pairing frozen} {e e' : Bindings}, w.Extends w' → w'.RelatesEnv N e e' →
      Simulates False w' (Pairing.Found N) (κ e) (κ' e')) :
    Simulates False w (Pairing.Found N) (run κ) (κ' env') where
  ok hfound := by
    obtain ⟨s₁, hle, hfound⟩ := h κ _ _ hfound
    have hw := w.extends_advance hle (Nat.le_refl w.right.next)
    obtain ⟨found', w', hfound', hs, hw', hrel⟩ := (hκ hw (he.mono hw)).ok hfound
    exact ⟨found', w', hfound', hs, hw.trans hw', hrel⟩
  error hfalse := hfalse.elim

/-- The part of a match that is left does what the match does; a match of which nothing is left
because it is known to fail finds nothing. -/
def Leaves (I : Interpretation ε) (σ' : Valuation) (N : Name → Prop) (w : Pairing frozen)
    (env' : Bindings) (run : Continuation → EvalM (Option Bindings)) :
    Option (List (Pending ε)) → Prop
  | none => ∀ κ : Continuation, Barren w (run κ)
  | some left => ∀ κ κ' : Continuation,
      (∀ {w' : Pairing frozen} {e e' : Bindings}, w.Extends w' → w'.RelatesEnv N e e' →
        Simulates False w' (Pairing.Found N) (κ e) (κ' e')) →
      Simulates False w (Pairing.Found N) (run κ) (I.attemptPendings σ' left env' κ')

theorem remainder_leaves {verdict : Option Bool} {undecided : Option (List (Pending ε))}
    {run : Continuation → EvalM (Option Bindings)} (he : w.RelatesEnv N env env')
    (hdecided : ∀ b, verdict = some b → Promise w env run b)
    (hundecided : verdict = none → Leaves I σ' N w env' run undecided) :
    Leaves I σ' N w env' run (remainder verdict undecided) := by
  cases verdict with
  | none => exact hundecided rfl
  | some b =>
      have hpromise := hdecided b rfl
      cases b with
      | true => exact fun κ κ' hκ => hpromise.simulates he hκ
      | false => exact hpromise

/-- What is left of a match comes before what is left of those behind it. If nothing is found behind
it, nothing is found at all. -/
theorem Leaves.append {run : Continuation → EvalM (Option Bindings)}
    {behind : Bindings → Continuation → EvalM (Option Bindings)}
    {first rest : Option (List (Pending ε))}
    (hbarren : ∀ {κ : Continuation}, (∀ {w' : Pairing frozen} {e e' : Bindings}, w.Extends w' →
      w'.RelatesEnv N e e' → Barren w' (κ e)) → Barren w (run κ))
    (hfirst : Leaves I σ' N w env' run first)
    (hrest : ∀ {w' : Pairing frozen} {e e' : Bindings}, w.Extends w' → w'.RelatesEnv N e e' →
      Leaves I σ' N w' e' (behind e) rest) :
    Leaves I σ' N w env' (fun κ => run fun e => behind e κ) (do return (← first) ++ (← rest)) := by
  match first, rest with
  | none, _ => exact fun κ => hfirst _
  | some _, none => exact fun κ => hbarren fun hw he => hrest hw he κ
  | some ms, some ns =>
      intro κ κ' hκ
      rw [Interpretation.attemptPendings_append]
      exact hfirst _ _ fun hw he => hrest hw he κ κ' fun hw' => hκ (hw.trans hw')

theorem Leaves.whole {m : Pending ε} (h : w.Respects I rep σ σ') (hm : m.From rep)
    (hN : ∀ x ∈ m.binders, N x) (he : w.RelatesEnv N env env') :
    Leaves I σ' N w env' (I.attemptPending σ m env) (some [m]) :=
  fun _ _ hκ => Interpretation.attemptPending_simulates Pairing.found_report h hm hN he hκ

end Knowledge

/-! ## Knowledge -/

variable [BEq ε]

/-- What the fact says about the values of the subjects came out like this. A function that compares
equal to the one that was applied does not tell the subject otherwise, at this time or later. -/
def Fact.Shown {frozen : Bool} (I : Interpretation ε) (rep : Repertoire ε) (σ : Valuation)
    (w : Pairing frozen) (outcome : Bool) : Fact ε → Prop
  | .member subject set eqv => set.any ((σ subject).equals eqv) = outcome
  | .sameAs subject other => (σ other).isEql (σ subject) = outcome
  | .predicate subject func => rep.subject subject → ∀ g, rep.function g → (func == g) = true →
      ∀ w' : Pairing frozen, w.Extends w' → ∀ (result : Value) (s : ObjectSupply),
        I.apply g (σ subject) [] w'.left = .ok (result, s) → result.isTruthy = outcome

/-- Everything that splitting relies on. The pattern variables of the branch are among `N`. If the
branch's one answer is yes, none of the functions it stands for sees them. -/
structure Knowledge.Sound {frozen : Bool} (k : Knowledge ε) (I : Interpretation ε)
    (rep : Repertoire ε) (σ σ' : Valuation) (free : Bool) (N : Name → Prop)
    (w : Pairing frozen) : Prop where
  respects : w.Respects I rep σ σ'
  unseen : free = true → ∀ {f : ε} {v : Value} {env : Bindings}, k.fact.IsAbout f →
    (∀ x ∈ env.map Prod.fst, N x) → I.apply f v env = I.apply f v []
  shown : k.fact.Shown I rep σ w k.holds

namespace Knowledge

open Matcher (Continuation)

variable {frozen : Bool} {k : Knowledge ε} {I : Interpretation ε} {rep : Repertoire ε}
  {σ σ' : Valuation} {free : Bool} {N : Name → Prop} {w w' : Pairing frozen}
  {subject : Name} {env env' : Bindings}

theorem Sound.mono (h : k.Sound I rep σ σ' free N w) (hw : w.Extends w') :
    k.Sound I rep σ σ' free N w' := by
  refine ⟨h.respects.mono hw, h.unseen, ?_⟩
  have hshown := h.shown
  cases hfact : k.fact with
  | member subject set eqv => rwa [hfact] at hshown
  | sameAs subject other => rwa [hfact] at hshown
  | predicate subject func =>
      rw [hfact] at hshown
      exact fun hs g hg halike w'' hw' => hshown hs g hg halike w'' (hw.trans hw')

theorem decideMember_sound (h : k.Sound I rep σ σ' free N w) {set : List Literal}
    {eqv : Equivalence} {b : Bool} (hd : k.decideMember subject set eqv = some b) :
    set.any ((σ subject).equals eqv) = b := by
  have hshown := h.shown
  unfold decideMember at hd
  split at hd
  · rename_i known knownSet knownEqv heq
    rw [heq] at hshown
    split at hd
    · rename_i hsame
      subst hsame
      exact setOutcome_sound hd hshown
    · cases hd
  · cases hd

theorem decideSameAs_sound (h : k.Sound I rep σ σ' free N w) {other : Name} {b : Bool}
    (hd : k.decideSameAs subject other = some b) : (σ other).isEql (σ subject) = b := by
  have hshown := h.shown
  unfold decideSameAs at hd
  split at hd
  · rename_i one two heq
    rw [heq] at hshown
    split at hd
    · cases hd
      rename_i hsame
      rcases hsame with ⟨rfl, rfl⟩ | ⟨rfl, rfl⟩
      · exact hshown
      · rw [Value.isEql_comm]; exact hshown
    · cases hd
  · cases hd

/-- A decided predicate gives the result that was seen, whatever objects were made since. -/
theorem predicateVerdict_sound (h : k.Sound I rep σ σ' free N w) {func : ε} {b : Bool}
    (hd : k.predicateVerdict free subject func = some b) (hs : rep.subject subject)
    (hf : rep.function func) (he : w.RelatesEnv N env env') {result : Value} {s : ObjectSupply}
    (hr : I.apply func (σ subject) env w.left = .ok (result, s)) : result.isTruthy = b := by
  have hshown := h.shown
  unfold predicateVerdict at hd
  split at hd
  · rename_i known knownFunc heq
    rw [heq] at hshown
    split at hd
    · rename_i hsame
      cases hd
      simp only [Bool.and_eq_true, decide_eq_true_eq] at hsame
      obtain ⟨⟨rfl, halike⟩, hfree⟩ := hsame
      have habout : k.fact.IsAbout func := by
        rw [heq]
        exact halike
      rw [h.unseen hfree habout he.names] at hr
      exact hshown hs func hf halike w (.refl w) result s hr
    · cases hd
  · cases hd

theorem predicate_promise (h : k.Sound I rep σ σ' free N w) {func : ε} {b : Bool}
    (hd : k.predicateVerdict free subject func = some b) (hs : rep.subject subject)
    (hf : rep.function func) (he : w.RelatesEnv N env env') :
    Promise w env (I.attempt (.predicate func) (σ subject) env) b := by
  refine promise_of_continueIf fun κ found s hfound => ?_
  rw [Interpretation.attempt] at hfound
  obtain ⟨result, s₁, hr, hfound⟩ := EvalM.bind_eq_ok.mp hfound
  rw [predicateVerdict_sound h hd hs hf he hr] at hfound
  have hsim : Simulates False w Pairing.Relates _ _ :=
    Interpretation.apply_simulates (h.respects.functions _ hf) (h.respects.subjects _ hs) he.scope
  obtain ⟨-, w', -, rfl, hw, -⟩ := hsim.ok hr
  exact ⟨_, hw.left, hfound⟩

mutual

theorem verdict_sound {p : Pattern ε} {w : Pairing frozen} {env env' : Bindings} {b : Bool}
    (h : k.Sound I rep σ σ' free N w) (hs : rep.subject subject) (hp : p.From rep)
    (hN : ∀ x ∈ p.binders, N x) (he : w.RelatesEnv N env env')
    (hd : k.verdict free subject p = some b) :
    Promise w env (I.attempt p (σ subject) env) b := by
  match p with
  | .literal l =>
      rw [verdict] at hd
      have hb := decideMember_sound h hd
      simp only [List.any_cons, List.any_nil, Bool.or_false] at hb
      exact literal_promise l hb
  | .predicate func =>
      rw [verdict] at hd
      exact predicate_promise h hd hs (hp.functions func (by simp [Pattern.functions])) he
  | .not inner =>
      rw [verdict] at hd
      obtain ⟨b', hd', rfl⟩ := Option.map_eq_some_iff.mp hd
      exact not_promise (verdict_sound h hs hp.inner_not hN he hd')
  | .and items =>
      rw [verdict] at hd
      exact verdictAll_sound h hs (fun q hq => hp.item hq) hN he hd
  | .or alternatives =>
      rw [verdict] at hd
      split at hd
      · rename_i hall
        cases hd
        rw [Bool.and_eq_true] at hall
        exact allRefuted_sound h hs (fun q hq => hp.alternative hq) hN he hall.2
      · cases hd
  | .wildcard | .bind _ | .guard _ | .app .. => rw [verdict] at hd; cases hd

theorem verdictAll_sound {ps : List (Pattern ε)} {w : Pairing frozen} {env env' : Bindings}
    {b : Bool} (h : k.Sound I rep σ σ' free N w) (hs : rep.subject subject)
    (hp : ∀ p ∈ ps, p.From rep) (hN : ∀ x ∈ Pattern.bindersOfList ps, N x)
    (he : w.RelatesEnv N env env') (hd : k.verdictAll free subject ps = some b) :
    Promise w env (I.attemptAll ps (σ subject) env) b := by
  match ps with
  | [] =>
      rw [verdictAll] at hd
      cases hd
      intro κ found s hfound
      exact ⟨w.left, Nat.le_refl _, hfound⟩
  | p :: ps =>
      obtain ⟨hp, hps⟩ := List.forall_mem_cons.mp hp
      simp only [Pattern.bindersOfList, List.mem_append] at hN
      have first {b : Bool} (hd : k.verdict free subject p = some b) :=
        verdict_sound h hs hp (fun x hx => hN x (.inl hx)) he hd
      have rest {b : Bool} {w' : Pairing frozen} {e e' : Bindings} (hw : w.Extends w')
          (he : w'.RelatesEnv N e e') (hd : k.verdictAll free subject ps = some b) :=
        verdictAll_sound (h.mono hw) hs hps (fun x hx => hN x (.inr hx)) he hd
      rw [verdictAll] at hd
      split at hd
      · rename_i hfalse
        cases hd
        intro κ
        exact first hfalse _
      · rename_i hfalse _
        cases hd
        intro κ
        exact Interpretation.attempt_barren p (h.respects.pattern hp) (fun x hx => hN x (.inl hx))
          (h.respects.subjects _ hs) he fun hw he' => rest hw he' hfalse κ
      · rename_i htrue hrest
        cases hd
        intro κ found s hfound
        obtain ⟨s₁, hle, hfound⟩ := first htrue _ found s hfound
        have hw := w.extends_advance hle (Nat.le_refl w.right.next)
        obtain ⟨s₂, hle', hfound⟩ := rest hw (he.mono hw) hrest κ found s hfound
        exact ⟨s₂, Nat.le_trans hle hle', hfound⟩
      · cases hd

theorem allRefuted_sound {ps : List (Pattern ε)} {w : Pairing frozen} {env env' : Bindings}
    (h : k.Sound I rep σ σ' free N w) (hs : rep.subject subject)
    (hp : ∀ p ∈ ps, p.From rep) (hN : ∀ x ∈ Pattern.bindersOfList ps, N x)
    (he : w.RelatesEnv N env env') (hd : k.allRefuted free subject ps = true)
    (κ : Continuation) : Barren w (I.attemptAny ps (σ subject) env κ) := by
  match ps with
  | [] => exact barren_none
  | p :: ps =>
      obtain ⟨hp, hps⟩ := List.forall_mem_cons.mp hp
      simp only [Pattern.bindersOfList, List.mem_append] at hN
      simp only [allRefuted, Bool.and_eq_true, beq_iff_eq] at hd
      intro found s hfound
      rw [Interpretation.attemptAny] at hfound
      obtain ⟨first, s₁, hfirst, hfound⟩ := EvalM.bind_eq_ok.mp hfound
      have hbarren : Promise w env (I.attempt p (σ subject) env) false :=
        verdict_sound h hs hp (fun x hx => hN x (.inl hx)) he hd.1
      obtain ⟨rfl, hle⟩ := hbarren κ first s₁ hfirst
      have hw := w.extends_advance hle (Nat.le_refl w.right.next)
      obtain ⟨hnone, hle'⟩ := allRefuted_sound (h.mono hw) hs hps (fun x hx => hN x (.inr hx))
        (he.mono hw) hd.2 κ found s hfound
      exact ⟨hnone, Nat.le_trans hle hle'⟩

end

/-! ## Simplified branches -/

mutual

theorem residue_leaves {p : Pattern ε} {w : Pairing frozen} {env env' : Bindings}
    (h : k.Sound I rep σ σ' free N w) (hs : rep.subject subject) (hp : p.From rep)
    (hN : ∀ x ∈ p.binders, N x) (he : w.RelatesEnv N env env') :
    Leaves I σ' N w env' (I.attempt p (σ subject) env) (k.residue free subject p) := by
  have decided : ∀ b, k.verdict free subject p = some b →
      Promise w env (I.attempt p (σ subject) env) b :=
    fun b hd => verdict_sound h hs hp hN he hd
  have whole := Leaves.whole (m := .pattern subject p) h.respects ⟨hs, hp⟩ hN he
  match p with
  | .and items =>
      rw [residue]
      exact remainder_leaves he decided fun _ =>
        residueItems_leaves h hs (fun q hq => hp.item hq) hN he
  | .wildcard | .bind _ | .literal _ | .predicate _ | .guard _ | .app .. | .not _ | .or _ =>
      rw [residue]
      · exact remainder_leaves he decided fun _ => whole
      all_goals simp

theorem residueItems_leaves {ps : List (Pattern ε)} {w : Pairing frozen} {env env' : Bindings}
    (h : k.Sound I rep σ σ' free N w) (hs : rep.subject subject)
    (hp : ∀ p ∈ ps, p.From rep) (hN : ∀ x ∈ Pattern.bindersOfList ps, N x)
    (he : w.RelatesEnv N env env') :
    Leaves I σ' N w env' (I.attemptAll ps (σ subject) env) (k.residueItems free subject ps) := by
  match ps with
  | [] =>
      rw [residueItems]
      exact fun κ κ' hκ => hκ (.refl w) he
  | p :: ps =>
      obtain ⟨hp, hps⟩ := List.forall_mem_cons.mp hp
      simp only [Pattern.bindersOfList, List.mem_append] at hN
      have hfirst := residue_leaves h hs hp (fun x hx => hN x (.inl hx)) he
      rw [residueItems]
      change Leaves I σ' N w env'
        (fun κ => I.attempt p (σ subject) env fun e => I.attemptAll ps (σ subject) e κ) _
      refine .append (fun hκ => ?_) hfirst fun hw he' =>
        residueItems_leaves (h.mono hw) hs hps (fun x hx => hN x (.inr hx)) he'
      exact Interpretation.attempt_barren p (h.respects.pattern hp) (fun x hx => hN x (.inl hx))
        (h.respects.subjects _ hs) he hκ

end

theorem residuePending_leaves {m : Pending ε} (h : k.Sound I rep σ σ' free N w)
    (hm : m.From rep) (hN : ∀ x ∈ m.binders, N x) (he : w.RelatesEnv N env env') :
    Leaves I σ' N w env' (I.attemptPending σ m env) (k.residuePending free m) := by
  have whole : Leaves I σ' N w env' (I.attemptPending σ m env) (some [m]) :=
    Leaves.whole h.respects hm hN he
  -- Both other kinds of matches compare, and go on if the comparison says so.
  have compared : ∀ {c : Bool} (b : Bool), c = b →
      Promise w env (fun κ => Matcher.continueIf c env κ) b := by
    intro c b hb
    subst hb
    exact promise_of_continueIf fun κ found s hfound => ⟨w.left, Nat.le_refl _, hfound⟩
  cases m with
  | pattern subject p =>
      simp only [residuePending]
      split
      · exact residue_leaves h hm.1 hm.2 hN he
      · exact whole
  | member subject set eqv =>
      exact remainder_leaves he (fun b hd => compared b (decideMember_sound h hd)) fun _ => whole
  | sameAs subject other =>
      exact remainder_leaves he (fun b hd => compared b (decideSameAs_sound h hd)) fun _ => whole

theorem residueAll_leaves {ms : List (Pending ε)} {w : Pairing frozen} {env env' : Bindings}
    (h : k.Sound I rep σ σ' free N w) (hms : ∀ m ∈ ms, m.From rep)
    (hN : ∀ x ∈ ms.flatMap Pending.binders, N x) (he : w.RelatesEnv N env env') :
    Leaves I σ' N w env' (I.attemptPendings σ ms env) (k.residueAll free ms) := by
  induction ms generalizing w env env' with
  | nil => exact fun κ κ' hκ => hκ (.refl w) he
  | cons m ms ih =>
      obtain ⟨hm, hms⟩ := List.forall_mem_cons.mp hms
      simp only [List.flatMap_cons, List.mem_append] at hN
      have hfirst := residuePending_leaves h hm (fun x hx => hN x (.inl hx)) he
      rw [residueAll]
      change Leaves I σ' N w env'
        (fun κ => I.attemptPending σ m env fun e => I.attemptPendings σ ms e κ) _
      refine .append (fun hκ => ?_) hfirst fun hw he' =>
        ih (h.mono hw) hms (fun x hx => hN x (.inr hx)) he'
      exact Interpretation.attemptPending_barren h.respects hm (fun x hx => hN x (.inl hx)) he hκ

end Knowledge

namespace Interpretation

variable {frozen : Bool} {I : Interpretation ε} {rep : Repertoire ε} {σ σ' : Valuation}
  {mentions : ε → Name → Bool}

/-- Splitting keeps what a queue means, if the fact decides as the test did. -/
theorem refine_simulates {queue : Queue ε} {w : Pairing frozen}
    (hfree : ∀ {known f g : ε} {v : Value} {env : Bindings}, (known == f) = true →
      (known == g) = true → (∀ x ∈ env.map Prod.fst, mentions f x = false) →
        I.apply g v env = I.apply g v [])
    (h : w.Respects I rep σ σ') (hq : Queue.From rep queue) {test : Test ε} {b : Bool}
    (hfact : ∀ fact, Fact.ofTest? test = some fact → fact.Shown I rep σ w b) :
    Simulates False w Pairing.Chosen (I.meaning σ queue)
      (I.meaning σ' (Queue.refine mentions test b queue)) := by
  unfold Queue.refine
  split
  · exact meaning_simulates h hq
  rename_i fact hof
  have hshown := hfact fact hof
  clear hof hfact
  induction queue generalizing w with
  | nil => exact meaning_simulates h hq
  | cons branch queue ih =>
      rw [Queue.From] at hq
      obtain ⟨hb, hq⟩ := hq
      obtain ⟨hpending, henv, hgoal⟩ := Branch.from_iff.mp hb
      obtain ⟨free, hasked, hrefine⟩ :=
        Knowledge.exists_refineBranch_eq ⟨fact, b⟩ mentions branch
      have hsound : Knowledge.Sound ⟨fact, b⟩ I rep σ σ' free (· ∈ branch.boundNames) w := by
        refine ⟨h, fun hyes {g v env} habout hnames => ?_, hshown⟩
        -- The answer was given for the function asked about first, not for this one.
        obtain ⟨f, hfirst, hindependent⟩ := hasked hyes
        obtain ⟨known, hf, hg⟩ := hfirst.exists_alike habout
        refine hfree hf hg fun x hx => ?_
        have hnot := List.all_eq_true.mp hindependent x (hnames x hx)
        rwa [Bool.not_eq_true'] at hnot
      have hrest {w' : Pairing frozen} (hw : w.Extends w') :=
        ih (h.mono hw) hq (hsound.mono hw).shown
      have hleaves := Knowledge.residueAll_leaves hsound hpending
        (fun x hx => List.mem_append.mpr (.inr hx))
        (h.environment henv fun x hx => List.mem_append.mpr (.inl hx))
      rw [List.filterMap_cons, hrefine]
      cases hleft : Knowledge.residueAll ⟨fact, b⟩ free branch.pending with
      | none =>
          rw [hleft] at hleaves
          rw [meaning_cons]
          refine ⟨fun {a s} ha => ?_, fun hfalse => hfalse.elim⟩
          obtain ⟨found, s₁, hfound, ha⟩ := EvalM.bind_eq_ok.mp ha
          obtain ⟨rfl, hle⟩ := hleaves _ _ _ hfound
          have hw := w.extends_advance hle (Nat.le_refl w.right.next)
          obtain ⟨a', w', ha', hs, hw', hrel⟩ := (hrest hw).ok ha
          exact ⟨a', w', ha', hs, hw.trans hw', hrel⟩
      | some left =>
          rw [hleft] at hleaves
          exact meaning_cons_simulates h hgoal rfl
            (hleaves _ _ fun _ he => Matcher.accept_simulates he) hrest

/-- A test that has been made shows its fact, to runs that start then or later. -/
theorem shown_of_holds {s s' : ObjectSupply} (h : (Pairing.same frozen s s).Respects I rep σ σ)
    {test : Test ε} {b : Bool} (htest : I.holds σ test s = .ok (b, s'))
    (hsame : ∀ {subject : Name} {func g : ε}, test = .predicate subject func [] →
      rep.function g → (func == g) = true → ∀ (r r' : Value) (s₁ s₂ : ObjectSupply),
      I.apply func (σ subject) [] s = .ok (r, s₁) → I.apply g (σ subject) [] s = .ok (r', s₂) →
        r.isTruthy = r'.isTruthy)
    {w : Pairing frozen} (hw : s.next ≤ w.left.next) (fact : Fact ε)
    (hfact : Fact.ofTest? test = some fact) : fact.Shown I rep σ w b := by
  cases test with
  | equal subject l eqv =>
      cases htest
      cases hfact
      simp only [Fact.Shown, List.any_cons, List.any_nil, Bool.or_false]
  | member subject set eqv =>
      cases htest
      cases hfact
      rfl
  | sameAs subject other =>
      cases htest
      cases hfact
      rfl
  | predicate subject func pairs =>
      obtain ⟨r, s₁, hr, hb⟩ := EvalM.bind_eq_ok.mp htest
      cases hb
      simp only [Fact.ofTest?] at hfact
      split at hfact
      · rename_i hempty
        cases hfact
        obtain rfl := List.isEmpty_iff.mp hempty
        intro hs g hg halike w' hw' result t hresult
        -- The later application does what an application at the time of the test would have done.
        have hlater := h.mono (Pairing.same_extends (Nat.le_trans hw hw'.left) (Nat.le_refl _))
        have hsim : Simulates False (Pairing.same frozen w'.left s) Pairing.Relates _ _ :=
          apply_simulates (hlater.functions g hg) (hlater.subjects _ hs) .nil
        obtain ⟨r', w'', hr', -, -, hrel⟩ := hsim.ok hresult
        rw [Value.Corresponds.isTruthy_eq hrel]
        exact (hsame rfl hg halike r r' _ _ hr hr').symm
      · cases hfact
  | guard expr pairs => cases hfact

end Interpretation

open Interpretation (within) in
/-- Once a test has come out one way, the queue that is left after splitting means what the queue
means, at any later time and up to the objects made since. Functions that compare equal to the one
tested are taken to agree with it on the subject. -/
theorem splitting_keeps_meaning {vocabulary : Vocabulary} {ambient : Scope}
    {mentions : Form → Name → Bool} (hmentions : ∀ f x, f.mentions x = true → mentions f x = true)
    {rep : Repertoire Form} {queue : Queue Form} (hq : Queue.From rep queue) {σ : Valuation}
    {s s' : ObjectSupply} (hready : Ready ambient rep σ s) {test : Test Form} {b : Bool}
    (htest : (within vocabulary ambient).holds σ test s = .ok (b, s'))
    (hsame : ∀ {subject : Name} {func g : Form}, test = .predicate subject func [] →
      rep.function g → (func == g) = true → ∀ (r r' : Value) (s₁ s₂ : ObjectSupply),
      (within vocabulary ambient).apply func (σ subject) [] s = .ok (r, s₁) →
      (within vocabulary ambient).apply g (σ subject) [] s = .ok (r', s₂) →
        r.isTruthy = r'.isTruthy)
    {t t' : ObjectSupply} (ht : s.next ≤ t.next) (ht' : s.next ≤ t'.next) :
    Simulates False (Pairing.same false t t') Pairing.Chosen
      ((within vocabulary ambient).meaning σ queue)
      ((within vocabulary ambient).meaning σ (Queue.refine mentions test b queue)) := by
  have hrespects := hready.respects vocabulary
  exact Interpretation.refine_simulates
    (fun hf hg hfree => Interpretation.within_apply_of_alike hmentions hf hg hfree _)
    (hrespects.mono (Pairing.same_extends ht ht')) hq
    (Interpretation.shown_of_holds hrespects htest hsame ht)

/-- Two branches that the outcome of one predicate decides; the second one goes on with a third. -/
def decidedBranches (root x : Name) (f g : Form) : Queue Form :=
  [⟨[.pattern root (.not (.predicate f))], .empty, .select 0⟩,
    ⟨[.pattern root (.predicate g), .pattern root (.and [.predicate f, .bind x])], .empty,
      .resume [⟨[.pattern root (.bind x)], .empty, .select 2⟩]⟩]

theorem decidedBranches_from {rep : Repertoire Form} {root : Name} {f g : Form}
    (hroot : rep.subject root) (hf : rep.function f) (hg : rep.function g) (x : Name) :
    Queue.From rep (decidedBranches root x f g) := by
  have htest : (Pattern.not (.predicate f)).From rep :=
    ⟨by simp [Pattern.functions, hf], by simp [Pattern.guards]⟩
  have hother : (Pattern.predicate g).From rep :=
    ⟨by simp [Pattern.functions, hg], by simp [Pattern.guards]⟩
  have hboth : (Pattern.and [.predicate f, .bind x]).From rep :=
    ⟨by simp [Pattern.functions, Pattern.listFunctions, hf],
      by simp [Pattern.guards, Pattern.listGuards]⟩
  have hbind : (Pattern.bind x : Pattern Form).From rep :=
    ⟨by simp [Pattern.functions], by simp [Pattern.guards]⟩
  simp [decidedBranches, Queue.From, Branch.From, Goal.From, Pending.From, Environment.subjects,
    Environment.empty, hroot, htest, hother, hboth, hbind]

/-- Is the subject equal to a string? Copies of the string make functions that compare equal. -/
def equalToCopy (i : Nat) : Form := .call ⟨5⟩ [.quote (.str i "a")]

/-- It takes one of the copies to mention everything. -/
def mentionsIn (copy : Nat) (f : Form) (x : Name) : Bool :=
  f.mentions x || f.constants.any (Value.isEq (.str copy "a"))

open Interpretation (within) in
/-- The function asked about first answers for its copy: both matches go, although the copy, had it
been asked about, is said to see the variable. -/
theorem splitting_keeps_meaning_of_copies :
    let refined := Queue.refine (mentionsIn 1) (.predicate ⟨11⟩ (equalToCopy 0) []) true
      (decidedBranches ⟨11⟩ ⟨12⟩ (equalToCopy 0) (equalToCopy 1))
    refined = [⟨[.pattern ⟨11⟩ (.bind ⟨12⟩)], .empty,
      .resume [⟨[.pattern ⟨11⟩ (.bind ⟨12⟩)], .empty, .select 2⟩]⟩] ∧
    ∃ (outcome : Outcome) (t : ObjectSupply) (w : Pairing false),
      (within ⟨⟨⟨3⟩, ⟨4⟩, ⟨5⟩, ⟨6⟩, ⟨7⟩, ⟨8⟩, ⟨9⟩⟩, [(⟨5⟩, .equal)]⟩ []).meaning
        (fun _ => .str 2 "a") refined ⟨3⟩ = .ok (outcome, t) ∧
      w.Chosen (some (2, [(⟨12⟩, .str 2 "a")])) outcome := by
  have hsim := @splitting_keeps_meaning
    ⟨⟨⟨3⟩, ⟨4⟩, ⟨5⟩, ⟨6⟩, ⟨7⟩, ⟨8⟩, ⟨9⟩⟩, [(⟨5⟩, .equal)]⟩ [] (mentionsIn 1)
    (fun f x h => by rw [mentionsIn, h, Bool.true_or])
    ⟨(· = ⟨11⟩), fun f => f = equalToCopy 0 ∨ f = equalToCopy 1, fun _ => False⟩
    (decidedBranches ⟨11⟩ ⟨12⟩ (equalToCopy 0) (equalToCopy 1))
    (decidedBranches_from rfl (Or.inl rfl) (Or.inr rfl) ⟨12⟩) (fun _ => .str 2 "a") ⟨3⟩ ⟨3⟩
    ⟨fun _ _ => by simp [Value.MadeBefore], by
      rintro f (rfl | rfl) <;>
        simp [equalToCopy, Form.constants, Form.listConstants, Value.MadeBefore], nofun, nofun⟩
    (.predicate ⟨11⟩ (equalToCopy 0) []) true rfl
    (by
      rintro subject func g ⟨⟩ (rfl | rfl) - r r' s₁ s₂ hr hr'
      · cases hr.symm.trans hr'
        rfl
      · cases hr
        cases hr'
        rfl)
    ⟨3⟩ ⟨3⟩ (Nat.le_refl _) (Nat.le_refl _)
  obtain ⟨outcome, w, houtcome, -, -, hchosen⟩ := hsim.ok (s := ⟨3⟩) rfl
  exact ⟨rfl, outcome, _, w, houtcome, hchosen⟩

end PatternCompiler
