import PatternCompiler.Proofs.AppliedOnce
import PatternCompiler.Proofs.Folding
import PatternCompiler.Proofs.Splitting

/-!
# Steps keep the meaning

What a step asks for can be carried out on the values of the subjects: a test is made and decides
which queue goes on, a projection is made and its value is kept in the new variable. Doing so gives
what the queue gives. Without splitting the errors are the same as well.
-/

namespace PatternCompiler

set_option autoImplicit false

/-- The valuation with another value for one variable. -/
def Valuation.set (σ : Valuation) (x : Name) (v : Value) : Valuation :=
  fun y => if y = x then v else σ y

@[simp] theorem Valuation.set_self (σ : Valuation) (x : Name) (v : Value) : σ.set x v x = v :=
  if_pos rfl

theorem Valuation.set_of_ne (σ : Valuation) {x y : Name} (v : Value) (h : y ≠ x) :
    σ.set x v y = σ y := if_neg h

section

variable (vocabulary : Vocabulary) (σ : Valuation)

def Test.holds : Test Form → EvalM Bool
  | .equal subject literal _ => return literal.denotes (σ subject)
  | .member subject set _ => return set.any fun l => l.denotes (σ subject)
  | .sameAs subject other => return (σ other).isEql (σ subject)
  | .predicate subject func pairs => do
      let result ← Matcher.applyFunction vocabulary func (σ subject) (σ.bindings pairs)
      return result.isTruthy
  | .guard expr pairs => do
      let result ← expr.evalWith vocabulary.functions (σ.bindings pairs)
      return result.isTruthy

/-- Make a test and go on on one of its sides. -/
def Test.ask (test : Test Form) (yes no : EvalM Outcome) : EvalM Outcome := do
  if ← test.holds vocabulary σ then yes else no

/-- What a step gives, if the variable of a projection is `fresh`. -/
def Step.outcome (fresh : Name) : Step Form → EvalM Outcome
  | .fail => return none
  | .select case env => return some (case, env.values σ)
  | .advance queue => Queue.outcome vocabulary σ queue
  | .test asked yes no =>
      asked.ask vocabulary σ (Queue.outcome vocabulary σ yes) (Queue.outcome vocabulary σ no)
  | .project func subject pairs body => do
      let v ← Matcher.applyFunction vocabulary func (σ subject) (σ.bindings pairs)
      Queue.outcome vocabulary (σ.set fresh v) (body fresh)

end

/-- A run can start here: the subjects and the constants are there. -/
def Situated (frozen : Bool) (functions : FunctionTable) (sig : Signature) (σ : Valuation)
    (s : ObjectSupply) : Prop :=
  (Pairing.same frozen s s).Suits functions sig σ σ

variable {frozen : Bool} {strict : Prop} {vocabulary : Vocabulary} {sig : Signature}
  {σ : Valuation} {s s' : ObjectSupply} {mentions : Form → Name → Bool}

/-- Two runs can start here and later, each of them at its own time. -/
theorem Situated.suits (h : Situated frozen vocabulary.functions sig σ s) {t t' : ObjectSupply}
    (ht : s.next ≤ t.next) (ht' : s.next ≤ t'.next) :
    (Pairing.same frozen t t').Suits vocabulary.functions sig σ σ :=
  Pairing.Suits.mono h (Pairing.same_extends ht ht')

theorem Situated.outcome_agrees (h : Situated frozen vocabulary.functions sig σ s)
    {t t' : ObjectSupply} (ht : s.next ≤ t.next) (ht' : s.next ≤ t'.next) {queue : Queue Form}
    (hq : Queue.Over sig queue) :
    Agrees strict SameOutcome (Queue.outcome vocabulary σ queue t)
      (Queue.outcome vocabulary σ queue t') :=
  (Queue.outcome_simulates (h.suits ht ht') hq).agrees fun hchosen => hchosen.sameOutcome

/-! ## Visible bindings -/

theorem lookup_filter {q : Name → Bool} {x : Name} (hx : q x = true) (l : Bindings) :
    (l.filter fun b => q b.1).lookup x = l.lookup x := by
  induction l with
  | nil => rfl
  | cons b l ih =>
      rw [List.filter_cons, List.lookup_cons]
      split
      · rw [List.lookup_cons, ih]
      · rename_i hq
        have hne : (x == b.1) = false := by
          rw [beq_eq_false_iff_ne]
          rintro rfl
          exact hq hx
        rw [hne, ih]

theorem Environment.bindings_visible (env : Environment) (expr : Form) :
    σ.bindings (env.visible mentions expr) =
      (env.values σ).filter fun b => mentions expr b.1 := by
  simp only [Valuation.bindings, visible, values, List.map_map, List.filter_map, Function.comp_def]

/-- An expression sees all it mentions. -/
theorem Form.eval_visible (hmentions : ∀ f x, f.mentions x = true → mentions f x = true)
    (env : Environment) {expr form : Form} (h : ∀ x, form.mentions x = expr.mentions x) :
    form.evalWith vocabulary.functions (σ.bindings (env.visible mentions expr)) =
      form.evalWith vocabulary.functions (env.values σ) := by
  refine Form.eval_congr vocabulary.functions form fun x hx => ?_
  rw [Environment.bindings_visible, ← List.filter_reverse]
  exact lookup_filter (hmentions expr x (h x ▸ hx)) _

theorem Matcher.applyFunction_visible
    (hmentions : ∀ f x, f.mentions x = true → mentions f x = true) (env : Environment)
    (func : Form) (v : Value) :
    applyFunction vocabulary func v (σ.bindings (env.visible mentions func)) =
      applyFunction vocabulary func v (env.values σ) :=
  Form.eval_visible hmentions env (Form.mentions_application_quote _ func v)

/-! ## Tests -/

theorem Branch.read_values (branch : Branch Form) (expr : Form) :
    (branch.read mentions expr).env.values σ = branch.env.values σ :=
  Environment.values_eq_of_pairs (Environment.pairs_markAllUsed _ _)

namespace Queue

theorem outcome_read (branch : Branch Form) (expr : Form) (queue : Queue Form) :
    outcome vocabulary σ (branch.read mentions expr :: queue) =
      outcome vocabulary σ (branch :: queue) := by
  rw [outcome_cons, outcome_cons, Branch.read_values]
  rfl

theorem outcome_compare (condition : Bool) (branch : Branch Form) (queue : Queue Form) :
    (Matcher.continueIf condition (branch.env.values σ) (branch.continuation vocabulary σ)
      >>= concludeWith (branch.goal.outcome vocabulary σ) (outcome vocabulary σ queue)) =
      if condition then outcome vocabulary σ (branch :: queue) else outcome vocabulary σ queue := by
  cases condition with
  | true => rw [if_pos rfl, outcome_cons]; rfl
  | false => rfl

theorem outcome_member (branch : Branch Form) (subject : Name) (set : List Literal)
    (eqv : Equivalence) (queue : Queue Form) :
    outcome vocabulary σ (branch.push (.member subject set eqv) :: queue) =
      (Test.member subject set eqv).ask vocabulary σ (outcome vocabulary σ (branch :: queue))
        (outcome vocabulary σ queue) := by
  rw [outcome_push, Pending.attempt, outcome_compare]
  rfl

theorem outcome_sameAs (branch : Branch Form) (subject other : Name) (queue : Queue Form) :
    outcome vocabulary σ (branch.push (.sameAs subject other) :: queue) =
      (Test.sameAs subject other).ask vocabulary σ (outcome vocabulary σ (branch :: queue))
        (outcome vocabulary σ queue) := by
  rw [outcome_push, Pending.attempt, outcome_compare]
  rfl

theorem outcome_predicate (hmentions : ∀ f x, f.mentions x = true → mentions f x = true)
    (branch : Branch Form) (subject : Name) (func : Form) (queue : Queue Form) :
    outcome vocabulary σ (branch.push (.pattern subject (.predicate func)) :: queue) =
      (Test.predicate subject func (branch.env.visible mentions func)).ask vocabulary σ
        (outcome vocabulary σ (branch.read mentions func :: queue)) (outcome vocabulary σ queue) := by
  rw [outcome_push, outcome_read, Test.ask, Test.holds,
    Matcher.applyFunction_visible hmentions branch.env func]
  simp only [Pending.attempt, Matcher.attempt, bind_assoc, pure_bind, outcome_compare]

theorem outcome_guard (hmentions : ∀ f x, f.mentions x = true → mentions f x = true)
    (branch : Branch Form) (subject : Name) (expr : Form) (queue : Queue Form) :
    outcome vocabulary σ (branch.push (.pattern subject (.guard expr)) :: queue) =
      (Test.guard expr (branch.env.visible mentions expr)).ask vocabulary σ
        (outcome vocabulary σ (branch.read mentions expr :: queue)) (outcome vocabulary σ queue) := by
  rw [outcome_push, outcome_read, Test.ask, Test.holds,
    Form.eval_visible hmentions branch.env fun _ => rfl]
  simp only [Pending.attempt, Matcher.attempt, bind_assoc, pure_bind, outcome_compare]

/-- Comparing with a literal makes its constant, which the test does not. -/
theorem outcome_literal (h : Situated frozen vocabulary.functions sig σ s) (branch : Branch Form)
    (hb : branch.Over sig) {queue : Queue Form} (hq : Queue.Over sig queue) (subject : Name)
    (l : Literal) (eqv : Equivalence) :
    Agrees strict SameOutcome
      (outcome vocabulary σ (branch.push (.pattern subject (.literal l)) :: queue) s)
      ((Test.equal subject l eqv).ask vocabulary σ (outcome vocabulary σ (branch :: queue))
        (outcome vocabulary σ queue) s) := by
  have hcons : Queue.Over sig (branch :: queue) := by rw [Queue.Over]; exact ⟨hb, hq⟩
  have hquoted : (Pattern.literal l : Pattern Form).quoted? = some l := rfl
  obtain ⟨s₁, hs₁, heq⟩ := Matcher.attempt_of_quoted vocabulary hquoted (σ subject)
    (branch.env.values σ) (branch.continuation vocabulary σ) s
  have hleft : outcome vocabulary σ (branch.push (.pattern subject (.literal l)) :: queue) s =
      (if l.denotes (σ subject) then outcome vocabulary σ (branch :: queue)
        else outcome vocabulary σ queue) s₁ := by
    rw [outcome_push, ← outcome_compare]
    exact EvalM.bind_eq_of_eq heq
  have hright : (Test.equal subject l eqv).ask vocabulary σ (outcome vocabulary σ (branch :: queue))
      (outcome vocabulary σ queue) s = (if l.denotes (σ subject)
        then outcome vocabulary σ (branch :: queue) else outcome vocabulary σ queue) s := rfl
  rw [hleft, hright]
  split
  · exact h.outcome_agrees hs₁ (Nat.le_refl _) hcons
  · exact h.outcome_agrees hs₁ (Nat.le_refl _) hq

end Queue

theorem Test.holds_eq {test : Test Form} (ht : test.Over sig) :
    test.holds vocabulary σ = (Interpretation.within vocabulary []).holds σ test := by
  cases test with
  | equal subject l eqv =>
      have hset := ht.2.any_equals (σ subject)
      simp only [List.any_cons, List.any_nil, Bool.or_false] at hset
      rw [Test.holds, Interpretation.holds, hset]
  | member subject set eqv => rw [Test.holds, Interpretation.holds, ht.2.any_equals]
  | sameAs subject other => rfl
  | predicate subject func pairs =>
      rw [Test.holds, Interpretation.holds, Interpretation.within_nil_apply]
  | guard expr pairs => rw [Test.holds, Interpretation.holds, Interpretation.within_nil_check]

theorem Test.next_le (h : Situated frozen vocabulary.functions sig σ s) {test : Test Form}
    (ht : test.Over sig) {b : Bool} (hb : test.holds vocabulary σ s = .ok (b, s')) :
    s.next ≤ s'.next := by
  have hseen {pairs : List (Name × Name)} (hp : ∀ b ∈ pairs, sig.binder b.1 ∧ sig.subject b.2) :=
    h.respects.values fun b hb => (hp b hb).2
  cases test with
  | equal | member | sameAs => cases hb; exact Nat.le_refl _
  | predicate subject func pairs =>
      obtain ⟨result, s₁, hresult, hb⟩ := EvalM.bind_eq_ok.mp hb
      cases hb
      have hsim : Simulates False (Pairing.same frozen s s) Pairing.Relates _ _ :=
        Matcher.applyFunction_simulates (h.functions _ ht.2.1) (h.subjects _ ht.1) (hseen ht.2.2)
      obtain ⟨-, w', -, rfl, hw, -⟩ := hsim.ok hresult
      exact hw.left
  | guard expr pairs =>
      obtain ⟨result, s₁, hresult, hb⟩ := EvalM.bind_eq_ok.mp hb
      cases hb
      have hsim : Simulates False (Pairing.same frozen s s) Pairing.Relates _ _ :=
        Matcher.evalWith_simulates (h.guards _ ht.1) (hseen ht.2)
      obtain ⟨-, w', -, rfl, hw, -⟩ := hsim.ok hresult
      exact hw.left

/-- Splitting keeps the outcome of a queue. Functions that look alike are the same if they quote only
symbols and integers. -/
theorem Queue.refine_simulates (hmentions : ∀ f x, f.mentions x = true → mentions f x = true)
    (hplain : ∀ f, sig.function f → f.QuotesPlainly)
    (h : Situated frozen vocabulary.functions sig σ s) {test : Test Form} (ht : test.Over sig)
    {b : Bool} (hb : test.holds vocabulary σ s = .ok (b, s')) {queue : Queue Form}
    (hq : Queue.Over sig queue) {w : Pairing frozen} (hw : (Pairing.same frozen s s).Extends w) :
    Simulates False w Pairing.Chosen (outcome vocabulary σ queue)
      (outcome vocabulary σ (refine mentions test b queue)) := by
  have hrespects := Pairing.Suits.respects h
  rw [Test.holds_eq ht] at hb
  rw [outcome_eq_meaning hq, outcome_eq_meaning (hq.refine mentions test b)]
  refine Interpretation.refine_simulates
    (fun hf hg hfree => Interpretation.within_apply_of_alike hmentions hf hg hfree _)
    (hrespects.mono hw) hq.from (Interpretation.shown_of_holds hrespects hb ?_ hw.left)
  intro subject func g _ hg halike r r' s₁ s₂ hr hr'
  obtain rfl : func = g := Form.eq_of_alike halike (hplain g hg)
  cases hr.symm.trans hr'
  rfl

/-- What splitting a queue relies on. -/
structure MaySplit (strict : Prop) (functions : FunctionTable) (sig : Signature)
    (queue : Queue Form) : Prop where
  lax : ¬ strict
  plain : ∀ f, sig.function f → f.QuotesPlainly
  isDirect : ∀ f, sig.function f → f.isDirect = true
  once : Queue.AppliesOnce functions queue

theorem Agrees.of_lax {r r' : Except EvalError (Outcome × ObjectSupply)} (hlax : ¬ strict)
    (h : Agrees False SameOutcome r r') : Agrees strict SameOutcome r r' :=
  ⟨h.ok, fun hstrict => absurd hstrict hlax⟩

namespace Queue

variable {options : Options} {branch : Branch Form} {queue : Queue Form} {fresh : Name}

theorem testStep_agrees (hmentions : ∀ f x, f.mentions x = true → mentions f x = true)
    (h : Situated frozen vocabulary.functions sig σ s) {test : Test Form} (ht : test.Over sig)
    (hb : branch.Over sig) (hq : Queue.Over sig queue)
    (hsplit : options.splitBranches = true →
      ¬ strict ∧ ∀ f, sig.function f → f.QuotesPlainly) :
    Agrees strict SameOutcome
      (test.ask vocabulary σ (outcome vocabulary σ (branch :: queue))
        (outcome vocabulary σ queue) s)
      ((testStep options mentions test branch queue).outcome vocabulary σ fresh s) := by
  unfold testStep
  split
  · rename_i hoption
    obtain ⟨hlax, hplain⟩ := hsplit hoption
    refine Agrees.of_lax hlax (Agrees.bind fun {b s'} hholds => ?_)
    have hs' := Test.next_le h ht hholds
    have hsuits := h.suits hs' hs'
    have hrefine {w : Pairing frozen} (hw : (Pairing.same frozen s' s').Extends w) :=
      refine_simulates hmentions hplain h ht hholds hq ((Pairing.same_extends hs' hs').trans hw)
    cases b with
    | true =>
        exact (cons_simulates hsuits (Branch.over_iff.mp hb).2.2 rfl
          (Branch.continuation_simulates hsuits hb) hrefine).agrees fun hchosen => hchosen.sameOutcome
    | false => exact (hrefine (.refl _)).agrees fun hchosen => hchosen.sameOutcome
  · exact Agrees.bind fun {b s'} hholds => by
      have hs' := Test.next_le h ht hholds
      have hcons : Queue.Over sig (branch :: queue) := by rw [Queue.Over]; exact ⟨hb, hq⟩
      cases b with
      | true => exact h.outcome_agrees hs' hs' hcons
      | false => exact h.outcome_agrees hs' hs' hq

/-! ## Projections -/

theorem agreeOn_set (hfresh : ¬ sig.subject fresh) (v : Value) : σ.AgreeOn sig (σ.set fresh v) := by
  intro s hs
  refine (σ.set_of_ne v ?_).symm
  rintro rfl
  exact hfresh hs

theorem outcome_app (hmentions : ∀ f x, f.mentions x = true → mentions f x = true)
    (hfresh : ¬ sig.subject fresh) {subject : Name} {func : Form} {inner : Pattern Form}
    (hb : branch.Over sig) (hq : Queue.Over sig queue) :
    outcome vocabulary σ (branch.push (.pattern subject (.app func inner)) :: queue) =
      (Matcher.applyFunction vocabulary func (σ subject)
        (σ.bindings (branch.env.visible mentions func)) >>= fun v =>
        outcome vocabulary (σ.set fresh v)
          ((branch.read mentions func).push (.pattern fresh inner) :: queue)) := by
  obtain ⟨hpending, henv, hgoal⟩ := Branch.over_iff.mp hb
  rw [outcome_push, Matcher.applyFunction_visible hmentions]
  simp only [Pending.attempt, Matcher.attempt, bind_assoc]
  refine bind_congr fun v => ?_
  have hagree := agreeOn_set (σ := σ) hfresh v
  have hcontinuation : (branch.read mentions func).continuation vocabulary (σ.set fresh v) =
      branch.continuation vocabulary σ :=
    funext fun env => (Pending.attemptAll_congr hagree hpending Matcher.accept env).symm
  have hconclude : branch.goal.outcome vocabulary (σ.set fresh v) =
      branch.goal.outcome vocabulary σ :=
    funext fun found => (Goal.outcome_congr hagree hgoal found).symm
  rw [outcome_push, Branch.read_values, ← Environment.values_congr hagree henv, hcontinuation,
    ← Queue.outcome_congr hagree hq]
  simp only [Pending.attempt, Valuation.set_self]
  rw [← hconclude]
  rfl

/-- After a projection the new variable is there, too. -/
theorem situated_set (h : Situated frozen vocabulary.functions sig σ s) {subject : Name}
    {func : Form} {pairs : List (Name × Name)} (hs : sig.subject subject)
    (hf : sig.function func) (hpairs : ∀ b ∈ pairs, sig.subject b.2) {v : Value}
    (hv : Matcher.applyFunction vocabulary func (σ subject) (σ.bindings pairs) s = .ok (v, s'))
    (hfresh : ¬ sig.subject fresh) :
    s.next ≤ s'.next ∧ Situated frozen vocabulary.functions (sig.extend fresh) (σ.set fresh v) s' := by
  have hsim : Simulates False (Pairing.same frozen s s) Pairing.Relates _ _ :=
    Matcher.applyFunction_simulates (h.functions _ hf) (h.subjects _ hs) (h.respects.values hpairs)
  obtain ⟨v', w', hv', rfl, hw, hrel⟩ := hsim.ok hv
  have hlater := h.suits hw.left hw.left
  refine ⟨hw.left, fun x hx => ?_, hlater.functions, hlater.guards⟩
  rcases hx with rfl | hx
  · rw [Valuation.set_self]
    exact Pairing.same_relates fun hf => ⟨(hrel.madeBefore hf).1, (hrel.madeBefore hf).1⟩
  · rw [← agreeOn_set hfresh v x hx]
    exact hlater.subjects x hx

theorem projectStep_agrees (hmentions : ∀ f x, f.mentions x = true → mentions f x = true)
    (h : Situated frozen vocabulary.functions sig σ s) {subject : Name} {func : Form}
    {inner : Pattern Form} (hs : sig.subject subject) (hp : (Pattern.app func inner).Over sig)
    (hb : branch.Over sig) (hq : Queue.Over sig queue) (hfresh : ¬ sig.subject fresh)
    (hsplit : options.splitBranches = true → MaySplit strict vocabulary.functions sig queue) :
    Agrees strict SameOutcome
      (outcome vocabulary σ (branch.push (.pattern subject (.app func inner)) :: queue) s)
      ((projectStep options mentions subject func inner branch queue).outcome vocabulary σ fresh
        s) := by
  have hpairs := (Branch.over_iff.mp hb).2.1.visible mentions func
  rw [outcome_app hmentions hfresh hb hq]
  refine Agrees.bind fun {v s₁} hv => ?_
  obtain ⟨hs₁, hset⟩ := situated_set h hs hp.function_app (fun b hb => (hpairs b hb).2) hv hfresh
  have hfirst : ((branch.read mentions func).push (.pattern fresh inner)).Over (sig.extend fresh) :=
    ((hb.read func).extend fresh).push ⟨.inl rfl, hp.inner_app.extend fresh⟩
  split
  · rename_i hshare
    rw [Bool.and_eq_true, List.isEmpty_iff] at hshare
    obtain ⟨hoption, hempty⟩ := hshare
    have hmay := hsplit hoption
    have hagree := agreeOn_set (σ := σ) hfresh v
    rw [hempty] at hv
    refine Agrees.of_lax hmay.lax (cons_agrees hset (Branch.over_iff.mp hfirst).2.2 rfl ?_ ?_)
    · refine (Branch.continuation_simulates hset hfirst).mono id fun _ hfound => ?_
      cases hfound with
      | none => exact .none
      | some he => exact .some he.scope.sameBindings
    · intro t t' ht ht'
      -- Nothing made by the projection is paired with anything yet.
      have hheld : Projection.Held ⟨subject, func, fresh⟩ vocabulary sig σ (σ.set fresh v) s s₁
          ((Pairing.same frozen s s).advance t t' (Nat.le_trans hs₁ ht) (Nat.le_trans hs₁ ht')) := by
        have hsuits := Pairing.Suits.mono h (Pairing.extends_advance _
          (show s.next ≤ t.next from Nat.le_trans hs₁ ht) (Nat.le_trans hs₁ ht'))
        refine ⟨⟨fun x hx => ?_, hsuits.functions, hsuits.guards⟩, hs, hp.function_app, hmay.plain,
          hmay.isDirect _ hp.function_app, ?_, ht', fun hf => ?_, fun hf i j hij => ?_⟩
        · rw [← hagree x hx]
          exact hsuits.subjects x hx
        · rw [← hagree subject hs, Valuation.set_self]
          exact hv
        · rw [← hagree subject hs]
          exact ((h.subjects _ hs).madeBefore hf).1
        · exact .inl (hij.1 ▸ (hij.2 hf).1)
      have hagrees := share_agrees hmentions hheld hq fun b hmem =>
        Projection.shareable_of_independent (hmay.plain _ hp.function_app)
          (Branch.appliesOnce_iff.mp (Queue.appliesOnce_iff.mp hmay.once b hmem)).1
      rw [Queue.outcome_congr hagree hq] at hagrees
      exact hagrees
  · have hcons : Queue.Over (sig.extend fresh)
        ((branch.read mentions func).push (.pattern fresh inner) :: queue) := by
      rw [Queue.Over]
      exact ⟨hfirst, hq.extend fresh⟩
    exact hset.outcome_agrees (Nat.le_refl _) (Nat.le_refl _) hcons

/-! ## All steps -/

theorem patternStep_agrees (hmentions : ∀ f x, f.mentions x = true → mentions f x = true)
    (h : Situated frozen vocabulary.functions sig σ s) {subject : Name} {p : Pattern Form}
    (hs : sig.subject subject) (hp : p.Over sig) (hb : branch.Over sig)
    (hq : Queue.Over sig queue) (hfresh : ¬ sig.subject fresh)
    (hsplit : options.splitBranches = true → MaySplit strict vocabulary.functions sig queue) :
    Agrees strict SameOutcome
      (outcome vocabulary σ (branch.push (.pattern subject p) :: queue) s)
      ((patternStep options mentions subject branch queue p).outcome vocabulary σ fresh s) := by
  have hstep : (patternStep options mentions subject branch queue p).Over sig fresh :=
    patternStep_over hs hp hb hq
  have hrefl : ∀ {next : Queue Form}, Queue.Over sig next → Agrees strict SameOutcome
      (outcome vocabulary σ next s) (outcome vocabulary σ next s) :=
    fun hnext => h.outcome_agrees (Nat.le_refl _) (Nat.le_refl _) hnext
  have hlax : options.splitBranches = true → ¬ strict ∧ ∀ f, sig.function f → f.QuotesPlainly :=
    fun hoption => ⟨(hsplit hoption).lax, (hsplit hoption).plain⟩
  cases p with
  | wildcard =>
      have heq : outcome vocabulary σ (branch.push (.pattern subject .wildcard) :: queue) =
          outcome vocabulary σ (branch :: queue) := by
        rw [outcome_push, outcome_cons]
        rfl
      rw [heq]
      exact hrefl hstep
  | bind x =>
      rw [outcome_bind]
      exact hrefl hstep
  | literal l =>
      have htest : (Test.equal subject l l.equivalence).Over sig := by
        refine ⟨hs, fun m hm => ?_⟩
        rw [List.mem_singleton.mp hm]
        exact l.equivalence.implies_refl
      exact (outcome_literal h branch hb hq subject l l.equivalence).trans
        (testStep_agrees hmentions h htest hb hq hlax)
  | predicate func =>
      rw [outcome_predicate hmentions]
      exact testStep_agrees hmentions h ⟨hs, hp.functions func (by simp [Pattern.functions]),
        (Branch.over_iff.mp hb).2.1.visible mentions func⟩ (hb.read func) hq hlax
  | guard expr =>
      rw [outcome_guard hmentions]
      exact testStep_agrees hmentions h ⟨hp.guards expr (by simp [Pattern.guards]),
        (Branch.over_iff.mp hb).2.1.visible mentions expr⟩ (hb.read expr) hq hlax
  | app func inner => exact projectStep_agrees hmentions h hs hp hb hq hfresh hsplit
  | not inner =>
      rw [outcome_not]
      exact hrefl hstep
  | and items =>
      rw [outcome_and]
      exact hrefl hstep
  | or alternatives =>
      rw [outcome_or]
      exact (alternativeMatches_simulates options.foldMemberships
        (h.suits (Nat.le_refl _) (Nat.le_refl _)) hs hb (fun q hq => hp.alternative hq) hq).agrees
        fun hchosen => hchosen.sameOutcome

/-- Carrying out a step gives what the queue gives. -/
theorem step_agrees (hmentions : ∀ f x, f.mentions x = true → mentions f x = true)
    (h : Situated frozen vocabulary.functions sig σ s) (hq : Queue.Over sig queue)
    (hfresh : ¬ sig.subject fresh)
    (hsplit : options.splitBranches = true → MaySplit strict vocabulary.functions sig queue) :
    Agrees strict SameOutcome (outcome vocabulary σ queue s)
      ((step options mentions queue).outcome vocabulary σ fresh s) := by
  match queue with
  | [] => exact h.outcome_agrees (Nat.le_refl _) (Nat.le_refl _) hq
  | ⟨[], env, .select case⟩ :: queue =>
      rw [outcome_cons]
      refine ⟨fun ha => ?_, fun _ e he => by cases he⟩
      cases ha
      exact ⟨_, _, rfl, .some ⟨rfl, fun x => by
        cases (env.values σ).lookup x with
        | none => exact .none
        | some v => exact .some (.refl v)⟩⟩
  | ⟨[], env, .resume saved⟩ :: queue =>
      rw [Queue.Over, Branch.Over, Goal.Over] at hq
      have heq : outcome vocabulary σ (⟨[], env, .resume saved⟩ :: queue) =
          outcome vocabulary σ saved := by
        rw [outcome_cons]
        simp only [Goal.outcome]
        rfl
      rw [heq]
      exact h.outcome_agrees (Nat.le_refl _) (Nat.le_refl _) hq.1.2.2
  | ⟨m :: ms, env, goal⟩ :: queue =>
      rw [Queue.Over] at hq
      obtain ⟨hb, hq⟩ := hq
      rw [Branch.over_iff] at hb
      obtain ⟨hm, hms⟩ := List.forall_mem_cons.mp hb.1
      have hb' : Branch.Over sig ⟨ms, env, goal⟩ := Branch.over_iff.mpr ⟨hms, hb.2⟩
      have hsplit' : options.splitBranches = true →
          MaySplit strict vocabulary.functions sig queue := by
        intro hoption
        obtain ⟨hlax, hplain, hdirect, honce⟩ := hsplit hoption
        rw [Queue.AppliesOnce] at honce
        exact ⟨hlax, hplain, hdirect, honce.2⟩
      have hlax : options.splitBranches = true →
          ¬ strict ∧ ∀ f, sig.function f → f.QuotesPlainly :=
        fun hoption => ⟨(hsplit hoption).lax, (hsplit hoption).plain⟩
      cases m with
      | pattern subject p => exact patternStep_agrees hmentions h hm.1 hm.2 hb' hq hfresh hsplit'
      | member subject set eqv =>
          rw [show (⟨.member subject set eqv :: ms, env, goal⟩ : Branch Form) =
            Branch.push ⟨ms, env, goal⟩ (.member subject set eqv) from rfl, outcome_member]
          exact testStep_agrees hmentions h hm hb' hq hlax
      | sameAs subject other =>
          rw [show (⟨.sameAs subject other :: ms, env, goal⟩ : Branch Form) =
            Branch.push ⟨ms, env, goal⟩ (.sameAs subject other) from rfl, outcome_sameAs]
          exact testStep_agrees hmentions h hm hb' hq hlax

end Queue

end PatternCompiler
