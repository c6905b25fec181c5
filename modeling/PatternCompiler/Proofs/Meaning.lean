import PatternCompiler.Proofs.Interpretation

/-!
# What a queue means

The branches of a queue are tried in order, each by matching what it has pending on the values of its
subjects. A branch that succeeds selects its case with its bindings, or goes on with the queue it
saved in place of the rest. Comparators may be stricter than the literals ask for, and pattern
variables may be bound twice: nothing is said here about how a queue came about.
-/

namespace PatternCompiler

set_option autoImplicit false

/-- The values of the variables that hold subjects. -/
abbrev Valuation := Name → Value

abbrev Outcome := Option (Nat × Bindings)

def Environment.values (env : Environment) (σ : Valuation) : Bindings :=
  env.bindings.map fun b => (b.name, σ b.subject)

/-- The values of the variables that an expression sees. -/
def Valuation.bindings (σ : Valuation) (pairs : List (Name × Name)) : Bindings :=
  pairs.map fun b => (b.1, σ b.2)

/-- What follows a branch: nothing but its goal if its matches succeed, else the rest. -/
def concludeWith (goal : Bindings → EvalM Outcome) (rest : EvalM Outcome) :
    Option Bindings → EvalM Outcome
  | some found => goal found
  | none => rest

variable {ε : Type}

namespace Interpretation

open Matcher (Continuation accept continueIf)

section

variable (I : Interpretation ε) (σ : Valuation)

def attemptPending : Pending ε → Bindings → Continuation → EvalM (Option Bindings)
  | .pattern subject p, env, k => I.attempt p (σ subject) env k
  | .member subject set eqv, env, k => continueIf (set.any ((σ subject).equals eqv)) env k
  | .sameAs subject other, env, k => continueIf ((σ other).isEql (σ subject)) env k

def attemptPendings : List (Pending ε) → Bindings → Continuation → EvalM (Option Bindings)
  | [], env, k => k env
  | m :: ms, env, k => I.attemptPending σ m env fun env => attemptPendings ms env k

mutual

def branchMeaning : Branch ε → EvalM Outcome → EvalM Outcome
  | ⟨pending, env, goal⟩, rest =>
      I.attemptPendings σ pending (env.values σ) accept >>= concludeWith (goalMeaning goal) rest

def goalMeaning : Goal (List (Branch ε)) → Bindings → EvalM Outcome
  | .select case, found => return some (case, found)
  | .resume queue, _ => meaning queue

def meaning : List (Branch ε) → EvalM Outcome
  | [] => return none
  | branch :: queue => branchMeaning branch (meaning queue)

end

/-- Whether a test succeeds on the values of the subjects. -/
def holds : Test ε → EvalM Bool
  | .equal subject literal eqv => return (σ subject).equals eqv literal
  | .member subject set eqv => return set.any ((σ subject).equals eqv)
  | .sameAs subject other => return (σ other).isEql (σ subject)
  | .predicate subject func pairs => do
      let result ← I.apply func (σ subject) (σ.bindings pairs)
      return result.isTruthy
  | .guard expr pairs => do
      let result ← I.check expr (σ.bindings pairs)
      return result.isTruthy

end

variable {I : Interpretation ε} {σ : Valuation}

theorem attemptPendings_append (ms ns : List (Pending ε)) (env : Bindings) (k : Continuation) :
    I.attemptPendings σ (ms ++ ns) env k =
      I.attemptPendings σ ms env fun env => I.attemptPendings σ ns env k := by
  induction ms generalizing env with
  | nil => rfl
  | cons m ms ih => simp only [List.cons_append, attemptPendings, ih]

theorem attemptPendings_map_pattern (subject : Name) (ps : List (Pattern ε)) (env : Bindings)
    (k : Continuation) :
    I.attemptPendings σ (ps.map (.pattern subject)) env k =
      I.attemptAll ps (σ subject) env k := by
  induction ps generalizing env with
  | nil => rfl
  | cons p ps ih =>
      simp only [List.map_cons, attemptPendings, attemptPending, attemptAll, ih]

theorem meaning_cons (branch : Branch ε) (queue : Queue ε) :
    I.meaning σ (branch :: queue) =
      I.attemptPendings σ branch.pending (branch.env.values σ) accept
        >>= concludeWith (I.goalMeaning σ branch.goal) (I.meaning σ queue) := by
  obtain ⟨pending, env, goal⟩ := branch
  rw [meaning, branchMeaning]

end Interpretation

/-! ## What may occur -/

/-- The variables that hold subjects, the functions and the guards that may occur. -/
structure Repertoire (ε : Type) where
  subject : Name → Prop
  function : ε → Prop
  guard : ε → Prop

structure Pattern.From (rep : Repertoire ε) (p : Pattern ε) : Prop where
  functions : ∀ f ∈ p.functions, rep.function f
  guards : ∀ f ∈ p.guards, rep.guard f

def Pending.From (rep : Repertoire ε) : Pending ε → Prop
  | .pattern subject p => rep.subject subject ∧ p.From rep
  | .member subject _ _ => rep.subject subject
  | .sameAs subject other => rep.subject subject ∧ rep.subject other

mutual

def Branch.From (rep : Repertoire ε) : Branch ε → Prop
  | ⟨pending, env, goal⟩ =>
      (∀ m ∈ pending, m.From rep) ∧ (∀ s ∈ env.subjects, rep.subject s) ∧ Goal.From rep goal

def Goal.From (rep : Repertoire ε) : Goal (List (Branch ε)) → Prop
  | .select _ => True
  | .resume queue => Queue.From rep queue

/-- Everything in the queue is from the repertoire. -/
def Queue.From (rep : Repertoire ε) : List (Branch ε) → Prop
  | [] => True
  | branch :: queue => branch.From rep ∧ Queue.From rep queue

end

variable {rep : Repertoire ε}

theorem Branch.from_iff {branch : Branch ε} :
    branch.From rep ↔ (∀ m ∈ branch.pending, m.From rep) ∧
      (∀ s ∈ branch.env.subjects, rep.subject s) ∧ branch.goal.From rep := by
  obtain ⟨pending, env, goal⟩ := branch
  rw [Branch.From]

namespace Pattern

theorem mem_bindersOfList {ps : List (Pattern ε)} {p : Pattern ε} (hp : p ∈ ps) {x : Name}
    (hx : x ∈ p.binders) : x ∈ bindersOfList ps := by
  induction ps with
  | nil => cases hp
  | cons q qs ih =>
      rw [bindersOfList, List.mem_append]
      rcases List.mem_cons.mp hp with rfl | hp
      · exact .inl hx
      · exact .inr (ih hp)

theorem mem_listFunctions {ps : List (Pattern ε)} {p : Pattern ε} (hp : p ∈ ps) {f : ε}
    (hf : f ∈ p.functions) : f ∈ listFunctions ps := by
  induction ps with
  | nil => cases hp
  | cons q qs ih =>
      rw [listFunctions, List.mem_append]
      rcases List.mem_cons.mp hp with rfl | hp
      · exact .inl hf
      · exact .inr (ih hp)

theorem mem_listGuards {ps : List (Pattern ε)} {p : Pattern ε} (hp : p ∈ ps) {f : ε}
    (hf : f ∈ p.guards) : f ∈ listGuards ps := by
  induction ps with
  | nil => cases hp
  | cons q qs ih =>
      rw [listGuards, List.mem_append]
      rcases List.mem_cons.mp hp with rfl | hp
      · exact .inl hf
      · exact .inr (ih hp)

theorem From.inner_app {func : ε} {p : Pattern ε} (h : (Pattern.app func p).From rep) :
    p.From rep :=
  ⟨fun f hf => h.functions f (by simp [Pattern.functions, hf]), h.guards⟩

theorem From.inner_not {p : Pattern ε} (h : (Pattern.not p).From rep) : p.From rep :=
  ⟨h.functions, h.guards⟩

theorem From.item {ps : List (Pattern ε)} (h : (Pattern.and ps).From rep) {p : Pattern ε}
    (hp : p ∈ ps) : p.From rep :=
  ⟨fun f hf => h.functions f (mem_listFunctions hp hf),
    fun f hf => h.guards f (mem_listGuards hp hf)⟩

theorem From.alternative {ps : List (Pattern ε)} (h : (Pattern.or ps).From rep) {p : Pattern ε}
    (hp : p ∈ ps) : p.From rep :=
  ⟨fun f hf => h.functions f (mem_listFunctions hp hf),
    fun f hf => h.guards f (mem_listGuards hp hf)⟩

end Pattern

/-! ## Paired runs -/

namespace Pairing

variable {frozen : Bool}

/-- Whatever the repertoire holds corresponds in the two runs. -/
structure Respects (w : Pairing frozen) (I : Interpretation ε) (rep : Repertoire ε)
    (σ σ' : Valuation) : Prop where
  subjects : ∀ s, rep.subject s → w.Relates (σ s) (σ' s)
  functions : ∀ f, rep.function f → w.RespectsFunction I f
  guards : ∀ f, rep.guard f → w.RespectsGuard I f

/-- Both runs chose the same case with bindings that correspond, or neither chose one. -/
def Chosen (w : Pairing frozen) : Outcome → Outcome → Prop :=
  Option.Rel fun a b => a.1 = b.1 ∧ w.RelatesScope a.2 b.2

variable {w w' : Pairing frozen} {I : Interpretation ε} {σ σ' : Valuation}

theorem Respects.of_rel (h : w.Respects I rep σ σ')
    (hrel : ∀ {i j : Nat}, w.rel i j → w'.rel i j) : w'.Respects I rep σ σ' where
  subjects s hs := Value.Corresponds.mono (h.subjects s hs) hrel
  functions f hf := (h.functions f hf).mono hrel
  guards f hf := (h.guards f hf).mono hrel

theorem Respects.mono (h : w.Respects I rep σ σ') (hw : w.Extends w') :
    w'.Respects I rep σ σ' := h.of_rel hw.rel

theorem Respects.pattern (h : w.Respects I rep σ σ') {p : Pattern ε} (hp : p.From rep) :
    w.RespectsPattern I p :=
  ⟨fun f hf => h.functions f (hp.functions f hf), fun f hf => h.guards f (hp.guards f hf)⟩

theorem Respects.values (h : w.Respects I rep σ σ') {pairs : List (Name × Name)}
    (hp : ∀ b ∈ pairs, rep.subject b.2) : w.RelatesScope (σ.bindings pairs) (σ'.bindings pairs) := by
  unfold RelatesScope Valuation.bindings
  rw [List.forall₂_map_left_iff, List.forall₂_map_right_iff]
  exact List.forall₂_same.mpr fun b hmem => ⟨rfl, h.subjects _ (hp b hmem)⟩

theorem Respects.environment (h : w.Respects I rep σ σ') {env : Environment}
    (he : ∀ s ∈ env.subjects, rep.subject s) {N : Name → Prop} (hN : ∀ x ∈ env.names, N x) :
    w.RelatesEnv N (env.values σ) (env.values σ') := by
  constructor
  · unfold RelatesScope Environment.values
    rw [List.forall₂_map_left_iff, List.forall₂_map_right_iff]
    exact List.forall₂_same.mpr fun b hb => ⟨rfl, h.subjects _ (he _ (List.mem_map_of_mem hb))⟩
  · intro x hx
    refine hN x ?_
    simpa only [Environment.values, Environment.names, List.map_map, Function.comp_def] using hx

end Pairing

section

variable {frozen : Bool} {strict : Prop} {N : Name → Prop} {w : Pairing frozen}

theorem concludeWith_simulates {goal goal' : Bindings → EvalM Outcome} {rest rest' : EvalM Outcome}
    {m m' : EvalM (Option Bindings)} (hm : Simulates strict w (Pairing.Found N) m m')
    (hgoal : ∀ {w' : Pairing frozen} {e e' : Bindings}, w.Extends w' → w'.RelatesEnv N e e' →
      Simulates strict w' Pairing.Chosen (goal e) (goal' e'))
    (hrest : ∀ {w' : Pairing frozen}, w.Extends w' → Simulates strict w' Pairing.Chosen rest rest') :
    Simulates strict w Pairing.Chosen (m >>= concludeWith goal rest)
      (m' >>= concludeWith goal' rest') := by
  refine hm.bind fun hw hfound => ?_
  cases hfound with
  | some he => exact hgoal hw he
  | none => exact hrest hw

end

namespace Interpretation

open Matcher (Continuation)

variable {frozen : Bool} {strict : Prop} {N : Name → Prop} {w : Pairing frozen}
  {I : Interpretation ε} {σ σ' : Valuation}
  {post : Pairing frozen → Option Bindings → Option Bindings → Prop}

theorem attemptPending_simulates (hpost : Pairing.Report post) {m : Pending ε}
    (h : w.Respects I rep σ σ') (hm : m.From rep) (hN : ∀ x ∈ m.binders, N x)
    {env env' : Bindings} (he : w.RelatesEnv N env env') {k k' : Continuation}
    (hk : ∀ {w' : Pairing frozen} {e e' : Bindings}, w.Extends w' → w'.RelatesEnv N e e' →
      Simulates strict w' post (k e) (k' e')) :
    Simulates strict w post (I.attemptPending σ m env k) (I.attemptPending σ' m env' k') := by
  cases m with
  | pattern subject p => exact attempt_simulates p hpost (h.pattern hm.2) hN (h.subjects _ hm.1) he hk
  | member subject set eqv =>
      have hsame := Value.Corresponds.sameContent (h.subjects _ hm)
      simp only [attemptPending, Literal.equals_eq_of_sameContent hsame eqv]
      exact Matcher.continueIf_simulates hpost _ (hk (.refl w) he)
  | sameAs subject other =>
      simp only [attemptPending,
        Value.Corresponds.isEql_eq w.oneToOne (h.subjects _ hm.2) (h.subjects _ hm.1)]
      exact Matcher.continueIf_simulates hpost _ (hk (.refl w) he)

theorem attemptPendings_simulates (hpost : Pairing.Report post) {ms : List (Pending ε)}
    {w : Pairing frozen} (h : w.Respects I rep σ σ') (hms : ∀ m ∈ ms, m.From rep)
    (hN : ∀ x ∈ ms.flatMap Pending.binders, N x) {env env' : Bindings}
    (he : w.RelatesEnv N env env') {k k' : Continuation}
    (hk : ∀ {w' : Pairing frozen} {e e' : Bindings}, w.Extends w' → w'.RelatesEnv N e e' →
      Simulates strict w' post (k e) (k' e')) :
    Simulates strict w post (I.attemptPendings σ ms env k) (I.attemptPendings σ' ms env' k') := by
  induction ms generalizing w env env' with
  | nil => exact hk (.refl w) he
  | cons m ms ih =>
      obtain ⟨hm, hms⟩ := List.forall_mem_cons.mp hms
      simp only [List.flatMap_cons, List.mem_append] at hN
      refine attemptPending_simulates hpost h hm (fun x hx => hN x (.inl hx)) he fun hw he' => ?_
      exact ih (h.mono hw) hms (fun x hx => hN x (.inr hx)) he' fun hw' => hk (hw.trans hw')

mutual

theorem branchMeaning_simulates {branch : Branch ε} {w : Pairing frozen}
    (h : w.Respects I rep σ σ') (hb : branch.From rep) {rest rest' : EvalM Outcome}
    (hrest : ∀ {w' : Pairing frozen}, w.Extends w' → Simulates strict w' Pairing.Chosen rest rest') :
    Simulates strict w Pairing.Chosen (I.branchMeaning σ branch rest)
      (I.branchMeaning σ' branch rest') := by
  match branch with
  | ⟨pending, env, goal⟩ =>
      rw [Branch.From] at hb
      rw [branchMeaning, branchMeaning]
      refine concludeWith_simulates (N := fun _ => True) ?_
        (fun hw he => goalMeaning_simulates (h.mono hw) hb.2.2 he) hrest
      exact attemptPendings_simulates Pairing.found_report h hb.1 (fun _ _ => trivial)
        (h.environment hb.2.1 fun _ _ => trivial) fun _ he => Matcher.accept_simulates he

theorem goalMeaning_simulates {goal : Goal (List (Branch ε))} {w : Pairing frozen}
    (h : w.Respects I rep σ σ') (hg : goal.From rep) {env env' : Bindings} {N : Name → Prop}
    (he : w.RelatesEnv N env env') :
    Simulates strict w Pairing.Chosen (I.goalMeaning σ goal env) (I.goalMeaning σ' goal env') := by
  match goal with
  | .select case =>
      simp only [goalMeaning]
      exact .pure (.some ⟨rfl, he.scope⟩)
  | .resume queue =>
      rw [Goal.From] at hg
      simp only [goalMeaning]
      exact meaning_simulates h hg

/-- What a queue means depends neither on the objects made before nor on the identities of the
objects in its subjects. -/
theorem meaning_simulates {queue : List (Branch ε)} {w : Pairing frozen}
    (h : w.Respects I rep σ σ') (hq : Queue.From rep queue) :
    Simulates strict w Pairing.Chosen (I.meaning σ queue) (I.meaning σ' queue) := by
  match queue with
  | [] =>
      simp only [meaning]
      exact .pure .none
  | branch :: queue =>
      rw [Queue.From] at hq
      simp only [meaning]
      exact branchMeaning_simulates h hq.1 fun hw => meaning_simulates (h.mono hw) hq.2

end

/-- Branches with one goal may stand for each other in front of queues that may. -/
theorem meaning_cons_simulates {branch branch' : Branch ε} {queue queue' : Queue ε}
    (h : w.Respects I rep σ σ') (hg : branch.goal.From rep) (hsame : branch'.goal = branch.goal)
    (hb : Simulates strict w (Pairing.Found N)
      (I.attemptPendings σ branch.pending (branch.env.values σ) Matcher.accept)
      (I.attemptPendings σ' branch'.pending (branch'.env.values σ') Matcher.accept))
    (hq : ∀ {w' : Pairing frozen}, w.Extends w' → Simulates strict w' Pairing.Chosen
      (I.meaning σ queue) (I.meaning σ' queue')) :
    Simulates strict w Pairing.Chosen (I.meaning σ (branch :: queue))
      (I.meaning σ' (branch' :: queue')) := by
  rw [meaning_cons, meaning_cons, hsame]
  exact concludeWith_simulates hb (fun hw he => goalMeaning_simulates (h.mono hw) hg he) hq

end Interpretation

/-! ## Runs that can start -/

/-- All there is to see was made before: the values of the subjects and of the ambient scope, and the
constants in functions and guards. -/
structure Ready (ambient : Scope) (rep : Repertoire Form) (σ : Valuation) (s : ObjectSupply) :
    Prop where
  subjects : ∀ x, rep.subject x → (σ x).MadeBefore s
  functions : ∀ f, rep.function f → ∀ c ∈ f.constants, c.MadeBefore s
  guards : ∀ f, rep.guard f → ∀ c ∈ f.constants, c.MadeBefore s
  ambient : ∀ b ∈ ambient, b.2.MadeBefore s

theorem Pairing.same_relatesScope {s : ObjectSupply} {scope : Scope}
    (h : ∀ b ∈ scope, b.2.MadeBefore s) : (same false s s).RelatesScope scope scope :=
  List.forall₂_same.mpr fun b hb => ⟨rfl, same_relates fun _ => ⟨h b hb, h b hb⟩⟩

theorem Ready.respects {ambient : Scope} {rep : Repertoire Form} {σ : Valuation} {s : ObjectSupply}
    (h : Ready ambient rep σ s) (vocabulary : Vocabulary) :
    (Pairing.same false s s).Respects (.within vocabulary ambient) rep σ σ where
  subjects x hx := Pairing.same_relates fun _ => ⟨h.subjects x hx, h.subjects x hx⟩
  functions f hf := Pairing.respectsFunction_within (Pairing.same_relatesScope h.ambient)
    (fun c hc => Pairing.same_relates fun _ => ⟨h.functions f hf c hc, h.functions f hf c hc⟩) nofun
  guards f hf := Pairing.respectsGuard_within (Pairing.same_relatesScope h.ambient)
    (fun c hc => Pairing.same_relates fun _ => ⟨h.guards f hf c hc, h.guards f hf c hc⟩) nofun

end PatternCompiler
