import Mathlib.Logic.Relation
import PatternCompiler.Proofs.Marking
import PatternCompiler.Proofs.Termination

/-!
# Branches do not see each other's bindings

A match of the first branch adds to the bindings of that branch and of its copies. The branches
behind it may be simplified or dropped, but keep the bindings they have. So alternatives all start
from the bindings in front of the disjunction, whatever was bound while earlier ones were tried, and
a negated pattern leaves no trace in the bindings of the branch that it guards and of those behind.
-/

namespace PatternCompiler

set_option autoImplicit false

variable {ε : Type}

/-! ## Environments that grow -/

namespace Environment

variable {env : Environment}

/-- Bindings may have been appended and marks set, but nothing else has changed. -/
def Grows (env env' : Environment) : Prop :=
  env.pairs <+: env'.pairs ∧ ∀ x, env.isUsed x = true → env'.isUsed x = true

theorem Grows.refl (env : Environment) : env.Grows env := ⟨List.prefix_rfl, fun _ h => h⟩

theorem grows_markAllUsed (xs : List Name) : env.Grows (env.markAllUsed xs) := by
  refine ⟨?_, fun x h => isUsed_markAllUsed.mpr (.inl h)⟩
  rw [pairs_markAllUsed]

theorem grows_markUsed (x : Name) : env.Grows (env.markUsed x) := grows_markAllUsed [x]

theorem grows_append (added : List Binding) : env.Grows ⟨env.bindings ++ added⟩ := by
  refine ⟨?_, fun x h => ?_⟩
  · rw [pairs, pairs, List.map_append]
    exact List.prefix_append _ _
  · obtain ⟨b, hb, hx⟩ := isUsed_iff.mp h
    exact isUsed_iff.mpr ⟨b, List.mem_append_left _ hb, hx⟩

/-- Bind a name that has to be free: there is no result if it is bound already. -/
def push? (env : Environment) (name subject : Name) : Option Environment :=
  if (env.lookup? name).isNone then some ⟨env.bindings ++ [⟨name, subject, false⟩]⟩ else none

/-- The extension of an environment, with the check that only free names are bound. -/
def extendChecked (env : Environment) (name subject : Name) : Option Extension :=
  match env.lookup? name with
  | some b => some (.existing b.subject)
  | none => (env.push? name subject).map .fresh

/-- Names that are bound are never bound again, so the check succeeds. -/
theorem extendChecked_eq (name subject : Name) :
    env.extendChecked name subject = some (env.extend name subject) := by
  unfold extendChecked extend push?
  cases env.lookup? name <;> rfl

end Environment

/-- Bind a name to a subject, with the check that only free names are bound. -/
def Branch.bindChecked (branch : Branch ε) (name subject : Name) : Option (Branch ε) :=
  (branch.env.extendChecked name subject).map fun
    | .fresh env => { branch with env := env }
    | .existing bound =>
        if bound = subject then branch
        else { branch with env := branch.env.markUsed name }.push (.sameAs subject bound)

/-- A step, with the check that only free names are bound. -/
def Queue.stepChecked [BEq ε] (options : Options) (mentions : ε → Name → Bool) :
    Queue ε → Option (Step ε)
  | ⟨.pattern subject (.bind name) :: ms, env, goal⟩ :: rest =>
      (Branch.bindChecked ⟨ms, env, goal⟩ name subject).map fun branch => .advance (branch :: rest)
  | queue => some (step options mentions queue)

theorem Branch.bindChecked_eq (branch : Branch ε) (name subject : Name) :
    branch.bindChecked name subject = some (branch.bind name subject) := by
  unfold bindChecked Branch.bind
  rw [Environment.extendChecked_eq]
  cases branch.env.extend name subject <;> rfl

theorem Queue.stepChecked_eq [BEq ε] (options : Options) (mentions : ε → Name → Bool)
    (queue : Queue ε) :
    stepChecked options mentions queue = some (step options mentions queue) := by
  unfold stepChecked
  split
  · rw [Branch.bindChecked_eq]
    rfl
  · rfl

/-! ## One step -/

/-- Every queue that the step goes on with is of a certain kind. -/
def Step.Every (P : Queue ε → Prop) : Step ε → Prop
  | .fail | .select .. => True
  | .advance queue => P queue
  | .test _ yes no => P yes ∧ P no
  | .project _ _ _ body => ∀ fresh, P (body fresh)

theorem Step.Linear.every {cases : Nat → Prop} {step : Step ε} (h : step.Linear cases) :
    step.Every (Queue.Linear cases) := by
  cases step with
  | fail | select => trivial
  | advance | test | project => exact h

namespace Queue

/-- Some branches may be gone and others simplified, but those there have their bindings and goals,
in order. -/
def Keeps (queue queue' : Queue ε) : Prop :=
  List.Sublist (queue.map fun branch => (branch.env, branch.goal))
    (queue'.map fun branch => (branch.env, branch.goal))

/-- In place of a branch there are copies whose bindings have grown, maybe none, and one of them may
resume the queue behind it; that queue is kept. -/
def Grown (branch : Branch ε) (rest next : Queue ε) : Prop :=
  ∃ heads left, next = heads ++ left ∧ Keeps left rest ∧ ∀ head ∈ heads,
    branch.env.Grows head.env ∧ (head.goal = branch.goal ∨ head.goal = .resume rest)

theorem Keeps.refl (queue : Queue ε) : Keeps queue queue := List.Sublist.refl _

theorem Keeps.trans {queue queue' queue'' : Queue ε} (h : Keeps queue queue')
    (h' : Keeps queue' queue'') : Keeps queue queue'' := List.Sublist.trans h h'

variable {branch : Branch ε} {rest : Queue ε}

theorem Grown.of_head {head : Branch ε} (henv : branch.env.Grows head.env)
    (hgoal : head.goal = branch.goal) {left : Queue ε} (h : Keeps left rest) :
    Grown branch rest (head :: left) :=
  ⟨[head], left, rfl, h, List.forall_mem_singleton.mpr ⟨henv, .inl hgoal⟩⟩

theorem bind_grows (x subject : Name) :
    branch.env.Grows (branch.bind x subject).env ∧ (branch.bind x subject).goal = branch.goal := by
  unfold Branch.bind Environment.extend
  cases branch.env.lookup? x with
  | none => exact ⟨Environment.grows_append _, rfl⟩
  | some b =>
      simp only
      split
      · exact ⟨.refl _, rfl⟩
      · exact ⟨Environment.grows_markUsed x, rfl⟩

section

variable [BEq ε] {options : Options} {mentions : ε → Name → Bool}

theorem refine_keeps (test : Test ε) (outcome : Bool) (queue : Queue ε) :
    Keeps (refine mentions test outcome queue) queue := by
  unfold refine
  split
  · exact .refl queue
  · induction queue with
    | nil => exact .refl []
    | cons branch queue ih =>
        rw [List.filterMap_cons]
        split
        · exact ih.cons _
        · rename_i hrefined
          obtain ⟨pending, -, rfl⟩ := Option.map_eq_some_iff.mp hrefined
          exact ih.cons_cons _

theorem share_keeps (pr : Projection ε) (queue : Queue ε) :
    Keeps (share mentions pr queue) queue := by
  rw [Keeps, Queue.share, List.map_map]
  refine (List.map_congr_left fun branch _ => ?_).symm ▸ List.Sublist.refl _
  simp only [Function.comp_apply, Projection.shareBranch]
  split <;> rfl

theorem testStep_grown {head : Branch ε} (henv : branch.env.Grows head.env)
    (hgoal : head.goal = branch.goal) (test : Test ε) :
    (testStep options mentions test head rest).Every (Grown branch rest) := by
  have hno {left : Queue ε} (h : Keeps left rest) : Grown branch rest left :=
    ⟨[], left, rfl, h, List.forall_mem_nil _⟩
  unfold testStep
  split
  · exact ⟨.of_head henv hgoal (refine_keeps _ _ _), hno (refine_keeps _ _ _)⟩
  · exact ⟨.of_head henv hgoal (.refl rest), hno (.refl rest)⟩

theorem patternStep_grown (branch : Branch ε) (subject : Name) (p : Pattern ε) :
    (patternStep options mentions subject branch rest p).Every (Grown branch rest) := by
  have hread (expr : ε) : branch.env.Grows (branch.read mentions expr).env :=
    Environment.grows_markAllUsed _
  cases p with
  | wildcard => exact .of_head (.refl _) rfl (.refl rest)
  | bind x => exact .of_head (bind_grows x subject).1 (bind_grows x subject).2 (.refl rest)
  | literal l => exact testStep_grown (.refl _) rfl _
  | predicate func => exact testStep_grown (hread func) rfl _
  | guard expr => exact testStep_grown (hread expr) rfl _
  | app func inner =>
      intro fresh
      have hhead : branch.env.Grows ((branch.read mentions func).push (.pattern fresh inner)).env :=
        hread func
      refine .of_head hhead rfl ?_
      split
      · exact share_keeps _ _
      · exact .refl rest
  | not inner =>
      refine ⟨[branch.probe subject inner rest, branch], rest, rfl, .refl rest, ?_⟩
      exact List.forall_mem_cons.mpr ⟨⟨.refl _, .inr rfl⟩,
        List.forall_mem_singleton.mpr ⟨.refl _, .inl rfl⟩⟩
  | and items => exact .of_head (.refl _) rfl (.refl rest)
  | or alternatives =>
      refine ⟨_, rest, rfl, .refl rest, fun head hhead => ?_⟩
      obtain ⟨m, -, rfl⟩ := List.mem_map.mp hhead
      exact ⟨.refl _, .inl rfl⟩

/-- A match of the first branch lets the bindings of that branch grow, and keeps all others. -/
theorem step_grown {m : Pending ε} {ms : List (Pending ε)} (hm : branch.pending = m :: ms) :
    (step options mentions (branch :: rest)).Every (Grown branch rest) := by
  obtain ⟨pending, env, goal⟩ := branch
  obtain rfl : pending = m :: ms := hm
  cases m with
  | pattern subject p => exact patternStep_grown ⟨ms, env, goal⟩ subject p
  | member subject set eqv => exact testStep_grown (.refl env) rfl _
  | sameAs subject other => exact testStep_grown (.refl env) rfl _

theorem Calls.of_every {queue next : Queue ε} {P : Queue ε → Prop}
    (h : Calls options mentions queue next) (hstep : (step options mentions queue).Every P) :
    P next := by
  cases h with
  | advance h => exact (h ▸ hstep :)
  | yes h =>
      rw [h] at hstep
      exact hstep.1
  | no h =>
      rw [h] at hstep
      exact hstep.2
  | body h fresh =>
      rw [h] at hstep
      exact hstep fresh

end

end Queue

/-! ## In front of other branches -/

mutual

/-- In front of the tail, what selects a case alone has the outer goal. -/
inductive Goal.Before (outer : Goal (List (Branch ε))) (tail : List (Branch ε)) :
    Goal (List (Branch ε)) → Goal (List (Branch ε)) → Prop where
  | done : Goal.Before outer tail (.select 0) outer
  | resume {alone queue : List (Branch ε)} (h : Queue.Before outer tail alone queue) :
      Goal.Before outer tail (.resume alone) (.resume queue)

/-- The second queue is the first one put in front of the tail, which is kept. The same holds of the
queues that are saved. -/
inductive Queue.Before (outer : Goal (List (Branch ε))) (tail : List (Branch ε)) :
    List (Branch ε) → List (Branch ε) → Prop where
  | tail {left : List (Branch ε)} (h : Queue.Keeps left tail) : Queue.Before outer tail [] left
  | cons {pending : List (Pending ε)} {env : Environment} {goal goal' : Goal (List (Branch ε))}
      {alone queue : List (Branch ε)} (hgoal : Goal.Before outer tail goal goal')
      (h : Queue.Before outer tail alone queue) :
      Queue.Before outer tail (⟨pending, env, goal⟩ :: alone) (⟨pending, env, goal'⟩ :: queue)

end

/-- The steps go on in the same way, with queues that are related. -/
def Step.Before (related : Queue ε → Queue ε → Prop) : Step ε → Step ε → Prop
  | .advance alone, .advance queue => related alone queue
  | .test _ yes no, .test _ yes' no' => related yes yes' ∧ related no no'
  | .project _ _ _ body, .project _ _ _ body' => ∀ fresh, related (body fresh) (body' fresh)
  | _, _ => False

/-! What is done to a branch does not depend on its goal. -/

theorem Branch.exists_bind (ms : List (Pending ε)) (env : Environment) (x subject : Name) :
    ∃ pending bound, ∀ goal, Branch.bind ⟨ms, env, goal⟩ x subject = ⟨pending, bound, goal⟩ := by
  cases hextend : env.extend x subject with
  | fresh bound => exact ⟨ms, bound, fun goal => by simp only [Branch.bind, hextend]⟩
  | existing other =>
      by_cases hsame : other = subject
      · exact ⟨ms, env, fun goal => by simp only [Branch.bind, hextend, if_pos hsame]⟩
      · exact ⟨.sameAs subject other :: ms, env.markUsed x, fun goal => by
          simp only [Branch.bind, hextend, if_neg hsame, Branch.push]⟩

theorem Projection.exists_shareBranch [BEq ε] (pr : Projection ε) (mentions : ε → Name → Bool)
    (pending : List (Pending ε)) (env : Environment) :
    ∃ shared, ∀ goal, pr.shareBranch mentions ⟨pending, env, goal⟩ = ⟨shared, env, goal⟩ := by
  by_cases hcandidate : (pending.any pr.isCandidate &&
      Branch.isIndependentOf mentions ⟨pending, env, .select 0⟩ pr.func) = true
  · exact ⟨pending.flatMap pr.redirectPending, fun goal => if_pos hcandidate⟩
  · exact ⟨pending, fun goal => if_neg hcandidate⟩

theorem Knowledge.exists_refineBranch [BEq ε] (k : Knowledge ε) (mentions : ε → Name → Bool)
    (pending : List (Pending ε)) (env : Environment) :
    ∃ refined : Option (List (Pending ε)), ∀ goal,
      k.refineBranch mentions ⟨pending, env, goal⟩ = refined.map fun left => ⟨left, env, goal⟩ :=
  ⟨((k.refineAll (Branch.isIndependentOf mentions ⟨pending, env, .select 0⟩) pending).run none).1,
    fun _ => rfl⟩

namespace Queue

variable {outer : Goal (Queue ε)} {tail alone queue next : Queue ε}

theorem Before.append {ms : List (Pending ε)} {env : Environment} {goal goal' : Goal (Queue ε)}
    (hgoal : Goal.Before outer tail goal goal') (h : Before outer tail alone queue)
    (pushed : List (Pending ε)) :
    Before outer tail (pushed.map (Branch.push ⟨ms, env, goal⟩) ++ alone)
      (pushed.map (Branch.push ⟨ms, env, goal'⟩) ++ queue) := by
  induction pushed with
  | nil => exact h
  | cons m pushed ih => exact .cons hgoal ih

variable [BEq ε] {options : Options} {mentions : ε → Name → Bool}

theorem Before.refine (h : Before outer tail alone queue) (test : Test ε) (outcome : Bool) :
    Before outer tail (Queue.refine mentions test outcome alone)
      (Queue.refine mentions test outcome queue) := by
  induction alone generalizing queue with
  | nil =>
      cases h with
      | tail h =>
          have hnil : Queue.refine mentions test outcome ([] : Queue ε) = [] := by
            unfold Queue.refine
            split <;> rfl
          rw [hnil]
          exact .tail ((refine_keeps test outcome queue).trans h)
  | cons branch alone ih =>
      cases h with
      | @cons pending env goal goal' _ queue hgoal h =>
          have hrest := ih h
          unfold Queue.refine at hrest ⊢
          cases hfact : Fact.ofTest? test with
          | none => exact .cons hgoal h
          | some fact =>
              rw [hfact] at hrest
              obtain ⟨refined, hrefined⟩ :=
                Knowledge.exists_refineBranch ⟨fact, outcome⟩ mentions pending env
              simp only [List.filterMap_cons, hrefined]
              cases refined with
              | none => exact hrest
              | some left => exact .cons hgoal hrest

theorem Before.share (h : Before outer tail alone queue) (pr : Projection ε) :
    Before outer tail (Queue.share mentions pr alone) (Queue.share mentions pr queue) := by
  induction alone generalizing queue with
  | nil =>
      cases h with
      | tail h => exact .tail ((share_keeps pr queue).trans h)
  | cons branch alone ih =>
      cases h with
      | @cons pending env goal goal' _ queue hgoal h =>
          obtain ⟨shared, hshared⟩ := pr.exists_shareBranch mentions pending env
          rw [Queue.share, Queue.share, List.map_cons, List.map_cons, hshared, hshared]
          exact .cons hgoal (ih h)

section

variable {ms : List (Pending ε)} {env : Environment} {goal goal' : Goal (Queue ε)}
  (hgoal : Goal.Before outer tail goal goal') (h : Before outer tail alone queue)

include hgoal h

theorem Before.testStep (test : Test ε) :
    (testStep options mentions test ⟨ms, env, goal⟩ alone).Before (Before outer tail)
      (testStep options mentions test ⟨ms, env, goal'⟩ queue) := by
  unfold Queue.testStep
  split
  · exact ⟨.cons hgoal (h.refine test true), h.refine test false⟩
  · exact ⟨.cons hgoal h, h⟩

theorem Before.patternStep (subject : Name) (p : Pattern ε) :
    (patternStep options mentions subject ⟨ms, env, goal⟩ alone p).Before (Before outer tail)
      (patternStep options mentions subject ⟨ms, env, goal'⟩ queue p) := by
  cases p with
  | wildcard => exact .cons hgoal h
  | bind x =>
      obtain ⟨pending, bound, hbind⟩ := Branch.exists_bind ms env x subject
      change Before outer tail (Branch.bind ⟨ms, env, goal⟩ x subject :: alone)
        (Branch.bind ⟨ms, env, goal'⟩ x subject :: queue)
      rw [hbind, hbind]
      exact .cons hgoal h
  | literal l => exact h.testStep hgoal _
  | predicate func => exact h.testStep hgoal _
  | guard expr => exact h.testStep hgoal _
  | app func inner =>
      intro fresh
      refine .cons hgoal ?_
      split
      · exact h.share _
      · exact h
  | not inner =>
      -- The queue that is saved stands in front of the tail as well.
      exact .cons (.resume h) (.cons hgoal h)
  | and items => exact .cons hgoal h
  | or alternatives => exact .append hgoal h _

/-- In front of the tail a match goes on as it does alone. -/
theorem Before.step (m : Pending ε) :
    (step options mentions (⟨m :: ms, env, goal⟩ :: alone)).Before (Before outer tail)
      (step options mentions (⟨m :: ms, env, goal'⟩ :: queue)) := by
  cases m with
  | pattern subject p => exact h.patternStep hgoal subject p
  | member subject set eqv => exact h.testStep hgoal _
  | sameAs subject other => exact h.testStep hgoal _

end

theorem Calls.exists_before {related : Queue ε → Queue ε → Prop}
    (h : Calls options mentions queue next)
    (hstep : (step options mentions alone).Before related (step options mentions queue)) :
    ∃ before, Calls options mentions alone before ∧ related before next := by
  cases h with
  | advance h =>
      rw [h] at hstep
      cases halone : step options mentions alone with
      | advance before =>
          rw [halone] at hstep
          exact ⟨before, .advance halone, hstep⟩
      | _ => exact (halone ▸ hstep).elim
  | yes h =>
      rw [h] at hstep
      cases halone : step options mentions alone with
      | test asked yes no =>
          rw [halone] at hstep
          exact ⟨yes, .yes halone, hstep.1⟩
      | _ => exact (halone ▸ hstep).elim
  | no h =>
      rw [h] at hstep
      cases halone : step options mentions alone with
      | test asked yes no =>
          rw [halone] at hstep
          exact ⟨no, .no halone, hstep.2⟩
      | _ => exact (halone ▸ hstep).elim
  | body h fresh =>
      rw [h] at hstep
      cases halone : step options mentions alone with
      | project func subject pairs body =>
          rw [halone] at hstep
          exact ⟨body fresh, .body halone fresh, hstep fresh⟩
      | _ => exact (halone ▸ hstep).elim

end Queue

/-! ## Runs -/

namespace Queue

variable [BEq ε] {options : Options} {mentions : ε → Name → Bool}

/-- The recursion on the first queue comes to the second one. -/
def Reaches (options : Options) (mentions : ε → Name → Bool) : Queue ε → Queue ε → Prop :=
  Relation.ReflTransGen (Calls options mentions)

/-- What is tried in front of the tail has come to its end: alone it would be exhausted, and the
tail is left, or alone it would select a case, and the outer goal is next. -/
inductive Settled (options : Options) (mentions : ε → Name → Bool) (outer : Goal (Queue ε))
    (tail alone : Queue ε) : Queue ε → Prop where
  | failed {queue : Queue ε} (halone : Reaches options mentions alone [])
      (h : Keeps queue tail) : Settled options mentions outer tail alone queue
  | succeeded {env : Environment} {before more : Queue ε}
      (halone : Reaches options mentions alone (⟨[], env, .select 0⟩ :: before)) :
      Settled options mentions outer tail alone (⟨[], env, outer⟩ :: more)

/-- On every run, what is tried in front of the tail goes on as it does alone, until it is settled. -/
def UntilSettled (options : Options) (mentions : ε → Name → Bool) (outer : Goal (Queue ε))
    (tail alone start : Queue ε) : Prop :=
  ∀ queue, Reaches options mentions start queue →
    (∃ now, Reaches options mentions alone now ∧ Before outer tail now queue) ∨
      ∃ settled, Settled options mentions outer tail alone settled ∧
        Reaches options mentions start settled ∧ Reaches options mentions settled queue

variable {outer : Goal (Queue ε)} {tail alone start queue now next : Queue ε}

theorem Before.calls (hnow : Reaches options mentions alone now)
    (h : Before outer tail now queue) (hcalls : Calls options mentions queue next) :
    Settled options mentions outer tail alone queue ∨
      ∃ now, Reaches options mentions alone now ∧ Before outer tail now next := by
  cases h with
  | tail h => exact .inl (.failed hnow h)
  | @cons pending env goal goal' now queue hgoal h =>
      cases pending with
      | nil =>
          cases hgoal with
          | done => exact .inl (.succeeded hnow)
          | @resume saved saved' hsaved =>
              -- What was saved in front of the tail is resumed, here as alone.
              obtain rfl : saved' = next := hcalls.of_every (P := (saved' = ·)) rfl
              exact .inr ⟨saved, hnow.tail (.advance rfl), hsaved⟩
      | cons m ms =>
          obtain ⟨before, hbefore, hrelated⟩ := hcalls.exists_before (h.step hgoal m)
          exact .inr ⟨before, hnow.tail hbefore, hrelated⟩

theorem Before.untilSettled (h : Before outer tail alone start) :
    UntilSettled options mentions outer tail alone start := by
  intro queue hreaches
  induction hreaches with
  | refl => exact .inl ⟨alone, .refl, h⟩
  | @tail queue next hqueue hcalls ih =>
      rcases ih with ⟨now, hnow, h⟩ | ⟨settled, hsettled, hbefore, hafter⟩
      · -- Either the run alone gets one call longer, or this is where it is settled.
        rcases h.calls hnow hcalls with h | h
        · exact .inr ⟨queue, h, hqueue, .single hcalls⟩
        · exact .inl h
      · exact .inr ⟨settled, hsettled, hbefore, hafter.tail hcalls⟩

theorem Reaches.linear {cases : Nat → Prop} (h : Reaches options mentions start queue)
    (hstart : Queue.Linear cases start) : Queue.Linear cases queue := by
  induction h with
  | refl => exact hstart
  | tail _ hcalls ih => exact hcalls.of_every (step_linear ih).every

/-- No environment binds a name twice, and branches do not see each other's bindings. -/
structure Isolated (options : Options) (mentions : ε → Name → Bool) (cases : Nat)
    (queue : Queue ε) : Prop where
  /-- Environments bind no name twice, those in saved queues included. -/
  linear : Queue.Linear (· < cases) queue
  /-- The check that only free names are bound succeeds. -/
  checked : stepChecked options mentions queue = some (step options mentions queue)
  /-- A match of the first branch lets its bindings grow, and those of no other branch. -/
  grown : ∀ {m : Pending ε} {ms : List (Pending ε)} {env : Environment} {goal : Goal (Queue ε)}
    {rest next : Queue ε}, queue = ⟨m :: ms, env, goal⟩ :: rest →
    Calls options mentions queue next → Grown ⟨ms, env, goal⟩ rest next
  /-- All alternatives start from the same bindings. Later ones keep them while earlier ones are
  tried, whatever these bind. -/
  fanned : ∀ {subject : Name} {alternatives : List (Pattern ε)} {ms : List (Pending ε)}
    {env : Environment} {goal : Goal (Queue ε)} {rest : Queue ε} {earlier later : List (Pending ε)},
    queue = ⟨.pattern subject (.or alternatives) :: ms, env, goal⟩ :: rest →
    alternativeMatches options.foldMemberships subject alternatives = earlier ++ later →
    let tail := later.map (Branch.push ⟨ms, env, goal⟩) ++ rest
    let next := earlier.map (Branch.push ⟨ms, env, goal⟩) ++ tail
    step options mentions queue = .advance next ∧
      UntilSettled options mentions goal tail (earlier.map (Branch.push ⟨ms, env, .select 0⟩)) next
  /-- While a negated pattern is probed, the branch that it guards and those behind it keep their
  bindings. They are left if the probe fails; those behind are resumed as they were if it
  succeeds. -/
  probed : ∀ {subject : Name} {inner : Pattern ε} {ms : List (Pending ε)} {env : Environment}
    {goal : Goal (Queue ε)} {rest : Queue ε},
    queue = ⟨.pattern subject (.not inner) :: ms, env, goal⟩ :: rest →
    let tail := ⟨ms, env, goal⟩ :: rest
    let next := ⟨[.pattern subject inner], env, .resume rest⟩ :: tail
    step options mentions queue = .advance next ∧
      UntilSettled options mentions (.resume rest) tail [⟨[.pattern subject inner], env, .select 0⟩]
        next ∧
      ∀ (env' : Environment) (more : Queue ε),
        step options mentions (⟨[], env', .resume rest⟩ :: more) = .advance rest

/-- On every way through a list of cases, environments are linear and branches are isolated. -/
theorem environments_isolated (options : Options) (mentions : ε → Name → Bool) (root : Name)
    (patterns : List (Pattern ε)) {queue : Queue ε}
    (h : Reaches options mentions (Queue.ofPatterns root patterns) queue) :
    Isolated options mentions patterns.length queue where
  linear := h.linear (ofPatterns_linear root fun _ hcase => hcase)
  checked := stepChecked_eq options mentions queue
  grown := by
    rintro m ms env goal rest next rfl hcalls
    exact hcalls.of_every (step_grown rfl)
  fanned := by
    rintro subject alternatives ms env goal rest earlier later rfl hfanned
    have hbefore : Before goal (later.map (Branch.push ⟨ms, env, goal⟩) ++ rest)
        (earlier.map (Branch.push ⟨ms, env, .select 0⟩) ++ [])
        (earlier.map (Branch.push ⟨ms, env, goal⟩) ++
          (later.map (Branch.push ⟨ms, env, goal⟩) ++ rest)) :=
      .append .done (.tail (.refl _)) earlier
    rw [List.append_nil] at hbefore
    refine ⟨?_, hbefore.untilSettled⟩
    change Step.advance (List.map _ _ ++ rest) = _
    rw [hfanned, List.map_append, List.append_assoc]
  probed := by
    rintro subject inner ms env goal rest rfl
    exact ⟨rfl, (Before.cons .done (.tail (.refl _))).untilSettled, fun _ _ => rfl⟩

/-- The probe of a negated pattern has bound a variable, and the branch that it guards has not. -/
theorem environments_isolated_of_not :
    let root : Name := ⟨3⟩
    let x : Name := ⟨4⟩
    let y : Name := ⟨5⟩
    let inner : Pattern Nat := .and [.bind y, .literal (.int 1)]
    let patterns : List (Pattern Nat) := [.and [.bind x, .not inner], .bind y]
    let bound : Environment := ⟨[⟨x, root, false⟩]⟩
    let guarded : Branch Nat := ⟨[], bound, .select 0⟩
    let rest : Queue Nat := [Branch.ofCase root 1 (.bind y)]
    let queue := guarded.push (.pattern root (.not inner)) :: rest
    let probing : Queue Nat :=
      ⟨[.pattern root (.literal (.int 1))], ⟨[⟨x, root, false⟩, ⟨y, root, false⟩]⟩, .resume rest⟩ ::
        guarded :: rest
    Reaches {} (fun _ _ => false) (Queue.ofPatterns root patterns) queue ∧
      Isolated {} (fun _ _ => false) patterns.length queue ∧
      Reaches {} (fun _ _ => false) queue probing := by
  intro root x y inner patterns bound guarded rest queue probing
  have hqueue : Reaches {} (fun _ _ => false) (Queue.ofPatterns root patterns) queue :=
    .head (.advance rfl) (.head (.advance rfl) .refl)
  have hprobing : Reaches {} (fun _ _ => false) queue probing :=
    .head (.advance rfl) (.head (.advance rfl) (.head (.advance rfl) .refl))
  exact ⟨hqueue, environments_isolated _ _ root patterns hqueue, hprobing⟩

end Queue

end PatternCompiler
