import Mathlib.Order.WellFounded
import PatternCompiler.Decision.Build

/-!
# The recursion on queues ends

Building the tree of a queue goes on with the queues that one step asks for, whatever branches these
have and however deep queues are saved in their goals. Each of them costs less than the queue before
it, though it may be longer: alternatives and negations are charged in advance for what they copy.
The two queues of a test cost less even together, so the cost bounds how often the recursion is
entered, too.
-/

namespace PatternCompiler

set_option autoImplicit false

namespace Queue

variable {ε : Type}

/-- A match that is tested is charged for both sides of the test. -/
theorem cost_add_cost_lt (branch : Branch ε) (queue : Queue ε) {m : Pending ε}
    (hm : ∀ s f, 1 + s f + f ≤ m.cost s f) :
    Queue.cost (branch :: queue) + Queue.cost queue < Queue.cost (branch.push m :: queue) := by
  have hcost := hm (Pending.costAll branch.pending branch.goal.onward) (Queue.cost queue)
  rw [cost_cons_push, cost_cons]
  omega

/-- What a branch has read is not charged. -/
theorem cost_read (mentions : ε → Name → Bool) (branch : Branch ε) (expr : ε) (queue : Queue ε) :
    Queue.cost (branch.read mentions expr :: queue) = Queue.cost (branch :: queue) := by
  rw [cost_cons, cost_cons]
  rfl

variable [BEq ε]

/-- The recursion on the first queue goes on with the second one. -/
inductive Calls (options : Options) (mentions : ε → Name → Bool) : Queue ε → Queue ε → Prop where
  | advance {queue next : Queue ε} (h : step options mentions queue = .advance next) :
      Calls options mentions queue next
  | yes {queue yes no : Queue ε} {asked : Test ε}
      (h : step options mentions queue = .test asked yes no) : Calls options mentions queue yes
  | no {queue yes no : Queue ε} {asked : Test ε}
      (h : step options mentions queue = .test asked yes no) : Calls options mentions queue no
  | body {queue : Queue ε} {func : ε} {subject : Name} {pairs : List (Name × Name)}
      {body : Name → Queue ε} (h : step options mentions queue = .project func subject pairs body)
      (fresh : Name) : Calls options mentions queue (body fresh)

/-- Building the decision from the queue enters the recursion so many times in all. -/
inductive Entered (options : Options) (mentions : ε → Name → Bool) :
    Queue ε → Decision ε → Nat → Prop where
  | fail {queue : Queue ε} (h : step options mentions queue = .fail) :
      Entered options mentions queue .fail 1
  | select {queue : Queue ε} {case : Nat} {env : Environment} (use : Nat)
      (h : step options mentions queue = .select case env) :
      Entered options mentions queue (.leaf case use) 1
  | advance {queue next : Queue ε} {decision : Decision ε} {n : Nat}
      (h : step options mentions queue = .advance next)
      (hnext : Entered options mentions next decision n) :
      Entered options mentions queue decision (n + 1)
  | test {queue yes no : Queue ε} {asked : Test ε} {dyes dno : Decision ε} {m n : Nat}
      (h : step options mentions queue = .test asked yes no)
      (hyes : Entered options mentions yes dyes m) (hno : Entered options mentions no dno n) :
      Entered options mentions queue (.test asked dyes dno) (m + n + 1)
  | project {queue : Queue ε} {func : ε} {subject fresh : Name} {pairs : List (Name × Name)}
      {body : Name → Queue ε} {decision : Decision ε} {n : Nat}
      (h : step options mentions queue = .project func subject pairs body)
      (hbody : Entered options mentions (body fresh) decision n) :
      Entered options mentions queue (.project fresh func subject pairs decision) (n + 1)

variable {options : Options} {mentions : ε → Name → Bool} {queue next : Queue ε}

theorem Calls.cost_lt (h : Calls options mentions queue next) :
    Queue.cost next < Queue.cost queue := by
  have hdescends := step_descends options mentions queue
  cases h with
  | advance h =>
      rw [h] at hdescends
      exact hdescends
  | yes h =>
      rw [h] at hdescends
      exact hdescends.1
  | no h =>
      rw [h] at hdescends
      exact hdescends.2
  | body h fresh =>
      rw [h] at hdescends
      exact hdescends fresh

/-! ## Both sides of a test -/

theorem testStep_cost_le {test asked : Test ε} {branch : Branch ε} {yes no : Queue ε}
    (h : testStep options mentions test branch queue = .test asked yes no) :
    Queue.cost yes + Queue.cost no ≤ Queue.cost (branch :: queue) + Queue.cost queue := by
  unfold testStep at h
  split at h
  · cases h
    exact Nat.add_le_add (branch.cost_mono (cost_refine_le mentions test true queue))
      (cost_refine_le mentions test false queue)
  · cases h
    exact Nat.le_refl _

theorem patternStep_cost_lt {subject : Name} {branch : Branch ε} {p : Pattern ε} {asked : Test ε}
    {yes no : Queue ε}
    (h : patternStep options mentions subject branch queue p = .test asked yes no) :
    Queue.cost yes + Queue.cost no < Queue.cost (branch.push (.pattern subject p) :: queue) := by
  have htest (hp : ∀ s f, 1 + s f + f ≤ p.cost s f) :=
    cost_add_cost_lt branch queue (m := .pattern subject p) hp
  cases p with
  | literal l => exact Nat.lt_of_le_of_lt (testStep_cost_le h) (htest fun _ _ => Nat.le_refl _)
  | predicate func =>
      refine Nat.lt_of_le_of_lt (testStep_cost_le h) ?_
      rw [cost_read]
      exact htest fun _ _ => Nat.le_refl _
  | guard expr =>
      refine Nat.lt_of_le_of_lt (testStep_cost_le h) ?_
      rw [cost_read]
      exact htest fun _ _ => Nat.le_refl _
  | wildcard => cases h
  | bind name => cases h
  | app func inner => cases h
  | not inner => cases h
  | and items => cases h
  | or alternatives => cases h

theorem step_cost_lt {asked : Test ε} {yes no : Queue ε}
    (h : step options mentions queue = .test asked yes no) :
    Queue.cost yes + Queue.cost no < Queue.cost queue := by
  match queue, h with
  | [], h => cases h
  | ⟨[], env, .select case⟩ :: queue, h => cases h
  | ⟨[], env, .resume saved⟩ :: queue, h => cases h
  | ⟨.pattern subject p :: ms, env, goal⟩ :: queue, h =>
      exact @patternStep_cost_lt _ _ _ _ _ subject ⟨ms, env, goal⟩ p _ _ _ h
  | ⟨.member subject set eqv :: ms, env, goal⟩ :: queue, h =>
      exact Nat.lt_of_le_of_lt (testStep_cost_le h) (cost_add_cost_lt ⟨ms, env, goal⟩ queue
        (m := .member subject set eqv) fun _ _ => Nat.le_refl _)
  | ⟨.sameAs subject other :: ms, env, goal⟩ :: queue, h =>
      exact Nat.lt_of_le_of_lt (testStep_cost_le h) (cost_add_cost_lt ⟨ms, env, goal⟩ queue
        (m := .sameAs subject other) fun _ _ => Nat.le_refl _)

/-! ## The recursion -/

theorem Entered.le_cost {decision : Decision ε} {n : Nat}
    (h : Entered options mentions queue decision n) : n ≤ 2 * Queue.cost queue + 1 := by
  induction h with
  | fail h => exact Nat.le_add_left 1 _
  | select use h => exact Nat.le_add_left 1 _
  | advance h _ ih =>
      have hlt := (Calls.advance h).cost_lt
      omega
  | test h _ _ ihyes ihno =>
      have hlt := step_cost_lt h
      omega
  | @project _ _ _ fresh _ _ _ _ h _ ih =>
      have hlt := (Calls.body h fresh).cost_lt
      omega

theorem exists_entered (options : Options) (mentions : ε → Name → Bool) (queue : Queue ε)
    (b : Builder) : ∃ n, Entered options mentions queue (build options mentions queue b).1 n := by
  induction queue using Queue.build.induct options mentions generalizing b with
  | case1 queue hstep =>
      rw [build_of_fail hstep]
      exact ⟨1, .fail hstep⟩
  | case2 queue case env hstep =>
      rw [build_of_select hstep]
      exact ⟨1, .select _ hstep⟩
  | case3 queue next hstep ih =>
      rw [build_of_advance hstep]
      obtain ⟨n, h⟩ := ih b
      exact ⟨n + 1, .advance hstep h⟩
  | case4 queue asked yes no hstep ihyes ihno =>
      rw [build_of_test hstep]
      obtain ⟨m, hyes⟩ := ihyes b
      obtain ⟨n, hno⟩ := ihno (build options mentions yes b).2
      exact ⟨m + n + 1, .test hstep hyes hno⟩
  | case5 queue func subject pairs body hstep ih =>
      rw [build_of_project hstep]
      obtain ⟨n, h⟩ := ih b.projection.1 b.projection.2
      exact ⟨n + 1, .project hstep h⟩

/-- Every call of the recursion is on a queue of lower cost, so no chain of calls is infinite, and
the cost of the first queue bounds how many calls there are. -/
theorem recursion_descends (options : Options) (mentions : ε → Name → Bool) :
    (∀ queue next : Queue ε, Calls options mentions queue next →
      Queue.cost next < Queue.cost queue) ∧
    WellFounded (fun next queue : Queue ε => Calls options mentions queue next) ∧
    ∀ (queue : Queue ε) (b : Builder),
      ∃ n, Entered options mentions queue (build options mentions queue b).1 n ∧
        n ≤ 2 * Queue.cost queue + 1 := by
  refine ⟨fun _ _ h => h.cost_lt, ?_, fun queue b => ?_⟩
  · exact Subrelation.wf Calls.cost_lt (InvImage.wf Queue.cost Nat.lt_wfRel.wf)
  · obtain ⟨n, h⟩ := exists_entered options mentions queue b
    exact ⟨n, h, h.le_cost⟩

end Queue

end PatternCompiler
