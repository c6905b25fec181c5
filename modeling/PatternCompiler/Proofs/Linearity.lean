import PatternCompiler.Proofs.Signature

/-!
# Linear environments

No environment of a queue binds a name twice, those in saved queues included, and a queue selects
no case but those it started with. Both hold of the cases as they are given, whatever their
expressions are, and every step keeps them.
-/

namespace PatternCompiler

set_option autoImplicit false

variable {ε : Type}

mutual

/-- The branch is linear and selects only certain cases. -/
def Branch.Linear (cases : Nat → Prop) : Branch ε → Prop
  | ⟨_, env, goal⟩ => env.names.Nodup ∧ Goal.Linear cases goal

def Goal.Linear (cases : Nat → Prop) : Goal (List (Branch ε)) → Prop
  | .select case => cases case
  | .resume queue => Queue.Linear cases queue

def Queue.Linear (cases : Nat → Prop) : List (Branch ε) → Prop
  | [] => True
  | branch :: queue => branch.Linear cases ∧ Queue.Linear cases queue

end

def Step.Linear (cases : Nat → Prop) : Step ε → Prop
  | .fail => True
  | .select case env => cases case ∧ env.names.Nodup
  | .advance queue => Queue.Linear cases queue
  | .test _ yes no => Queue.Linear cases yes ∧ Queue.Linear cases no
  | .project _ _ _ body => ∀ fresh, Queue.Linear cases (body fresh)

variable {cases : Nat → Prop} {branch : Branch ε} {queue : Queue ε}

theorem Branch.linear_iff :
    branch.Linear cases ↔ branch.env.names.Nodup ∧ branch.goal.Linear cases := by
  obtain ⟨pending, env, goal⟩ := branch
  rw [Branch.Linear]

theorem Queue.linear_iff : Queue.Linear cases queue ↔ ∀ branch ∈ queue, branch.Linear cases := by
  induction queue with
  | nil => simp [Queue.Linear]
  | cons branch queue ih => rw [Queue.Linear, ih, List.forall_mem_cons]

theorem Queue.Linear.cons (hb : branch.Linear cases) (hq : Queue.Linear cases queue) :
    Queue.Linear cases (branch :: queue) := by
  rw [Queue.Linear]
  exact ⟨hb, hq⟩

/-! ## Branches -/

namespace Environment

@[simp] theorem names_markUsed (env : Environment) (x : Name) :
    (env.markUsed x).names = env.names := by
  rw [names_eq, pairs_markUsed, ← names_eq]

@[simp] theorem names_markAllUsed (env : Environment) (xs : List Name) :
    (env.markAllUsed xs).names = env.names := by
  rw [names_eq, pairs_markAllUsed, ← names_eq]

end Environment

namespace Branch

theorem Linear.withPending (h : branch.Linear cases) (pending : List (Pending ε)) :
    Branch.Linear cases { branch with pending := pending } := by
  rw [linear_iff] at h ⊢
  exact h

theorem Linear.withEnv (h : branch.Linear cases) {env : Environment} (henv : env.names.Nodup) :
    Branch.Linear cases { branch with env := env } := by
  rw [linear_iff] at h ⊢
  exact ⟨henv, h.2⟩

theorem Linear.read (h : branch.Linear cases) (mentions : ε → Name → Bool) (expr : ε) :
    (branch.read mentions expr).Linear cases := by
  refine h.withEnv ?_
  rw [Environment.names_markAllUsed]
  exact (linear_iff.mp h).1

theorem Linear.bind (h : branch.Linear cases) (x subject : Name) :
    (branch.bind x subject).Linear cases := by
  have henv := (linear_iff.mp h).1
  unfold Branch.bind Environment.extend
  cases hx : branch.env.lookup? x with
  | none => exact h.withEnv (Environment.nodup_push henv hx subject)
  | some b =>
      simp only
      split
      · exact h
      · refine Linear.withPending (h.withEnv ?_) _
        rw [Environment.names_markUsed]
        exact henv

theorem Linear.probe (h : branch.Linear cases) (hq : Queue.Linear cases queue) (subject : Name)
    (p : Pattern ε) : (branch.probe subject p queue).Linear cases := by
  rw [linear_iff] at h ⊢
  refine ⟨h.1, ?_⟩
  rw [Branch.probe, Goal.Linear]
  exact hq

theorem ofCase_linear (root : Name) {case : Nat} (hcase : cases case) (p : Pattern ε) :
    (Branch.ofCase root case p).Linear cases := by
  rw [linear_iff, Branch.ofCase, Goal.Linear]
  exact ⟨List.nodup_nil, hcase⟩

end Branch

theorem Queue.ofPatterns_linear (root : Name) {patterns : List (Pattern ε)}
    (hcases : ∀ case < patterns.length, cases case) :
    Queue.Linear cases (Queue.ofPatterns root patterns) := by
  refine Queue.linear_iff.mpr fun branch hbranch => ?_
  obtain ⟨case, p, hcase, -, rfl⟩ := Branch.exists_of_mem_ofPatterns hbranch
  exact Branch.ofCase_linear root (hcases case hcase) p

/-! ## Steps -/

namespace Queue

variable [BEq ε] {options : Options} {mentions : ε → Name → Bool}

theorem Linear.refine (h : Queue.Linear cases queue) (test : Test ε) (outcome : Bool) :
    Queue.Linear cases (Queue.refine mentions test outcome queue) := by
  unfold Queue.refine
  split
  · exact h
  · rw [linear_iff] at h ⊢
    intro refined hmem
    obtain ⟨branch, hbranch, hrefined⟩ := List.mem_filterMap.mp hmem
    obtain ⟨left, -, rfl⟩ := Option.map_eq_some_iff.mp hrefined
    exact (h branch hbranch).withPending left

theorem Linear.share (h : Queue.Linear cases queue) (pr : Projection ε) :
    Queue.Linear cases (Queue.share mentions pr queue) := by
  rw [linear_iff] at h ⊢
  intro shared hmem
  obtain ⟨branch, hbranch, rfl⟩ := List.mem_map.mp hmem
  unfold Projection.shareBranch
  split
  · exact (h branch hbranch).withPending _
  · exact h branch hbranch

theorem testStep_linear (hb : branch.Linear cases) (hq : Queue.Linear cases queue)
    (test : Test ε) : (testStep options mentions test branch queue).Linear cases := by
  unfold testStep
  split
  · exact ⟨.cons hb (hq.refine test true), hq.refine test false⟩
  · exact ⟨.cons hb hq, hq⟩

theorem patternStep_linear (hb : branch.Linear cases) (hq : Queue.Linear cases queue)
    (subject : Name) (p : Pattern ε) :
    (patternStep options mentions subject branch queue p).Linear cases := by
  cases p with
  | wildcard => exact .cons hb hq
  | bind x => exact .cons (hb.bind x subject) hq
  | literal l => exact testStep_linear hb hq _
  | predicate func => exact testStep_linear (hb.read mentions func) hq _
  | guard expr => exact testStep_linear (hb.read mentions expr) hq _
  | app func inner =>
      intro fresh
      refine .cons ((hb.read mentions func).withPending _) ?_
      split
      · exact hq.share _
      · exact hq
  | not inner => exact .cons (hb.probe hq subject inner) (.cons hb hq)
  | and items => exact .cons (hb.withPending _) hq
  | or alternatives =>
      refine linear_iff.mpr fun fanned hmem => ?_
      rcases List.mem_append.mp hmem with hmem | hmem
      · obtain ⟨m, -, rfl⟩ := List.mem_map.mp hmem
        exact hb.withPending _
      · exact linear_iff.mp hq fanned hmem

/-- A step brings up no second binding of a name and no new case. -/
theorem step_linear (h : Queue.Linear cases queue) :
    (step options mentions queue).Linear cases := by
  match queue with
  | [] => trivial
  | ⟨[], env, .select case⟩ :: queue =>
      rw [Queue.Linear, Branch.Linear, Goal.Linear] at h
      exact ⟨h.1.2, h.1.1⟩
  | ⟨[], env, .resume saved⟩ :: queue =>
      rw [Queue.Linear, Branch.Linear, Goal.Linear] at h
      exact h.1.2
  | ⟨m :: ms, env, goal⟩ :: queue =>
      rw [Queue.Linear] at h
      have hb := h.1.withPending ms
      cases m with
      | pattern subject p => exact patternStep_linear hb h.2 subject p
      | member subject set eqv => exact testStep_linear hb h.2 _
      | sameAs subject other => exact testStep_linear hb h.2 _

end Queue

end PatternCompiler
