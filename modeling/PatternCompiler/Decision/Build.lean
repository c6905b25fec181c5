import PatternCompiler.NameSupply
import PatternCompiler.UseTable
import PatternCompiler.Queue.Descent

/-!
# Decisions from queues

The decision tree of a queue, built step by step. The tree of the successful side of a test is
built before that of the other side, and the variable of a projection is named before its body is
built; both show in the generated names.
-/

namespace PatternCompiler

set_option autoImplicit false

structure Builder where
  names : NameSupply
  uses : UseTable
  projections : Nat

namespace Builder

def reach (case : Nat) (env : Environment) : StateM Builder Nat := fun b =>
  let (use, uses) := b.uses.reach case env
  (use, { b with uses := uses })

def projection : StateM Builder Name := fun b =>
  let (fresh, names) := NameSupply.fresh "x" b.names
  (fresh, { b with names := names, projections := b.projections + 1 })

end Builder

/-- The decision tree of a queue. -/
def Queue.build {ε : Type} [BEq ε] (options : Options) (mentions : ε → Name → Bool)
    (queue : Queue ε) : StateM Builder (Decision ε) :=
  match _h : Queue.step options mentions queue with
  | .fail => return .fail
  | .select case env => return .leaf case (← Builder.reach case env)
  | .advance next => Queue.build options mentions next
  | .test test yes no => do
      let yes ← Queue.build options mentions yes
      let no ← Queue.build options mentions no
      return .test test yes no
  | .project func subject bindings body => do
      let fresh ← Builder.projection
      let body ← Queue.build options mentions (body fresh)
      return .project fresh func subject bindings body
termination_by Queue.cost queue
decreasing_by
  all_goals
    have descends := Queue.step_descends options mentions queue
    rw [_h] at descends
  · exact descends
  · exact descends.1
  · exact descends.2
  · exact descends _

/-- The recursion without the proof that it ends. -/
theorem Queue.build_eq {ε : Type} [BEq ε] (options : Options) (mentions : ε → Name → Bool)
    (queue : Queue ε) :
    Queue.build options mentions queue =
      match Queue.step options mentions queue with
      | .fail => return .fail
      | .select case env => return .leaf case (← Builder.reach case env)
      | .advance next => Queue.build options mentions next
      | .test test yes no => do
          let yes ← Queue.build options mentions yes
          let no ← Queue.build options mentions no
          return .test test yes no
      | .project func subject bindings body => do
          let fresh ← Builder.projection
          let body ← Queue.build options mentions (body fresh)
          return .project fresh func subject bindings body := by
  rw [Queue.build]
  split <;> simp_all

namespace Queue

variable {ε : Type} [BEq ε] {options : Options} {mentions : ε → Name → Bool} {queue : Queue ε}

theorem build_of_fail (h : step options mentions queue = .fail) (b : Builder) :
    build options mentions queue b = (.fail, b) := by
  rw [build_eq, h]
  rfl

theorem build_of_select {case : Nat} {env : Environment}
    (h : step options mentions queue = .select case env) (b : Builder) :
    build options mentions queue b = (.leaf case (b.reach case env).1, (b.reach case env).2) := by
  rw [build_eq, h]
  rfl

theorem build_of_advance {next : Queue ε} (h : step options mentions queue = .advance next) :
    build options mentions queue = build options mentions next := by
  rw [build_eq, h]

theorem build_of_test {asked : Test ε} {yes no : Queue ε}
    (h : step options mentions queue = .test asked yes no) (b : Builder) :
    build options mentions queue b =
      let onYes := build options mentions yes b
      let onNo := build options mentions no onYes.2
      (.test asked onYes.1 onNo.1, onNo.2) := by
  rw [build_eq, h]
  rfl

theorem build_of_project {func : ε} {subject : Name} {pairs : List (Name × Name)}
    {body : Name → Queue ε} (h : step options mentions queue = .project func subject pairs body)
    (b : Builder) :
    build options mentions queue b =
      let built := build options mentions (body b.projection.1) b.projection.2
      (.project b.projection.1 func subject pairs built.1, built.2) := by
  rw [build_eq, h]
  rfl

end Queue

end PatternCompiler
