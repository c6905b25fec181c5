import PatternCompiler.Pattern

/-!
# Emitters

The compiler composes code that it never looks into. An emitter says what a reference, a test, a
projection, a conditional and a binding form look like in a target, in whatever state `σ` the
target needs to build them. Expressions `ε` are values of the target and code `κ` is what runs.
Bindings handed to a hook pair the pattern variables that the hooked expression mentions with the
expressions that hold their values.
-/

namespace PatternCompiler

set_option autoImplicit false

structure Emitter (σ ε κ : Type) where
  /-- Whether an expression may refer to a name. Answering `true` is always right; `false` lets
  the compiler keep the name from the expression and share the expression between branches. -/
  mentions : ε → Name → Bool
  var : Name → StateM σ ε
  equalityTest : (subject : ε) → Literal → Equivalence → StateM σ κ
  membershipTest : (subject : ε) → List Literal → Equivalence → StateM σ κ
  sameValueTest : (subject other : ε) → StateM σ κ
  predicateTest : (func subject : ε) → (bindings : List (Name × ε)) → StateM σ κ
  guardTest : (expr : ε) → (bindings : List (Name × ε)) → StateM σ κ
  apply : (func subject : ε) → (bindings : List (Name × ε)) → StateM σ ε
  cond : (test yes no : κ) → StateM σ κ
  /-- Bind names, all at once, around a body. -/
  letIn : (bindings : List (Name × ε)) → (body : κ) → StateM σ κ
  /-- What runs when no case matches. -/
  noMatch : StateM σ κ
  /-- The value of a case's variable on a path that does not bind it. -/
  unboundValue : StateM σ ε

/-- One call of a hook with the expressions it was given. -/
inductive HookCall (ε : Type) where
  | var (name : Name)
  | equalityTest (subject : ε) (literal : Literal) (eqv : Equivalence)
  | membershipTest (subject : ε) (set : List Literal) (eqv : Equivalence)
  | sameValueTest (subject other : ε)
  | predicateTest (func subject : ε) (bindings : List (Name × ε))
  | guardTest (expr : ε) (bindings : List (Name × ε))
  | apply (func subject : ε) (bindings : List (Name × ε))
  | cond
  | letIn (bindings : List (Name × ε))
  | noMatch
  | unboundValue

/-- The hook's name in a trace. -/
def HookCall.label {ε : Type} : HookCall ε → String
  | var _ => "var"
  | equalityTest .. => "equality_test"
  | membershipTest .. => "membership_test"
  | sameValueTest .. => "same_value_test"
  | predicateTest .. => "predicate_test"
  | guardTest .. => "guard_test"
  | apply .. => "apply"
  | cond => "if_"
  | letIn _ => "let_"
  | noMatch => "no_match"
  | unboundValue => "unbound_value"

namespace Emitter

variable {σ τ ε κ : Type}

/-- The same hooks in a larger state. -/
def lift (within : {α : Type} → StateM σ α → StateM τ α) (e : Emitter σ ε κ) : Emitter τ ε κ where
  mentions := e.mentions
  var name := within (e.var name)
  equalityTest subject literal eqv := within (e.equalityTest subject literal eqv)
  membershipTest subject set eqv := within (e.membershipTest subject set eqv)
  sameValueTest subject other := within (e.sameValueTest subject other)
  predicateTest func subject bindings := within (e.predicateTest func subject bindings)
  guardTest expr bindings := within (e.guardTest expr bindings)
  apply func subject bindings := within (e.apply func subject bindings)
  cond test yes no := within (e.cond test yes no)
  letIn bindings body := within (e.letIn bindings body)
  noMatch := within e.noMatch
  unboundValue := within e.unboundValue

/-- The same hooks, each call recorded before it is made. -/
def traced (record : HookCall ε → StateM σ Unit) (e : Emitter σ ε κ) : Emitter σ ε κ where
  mentions := e.mentions
  var name := do record (.var name); e.var name
  equalityTest subject literal eqv := do
    record (.equalityTest subject literal eqv)
    e.equalityTest subject literal eqv
  membershipTest subject set eqv := do
    record (.membershipTest subject set eqv)
    e.membershipTest subject set eqv
  sameValueTest subject other := do
    record (.sameValueTest subject other)
    e.sameValueTest subject other
  predicateTest func subject bindings := do
    record (.predicateTest func subject bindings)
    e.predicateTest func subject bindings
  guardTest expr bindings := do
    record (.guardTest expr bindings)
    e.guardTest expr bindings
  apply func subject bindings := do
    record (.apply func subject bindings)
    e.apply func subject bindings
  cond test yes no := do record .cond; e.cond test yes no
  letIn bindings body := do record (.letIn bindings); e.letIn bindings body
  noMatch := do record .noMatch; e.noMatch
  unboundValue := do record .unboundValue; e.unboundValue

/-- The same hooks without knowledge of what an expression mentions. -/
def unaware (e : Emitter σ ε κ) : Emitter σ ε κ := { e with mentions := fun _ _ => true }

end Emitter

end PatternCompiler
