import PatternCompiler.Pattern

/-!
# Decisions

A decision tree asks one test after another and introduces variables for the values it projects
out of its subjects. Its leaves refer to case bodies by case number and use number only, so a tree
exists before any body does.
-/

namespace PatternCompiler

set_option autoImplicit false

/-- One check at run time. Bindings pair a pattern variable with the subject that holds it. -/
inductive Test (ε : Type) where
  | equal (subject : Name) (literal : Literal) (eqv : Equivalence)
  | member (subject : Name) (set : List Literal) (eqv : Equivalence)
  | sameAs (subject other : Name)
  | predicate (subject : Name) (func : ε) (bindings : List (Name × Name))
  | guard (expr : ε) (bindings : List (Name × Name))

def Test.subjects {ε : Type} : Test ε → List Name
  | equal subject _ _ | member subject _ _ => [subject]
  | sameAs subject other => [subject, other]
  | predicate subject _ bindings => subject :: bindings.map Prod.snd
  | guard _ bindings => bindings.map Prod.snd

inductive Decision (ε : Type) where
  | fail
  /-- A case matches; its body is the one made for this use. -/
  | leaf (case use : Nat)
  | test (test : Test ε) (yes no : Decision ε)
  /-- Within the body, `fresh` holds what the function gives for the subject. -/
  | project (fresh : Name) (func : ε) (subject : Name) (bindings : List (Name × Name))
      (body : Decision ε)

namespace Decision

variable {ε : Type}

def testCount : Decision ε → Nat
  | fail | leaf .. => 0
  | test _ yes no => 1 + yes.testCount + no.testCount
  | project _ _ _ _ body => body.testCount

def projectionCount : Decision ε → Nat
  | fail | leaf .. => 0
  | test _ yes no => yes.projectionCount + no.projectionCount
  | project _ _ _ _ body => 1 + body.projectionCount

def leaves : Decision ε → List (Nat × Nat)
  | fail => []
  | leaf case use => [(case, use)]
  | test _ yes no => yes.leaves ++ no.leaves
  | project _ _ _ _ body => body.leaves

end Decision

end PatternCompiler
