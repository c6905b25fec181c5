import PatternCompiler.Emitter
import PatternCompiler.Form
import PatternCompiler.Vocabulary

/-!
# Emission of forms

The emitter for the list-processing target. A function in a pattern takes the subject as its last
argument: a designator `#'f` is called as `(f subject)`, a call `(f a)` as `(f a subject)`, and any
other form through `funcall`. Literals become constants with new objects.
-/

namespace PatternCompiler

set_option autoImplicit false

/-- The call that applies a function of a pattern to a subject. -/
def Form.application (ops : Operators) (func subject : Form) : Form :=
  match func with
  | .function name => .call name [subject]
  | .call name args => .call name (args ++ [subject])
  | _ => .call ops.funcall [func, subject]

def formEmitter (ops : Operators) : Emitter ObjectSupply Form Form where
  mentions expr name := expr.mentions name
  var name := return .var name
  equalityTest subject literal eqv := do
    return .call (ops.comparator eqv) [subject, .quote (← Value.ofLiteral literal)]
  membershipTest subject set eqv := do
    let values ← Value.ofLiterals set
    return .call (ops.membership eqv) [subject, .quote (← Value.newList values)]
  sameValueTest subject other := return .call ops.eql [subject, other]
  predicateTest func subject bindings := return .bound bindings (func.application ops subject)
  guardTest expr bindings := return .bound bindings expr
  apply func subject bindings := return .bound bindings (func.application ops subject)
  cond test yes no := return .cond test yes no
  letIn bindings body := return .bound bindings body
  noMatch := return .nil
  unboundValue := return .nil

end PatternCompiler
