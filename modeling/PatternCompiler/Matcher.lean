import PatternCompiler.Evaluator
import PatternCompiler.FormEmitter

/-!
# Direct matching

Patterns interpreted on a value by backtracking: cases in order, conjuncts from left to right,
alternatives depth first, the next alternative being tried whenever the rest of the case fails.
Nothing is shared, folded or pruned, which makes this the reference for compiled code.
-/

namespace PatternCompiler

set_option autoImplicit false

/-- Pattern variables with their values, in binding order. -/
abbrev Bindings := List (Name × Value)

namespace Matcher

/-- Apply a function of a pattern to a value under bindings, called as generated code calls it. -/
def applyFunction (vocabulary : Vocabulary) (func : Form) (value : Value) (env : Bindings) :
    EvalM Value :=
  (func.application vocabulary.operators (.quote value)).evalWith vocabulary.functions env

/-- What is left to do with the bindings of a partial match. -/
abbrev Continuation := Bindings → EvalM (Option Bindings)

def accept : Continuation := fun env => return some env

def continueIf (condition : Bool) (env : Bindings) (k : Continuation) : EvalM (Option Bindings) :=
  if condition then k env else return none

/-- Bind a name and go on; a name bound before must hold the same value. -/
def bindName (name : Name) (value : Value) (env : Bindings) (k : Continuation) :
    EvalM (Option Bindings) :=
  match env.lookup name with
  | some bound => continueIf (bound.isEql value) env k
  | none => k (env ++ [(name, value)])

mutual

/-- The bindings of the first way to match that the continuation accepts. -/
def attempt (vocabulary : Vocabulary) :
    Pattern Form → Value → Bindings → Continuation → EvalM (Option Bindings)
  | .wildcard, _, env, k => k env
  | .bind name, value, env, k => bindName name value env k
  | .literal literal, value, env, k => do
      let constant ← EvalM.allocate (Value.ofLiteral literal)
      continueIf (value.equiv literal.equivalence constant) env k
  | .predicate func, value, env, k => do
      let result ← applyFunction vocabulary func value env
      continueIf result.isTruthy env k
  | .guard expr, _, env, k => do
      let result ← expr.evalWith vocabulary.functions env
      continueIf result.isTruthy env k
  | .app func inner, value, env, k => do
      let projected ← applyFunction vocabulary func value env
      attempt vocabulary inner projected env k
  | .not inner, value, env, k => do
      let matched ← attempt vocabulary inner value env accept
      continueIf matched.isNone env k
  | .and items, value, env, k => attemptAll vocabulary items value env k
  | .or alternatives, value, env, k => attemptAny vocabulary alternatives value env k

def attemptAll (vocabulary : Vocabulary) :
    List (Pattern Form) → Value → Bindings → Continuation → EvalM (Option Bindings)
  | [], _, env, k => k env
  | p :: ps, value, env, k =>
      attempt vocabulary p value env fun env => attemptAll vocabulary ps value env k

/-- Match the first pattern with which the rest succeeds too. -/
def attemptAny (vocabulary : Vocabulary) :
    List (Pattern Form) → Value → Bindings → Continuation → EvalM (Option Bindings)
  | [], _, _, _ => return none
  | p :: ps, value, env, k => do
      match ← attempt vocabulary p value env k with
      | some found => return some found
      | none => attemptAny vocabulary ps value env k

end

def firstMatchFrom (vocabulary : Vocabulary) (value : Value) :
    Nat → List (Pattern Form) → EvalM (Option (Nat × Bindings))
  | _, [] => return none
  | index, p :: ps => do
      match ← attempt vocabulary p value [] accept with
      | some env => return some (index, env)
      | none => firstMatchFrom vocabulary value (index + 1) ps

/-- The first case whose pattern matches a value, with its bindings. -/
def firstMatch (vocabulary : Vocabulary) (patterns : List (Pattern Form)) (value : Value) :
    EvalM (Option (Nat × Bindings)) :=
  firstMatchFrom vocabulary value 0 patterns

end Matcher

end PatternCompiler
