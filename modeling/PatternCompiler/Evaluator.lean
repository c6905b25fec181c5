import PatternCompiler.Builtin
import PatternCompiler.Form

/-!
# Evaluation of forms

Lexical scopes, conditionals, parallel lets and calls of builtins. Arguments are evaluated from
left to right after the function has been found and before their number is checked. Integer
arithmetic never wraps: a result that does not fit is an error.
-/

namespace PatternCompiler

set_option autoImplicit false

inductive EvalError where
  | unboundVariable (name : Name)
  | undefinedFunction (name : Name)
  | wrongArity (func : Builtin) (expected got : Nat)
  | wrongType (func : Builtin) (value : Value)
  | overflow (func : Builtin)
deriving Inhabited

def EvalError.message (symbols : SymbolTable) : EvalError → String
  | unboundVariable name => "unbound variable `" ++ symbols.lookup name ++ "`"
  | undefinedFunction name => "undefined function `" ++ symbols.lookup name ++ "`"
  | wrongArity func expected got =>
      "`" ++ func.spelling ++ "` expects " ++ toString expected ++ " argument(s), got "
        ++ toString got
  | wrongType func value =>
      "`" ++ func.spelling ++ "`: wrong type argument " ++ value.text symbols
  | overflow func => "integer overflow in `" ++ func.spelling ++ "`"

/-- Evaluation makes objects and may fail. -/
abbrev EvalM := StateT ObjectSupply (Except EvalError)

def EvalM.allocate {α : Type} (action : StateM ObjectSupply α) : EvalM α := fun supply =>
  .ok (action supply)

/-- Variables with their values, innermost first. -/
abbrev Scope := List (Name × Value)

namespace Builtin

def expectInt (b : Builtin) : Value → EvalM Int64
  | .int n => return n
  | v => throw (.wrongType b v)

/-- An exact result, if it fits. -/
def fit (b : Builtin) (n : Int) : EvalM Int64 :=
  if Int64.minValue.toInt ≤ n ∧ n ≤ Int64.maxValue.toInt then return Int64.ofInt n
  else throw (.overflow b)

def sum (total : Int64) : List Value → EvalM Int64
  | [] => return total
  | v :: vs => do
      let n ← expectInt add v
      let total ← fit add (total.toInt + n.toInt)
      sum total vs

def difference (total : Int64) : List Value → EvalM Int64
  | [] => return total
  | v :: vs => do
      let n ← expectInt sub v
      let total ← fit sub (total.toInt - n.toInt)
      difference total vs

/-- Nothing is zero, one argument is negated, and more are taken off the first. -/
def subtract : List Value → EvalM Int64
  | [] => return 0
  | [v] => do
      let n ← expectInt sub v
      fit sub (-n.toInt)
  | v :: vs => do
      let n ← expectInt sub v
      difference n vs

def compare (b : Builtin) (test : Int64 → Int64 → Bool) (v w : Value) : EvalM Value := do
  let m ← expectInt b v
  let n ← expectInt b w
  return .ofBool (test m n)

/-- Half of a cell, where `nil` counts as a cell of two `nil`s. -/
def half (b : Builtin) (part? : Value → Option Value) (v : Value) : EvalM Value :=
  match part? v with
  | some part => return part
  | none => if v.isNil then return .nil else throw (.wrongType b v)

/-- The rest of a list from its first element that is equal to `item`. -/
def tailFrom (b : Builtin) (eqv : Equivalence) (item : Value) : Value → EvalM Value
  | .cons object first rest =>
      if item.equiv eqv first then return .cons object first rest else tailFrom b eqv item rest
  | v => if v.isNil then return .nil else throw (.wrongType b v)

/-- Run a function other than `funcall` on its arguments. -/
def run (b : Builtin) (args : List Value) : EvalM Value :=
  match b, args with
  | car, [v] => half car Value.car? v
  | cdr, [v] => half cdr Value.cdr? v
  | carSafe, [v] => return v.car?.getD .nil
  | cdrSafe, [v] => return v.cdr?.getD .nil
  | consp, [v] => return .ofBool v.isCons
  | integerp, [v] => return .ofBool (v matches .int _)
  | symbolp, [v] => return .ofBool (v matches .symbol _)
  | stringp, [v] => return .ofBool (v matches .str ..)
  | numberp, [v] => return .ofBool (v matches .int _ | .float _)
  | null, [v] => return .ofBool v.isNil
  | eq, [v, w] => return .ofBool (v.isEq w)
  | eql, [v, w] => return .ofBool (v.isEql w)
  | equal, [v, w] => return .ofBool (v.isEqual w)
  | memq, [v, w] => tailFrom memq .identity v w
  | memql, [v, w] => tailFrom memql .numericIdentity v w
  | member, [v, w] => tailFrom member .structural v w
  | list, vs => EvalM.allocate (Value.newList vs)
  | cons, [v, w] => EvalM.allocate (Value.newCons v w)
  | add, vs => return .int (← sum 0 vs)
  | sub, vs => return .int (← subtract vs)
  | lt, [v, w] => compare lt (fun m n => m < n) v w
  | gt, [v, w] => compare gt (fun m n => n < m) v w
  | numEq, [v, w] => compare numEq (fun m n => m = n) v w
  | onePlus, [v] => do
      let n ← expectInt onePlus v
      return .int (← fit onePlus (n.toInt + 1))
  | b, vs => throw (.wrongArity b b.arity vs.length)

end Builtin

namespace FunctionTable

def resolve (functions : FunctionTable) (name : Name) : EvalM Builtin :=
  match functions.lookup name with
  | some b => return b
  | none => throw (.undefinedFunction name)

/-- Call a function; `funcall` passes its later arguments to the function its first one names. -/
def apply (functions : FunctionTable) : Builtin → List Value → EvalM Value
  | .funcall, .symbol name :: args => do functions.apply (← functions.resolve name) args
  | .funcall, v :: _ => throw (.wrongType .funcall v)
  | b, args => b.run args

end FunctionTable

namespace Form

def lookupVariable (scope : Scope) (name : Name) : EvalM Value :=
  match scope.lookup name with
  | some v => return v
  | none => throw (.unboundVariable name)

mutual

def eval (functions : FunctionTable) : Form → Scope → EvalM Value
  | var name, scope => lookupVariable scope name
  | quote value, _ => return value
  | function name, _ => return .symbol name
  | call func args, scope => do
      let b ← functions.resolve func
      let values ← evalList functions args scope
      functions.apply b values
  | cond test yes no, scope => do
      let v ← eval functions test scope
      if v.isTruthy then eval functions yes scope else eval functions no scope
  | letIn bindings body, scope => do
      let inner ← evalBound functions bindings scope
      eval functions body (inner.reverse ++ scope)

def evalList (functions : FunctionTable) : List Form → Scope → EvalM (List Value)
  | [], _ => return []
  | f :: fs, scope => do
      let v ← eval functions f scope
      return v :: (← evalList functions fs scope)

/-- The values of a let's bindings, all in the scope outside, in their order. -/
def evalBound (functions : FunctionTable) : List (Name × Form) → Scope → EvalM (List (Name × Value))
  | [], _ => return []
  | (name, f) :: rest, scope => do
      let v ← eval functions f scope
      return (name, v) :: (← evalBound functions rest scope)

end

/-- Evaluate with bindings in scope, of which later ones hide earlier ones. -/
def evalWith (functions : FunctionTable) (form : Form) (bindings : List (Name × Value)) :
    EvalM Value :=
  form.eval functions bindings.reverse

end Form

end PatternCompiler
