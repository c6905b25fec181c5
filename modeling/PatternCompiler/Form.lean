import PatternCompiler.Value

/-!
# Forms

The code trees of the list-processing target. One type serves for expressions and for code.
-/

namespace PatternCompiler

set_option autoImplicit false

inductive Form where
  | var (name : Name)
  | quote (value : Value)
  /-- A function designator, which evaluates to the function's symbol. -/
  | function (name : Name)
  | call (func : Name) (args : List Form)
  | cond (test yes no : Form)
  /-- Every value is evaluated before any name is bound. -/
  | letIn (bindings : List (Name × Form)) (body : Form)
deriving Inhabited

namespace Form

def nil : Form := quote .nil

def int (n : Int64) : Form := quote (.int n)

def symbol (name : Name) : Form := quote (.symbol name)

/-- Bind names around a body; without names it is the body itself. -/
def bound (bindings : List (Name × Form)) (body : Form) : Form :=
  if bindings.isEmpty then body else letIn bindings body

mutual

/-- Whether a name occurs free. -/
def mentions (name : Name) : Form → Bool
  | var x => x = name
  | quote _ | function _ => false
  | call _ args => anyMentions name args
  | cond test yes no => mentions name test || mentions name yes || mentions name no
  | letIn bindings body =>
      anyBoundMentions name bindings
        || (bindings.all (fun b => b.1 ≠ name) && mentions name body)

def anyMentions (name : Name) : List Form → Bool
  | [] => false
  | f :: fs => mentions name f || anyMentions name fs

def anyBoundMentions (name : Name) : List (Name × Form) → Bool
  | [] => false
  | (_, f) :: rest => mentions name f || anyBoundMentions name rest

end

mutual

def count (p : Form → Bool) : Form → Nat
  | f@(var _) | f@(quote _) | f@(function _) => (p f).toNat
  | f@(call _ args) => (p f).toNat + countList p args
  | f@(cond test yes no) => (p f).toNat + count p test + count p yes + count p no
  | f@(letIn bindings body) => (p f).toNat + countBound p bindings + count p body

def countList (p : Form → Bool) : List Form → Nat
  | [] => 0
  | f :: fs => count p f + countList p fs

def countBound (p : Form → Bool) : List (Name × Form) → Nat
  | [] => 0
  | (_, f) :: rest => count p f + countBound p rest

end

mutual

/-- Equality by shape, constants compared by content alone. -/
def alike : Form → Form → Bool
  | var a, var b => a = b
  | quote a, quote b => a.alike b
  | function a, function b => a = b
  | call f as, call g bs => f = g && alikeList as bs
  | cond a b c, cond a' b' c' => alike a a' && alike b b' && alike c c'
  | letIn as a, letIn bs b => alikeBound as bs && alike a b
  | _, _ => false

def alikeList : List Form → List Form → Bool
  | [], [] => true
  | f :: fs, g :: gs => alike f g && alikeList fs gs
  | _, _ => false

def alikeBound : List (Name × Form) → List (Name × Form) → Bool
  | [], [] => true
  | (x, f) :: fs, (y, g) :: gs => x = y && alike f g && alikeBound fs gs
  | _, _ => false

end

instance : BEq Form := ⟨alike⟩

/-! ## Text -/

/-- Numbers, strings, `nil` and `t` stand for themselves. -/
def selfEvaluating : Value → Bool
  | .int _ | .float _ | .str .. => true
  | .symbol name => name = Name.nil || name = Name.t
  | .cons .. => false

mutual

def text (symbols : SymbolTable) : Form → String
  | var name => symbols.lookup name
  | quote value => (if selfEvaluating value then "" else "'") ++ value.text symbols
  | function name => "#'" ++ symbols.lookup name
  | call func args => "(" ++ symbols.lookup func ++ argsText symbols args ++ ")"
  | cond test yes no =>
      "(if " ++ text symbols test ++ " " ++ text symbols yes ++ " " ++ text symbols no ++ ")"
  | letIn bindings body =>
      "(let (" ++ " ".intercalate (boundTexts symbols bindings) ++ ") " ++ text symbols body ++ ")"

def argsText (symbols : SymbolTable) : List Form → String
  | [] => ""
  | f :: fs => " " ++ text symbols f ++ argsText symbols fs

def boundTexts (symbols : SymbolTable) : List (Name × Form) → List String
  | [] => []
  | (name, f) :: rest =>
      ("(" ++ symbols.lookup name ++ " " ++ text symbols f ++ ")") :: boundTexts symbols rest

end

mutual

def inspectText : Form → String
  | var name => Inspect.constructor "Var" [inspect name]
  | quote value => Inspect.constructor "Quote" [inspect value]
  | function name => Inspect.constructor "Function" [inspect name]
  | call func args =>
      Inspect.constructor "Call" [inspect func, Inspect.sequence (inspectTexts args)]
  | cond test yes no =>
      Inspect.constructor "If" [inspectText test, inspectText yes, inspectText no]
  | letIn bindings body =>
      Inspect.constructor "Let" [Inspect.sequence (inspectBound bindings), inspectText body]

def inspectTexts : List Form → List String
  | [] => []
  | f :: fs => inspectText f :: inspectTexts fs

def inspectBound : List (Name × Form) → List String
  | [] => []
  | (name, f) :: rest => Inspect.pair (inspect name) (inspectText f) :: inspectBound rest

end

instance : Inspect Form := ⟨inspectText⟩

end Form

end PatternCompiler
