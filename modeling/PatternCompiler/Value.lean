import PatternCompiler.Literal
import PatternCompiler.SymbolTable

/-!
# Values

What forms evaluate to: symbols, integers, flonums, strings and cells of two values. Strings and
cells are objects with an identity, a number drawn from a supply when they are made. The symbol
`nil` is the empty list and the only false value.
-/

namespace PatternCompiler

set_option autoImplicit false

/-- The identities still free for new objects. -/
structure ObjectSupply where
  next : Nat
deriving DecidableEq, Inhabited

def ObjectSupply.fresh : StateM ObjectSupply Nat := fun supply => (supply.next, ⟨supply.next + 1⟩)

inductive Value where
  | symbol (name : Name)
  | int (n : Int64)
  | float (x : Flonum)
  | str (object : Nat) (s : String)
  | cons (object : Nat) (car cdr : Value)
deriving Inhabited

namespace Value

def nil : Value := symbol Name.nil

def t : Value := symbol Name.t

def ofBool (b : Bool) : Value := if b then t else nil

def isNil : Value → Bool
  | symbol name => name = Name.nil
  | _ => false

/-- Everything but `nil` is true. -/
def isTruthy (v : Value) : Bool := !v.isNil

def isCons : Value → Bool
  | cons .. => true
  | _ => false

def car? : Value → Option Value
  | cons _ car _ => some car
  | _ => none

def cdr? : Value → Option Value
  | cons _ _ cdr => some cdr
  | _ => none

/-- The elements of a proper list. -/
def elements? : Value → Option (List Value)
  | cons _ car cdr => cdr.elements?.map (car :: ·)
  | v => if v.isNil then some [] else none

/-! ## New objects -/

def newString (s : String) : StateM ObjectSupply Value := do
  return str (← ObjectSupply.fresh) s

def newCons (car cdr : Value) : StateM ObjectSupply Value := do
  return cons (← ObjectSupply.fresh) car cdr

def newList : List Value → StateM ObjectSupply Value
  | [] => return nil
  | v :: vs => do newCons v (← newList vs)

mutual

/-- The value a literal stands for, with new objects for its strings and cells. -/
def ofLiteral : Literal → StateM ObjectSupply Value
  | .symbol name => return symbol name
  | .int n => return int n
  | .float x => return float x
  | .char c => return int (Literal.codePoint c)
  | .str s => newString s
  | .list items => do newList (← ofLiterals items)

def ofLiterals : List Literal → StateM ObjectSupply (List Value)
  | [] => return []
  | l :: ls => do
      let v ← ofLiteral l
      return v :: (← ofLiterals ls)

end

/-! ## Comparators -/

/-- The same object. A flonum is never the same object as anything. -/
def isEq : Value → Value → Bool
  | symbol a, symbol b => a = b
  | int a, int b => a = b
  | str a _, str b _ => a = b
  | cons a _ _, cons b _ _ => a = b
  | _, _ => false

/-- The same object, or flonums with the same bits. -/
def isEql : Value → Value → Bool
  | float a, float b => a = b
  | a, b => isEq a b

/-- Equal contents: strings by text, cells by halves, everything else as `isEql`. -/
def isEqual : Value → Value → Bool
  | cons _ a as, cons _ b bs => isEqual a b && isEqual as bs
  | str _ a, str _ b => a = b
  | a, b => isEql a b

def equiv (eqv : Equivalence) : Value → Value → Bool :=
  match eqv with
  | .identity => isEq
  | .numericIdentity => isEql
  | .structural => isEqual

/-- Equality of content alone, with flonums compared as numbers. -/
def alike : Value → Value → Bool
  | symbol a, symbol b => a = b
  | int a, int b => a = b
  | float a, float b => a.numericEq b
  | str _ a, str _ b => a = b
  | cons _ a as, cons _ b bs => alike a b && alike as bs
  | _, _ => false

/-! ## Text -/

/-- The text of a value that is no cell. -/
def atomText (symbols : SymbolTable) : Value → String
  | symbol name => symbols.lookup name
  | int n => toString n.toInt
  | float x => x.text
  | str _ s => Text.quoted s
  | cons .. => ""

mutual

/-- The text a reader of lists takes. -/
def text (symbols : SymbolTable) : Value → String
  | cons _ car cdr => "(" ++ text symbols car ++ tailText symbols cdr ++ ")"
  | v => atomText symbols v

/-- What follows the first element, up to the closing parenthesis. -/
def tailText (symbols : SymbolTable) : Value → String
  | cons _ car cdr => " " ++ text symbols car ++ tailText symbols cdr
  | v => if v.isNil then "" else " . " ++ atomText symbols v

end

def inspectText : Value → String
  | symbol name => Inspect.constructor "Symbol" [inspect name]
  | int n => Inspect.constructor "Int" [inspect n]
  | float x => Inspect.constructor "Float" [inspect x]
  | str _ s => Inspect.constructor "Str" [inspect s]
  | cons _ car cdr => Inspect.constructor "Cons"
      [Inspect.record "Cons" [("car", inspectText car), ("cdr", inspectText cdr)]]

instance : Inspect Value := ⟨inspectText⟩

end Value

end PatternCompiler
