import PatternCompiler.Flonum.Text

/-!
# Literals

The constants a pattern can compare its subject with, which equivalence each of them needs, and
the comparison of two constants under an equivalence. Characters are numbers: they compare as
their code points. The empty list is the symbol `nil`.
-/

namespace PatternCompiler

set_option autoImplicit false

inductive Literal where
  | symbol (name : Name)
  | int (n : Int64)
  | float (x : Flonum)
  | char (c : Char)
  | str (s : String)
  | list (items : List Literal)
deriving Inhabited

namespace Literal

inductive Kind where
  | symbol | number | string | list
deriving DecidableEq

def nil : Literal := symbol Name.nil

def t : Literal := symbol Name.t

def kind : Literal → Kind
  | symbol _ => .symbol
  | int _ | float _ | char _ => .number
  | str _ => .string
  | list _ => .list

/-- The strictest equivalence that decides equality with a literal of this kind. -/
def Kind.equivalence : Kind → Equivalence
  | .symbol => .identity
  | .number => .numericIdentity
  | .string | .list => .structural

def equivalence (literal : Literal) : Equivalence := literal.kind.equivalence

/-- Whether the literal denotes `nil`: the symbol or the empty list. -/
def isNil : Literal → Bool
  | symbol name => name = Name.nil
  | list items => items.isEmpty
  | _ => false

def codePoint (c : Char) : Int64 := Int64.ofNat c.toNat

def fixnum? : Literal → Option Int64
  | int n => some n
  | char c => some (codePoint c)
  | _ => none

/-- Comparison of literals that are neither `nil` nor both fixnums, lists excepted. -/
def equivAtom (eqv : Equivalence) : Literal → Literal → Bool
  | symbol a, symbol b => a = b
  | float a, float b => eqv ≠ .identity && a = b
  | str a, str b => eqv = .structural && a = b
  | _, _ => false

/-- The comparison the target's comparators agree with, unless a list meets a list. -/
def equivOther (eqv : Equivalence) (a b : Literal) : Bool :=
  if a.isNil || b.isNil then a.isNil && b.isNil
  else match a.fixnum?, b.fixnum? with
    | some m, some n => m = n
    | _, _ => equivAtom eqv a b

mutual

def equiv (eqv : Equivalence) : Literal → Literal → Bool
  | list as, list bs =>
      if as.isEmpty || bs.isEmpty then as.isEmpty && bs.isEmpty
      else eqv = .structural && equivItems as bs
  | a, b => equivOther eqv a b

def equivItems : List Literal → List Literal → Bool
  | [], [] => true
  | a :: as, b :: bs => equiv .structural a b && equivItems as bs
  | _, _ => false

end

mutual

/-- The same literal: a character differs from its code point and the empty list from `nil`. -/
def same : Literal → Literal → Bool
  | symbol a, symbol b => a = b
  | int a, int b => a = b
  | float a, float b => a = b
  | char a, char b => a = b
  | str a, str b => a = b
  | list as, list bs => sameItems as bs
  | _, _ => false

def sameItems : List Literal → List Literal → Bool
  | [], [] => true
  | a :: as, b :: bs => same a b && sameItems as bs
  | _, _ => false

end

instance : BEq Literal := ⟨same⟩

mutual

/-- Floats are shown by their bits. -/
def inspectText : Literal → String
  | symbol name => Inspect.constructor "Symbol" [inspect name]
  | int n => Inspect.constructor "Int" [inspect n]
  | float x => Inspect.constructor "Float" [inspect x.bits.toNat]
  | char c => Inspect.constructor "Char" [inspect c]
  | str s => Inspect.constructor "Str" [inspect s]
  | list items => Inspect.constructor "List" [Inspect.sequence (inspectTexts items)]

def inspectTexts : List Literal → List String
  | [] => []
  | a :: as => inspectText a :: inspectTexts as

end

instance : Inspect Literal := ⟨inspectText⟩

end Literal

/-- The least general equivalence that decides equality with every one of the literals. -/
def Equivalence.ofLiterals (literals : List Literal) : Equivalence :=
  literals.foldl (fun eqv literal => eqv.join literal.equivalence) .identity

end PatternCompiler
