/-!
# Equivalences

The three comparators of the target language, ordered from the strictest to the most general: a
pair equal under one of them is equal under every later one.
-/

namespace PatternCompiler

set_option autoImplicit false

inductive Equivalence where
  /-- The same object. -/
  | identity
  /-- The same object, or numbers of one type with the same bits. -/
  | numericIdentity
  /-- Equal contents. -/
  | structural
deriving DecidableEq, Inhabited

namespace Equivalence

def all : List Equivalence := [identity, numericIdentity, structural]

def rank : Equivalence → Nat
  | identity => 0
  | numericIdentity => 1
  | structural => 2

/-- Equality under the first equivalence carries over to the second. -/
def implies (a b : Equivalence) : Bool := a.rank ≤ b.rank

def isStricter (a b : Equivalence) : Bool := a.rank < b.rank

/-- The least general equivalence implied by both. -/
def join (a b : Equivalence) : Equivalence := if a.implies b then b else a

end Equivalence

end PatternCompiler
