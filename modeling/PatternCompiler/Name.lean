/-!
# Names

A name stands for a string held by a symbol table: pattern variables, symbols, functions and the
variables a compilation makes up are all names. Comparing names compares numbers.
-/

namespace PatternCompiler

set_option autoImplicit false

/-- The position of a string in a symbol table. -/
structure Name where
  id : Nat
deriving DecidableEq, Hashable, Inhabited

namespace Name

/-- The empty string, held by every table. -/
def empty : Name := ⟨0⟩

/-- The symbol that is false and the empty list. -/
def nil : Name := ⟨1⟩

/-- The canonical true symbol. -/
def t : Name := ⟨2⟩

end Name

end PatternCompiler
