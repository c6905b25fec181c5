import PatternCompiler.SymbolTable

/-!
# Name supplies

A compilation numbers the variables it makes up from the first number that no enclosing
compilation uses, and hands its numbers back at the end. The same input therefore always gets the
same names, and a match compiled inside a case body never reuses a name of the match around it.
-/

namespace PatternCompiler

set_option autoImplicit false

structure NameSupply where
  symbols : SymbolTable
  /-- The first number no running compilation uses. -/
  next : Nat

namespace NameSupply

def ofTable (symbols : SymbolTable) : NameSupply := ⟨symbols, 0⟩

instance : Inhabited NameSupply := ⟨ofTable .initial⟩

/-- Take the next number and intern the generated name that carries it. -/
def fresh (stem : String) : StateM NameSupply Name := fun supply =>
  let (name, symbols) := supply.symbols.generated stem supply.next
  (name, ⟨symbols, supply.next + 1⟩)

/-- Hand back every number from `base` on. The names themselves stay interned. -/
def release (supply : NameSupply) (base : Nat) : NameSupply := { supply with next := base }

end NameSupply

end PatternCompiler
