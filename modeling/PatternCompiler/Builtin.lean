import PatternCompiler.Value

/-!
# Builtin functions

The fixed functions of the target language with their spellings and the number of arguments they
take. There are no others, so a function is a symbol that spells one of them.
-/

namespace PatternCompiler

set_option autoImplicit false

inductive Builtin where
  | car | cdr | carSafe | cdrSafe
  | consp | integerp | symbolp | stringp | numberp | null
  | eq | eql | equal
  | memq | memql | member
  | list | cons
  | add | sub | lt | gt | numEq | onePlus
  | funcall
deriving DecidableEq, Inhabited

namespace Builtin

/-- Every spelling, in the order in which a symbol table first sees them. -/
def spellings : List (String × Builtin) :=
  [ ("car", car), ("cdr", cdr), ("car-safe", carSafe), ("cdr-safe", cdrSafe),
    ("consp", consp), ("integerp", integerp), ("symbolp", symbolp), ("stringp", stringp),
    ("numberp", numberp), ("null", null), ("not", null),
    ("eq", eq), ("eql", eql), ("equal", equal),
    ("memq", memq), ("memql", memql), ("member", member),
    ("list", list), ("cons", cons),
    ("+", add), ("-", sub), ("<", lt), (">", gt), ("=", numEq), ("1+", onePlus),
    ("funcall", funcall) ]

/-- The spelling used in messages, which is the first one. -/
def spelling (b : Builtin) : String :=
  ((spellings.find? fun entry => entry.2 = b).map Prod.fst).getD ""

/-- The number of arguments; the least number where more are taken. -/
def arity : Builtin → Nat
  | list | add | sub => 0
  | car | cdr | carSafe | cdrSafe => 1
  | consp | integerp | symbolp | stringp | numberp | null => 1
  | onePlus | funcall => 1
  | eq | eql | equal | memq | memql | member | cons | lt | gt | numEq => 2

end Builtin

abbrev FunctionTable := List (Name × Builtin)

def FunctionTable.intern (symbols : SymbolTable) : FunctionTable × SymbolTable :=
  let (names, symbols) := symbols.internAll (Builtin.spellings.map Prod.fst)
  (names.zip (Builtin.spellings.map Prod.snd), symbols)

end PatternCompiler
