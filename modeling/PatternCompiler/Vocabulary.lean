import PatternCompiler.Builtin

/-!
# Vocabularies

The names through which generated code reaches the builtin functions: the operators the code
emitter writes, and the table the evaluator reads.
-/

namespace PatternCompiler

set_option autoImplicit false

/-- Names of the functions that generated code calls. -/
structure Operators where
  eq : Name
  eql : Name
  equal : Name
  memq : Name
  memql : Name
  member : Name
  funcall : Name

namespace Operators

def comparator (ops : Operators) : Equivalence → Name
  | .identity => ops.eq
  | .numericIdentity => ops.eql
  | .structural => ops.equal

def membership (ops : Operators) : Equivalence → Name
  | .identity => ops.memq
  | .numericIdentity => ops.memql
  | .structural => ops.member

def intern (symbols : SymbolTable) : Operators × SymbolTable :=
  let (eq, symbols) := symbols.intern "eq"
  let (eql, symbols) := symbols.intern "eql"
  let (equal, symbols) := symbols.intern "equal"
  let (memq, symbols) := symbols.intern "memq"
  let (memql, symbols) := symbols.intern "memql"
  let (member, symbols) := symbols.intern "member"
  let (funcall, symbols) := symbols.intern "funcall"
  (⟨eq, eql, equal, memq, memql, member, funcall⟩, symbols)

end Operators

structure Vocabulary where
  operators : Operators
  functions : FunctionTable

/-- Intern the operators, then the builtins. -/
def Vocabulary.intern (symbols : SymbolTable) : Vocabulary × SymbolTable :=
  let (operators, symbols) := Operators.intern symbols
  let (functions, symbols) := FunctionTable.intern symbols
  (⟨operators, functions⟩, symbols)

end PatternCompiler
