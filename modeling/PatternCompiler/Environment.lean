import PatternCompiler.Name

/-!
# Environments

The pattern variables bound so far on one path, in binding order, each with the variable that
holds its value and a mark that is set once something on the path has read it.
-/

namespace PatternCompiler

set_option autoImplicit false

structure Binding where
  name : Name
  /-- The variable that holds its value. -/
  subject : Name
  /-- A test or a projection on this path has read the variable. -/
  used : Bool
deriving DecidableEq, Inhabited

structure Environment where
  bindings : List Binding
deriving DecidableEq, Inhabited

inductive Extension where
  /-- The name was free; here is the environment with its binding. -/
  | fresh (env : Environment)
  | existing (subject : Name)
deriving DecidableEq

namespace Environment

def empty : Environment := ⟨[]⟩

def size (env : Environment) : Nat := env.bindings.length

def isEmpty (env : Environment) : Bool := env.bindings.isEmpty

def lookup? (env : Environment) (name : Name) : Option Binding :=
  env.bindings.find? fun b => b.name = name

def subject? (env : Environment) (name : Name) : Option Name :=
  (env.lookup? name).map Binding.subject

def names (env : Environment) : List Name := env.bindings.map Binding.name

def subjects (env : Environment) : List Name := env.bindings.map Binding.subject

/-- Bind a name at the end, unless it is bound already: a name never gets two bindings. -/
def extend (env : Environment) (name subject : Name) : Extension :=
  match env.lookup? name with
  | some b => .existing b.subject
  | none => .fresh ⟨env.bindings ++ [⟨name, subject, false⟩]⟩

def markFirst (name : Name) : List Binding → List Binding
  | [] => []
  | b :: bs => if b.name = name then { b with used := true } :: bs else b :: markFirst name bs

/-- Record that a name was read; nothing happens to a free name. -/
def markUsed (env : Environment) (name : Name) : Environment := ⟨markFirst name env.bindings⟩

def markAllUsed (env : Environment) (names : List Name) : Environment :=
  names.foldl markUsed env

def isUsed (env : Environment) (name : Name) : Bool :=
  env.bindings.any fun b => b.name = name && b.used

def usedNames (env : Environment) : List Name :=
  (env.bindings.filter Binding.used).map Binding.name

/-- The same variables with the same subjects, in any order. -/
def sameContext (a b : Environment) : Bool :=
  a.size = b.size && b.bindings.all fun x => a.subject? x.name = some x.subject

end Environment

end PatternCompiler
