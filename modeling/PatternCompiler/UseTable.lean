import PatternCompiler.Environment

/-!
# Use tables

A case may be reached on many paths. Each different context of bindings that reaches it is one use
of the case; reaching it again in the same context adds nothing but read marks.
-/

namespace PatternCompiler

set_option autoImplicit false

/-- The uses of every case, in the order in which they were first reached. -/
structure UseTable where
  entries : List (List Environment)
deriving DecidableEq

namespace UseTable

/-- No case of so many has a use. -/
def empty (cases : Nat) : UseTable := ⟨List.replicate cases []⟩

def uses (table : UseTable) (case : Nat) : List Environment := table.entries[case]?.getD []

/-- The position of the use with the context of `env`, and the uses with `env` recorded there. -/
def record (env : Environment) : List Environment → Nat × List Environment
  | [] => (0, [env])
  | use :: rest =>
      if use.sameContext env then (0, use.markAllUsed env.usedNames :: rest)
      else
        let (index, rest) := record env rest
        (index + 1, use :: rest)

/-- Record that a case is reached; the number of the use comes first. -/
def reach (table : UseTable) (case : Nat) (env : Environment) : Nat × UseTable :=
  let (index, uses) := record env (table.uses case)
  (index, ⟨table.entries.set case uses⟩)

def isReached (table : UseTable) (case : Nat) : Bool := !(table.uses case).isEmpty

def reachedCount (table : UseTable) : Nat := table.entries.countP fun uses => !uses.isEmpty

def useCount (table : UseTable) : Nat := table.entries.flatten.length

end UseTable

end PatternCompiler
