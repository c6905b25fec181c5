import Std.Data.HashMap
import PatternCompiler.Name

/-!
# Symbol tables

A table holds each string once, in the order in which strings were first interned, together with
an index from strings back to positions. Three reserved strings come first.
-/

namespace PatternCompiler

set_option autoImplicit false

structure SymbolTable where
  strings : Array String
  index : Std.HashMap String Nat

namespace SymbolTable

/-- The strings of `Name.empty`, `Name.nil` and `Name.t`. -/
def reserved : List String := ["", "nil", "t"]

/-- What every generated name starts with. No reader of source text produces it. -/
def generatedMark : String := "#:"

def size (table : SymbolTable) : Nat := table.strings.size

/-- Nothing beyond the reserved strings is held. -/
def isEmpty (table : SymbolTable) : Bool := table.size ≤ reserved.length

def get? (table : SymbolTable) (s : String) : Option Name := table.index[s]?.map Name.mk

/-- The string a name stands for, unless the name belongs to another table. -/
def lookup? (table : SymbolTable) (name : Name) : Option String := table.strings[name.id]?

/-- The string of a name, empty for a foreign name. -/
def lookup (table : SymbolTable) (name : Name) : String := (table.lookup? name).getD ""

/-- Append a string; callers make sure it is not held yet. -/
def push (table : SymbolTable) (s : String) : Name × SymbolTable :=
  (⟨table.size⟩, ⟨table.strings.push s, table.index.insert s table.size⟩)

/-- The name of a string, which is appended when it is not held yet. -/
def intern (table : SymbolTable) (s : String) : Name × SymbolTable :=
  match table.get? s with
  | some name => (name, table)
  | none => table.push s

def internAll (table : SymbolTable) : List String → List Name × SymbolTable
  | [] => ([], table)
  | s :: rest =>
      let (name, table) := table.intern s
      let (names, table) := table.internAll rest
      (name :: names, table)

def initial : SymbolTable := (SymbolTable.internAll ⟨#[], ∅⟩ reserved).2

instance : Inhabited SymbolTable := ⟨initial⟩

def generatedString (stem : String) (number : Nat) : String :=
  generatedMark ++ stem ++ toString number

/-- Equal stems and numbers give equal names, so asking again never adds a string. -/
def generated (table : SymbolTable) (stem : String) (number : Nat) : Name × SymbolTable :=
  table.intern (generatedString stem number)

def isGeneratedString (s : String) : Bool := generatedMark.toList.isPrefixOf s.toList

/-- Whether a name is spelled like a generated one; `none` for a foreign name. -/
def isGenerated? (table : SymbolTable) (name : Name) : Option Bool :=
  (table.lookup? name).map isGeneratedString

end SymbolTable

end PatternCompiler
