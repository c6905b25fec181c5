import PatternCompiler.Name
import PatternCompiler.Equivalence
import PatternCompiler.Text.Quoted

/-!
# Inspection text

The one-line text that shows how a value is built: constructors with their arguments in
parentheses, sequences in brackets, records with named fields in braces. Diagnostics quote
patterns this way, so it never consults a symbol table: names are shown by number.
-/

namespace PatternCompiler

set_option autoImplicit false

class Inspect (α : Type) where
  inspect : α → String

export Inspect (inspect)

namespace Inspect

def commaSeparated (items : List String) : String := ", ".intercalate items

def constructor (head : String) (args : List String) : String :=
  head ++ "(" ++ commaSeparated args ++ ")"

def sequence (items : List String) : String := "[" ++ commaSeparated items ++ "]"

def pair (first second : String) : String := "(" ++ first ++ ", " ++ second ++ ")"

def fields (entries : List (String × String)) : List String :=
  entries.map fun (label, text) => label ++ ": " ++ text

def record (head : String) (entries : List (String × String)) : String :=
  head ++ " \x7b " ++ commaSeparated (fields entries) ++ " \x7d"

/-- A record that has fields which are not shown. -/
def openRecord (head : String) (entries : List (String × String)) : String :=
  head ++ " \x7b " ++ commaSeparated (fields entries ++ [".."]) ++ " \x7d"

end Inspect

instance : Inspect Nat := ⟨toString⟩

instance : Inspect Int64 := ⟨fun n => toString n.toInt⟩

instance : Inspect Bool := ⟨fun b => if b then "true" else "false"⟩

instance : Inspect String := ⟨Text.quoted⟩

instance : Inspect Char := ⟨Text.quotedChar⟩

instance {α : Type} [Inspect α] : Inspect (List α) :=
  ⟨fun items => Inspect.sequence (items.map inspect)⟩

instance : Inspect Name := ⟨fun name => Inspect.constructor "Name" [inspect name.id]⟩

instance : Inspect Equivalence where
  inspect
    | .identity => "Identity"
    | .numericIdentity => "NumericIdentity"
    | .structural => "Structural"

end PatternCompiler
