import PatternCompiler.Text.Inspect

/-!
# Diagnostics

A diagnostic is a coded message with notes and suggestions, and has one text for people to read.
-/

namespace PatternCompiler

set_option autoImplicit false

inductive Severity where
  | error | warning | note
deriving DecidableEq, Inhabited

namespace Severity

def text : Severity → String
  | error => "error"
  | warning => "warning"
  | note => "note"

instance : Inspect Severity where
  inspect
    | error => "Error"
    | warning => "Warning"
    | note => "Note"

end Severity

inductive DiagnosticCode where
  | malformedPattern
  | arityMismatch
  | unreachableCase
deriving DecidableEq, Inhabited

namespace DiagnosticCode

def all : List DiagnosticCode := [malformedPattern, arityMismatch, unreachableCase]

def text : DiagnosticCode → String
  | malformedPattern => "E3002"
  | arityMismatch => "E3003"
  | unreachableCase => "W3001"

def description : DiagnosticCode → String
  | malformedPattern => "malformed pattern"
  | arityMismatch => "case list arity mismatch"
  | unreachableCase => "unreachable case"

def isWarning (code : DiagnosticCode) : Bool := code = unreachableCase

instance : Inspect DiagnosticCode := ⟨text⟩

end DiagnosticCode

structure Diagnostic where
  code : DiagnosticCode
  severity : Severity
  message : String
  notes : List String
  suggestions : List String
deriving DecidableEq, Inhabited

namespace Diagnostic

def error (code : DiagnosticCode) : Diagnostic := ⟨code, .error, "", [], []⟩

def warning (code : DiagnosticCode) : Diagnostic := ⟨code, .warning, "", [], []⟩

def withMessage (d : Diagnostic) (message : String) : Diagnostic := { d with message := message }

def withNote (d : Diagnostic) (note : String) : Diagnostic := { d with notes := d.notes ++ [note] }

def withSuggestion (d : Diagnostic) (suggestion : String) : Diagnostic :=
  { d with suggestions := d.suggestions ++ [suggestion] }

def isError (d : Diagnostic) : Bool := d.severity = .error

/-- The message, then every note, then every suggestion, one to a line. -/
def text (d : Diagnostic) : String :=
  d.severity.text ++ " [" ++ d.code.text ++ "]: " ++ d.message
    ++ String.join (d.notes.map fun note => "\n  = note: " ++ note)
    ++ String.join (d.suggestions.map fun suggestion => "\n  = help: " ++ suggestion)

instance : Inspect Diagnostic where
  inspect d := Inspect.record "Diagnostic"
    [("code", inspect d.code), ("severity", inspect d.severity), ("message", inspect d.message),
     ("notes", inspect d.notes), ("suggestions", inspect d.suggestions)]

end Diagnostic

end PatternCompiler
