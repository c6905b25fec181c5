import PatternCompiler.Diagnostic
import PatternCompiler.Pattern

/-!
# What a compilation reports

Errors stop a compilation before anything is named or emitted. A case that no path reaches is
only warned about.
-/

namespace PatternCompiler

set_option autoImplicit false

inductive Malformation where
  | emptyDisjunction
deriving DecidableEq

def Malformation.text : Malformation → String
  | emptyDisjunction => "disjunction with no alternatives"

inductive CompileError (ε : Type) where
  /-- The first case with a pattern that cannot be compiled, and its whole pattern. -/
  | malformedPattern (case : Nat) (pattern : Pattern ε) (reason : Malformation)
  | arityMismatch (patterns generators : Nat)

namespace CompileError

variable {ε : Type}

def code : CompileError ε → DiagnosticCode
  | malformedPattern .. => .malformedPattern
  | arityMismatch .. => .arityMismatch

def message : CompileError ε → String
  | malformedPattern case _ reason =>
      "malformed pattern in case " ++ toString case ++ ": " ++ reason.text
  | arityMismatch patterns generators =>
      toString patterns ++ " patterns but " ++ toString generators ++ " code generators"

def diagnostic [Inspect ε] (e : CompileError ε) : Diagnostic :=
  let base := (Diagnostic.error e.code).withMessage e.message
  match e with
  | malformedPattern _ pattern _ => base.withNote ("in pattern " ++ inspect pattern)
  | arityMismatch .. => base.withSuggestion "give every pattern exactly one code generator"

end CompileError

structure Unreachable (ε : Type) where
  case : Nat
  pattern : Pattern ε

namespace Unreachable

variable {ε : Type} [Inspect ε]

def diagnostic (u : Unreachable ε) : Diagnostic :=
  (Diagnostic.warning .unreachableCase)
    |>.withMessage ("case " ++ toString u.case ++ " is unreachable")
    |>.withNote ("pattern " ++ inspect u.pattern
      ++ " only matches values an earlier case already claims")
    |>.withSuggestion "remove the case or move it above the cases that shadow it"

instance : Inspect (Unreachable ε) where
  inspect u := Inspect.record "PatternDiagnostic"
    [("diagnostic", inspect u.diagnostic), ("case_index", inspect u.case),
     ("pattern", inspect u.pattern)]

end Unreachable

end PatternCompiler
