import PatternCompiler.CompileError
import PatternCompiler.Decision.Lower
import PatternCompiler.Decision.Plan

/-!
# Compilation of case lists

The subject is evaluated once, into a new variable. Cases are tried in order and the first whose
pattern matches runs. Each body is generated at most once. The numbers of the names made up on the
way are handed back at the end.
-/

namespace PatternCompiler

set_option autoImplicit false

structure Case (σ ε κ : Type) where
  pattern : Pattern ε
  generator : Generator σ ε κ
  /-- Say nothing if no path reaches the case. -/
  allowUnreachable : Bool := false

/-- Size counters of one compilation. -/
structure Stats where
  cases : Nat
  reached : Nat
  /-- Contexts of bindings in which cases are reached. -/
  uses : Nat
  tests : Nat
  projections : Nat
  /-- Projections left out because nothing reads them. -/
  droppedProjections : Nat
deriving DecidableEq

structure Compiled (ε κ : Type) where
  code : κ
  warnings : List (Unreachable ε)
  stats : Stats

instance : Inspect Stats where
  inspect s := Inspect.record "MatchStats"
    [("cases", inspect s.cases), ("reached", inspect s.reached), ("uses", inspect s.uses),
     ("tests", inspect s.tests), ("projections", inspect s.projections),
     ("dropped_projections", inspect s.droppedProjections)]

instance {ε κ : Type} [Inspect ε] [Inspect κ] : Inspect (Compiled ε κ) where
  inspect c := Inspect.record "Compiled"
    [("code", inspect c.code), ("diagnostics", inspect c.warnings), ("stats", inspect c.stats)]

instance {σ ε κ : Type} [Inspect ε] : Inspect (Case σ ε κ) where
  inspect c := Inspect.openRecord "Case"
    [("pattern", inspect c.pattern), ("allow_unreachable", inspect c.allowUnreachable)]

variable {σ ε κ : Type}

/-- The first malformed pattern from case `case` on. -/
def firstMalformed? (case : Nat) : List (Pattern ε) → Option (CompileError ε)
  | [] => none
  | p :: ps =>
      if p.isWellFormed then firstMalformed? (case + 1) ps
      else some (.malformedPattern case p .emptyDisjunction)

/-- The cases without a use that are not exempt, from case `case` on. -/
def unreachableCases (uses : UseTable) (case : Nat) :
    List (Case σ ε κ) → List (Unreachable ε)
  | [] => []
  | c :: cs =>
      let rest := unreachableCases uses (case + 1) cs
      if uses.isReached case || c.allowUnreachable then rest else ⟨case, c.pattern⟩ :: rest

def Plan.stats (plan : Plan ε) (cases : Nat) (lowering : Lowering) : Stats where
  cases := cases
  reached := plan.uses.reachedCount
  uses := plan.uses.useCount
  tests := plan.decision.testCount
  projections := plan.projections
  droppedProjections := lowering.dropped

/-- The code of a plan: every body, then the decisions, then the subject around them. -/
def Plan.emit (emitter : Emitter σ ε κ) (subject : ε) (generators : List (Generator σ ε κ))
    (plan : Plan ε) : StateM (Session σ) (κ × Lowering) := do
  let sites ← Site.ofTable emitter plan.uses.entries generators
  let (body, lowering) ← Session.emit ((plan.decision.lower emitter sites).run .empty)
  let code ← Session.emit (emitter.letIn [(plan.root, subject)] body)
  return (code, lowering)

def compileWellFormed [BEq ε] (emitter : Emitter σ ε κ) (options : Options) (subject : ε)
    (cases : List (Case σ ε κ)) : StateM (Session σ) (Compiled ε κ) := do
  let base := (← get).names.next
  let plan ← Session.withNames
    (Plan.ofPatterns options emitter.mentions (cases.map Case.pattern))
  let (code, lowering) ← plan.emit emitter subject (cases.map Case.generator)
  modify fun session => { session with names := session.names.release base }
  return {
    code := code
    warnings := if options.warnUnreachable then unreachableCases plan.uses 0 cases else []
    stats := plan.stats cases.length lowering }

/-- Compile cases against a subject. Nothing is named or emitted if a pattern is malformed. -/
def compile [BEq ε] (emitter : Emitter σ ε κ) (options : Options) (subject : ε)
    (cases : List (Case σ ε κ)) : StateM (Session σ) (Except (CompileError ε) (Compiled ε κ)) :=
  match firstMalformed? 0 (cases.map Case.pattern) with
  | some error => return .error error
  | none => do return .ok (← compileWellFormed emitter options subject cases)

def compileClauses [BEq ε] (emitter : Emitter σ ε κ) (options : Options) (subject : ε)
    (patterns : List (Pattern ε)) (generators : List (Generator σ ε κ)) :
    StateM (Session σ) (Except (CompileError ε) (Compiled ε κ)) :=
  if patterns.length = generators.length then
    compile emitter options subject
      (List.zipWith (fun p g => { pattern := p, generator := g }) patterns generators)
  else return .error (.arityMismatch patterns.length generators.length)

end PatternCompiler
