import PatternCompiler.Emitter
import PatternCompiler.Session
import PatternCompiler.UseTable

/-!
# Case bodies and their sites

The body of a case is generated once, however many paths reach the case, and placed once for each
use. A variable that every use binds to the same subject is handed to the generator as that
subject; any other is handed over under its own name, which each site binds around the body.
-/

namespace PatternCompiler

set_option autoImplicit false

structure Variable (ε : Type) where
  name : Name
  /-- The expression for its value inside the body. -/
  value : ε
  /-- Every use binds it to the same subject. -/
  shared : Bool
  /-- A test or a projection on some path has read it. -/
  used : Bool

/-- Generate a body from its variables and the number of uses. -/
abbrev Generator (σ ε κ : Type) := List (Variable ε) → Nat → StateM (Session σ) κ

/-- The code placed where a case is reached, and the subjects it may read. -/
structure Site (κ : Type) where
  code : κ
  subjects : List Name

namespace Site

variable {σ ε κ : Type}

/-- The names that some use binds, in order of first occurrence. -/
def variableNames (uses : List Environment) : List Name :=
  (uses.flatMap Environment.names).eraseDups

def firstSubject? (uses : List Environment) (name : Name) : Option Name :=
  uses.head?.bind (Environment.subject? · name)

def isShared (uses : List Environment) (name : Name) : Bool :=
  uses.all fun use => use.subject? name = firstSubject? uses name

def variableOf (emitter : Emitter σ ε κ) (uses : List Environment) (name : Name) :
    StateM σ (Variable ε) := do
  let shared := isShared uses name
  let value ←
    match shared, firstSubject? uses name with
    | true, some subject => emitter.var subject
    | _, _ => emitter.var name
  return ⟨name, value, shared, uses.any fun use => use.isUsed name⟩

def valueAt (emitter : Emitter σ ε κ) (use : Environment) (name : Name) : StateM σ ε :=
  match use.subject? name with
  | some subject => emitter.var subject
  | none => emitter.unboundValue

def ofUse (emitter : Emitter σ ε κ) (handed : List (Variable ε)) (body : κ)
    (use : Environment) : StateM σ (Site κ) := do
  let bindings ← (handed.filter fun v => !v.shared).mapM fun v => do
    return (v.name, ← valueAt emitter use v.name)
  let code ← if bindings.isEmpty then pure body else emitter.letIn bindings body
  return ⟨code, use.subjects⟩

def ofUses (emitter : Emitter σ ε κ) (generator : Generator σ ε κ) (uses : List Environment) :
    StateM (Session σ) (List (Site κ)) := do
  let handed ← Session.emit ((variableNames uses).mapM (variableOf emitter uses))
  let body ← generator handed uses.length
  Session.emit (uses.mapM (ofUse emitter handed body))

/-- The sites of every case, in case order. The generator of a case without uses never runs. -/
def ofTable (emitter : Emitter σ ε κ) :
    List (List Environment) → List (Generator σ ε κ) → StateM (Session σ) (List (List (Site κ)))
  | uses :: entries, generator :: generators => do
      let sites ← if uses.isEmpty then pure [] else ofUses emitter generator uses
      return sites :: (← ofTable emitter entries generators)
  | _, _ => return []

end Site

def siteAt? {κ : Type} (sites : List (List (Site κ))) (case use : Nat) : Option (Site κ) :=
  sites[case]?.bind (·[use]?)

end PatternCompiler
