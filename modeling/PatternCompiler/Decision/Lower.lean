import PatternCompiler.Decision.Basic
import PatternCompiler.Site

/-!
# Code from decisions

A decision tree is turned into code from the leaves up, while the subjects that the code reads are
recorded. A projection whose variable nothing reads is left out.
-/

namespace PatternCompiler

set_option autoImplicit false

structure Lowering where
  /-- The subjects read by the code so far. -/
  referenced : List Name
  dropped : Nat

namespace Lowering

def empty : Lowering := ⟨[], 0⟩

def reference (l : Lowering) (subject : Name) : Lowering :=
  { l with referenced := l.referenced.insert subject }

end Lowering

abbrev LowerM (σ : Type) := StateT Lowering (StateM σ)

namespace LowerM

variable {σ ε κ : Type}

def reads (subjects : List Name) : LowerM σ Unit :=
  modify fun l => subjects.foldl Lowering.reference l

def bindings (emitter : Emitter σ ε κ) (pairs : List (Name × Name)) :
    LowerM σ (List (Name × ε)) :=
  pairs.mapM fun (name, subject) => do
    reads [subject]
    return (name, ← emitter.var subject)

end LowerM

variable {σ ε κ : Type}

def Test.lower (emitter : Emitter σ ε κ) (test : Test ε) : LowerM σ κ := do
  LowerM.reads test.subjects
  match test with
  | .equal subject literal eqv => emitter.equalityTest (← emitter.var subject) literal eqv
  | .member subject set eqv => emitter.membershipTest (← emitter.var subject) set eqv
  | .sameAs subject other =>
      let subject ← emitter.var subject
      emitter.sameValueTest subject (← emitter.var other)
  | .predicate subject func pairs =>
      let bindings ← LowerM.bindings emitter pairs
      emitter.predicateTest func (← emitter.var subject) bindings
  | .guard expr pairs => emitter.guardTest expr (← LowerM.bindings emitter pairs)

/-- The code of a decision whose leaves stand for these sites. -/
def Decision.lower (emitter : Emitter σ ε κ) (sites : List (List (Site κ))) :
    Decision ε → LowerM σ κ
  | .fail => emitter.noMatch
  | .leaf case use =>
      match siteAt? sites case use with
      | some site => do
          LowerM.reads site.subjects
          return site.code
      | none => emitter.noMatch
  | .test asked yes no => do
      let yes ← yes.lower emitter sites
      let no ← no.lower emitter sites
      emitter.cond (← asked.lower emitter) yes no
  | .project fresh func subject pairs body => do
      let body ← body.lower emitter sites
      if (← get).referenced.contains fresh then
        LowerM.reads [subject]
        let bindings ← LowerM.bindings emitter pairs
        let value ← emitter.apply func (← emitter.var subject) bindings
        emitter.letIn [(fresh, value)] body
      else
        modify fun l => { l with dropped := l.dropped + 1 }
        return body

end PatternCompiler
