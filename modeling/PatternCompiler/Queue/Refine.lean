import PatternCompiler.Decision.Basic
import PatternCompiler.Queue.Basic

/-!
# Branch splitting

On either side of a test its outcome is known. A pending match that the outcome decides is dropped
when it is known to succeed, and its branch is dropped when it is known to fail. Knowledge about
literals follows the comparison of literals; a predicate is decided only by the same function on
the same subject when neither application sees a pattern variable; guards are never decided, and
queues saved in goals stay as they are. Whether a function sees the pattern variables of a branch is
asked once for the branch, and the answer is taken for every function that compares equal to the
known one.
-/

namespace PatternCompiler

set_option autoImplicit false

variable {ε : Type}

inductive Fact (ε : Type) where
  | member (subject : Name) (set : List Literal) (eqv : Equivalence)
  | sameAs (subject other : Name)
  /-- The function, which sees no pattern variable, gives a true value for the subject. -/
  | predicate (subject : Name) (func : ε)

namespace Fact

/-- The fact that the outcome of a test settles. -/
def ofTest? : Test ε → Option (Fact ε)
  | .equal subject literal eqv => some (member subject [literal] eqv)
  | .member subject set eqv => some (member subject set eqv)
  | .sameAs subject other => some (sameAs subject other)
  | .predicate subject func bindings => if bindings.isEmpty then some (predicate subject func) else none
  | .guard .. => none

/-- The subject whose patterns the fact may decide. -/
def subject? : Fact ε → Option Name
  | member subject _ _ | predicate subject _ => some subject
  | sameAs .. => none

end Fact

/-- Decide whether a value is one of the `asked` literals, knowing that it is one of the `known`
ones, or that it is none of them. -/
def setOutcome (known : List Literal) (eqv : Equivalence) (holds : Bool)
    (asked : List Literal) (askedEqv : Equivalence) : Option Bool :=
  if holds then
    if known.all fun m => asked.all fun t => !m.equiv .structural t then some false
    else if eqv.implies askedEqv && known.all fun m => asked.any fun t => m.equiv askedEqv t then
      some true
    else none
  else if askedEqv.implies eqv && asked.all fun t => known.any fun m => t.equiv eqv m then
    some false
  else none

structure Knowledge (ε : Type) where
  fact : Fact ε
  holds : Bool

namespace Knowledge

def decideMember (k : Knowledge ε) (subject : Name) (set : List Literal) (eqv : Equivalence) :
    Option Bool :=
  match k.fact with
  | .member known knownSet knownEqv =>
      if subject = known then setOutcome knownSet knownEqv k.holds set eqv else none
  | _ => none

def decideSameAs (k : Knowledge ε) (subject other : Name) : Option Bool :=
  match k.fact with
  | .sameAs a b =>
      if (subject = a ∧ other = b) ∨ (subject = b ∧ other = a) then some k.holds else none
  | _ => none

/-- A computation on a branch's cell for whether the function asked about is free of the branch's
pattern variables. The answer for the first one is kept. -/
abbrev Asking := StateM (Option Bool)

/-- The answer in the cell; an empty one is filled with the answer for this function. -/
def ask (isFree : ε → Bool) (func : ε) : Asking Bool := do
  match ← get with
  | some free => return free
  | none =>
      set (some (isFree func))
      return isFree func

/-- Whether the function gives a true value for the subject. Only for a function that compares equal
to the known one is it asked whether it is free of pattern variables. -/
def decidePredicate [BEq ε] (k : Knowledge ε) (isFree : ε → Bool) (subject : Name) (func : ε) :
    Asking (Option Bool) :=
  match k.fact with
  | .predicate known knownFunc =>
      if subject = known && knownFunc == func then do
        return if ← ask isFree func then some k.holds else none
      else return none
  | _ => return none

mutual

/-- Whether a pattern matches the subject, if that is known. -/
def decidePattern [BEq ε] (k : Knowledge ε) (isFree : ε → Bool) (subject : Name) :
    Pattern ε → Asking (Option Bool)
  | .literal literal => return k.decideMember subject [literal] literal.equivalence
  | .predicate func => k.decidePredicate isFree subject func
  | .not inner => return (← k.decidePattern isFree subject inner).map (!·)
  | .and items => k.decideAll isFree subject items
  | .or alternatives =>
      if alternatives.isEmpty then return none
      else return if ← k.refutesAll isFree subject alternatives then some false else none
  | .wildcard | .bind _ | .guard _ | .app .. => return none

/-- Whether all patterns match: the first known failure decides, success needs every one. -/
def decideAll [BEq ε] (k : Knowledge ε) (isFree : ε → Bool) (subject : Name) :
    List (Pattern ε) → Asking (Option Bool)
  | [] => return some true
  | p :: ps => do
      match ← k.decidePattern isFree subject p with
      | some false => return some false
      | some true => k.decideAll isFree subject ps
      -- What comes behind an undecided pattern can only refute.
      | none => return (← k.decideAll isFree subject ps).filter (!·)

def refutesAll [BEq ε] (k : Knowledge ε) (isFree : ε → Bool) (subject : Name) :
    List (Pattern ε) → Asking Bool
  | [] => return true
  | p :: ps => do
      match ← k.decidePattern isFree subject p with
      | some false => k.refutesAll isFree subject ps
      | _ => return false

end

/-- What is left of a match with this verdict; `none` if it is known to fail. -/
def settle (verdict : Option Bool) (undecided : Asking (Option (List (Pending ε)))) :
    Asking (Option (List (Pending ε))) :=
  match verdict with
  | some true => return some []
  | some false => return none
  | none => undecided

mutual

/-- What is left of matching a pattern. An undecided conjunction is taken apart, so that its
decided conjuncts can go. -/
def refinePattern [BEq ε] (k : Knowledge ε) (isFree : ε → Bool) (subject : Name) :
    Pattern ε → Asking (Option (List (Pending ε)))
  | .and items => do
      settle (← k.decidePattern isFree subject (.and items)) (k.refineItems isFree subject items)
  | p => do settle (← k.decidePattern isFree subject p) (return some [.pattern subject p])

/-- The last conjunct comes first. -/
def refineItems [BEq ε] (k : Knowledge ε) (isFree : ε → Bool) (subject : Name) :
    List (Pattern ε) → Asking (Option (List (Pending ε)))
  | [] => return some []
  | p :: ps => do
      let some rest ← k.refineItems isFree subject ps | return none
      let some first ← k.refinePattern isFree subject p | return none
      return some (first ++ rest)

end

def refinePending [BEq ε] (k : Knowledge ε) (isFree : ε → Bool) :
    Pending ε → Asking (Option (List (Pending ε)))
  | .pattern subject p =>
      if k.fact.subject? = some subject then k.refinePattern isFree subject p
      else return some [.pattern subject p]
  | .member subject set eqv =>
      settle (k.decideMember subject set eqv) (return some [.member subject set eqv])
  | .sameAs subject other =>
      settle (k.decideSameAs subject other) (return some [.sameAs subject other])

/-- The match that is made last comes first. -/
def refineAll [BEq ε] (k : Knowledge ε) (isFree : ε → Bool) :
    List (Pending ε) → Asking (Option (List (Pending ε)))
  | [] => return some []
  | m :: ms => do
      let some rest ← k.refineAll isFree ms | return none
      let some first ← k.refinePending isFree m | return none
      return some (first ++ rest)

/-- The simplified branch, or `none` if it is known to fail. -/
def refineBranch [BEq ε] (k : Knowledge ε) (mentions : ε → Name → Bool) (branch : Branch ε) :
    Option (Branch ε) :=
  ((k.refineAll (branch.isIndependentOf mentions) branch.pending).run none).1.map
    fun pending => { branch with pending := pending }

end Knowledge

def Queue.refine [BEq ε] (mentions : ε → Name → Bool) (test : Test ε) (outcome : Bool)
    (queue : Queue ε) : Queue ε :=
  match Fact.ofTest? test with
  | none => queue
  | some fact => queue.filterMap (Knowledge.refineBranch ⟨fact, outcome⟩ mentions)

end PatternCompiler
