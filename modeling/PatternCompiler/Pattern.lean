import PatternCompiler.Literal

/-!
# Patterns

A pattern is a test on a subject that may bind variables. Functions and guards are expressions of
a type `ε` that the compiler never looks into.
-/

namespace PatternCompiler

set_option autoImplicit false

inductive Pattern (ε : Type) where
  | wildcard
  /-- Matches everything and binds the subject; a name bound before must hold the same value. -/
  | bind (name : Name)
  /-- The subject equals the literal under the literal's own equivalence. -/
  | literal (literal : Literal)
  | predicate (func : ε)
  /-- The expression is true under the bindings made so far, whatever the subject is. -/
  | guard (expr : ε)
  /-- The inner pattern matches what the function gives for the subject. -/
  | app (func : ε) (inner : Pattern ε)
  /-- The inner pattern does not match; what it binds is lost. -/
  | not (inner : Pattern ε)
  /-- Every pattern matches, from left to right. -/
  | and (items : List (Pattern ε))
  /-- Some alternative matches; the first that lets the rest of the case match counts. -/
  | or (alternatives : List (Pattern ε))
deriving Inhabited

namespace Pattern

variable {ε : Type}

/-- The literal of a plain comparison, also inside conjunctions and disjunctions of one item. -/
def quoted? : Pattern ε → Option Literal
  | literal l => some l
  | and [p] => p.quoted?
  | or [p] => p.quoted?
  | _ => none

mutual

/-- The names the pattern binds, those lost under a negation included. -/
def binders : Pattern ε → List Name
  | bind name => [name]
  | app _ inner => inner.binders
  | not inner => inner.binders
  | and items => bindersOfList items
  | or alternatives => bindersOfList alternatives
  | wildcard | literal _ | predicate _ | guard _ => []

def bindersOfList : List (Pattern ε) → List Name
  | [] => []
  | p :: ps => binders p ++ bindersOfList ps

end

mutual

/-- No disjunction in the pattern is empty. -/
def isWellFormed : Pattern ε → Bool
  | app _ inner => inner.isWellFormed
  | not inner => inner.isWellFormed
  | and items => allWellFormed items
  | or alternatives => !alternatives.isEmpty && allWellFormed alternatives
  | wildcard | bind _ | literal _ | predicate _ | guard _ => true

def allWellFormed : List (Pattern ε) → Bool
  | [] => true
  | p :: ps => isWellFormed p && allWellFormed ps

end

mutual

/-- Equality by shape, expressions compared by their own equality. -/
def same [BEq ε] : Pattern ε → Pattern ε → Bool
  | wildcard, wildcard => true
  | bind a, bind b => a = b
  | literal a, literal b => a == b
  | predicate f, predicate g => f == g
  | guard f, guard g => f == g
  | app f p, app g q => f == g && same p q
  | not p, not q => same p q
  | and ps, and qs => sameItems ps qs
  | or ps, or qs => sameItems ps qs
  | _, _ => false

def sameItems [BEq ε] : List (Pattern ε) → List (Pattern ε) → Bool
  | [], [] => true
  | p :: ps, q :: qs => same p q && sameItems ps qs
  | _, _ => false

end

instance [BEq ε] : BEq (Pattern ε) := ⟨same⟩

mutual

def inspectText [Inspect ε] : Pattern ε → String
  | wildcard => "Wildcard"
  | bind name => Inspect.constructor "Bind" [inspect name]
  | literal l => Inspect.constructor "Literal" [inspect l]
  | predicate func => Inspect.constructor "Predicate" [inspect func]
  | guard expr => Inspect.constructor "Guard" [inspect expr]
  | app func inner => Inspect.constructor "App" [inspect func, inspectText inner]
  | not inner => Inspect.constructor "Not" [inspectText inner]
  | and items => Inspect.constructor "And" [Inspect.sequence (inspectTexts items)]
  | or alternatives => Inspect.constructor "Or" [Inspect.sequence (inspectTexts alternatives)]

def inspectTexts [Inspect ε] : List (Pattern ε) → List String
  | [] => []
  | p :: ps => inspectText p :: inspectTexts ps

end

instance [Inspect ε] : Inspect (Pattern ε) := ⟨inspectText⟩

end Pattern

end PatternCompiler
