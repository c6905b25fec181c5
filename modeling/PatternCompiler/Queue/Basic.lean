import PatternCompiler.Environment
import PatternCompiler.Pattern

/-!
# Queues of branches

A branch is a list of matches that all have to succeed, the bindings made on the way, and a goal:
what happens then. A queue holds branches in the order in which they are tried. A negation turns
into a branch whose goal resumes the queue behind the negated branch, since the success of what is
negated means that the branch fails.
-/

namespace PatternCompiler

set_option autoImplicit false

inductive Pending (ε : Type) where
  | pattern (subject : Name) (pattern : Pattern ε)
  | member (subject : Name) (set : List Literal) (eqv : Equivalence)
  | sameAs (subject other : Name)

/-- What happens once every pending match has succeeded. -/
inductive Goal (Q : Type) where
  | select (case : Nat)
  | resume (queue : Q)

structure Branch (ε : Type) where
  /-- The first one is made next. -/
  pending : List (Pending ε)
  env : Environment
  goal : Goal (List (Branch ε))

abbrev Queue (ε : Type) := List (Branch ε)

variable {ε : Type}

def Pending.binders : Pending ε → List Name
  | pattern _ p => p.binders
  | member .. | sameAs .. => []

namespace Branch

/-- The pattern variables of the branch, bound already or by a pending match. -/
def boundNames (branch : Branch ε) : List Name :=
  branch.env.names ++ branch.pending.flatMap Pending.binders

/-- The expression mentions no pattern variable of the branch. -/
def isIndependentOf (mentions : ε → Name → Bool) (branch : Branch ε) (expr : ε) : Bool :=
  branch.boundNames.all fun name => !mentions expr name

def push (branch : Branch ε) (p : Pending ε) : Branch ε :=
  { branch with pending := p :: branch.pending }

def ofCase (root : Name) (case : Nat) (p : Pattern ε) : Branch ε :=
  ⟨[.pattern root p], .empty, .select case⟩

end Branch

def Queue.ofPatterns (root : Name) (patterns : List (Pattern ε)) : Queue ε :=
  patterns.mapIdx (Branch.ofCase root)

end PatternCompiler
