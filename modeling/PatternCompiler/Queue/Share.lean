import PatternCompiler.Queue.Basic

/-!
# Shared projections

Once a variable holds what a function gives for a subject, pending applications of the same
function to the same subject read that variable instead. The function must not see a pattern
variable of the branch whose match is redirected.
-/

namespace PatternCompiler

set_option autoImplicit false

variable {ε : Type}

/-- The variable `fresh` holds what `func` gives for `subject`. -/
structure Projection (ε : Type) where
  subject : Name
  func : ε
  fresh : Name

namespace Projection

mutual

/-- The pattern applies the function, itself or in a conjunct. -/
def projects [BEq ε] (pr : Projection ε) : Pattern ε → Bool
  | .app func _ => func == pr.func
  | .and items => pr.anyProjects items
  | _ => false

def anyProjects [BEq ε] (pr : Projection ε) : List (Pattern ε) → Bool
  | [] => false
  | p :: ps => pr.projects p || pr.anyProjects ps

end

mutual

/-- A pattern on the subject with its applications of the function redirected. A conjunction that
has some is taken apart. -/
def redirectPattern [BEq ε] (pr : Projection ε) : Pattern ε → List (Pending ε)
  | .app func inner =>
      if func == pr.func then [.pattern pr.fresh inner] else [.pattern pr.subject (.app func inner)]
  | .and items =>
      if pr.anyProjects items then pr.redirectItems items else [.pattern pr.subject (.and items)]
  | p => [.pattern pr.subject p]

def redirectItems [BEq ε] (pr : Projection ε) : List (Pattern ε) → List (Pending ε)
  | [] => []
  | p :: ps => pr.redirectPattern p ++ pr.redirectItems ps

end

def isCandidate [BEq ε] (pr : Projection ε) : Pending ε → Bool
  | .pattern subject p => subject = pr.subject && pr.projects p
  | .member .. | .sameAs .. => false

def redirectPending [BEq ε] (pr : Projection ε) : Pending ε → List (Pending ε)
  | .pattern subject p =>
      if subject = pr.subject then pr.redirectPattern p else [.pattern subject p]
  | m => [m]

def shareBranch [BEq ε] (pr : Projection ε) (mentions : ε → Name → Bool) (branch : Branch ε) :
    Branch ε :=
  if branch.pending.any pr.isCandidate && branch.isIndependentOf mentions pr.func then
    { branch with pending := branch.pending.flatMap pr.redirectPending }
  else branch

end Projection

def Queue.share [BEq ε] (mentions : ε → Name → Bool) (pr : Projection ε) (queue : Queue ε) :
    Queue ε :=
  queue.map (pr.shareBranch mentions)

end PatternCompiler
