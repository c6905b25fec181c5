import PatternCompiler.Queue.Basic

/-!
# Folded alternatives

The alternatives of a disjunction as matches on one subject. With folding, every maximal run of at
least two plain comparisons becomes a single membership match.
-/

namespace PatternCompiler

set_option autoImplicit false

variable {ε : Type}

/-- The matches for a run of plain comparisons; a single one stays the pattern it is. -/
def matchesOfRun (subject : Name) : List (Pattern ε × Literal) → List (Pending ε)
  | [] => []
  | [(p, _)] => [.pattern subject p]
  | run =>
      let set := run.map Prod.snd
      [.member subject set (.ofLiterals set)]

def foldFrom (subject : Name) (run : List (Pattern ε × Literal)) :
    List (Pattern ε) → List (Pending ε)
  | [] => matchesOfRun subject run
  | p :: ps =>
      match p.quoted? with
      | some literal => foldFrom subject (run ++ [(p, literal)]) ps
      | none => matchesOfRun subject run ++ .pattern subject p :: foldFrom subject [] ps

def alternativeMatches (fold : Bool) (subject : Name) (alternatives : List (Pattern ε)) :
    List (Pending ε) :=
  if fold then foldFrom subject [] alternatives else alternatives.map (.pattern subject)

end PatternCompiler
