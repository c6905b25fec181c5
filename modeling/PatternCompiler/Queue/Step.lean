import PatternCompiler.Options
import PatternCompiler.Queue.Fold
import PatternCompiler.Queue.Refine
import PatternCompiler.Queue.Share

/-!
# Steps on queues

One step looks at the next match of the first branch. Conjunctions, disjunctions, negations,
bindings and wildcards only rearrange the queue. Every other match asks for a test, with a queue
for either outcome, or for a projection, with a queue that depends on the new variable.
-/

namespace PatternCompiler

set_option autoImplicit false

variable {ε : Type}

/-- What the first branch of a queue asks for. -/
inductive Step (ε : Type) where
  | fail
  | select (case : Nat) (env : Environment)
  /-- Nothing to do at run time; go on with another queue. -/
  | advance (queue : Queue ε)
  | test (test : Test ε) (yes no : Queue ε)
  /-- Project a value, and go on with the queue that reads it from a new variable. -/
  | project (func : ε) (subject : Name) (bindings : List (Name × Name)) (body : Name → Queue ε)

/-- The variables that an expression mentions, each with its subject. -/
def Environment.visible (mentions : ε → Name → Bool) (env : Environment) (expr : ε) :
    List (Name × Name) :=
  (env.bindings.filter fun b => mentions expr b.name).map fun b => (b.name, b.subject)

/-- The branch after an expression has read its variables. -/
def Branch.read (mentions : ε → Name → Bool) (branch : Branch ε) (expr : ε) : Branch ε :=
  { branch with
    env := branch.env.markAllUsed ((branch.env.visible mentions expr).map Prod.fst) }

/-- Bind a name to a subject. A name with another subject adds a match of the two subjects. -/
def Branch.bind (branch : Branch ε) (name subject : Name) : Branch ε :=
  match branch.env.extend name subject with
  | .fresh env => { branch with env := env }
  | .existing bound =>
      if bound = subject then branch
      else { branch with env := branch.env.markUsed name }.push (.sameAs subject bound)

/-- The branch that probes a negated pattern; its success goes on behind the negated branch. -/
def Branch.probe (branch : Branch ε) (subject : Name) (inner : Pattern ε) (queue : Queue ε) :
    Branch ε :=
  ⟨[.pattern subject inner], branch.env, .resume queue⟩

namespace Queue

variable [BEq ε] (options : Options) (mentions : ε → Name → Bool)

/-- Test for the first branch: it goes on if the test succeeds, and the others go on anyway. -/
def testStep (test : Test ε) (branch : Branch ε) (queue : Queue ε) : Step ε :=
  if options.splitBranches then
    .test test (branch :: Queue.refine mentions test true queue)
      (Queue.refine mentions test false queue)
  else .test test (branch :: queue) queue

/-- Project a value for the first branch, and for those that can share it. -/
def projectStep (subject : Name) (func : ε) (inner : Pattern ε) (branch : Branch ε)
    (queue : Queue ε) : Step ε :=
  let bindings := branch.env.visible mentions func
  .project func subject bindings fun fresh =>
    (branch.read mentions func).push (.pattern fresh inner) ::
      (if options.splitBranches && bindings.isEmpty then
        Queue.share mentions ⟨subject, func, fresh⟩ queue
      else queue)

/-- The step for a pattern, in front of what is left of the first branch. -/
def patternStep (subject : Name) (branch : Branch ε) (queue : Queue ε) : Pattern ε → Step ε
  | .wildcard => .advance (branch :: queue)
  | .bind name => .advance (branch.bind name subject :: queue)
  | .literal literal =>
      testStep options mentions (.equal subject literal literal.equivalence) branch queue
  | .predicate func =>
      testStep options mentions (.predicate subject func (branch.env.visible mentions func))
        (branch.read mentions func) queue
  | .guard expr =>
      testStep options mentions (.guard expr (branch.env.visible mentions expr))
        (branch.read mentions expr) queue
  | .app func inner => projectStep options mentions subject func inner branch queue
  | .not inner => .advance (branch.probe subject inner queue :: branch :: queue)
  | .and items =>
      .advance ({ branch with pending := items.map (.pattern subject) ++ branch.pending } :: queue)
  | .or alternatives =>
      .advance ((alternativeMatches options.foldMemberships subject alternatives).map branch.push
        ++ queue)

def pendingStep (branch : Branch ε) (queue : Queue ε) : Pending ε → Step ε
  | .pattern subject p => patternStep options mentions subject branch queue p
  | .member subject set eqv => testStep options mentions (.member subject set eqv) branch queue
  | .sameAs subject other => testStep options mentions (.sameAs subject other) branch queue

def step : Queue ε → Step ε
  | [] => .fail
  | branch :: queue =>
      match branch.pending with
      | m :: ms => pendingStep options mentions { branch with pending := ms } queue m
      | [] =>
          match branch.goal with
          | .select case => .select case branch.env
          | .resume saved => .advance saved

end Queue

end PatternCompiler
