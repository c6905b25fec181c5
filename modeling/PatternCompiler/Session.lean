import PatternCompiler.NameSupply

/-!
# Sessions

The state that compilations share: the names handed out so far and the state of the target. A
case body may compile a match of its own, so body generators work on the whole session.
-/

namespace PatternCompiler

set_option autoImplicit false

structure Session (σ : Type) where
  names : NameSupply
  target : σ

namespace Session

variable {σ α : Type}

def emit (action : StateM σ α) : StateM (Session σ) α := fun session =>
  let (a, target) := action session.target
  (a, { session with target := target })

def withNames (action : StateM NameSupply α) : StateM (Session σ) α := fun session =>
  let (a, names) := action session.names
  (a, { session with names := names })

end Session

end PatternCompiler
