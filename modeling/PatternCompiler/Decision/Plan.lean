import PatternCompiler.Decision.Build

/-!
# Plans

What is settled about a case list before any code exists: the variable that holds the subject, the
decision tree on it, and the uses of every case.
-/

namespace PatternCompiler

set_option autoImplicit false

structure Plan (ε : Type) where
  root : Name
  decision : Decision ε
  uses : UseTable
  projections : Nat

/-- The plan of a case list. The subject's variable is named first. -/
def Plan.ofPatterns {ε : Type} [BEq ε] (options : Options) (mentions : ε → Name → Bool)
    (patterns : List (Pattern ε)) : StateM NameSupply (Plan ε) := fun names =>
  let (root, names) := NameSupply.fresh "val" names
  let (decision, builder) :=
    Queue.build options mentions (Queue.ofPatterns root patterns)
      ⟨names, .empty patterns.length, 0⟩
  (⟨root, decision, builder.uses, builder.projections⟩, builder.names)

end PatternCompiler
