import PatternCompiler.Text.Inspect

/-!
# Compilation options

Every optimization is on by default. An option changes the shape and the size of the generated
code and what is reported, never which case is meant to fire.
-/

namespace PatternCompiler

set_option autoImplicit false

structure Options where
  /-- Fold runs of literal alternatives into one membership test. -/
  foldMemberships : Bool := true
  /-- Simplify later branches with what each test has shown, and share equal projections. -/
  splitBranches : Bool := true
  /-- Report the cases that no path reaches. -/
  warnUnreachable : Bool := true
deriving DecidableEq, Inhabited

namespace Options

/-- No optimization: the decisions follow the patterns literally. -/
def unoptimized : Options where
  foldMemberships := false
  splitBranches := false

instance : Inspect Options where
  inspect o := Inspect.record "MatchOptions"
    [("fold_memberships", inspect o.foldMemberships),
     ("split_branches", inspect o.splitBranches),
     ("warn_unreachable", inspect o.warnUnreachable)]

end Options

end PatternCompiler
