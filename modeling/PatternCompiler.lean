import PatternCompiler.Clause
import PatternCompiler.Matcher
import PatternCompiler.Proofs.Correspondence
import PatternCompiler.Proofs.Evaluation
import PatternCompiler.Proofs.Comparators
import PatternCompiler.Proofs.Matching
import PatternCompiler.Proofs.Solutions
import PatternCompiler.Proofs.Agreement
import PatternCompiler.Proofs.Closure
import PatternCompiler.Proofs.Placement
import PatternCompiler.Proofs.Arrival
import PatternCompiler.Proofs.Appending
import PatternCompiler.Proofs.Repetition
import PatternCompiler.Proofs.Membership
import PatternCompiler.Proofs.Contents
import PatternCompiler.Proofs.Tally
import PatternCompiler.Proofs.TestCount
import PatternCompiler.Proofs.Rejection
import PatternCompiler.Proofs.Visibility
import PatternCompiler.Proofs.Doubling
import PatternCompiler.Proofs.Shadowing
import PatternCompiler.Proofs.HookCalls
import PatternCompiler.Proofs.Arithmetic
import PatternCompiler.Proofs.Termination
import PatternCompiler.Proofs.NameGrowth
import PatternCompiler.Proofs.ReadMarks
import PatternCompiler.Proofs.Equality
import PatternCompiler.Proofs.Interning
import PatternCompiler.Proofs.Visits
import PatternCompiler.Proofs.Isolation
