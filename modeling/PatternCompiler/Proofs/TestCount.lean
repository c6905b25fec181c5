import PatternCompiler.Proofs.Compilation
import PatternCompiler.Proofs.Contents
import PatternCompiler.Proofs.Numbering
import PatternCompiler.Proofs.Tally

/-!
# Optimizations add no tests

What a test decides, what is shared and what is folded never counts more than what was there before.
So a tree has at most the tests that were counted for its queue, and without optimizations it has
exactly those that the comparison needs.
-/

namespace PatternCompiler

set_option autoImplicit false

variable {ε : Type}

/-! ## Splitting -/

namespace Pending

/-- The tests of what is left of a match; nothing is left of a match that is known to fail. -/
def testsLeft : Option (List (Pending ε)) → Tally → Tally
  | none, _, _, f => f
  | some left, k, t, f => testsAll left k t f

theorem le_testsAll (ms : List (Pending ε)) {k : Tally} {b : Nat}
    (hk : ∀ t f, b ≤ f → b ≤ k t f) {t : Trail} {f : Nat} (hf : b ≤ f) :
    b ≤ testsAll ms k t f := by
  induction ms generalizing t f with
  | nil => exact hk t f hf
  | cons m ms ih =>
      cases m with
      | pattern subject p => exact p.le_tests (fun _ _ hf => ih hf) hf
      | member | sameAs =>
          simp only [testsAll, tests]
          omega

/-- What is left of two matches, if anything is left of both of them. -/
theorem append_atMost {first rest : Option (List (Pending ε))} {D : Tally → Tally}
    (hfirst : ∀ {c d : Tally}, Tally.AtMost 0 id c d → Tally.AtMost 0 id (testsLeft first c) (D d))
    {c d : Tally} (hrest : Tally.AtMost 0 id (testsLeft rest c) d) :
    Tally.AtMost 0 id (testsLeft (do return (← first) ++ (← rest)) c) (D d) := by
  cases first with
  | none => exact hfirst (c := testsLeft rest c) hrest
  | some left =>
      cases rest with
      | none =>
          -- The first match may still be made, but behind it everything fails.
          intro τ t made f f' hτ hn ht hf
          have hle := le_testsAll left (k := fun _ f => f) (t := t.via τ made)
            (fun _ _ hf => hf) (Nat.le_refl f)
          exact Nat.le_trans hle (hfirst (c := fun _ f => f) hrest τ t made f f' hτ hn ht hf)
      | some right =>
          have happend : testsLeft (some (left ++ right)) c = testsLeft (some left)
              (testsLeft (some right) c) := by
            funext t f
            exact congrFun (congrFun (testsAll_append left right c) t) f
          exact happend ▸ hfirst (c := testsLeft (some right) c) hrest

end Pending

namespace Knowledge

open Pending (testsLeft)

theorem remainder_atMost {verdict : Option Bool} {undecided : Option (List (Pending ε))}
    {c c' d : Tally} (hc : Tally.AtMost 0 id c c')
    (hverdict : ∀ b, verdict = some b → ∀ t f, (if b then c' t f else f) ≤ d t f)
    (hundecided : Tally.AtMost 0 id (testsLeft undecided c) d) :
    Tally.AtMost 0 id (testsLeft (remainder verdict undecided) c) d := by
  cases verdict with
  | none => exact hundecided
  | some b =>
      intro τ t made f f' hτ hn ht hf
      have hd := hverdict b rfl t f'
      cases b with
      | true => exact Nat.le_trans (hc τ t made f f' hτ hn ht hf) hd
      | false => exact Nat.le_trans hf hd

variable [BEq ε] (k : Knowledge ε) (free : Bool)

mutual

/-- A match with a known verdict counts at least what follows it. -/
theorem le_tests_of_decided (subject : Name) {p : Pattern ε} {b : Bool}
    (h : k.verdict free subject p = some b) (s : Place) (c : Tally) (t : Trail) (f : Nat) :
    (if b then c t f else f) ≤ p.tests s c t f := by
  cases p with
  | wildcard | bind | guard | app => simp [verdict] at h
  | literal | predicate =>
      simp only [Pattern.tests]
      split <;> omega
  | not inner =>
      rw [verdict] at h
      obtain ⟨b, hb, rfl⟩ := Option.map_eq_some_iff.mp h
      have hinner := le_tests_of_decided subject hb s (fun _ _ => f) t (c t f)
      cases b <;> exact hinner
  | and items => exact le_testsAll_of_decided subject h s c t f
  | or alternatives =>
      rw [verdict] at h
      split at h
      · rename_i hrefuted
        cases h
        rw [Bool.and_eq_true] at hrefuted
        exact le_testsAny_of_refuted subject hrefuted.2 s c t f
      · cases h

theorem le_testsAll_of_decided (subject : Name) {ps : List (Pattern ε)} {b : Bool}
    (h : k.verdictAll free subject ps = some b) (s : Place) (c : Tally) (t : Trail) (f : Nat) :
    (if b then c t f else f) ≤ Pattern.testsAll ps s c t f := by
  cases ps with
  | nil =>
      cases h
      exact Nat.le_refl _
  | cons p ps =>
      rw [verdictAll] at h
      split at h
      · rename_i hp
        cases h
        exact le_tests_of_decided subject hp s (Pattern.testsAll ps s c) t f
      · rename_i hps _
        cases h
        refine p.le_tests (fun t g hg => ?_) (Nat.le_refl f)
        exact Nat.le_trans hg (le_testsAll_of_decided subject hps s c t g)
      · rename_i hp hps
        cases h
        exact Nat.le_trans (le_testsAll_of_decided subject hps s c t f)
          (le_tests_of_decided subject hp s (Pattern.testsAll ps s c) t f)
      · cases h

theorem le_testsAny_of_refuted (subject : Name) {ps : List (Pattern ε)}
    (h : k.allRefuted free subject ps = true) (s : Place) (c : Tally) (t : Trail) (f : Nat) :
    f ≤ Pattern.testsAny ps s c t f := by
  cases ps with
  | nil => exact Nat.le_refl f
  | cons p ps =>
      rw [allRefuted, Bool.and_eq_true, beq_iff_eq] at h
      exact Nat.le_trans (le_testsAny_of_refuted subject h.2 s c t f)
        (le_tests_of_decided subject h.1 s c t (Pattern.testsAny ps s c t f))

end

mutual

theorem residue_atMost (subject : Name) (p : Pattern ε) {c c' : Tally}
    (hc : Tally.AtMost 0 id c c') :
    Tally.AtMost 0 id (testsLeft (k.residue free subject p) c)
      (p.tests (.given subject) c') := by
  have keep (q : Pattern ε) (hq : k.residue free subject q =
        remainder (k.verdict free subject q) (some [.pattern subject q])) :
      Tally.AtMost 0 id (testsLeft (k.residue free subject q) c)
        (q.tests (.given subject) c') := by
    rw [hq]
    exact remainder_atMost hc
      (fun b hb t f => k.le_tests_of_decided free subject hb (.given subject) c' t f)
      (q.tests_atMost (s := .given subject) trivial hc)
  cases p with
  | and items =>
      rw [residue]
      exact remainder_atMost hc
        (fun b hb t f => k.le_tests_of_decided free subject hb (.given subject) c' t f)
        (residueItems_atMost subject items hc)
  | wildcard | bind | literal | predicate | guard | app | not | or => exact keep _ rfl

theorem residueItems_atMost (subject : Name) (ps : List (Pattern ε)) {c c' : Tally}
    (hc : Tally.AtMost 0 id c c') :
    Tally.AtMost 0 id (testsLeft (k.residueItems free subject ps) c)
      (Pattern.testsAll ps (.given subject) c') := by
  cases ps with
  | nil => exact hc
  | cons p ps =>
      rw [residueItems]
      exact Pending.append_atMost (D := p.tests (.given subject))
        (fun hc => residue_atMost subject p hc) (residueItems_atMost subject ps hc)

end

theorem residuePending_atMost (m : Pending ε) {c c' : Tally} (hc : Tally.AtMost 0 id c c') :
    Tally.AtMost 0 id (testsLeft (k.residuePending free m) c) (m.tests c') := by
  have whole : Tally.AtMost 0 id (testsLeft (some [m]) c) (m.tests c') :=
    Pending.tests_atMost (fun _ _ _ => rfl) hc
  cases m with
  | pattern subject p =>
      rw [residuePending]
      split
      · exact k.residue_atMost free subject p hc
      · exact whole
  | member | sameAs =>
      refine remainder_atMost hc (fun b _ t f => ?_) whole
      simp only [Pending.tests]
      split <;> omega

theorem residueAll_atMost (ms : List (Pending ε)) {c c' : Tally} (hc : Tally.AtMost 0 id c c') :
    Tally.AtMost 0 id (testsLeft (k.residueAll free ms) c) (Pending.testsAll ms c') := by
  induction ms with
  | nil => exact hc
  | cons m ms ih =>
      rw [residueAll]
      exact Pending.append_atMost (D := m.tests) (fun hc => k.residuePending_atMost free m hc) ih

/-- A branch that is known to fail is left out, which leaves the tests behind its failure. -/
theorem refineBranch_tests_le (mentions : ε → Name → Bool) (branch : Branch ε) {f f' : Nat}
    (hf : f ≤ f') :
    ((k.refineBranch mentions branch).elim f fun refined => refined.tests f) ≤ branch.tests f' := by
  obtain ⟨free, -, heq⟩ := k.exists_refineBranch_eq mentions branch
  have hle := (k.residueAll_atMost free branch.pending
    (.const (Nat.le_refl branch.goal.tests))).mono (Trail.ofEnv_proper branch.env) hf
  rw [branch.tests_eq, heq]
  cases hleft : k.residueAll free branch.pending with
  | none =>
      rw [hleft] at hle
      exact hle
  | some left =>
      rw [hleft] at hle
      rw [Option.map_some, Option.elim_some, Branch.tests_eq]
      exact hle

end Knowledge

theorem Queue.tests_refine_le [BEq ε] (mentions : ε → Name → Bool) (test : Test ε) (outcome : Bool)
    (queue : Queue ε) :
    Queue.tests (Queue.refine mentions test outcome queue) ≤ Queue.tests queue := by
  unfold Queue.refine
  split
  · exact Nat.le_refl _
  · rename_i fact _
    induction queue with
    | nil => exact Nat.le_refl _
    | cons branch queue ih =>
        have hbranch := Knowledge.refineBranch_tests_le ⟨fact, outcome⟩ mentions branch ih
        rw [List.filterMap_cons]
        cases hrefined : Knowledge.refineBranch ⟨fact, outcome⟩ mentions branch with
        | none =>
            rw [hrefined] at hbranch
            exact hbranch
        | some refined =>
            rw [hrefined] at hbranch
            exact hbranch

/-! ## Sharing -/

namespace Projection

variable [BEq ε] (pr : Projection ε)

mutual

/-- An application that is redirected finds its value at another place. -/
theorem redirectPattern_atMost (p : Pattern ε) {c c' : Tally}
    (hc : Tally.AtMost 0 id c c') :
    Tally.AtMost 0 id (Pending.testsAll (pr.redirectPattern p) c)
      (p.tests (.given pr.subject) c') := by
  have keep (q : Pattern ε) : Tally.AtMost 0 id (Pending.testsAll [.pattern pr.subject q] c)
      (q.tests (.given pr.subject) c') := q.tests_atMost (s := .given pr.subject) trivial hc
  match p with
  | .app func inner =>
      rw [redirectPattern]
      split
      · intro τ t made f f' hτ hn ht hf
        exact hc.projected (c := fun s => inner.tests s c) (d := fun s => inner.tests s c')
          (fun hs hc => inner.tests_atMost hs hc) (.given pr.fresh) hτ hn ht made hf
      · exact keep _
  | .and items =>
      rw [redirectPattern]
      split
      · exact redirectItems_atMost items hc
      · exact keep _
  | .wildcard | .bind _ | .literal _ | .predicate _ | .guard _ | .not _ | .or _ => exact keep _

theorem redirectItems_atMost (ps : List (Pattern ε)) {c c' : Tally}
    (hc : Tally.AtMost 0 id c c') :
    Tally.AtMost 0 id (Pending.testsAll (pr.redirectItems ps) c)
      (Pattern.testsAll ps (.given pr.subject) c') := by
  match ps with
  | [] => exact hc
  | p :: ps =>
      rw [redirectItems, Pending.testsAll_append]
      exact redirectPattern_atMost p (redirectItems_atMost ps hc)

end

theorem redirectPending_atMost (m : Pending ε) {c c' : Tally}
    (hc : Tally.AtMost 0 id c c') :
    Tally.AtMost 0 id (Pending.testsAll (pr.redirectPending m) c) (m.tests c') := by
  have whole : Tally.AtMost 0 id (Pending.testsAll [m] c) (m.tests c') :=
    Pending.tests_atMost (fun _ _ _ => rfl) hc
  cases m with
  | pattern subject p =>
      rw [redirectPending]
      split
      · rename_i hsubject
        rw [hsubject]
        exact pr.redirectPattern_atMost p hc
      · exact whole
  | member | sameAs => exact whole

theorem redirectAll_atMost (ms : List (Pending ε)) {c c' : Tally}
    (hc : Tally.AtMost 0 id c c') :
    Tally.AtMost 0 id (Pending.testsAll (ms.flatMap pr.redirectPending) c)
      (Pending.testsAll ms c') := by
  induction ms with
  | nil => exact hc
  | cons m ms ih =>
      rw [List.flatMap_cons, Pending.testsAll_append]
      exact pr.redirectPending_atMost m ih

theorem shareBranch_tests_le (mentions : ε → Name → Bool) (branch : Branch ε) {f f' : Nat}
    (hf : f ≤ f') : (pr.shareBranch mentions branch).tests f ≤ branch.tests f' := by
  unfold shareBranch
  split
  · rw [Branch.tests_eq, Branch.tests_eq]
    exact (pr.redirectAll_atMost branch.pending (.const (Nat.le_refl branch.goal.tests))).mono
      (Trail.ofEnv_proper branch.env) hf
  · exact branch.tests_mono hf

end Projection

theorem Queue.tests_share_le [BEq ε] (mentions : ε → Name → Bool) (pr : Projection ε)
    (queue : Queue ε) : Queue.tests (Queue.share mentions pr queue) ≤ Queue.tests queue := by
  induction queue with
  | nil => exact Nat.le_refl _
  | cons branch queue ih => exact pr.shareBranch_tests_le mentions branch ih

/-! ## Folding -/

namespace Queue

/-- The tests of the branches that alternatives fan out to, in front of a queue with `f` tests. -/
def fanTests (ms : List (Pending ε)) (k : Tally) (t : Trail) (f : Nat) : Nat :=
  ms.foldr (fun m rest => m.tests k t rest) f

theorem tests_map_push_append (branch : Branch ε) (ms : List (Pending ε)) (queue : Queue ε) :
    Queue.tests (ms.map branch.push ++ queue) =
      fanTests ms (Pending.testsAll branch.pending branch.goal.onwardTests) (.ofEnv branch.env)
        (Queue.tests queue) := by
  induction ms with
  | nil => rfl
  | cons m ms ih =>
      rw [List.map_cons, List.cons_append, Queue.tests, ih, Branch.tests_eq]
      rfl

theorem fanTests_map_pattern (subject : Name) (ps : List (Pattern ε)) (k : Tally) (t : Trail)
    (f : Nat) :
    fanTests (ps.map (.pattern subject)) k t f = Pattern.testsAny ps (.given subject) k t f := by
  induction ps with
  | nil => rfl
  | cons p ps ih =>
      rw [List.map_cons, fanTests, List.foldr_cons, ← fanTests, ih]
      rfl

variable {k : Tally} {t : Trail} {subject : Name} {run : List (Pattern ε × Literal)}

/-- Plain comparisons in front of other alternatives only add tests. -/
theorem testsAny_le_append (hrun : ∀ e ∈ run, e.1.quoted? = some e.2) (ps : List (Pattern ε))
    (s : Place) (f : Nat) :
    Pattern.testsAny ps s k t f ≤ Pattern.testsAny (run.map Prod.fst ++ ps) s k t f := by
  induction run with
  | nil => exact Nat.le_refl _
  | cons e run ih =>
      obtain ⟨he, hrun⟩ := List.forall_mem_cons.mp hrun
      have hle := ih hrun
      rw [List.map_cons, List.cons_append, Pattern.testsAny, Pattern.tests_of_quoted he]
      omega

/-- A run of comparisons is one test at most where the alternatives are one test each. -/
theorem fanTests_matchesOfRun_le (hk : Tally.AtMost 0 id k k) (ht : t.Proper)
    (hrun : ∀ e ∈ run, e.1.quoted? = some e.2) {ps : List (Pattern ε)} {f g : Nat}
    (hg : g ≤ Pattern.testsAny ps (.given subject) k t f) :
    fanTests (matchesOfRun subject run) k t g ≤
      Pattern.testsAny (run.map Prod.fst ++ ps) (.given subject) k t f := by
  match run with
  | [] => exact hg
  | [(p, l)] => exact (p.tests_atMost (s := .given subject) trivial hk).mono ht hg
  | (p, l) :: e :: rest =>
      obtain ⟨hp, hrest⟩ := List.forall_mem_cons.mp hrun
      have hmore := Nat.le_trans hg (testsAny_le_append hrest ps (.given subject) f)
      have hsuccess := hk.mono ht hmore
      rw [List.map_cons, List.cons_append, Pattern.testsAny, Pattern.tests_of_quoted hp]
      simp only [matchesOfRun, fanTests, List.foldr_cons, List.foldr_nil, Pending.tests]
      omega

theorem fanTests_foldFrom_le (hk : Tally.AtMost 0 id k k) (ht : t.Proper)
    (hrun : ∀ e ∈ run, e.1.quoted? = some e.2) (ps : List (Pattern ε)) (f : Nat) :
    fanTests (foldFrom subject run ps) k t f ≤
      Pattern.testsAny (run.map Prod.fst ++ ps) (.given subject) k t f := by
  induction ps generalizing run with
  | nil => exact fanTests_matchesOfRun_le hk ht hrun (Nat.le_refl f)
  | cons p ps ih =>
      rw [foldFrom]
      split
      · rename_i l hquoted
        have hrun' : ∀ e ∈ run ++ [(p, l)], e.1.quoted? = some e.2 :=
          List.forall_mem_append.mpr ⟨hrun, fun e he => List.mem_singleton.mp he ▸ hquoted⟩
        have hlonger := ih hrun'
        rwa [List.map_append, List.append_assoc] at hlonger
      · have hrest := ih fun e (he : e ∈ ([] : List (Pattern ε × Literal))) => by cases he
        rw [fanTests, List.foldr_append]
        refine fanTests_matchesOfRun_le hk ht hrun ?_
        exact (p.tests_atMost (s := .given subject) trivial hk).mono ht hrest

theorem fanTests_alternativeMatches_le (fold : Bool) (hk : Tally.AtMost 0 id k k) (ht : t.Proper)
    (ps : List (Pattern ε)) (f : Nat) :
    fanTests (alternativeMatches fold subject ps) k t f ≤
      Pattern.testsAny ps (.given subject) k t f := by
  cases fold with
  | true => exact fanTests_foldFrom_le hk ht (fun e he => by cases he) ps f
  | false => exact Nat.le_of_eq (fanTests_map_pattern subject ps k t f)

end Queue

/-! ## Steps -/

/-- Nothing is split, shared or folded. -/
structure Options.Plain (options : Options) : Prop where
  split : options.splitBranches = false
  fold : options.foldMemberships = false

theorem Trail.lookup_ofEnv (env : Environment) (x : Name) :
    (Trail.ofEnv env).bound.lookup x = (env.lookup? x).map fun b => .given b.subject := by
  unfold Trail.ofEnv Environment.pairs Environment.lookup?
  induction env.bindings with
  | nil => rfl
  | cons b bindings ih =>
      rw [List.map_cons, List.map_cons, List.lookup_cons, ih, List.find?_cons]
      by_cases hx : b.name = x
      · simp [hx]
      · have hne : (x == b.name) = false := beq_eq_false_iff_ne.mpr (Ne.symm hx)
        simp [hx, hne]

namespace Branch

variable (branch : Branch ε) (subject : Name) (f : Nat)

theorem tests_push (m : Pending ε) :
    (branch.push m).tests f =
      m.tests (Pending.testsAll branch.pending branch.goal.onwardTests) (.ofEnv branch.env) f := by
  rw [tests_eq]
  rfl

theorem tests_withEnv {env : Environment} (h : env.pairs = branch.env.pairs) :
    Branch.tests { branch with env := env } f = branch.tests f := by
  rw [tests_eq, tests_eq, Trail.ofEnv_of_pairs h]

theorem tests_read (mentions : ε → Name → Bool) (expr : ε) :
    (branch.read mentions expr).tests f = branch.tests f :=
  branch.tests_withEnv f (Environment.pairs_markAllUsed _ _)

/-- A pattern that is one test, whatever is read for it. -/
theorem tests_push_of_test (mentions : ε → Name → Bool) (expr : ε) {p : Pattern ε}
    (hp : ∀ s k t f, p.tests s k t f = 1 + k t f + f) :
    (branch.push (.pattern subject p)).tests f =
      1 + (branch.read mentions expr).tests f + f := by
  rw [tests_push, tests_read, tests_eq, Pending.tests, hp]

theorem tests_push_literal (l : Literal) :
    (branch.push (.pattern subject (.literal l))).tests f = 1 + branch.tests f + f := by
  rw [tests_push, tests_eq]
  rfl

/-- Binding a name at once takes the tests that were counted for it. -/
theorem tests_bind (x : Name) :
    (branch.bind x subject).tests f = (branch.push (.pattern subject (.bind x))).tests f := by
  rw [tests_push]
  simp only [Pending.tests, Pattern.tests, Trail.lookup_ofEnv, Branch.bind, Environment.extend]
  cases branch.env.lookup? x with
  | none =>
      rw [tests_eq]
      simp [Trail.ofEnv, Trail.bind, Environment.pairs]
  | some b =>
      by_cases hb : b.subject = subject
      · simp only [hb, if_true, Option.map_some]
        exact branch.tests_eq f
      · have hplace : Place.given b.subject ≠ .given subject :=
          fun h => hb (Place.given.inj h)
        simp only [if_neg hb, if_neg hplace, Option.map_some]
        rw [tests_push, Pending.tests, Trail.ofEnv_of_pairs (Environment.pairs_markUsed _ _)]

theorem tests_and (items : List (Pattern ε)) :
    Branch.tests { branch with pending := items.map (.pattern subject) ++ branch.pending } f =
      (branch.push (.pattern subject (.and items))).tests f := by
  rw [tests_push, tests_eq, Pending.testsAll_append, Pending.testsAll_map_pattern]
  rfl

/-- With the variable of a projection in place of the projection. -/
def projected (mentions : ε → Name → Bool) (func : ε) (fresh : Name) (inner : Pattern ε) :
    Branch ε :=
  (branch.read mentions func).push (.pattern fresh inner)

theorem tests_projected (mentions : ε → Name → Bool) (func : ε) (fresh : Name)
    (inner : Pattern ε) :
    (branch.projected mentions func fresh inner).tests f =
      inner.tests (.given fresh) (Pending.testsAll branch.pending branch.goal.onwardTests)
        (.ofEnv branch.env) f := by
  rw [projected, tests_push, Branch.read, Trail.ofEnv_of_pairs (Environment.pairs_markAllUsed _ _)]
  rfl

/-- Whatever variable the projection gets, it takes no more tests than were counted. -/
theorem tests_projected_le (mentions : ε → Name → Bool) (func : ε) (fresh : Name)
    (inner : Pattern ε) {g : Nat} (hg : g ≤ f) :
    (branch.projected mentions func fresh inner).tests g ≤
      (branch.push (.pattern subject (.app func inner))).tests f := by
  let K := Pending.testsAll branch.pending branch.goal.onwardTests
  have hle := branch.pending_atMost.projected (c := fun s => inner.tests s K)
    (d := fun s => inner.tests s K) (fun hs hK => inner.tests_atMost hs hK) (.given fresh)
    (.refl _ _) (Nat.zero_le _) (Trail.ofEnv_proper branch.env) 0 hg
  rw [show (Trail.ofEnv branch.env).via id 0 = .ofEnv branch.env from Trail.via_id _] at hle
  rw [tests_push, tests_projected]
  exact hle

/-- A variable that the branch does not have yet takes all the tests that were counted. -/
theorem le_tests_projected (mentions : ε → Name → Bool) (func : ε) {fresh : Name}
    (inner : Pattern ε) (hpending : ∀ s p, .pattern s p ∈ branch.pending → s ≠ fresh)
    (henv : ∀ s ∈ branch.env.subjects, s ≠ fresh) :
    (branch.push (.pattern subject (.app func inner))).tests f ≤
      (branch.projected mentions func fresh inner).tests f := by
  let K := Pending.testsAll branch.pending branch.goal.onwardTests
  let σ := Function.update id (Place.given fresh) (.made 0)
  have hfixes {s : Name} (hs : s ≠ fresh) : Place.Fixes σ s :=
    Function.update_of_ne (fun h => hs (Place.given.inj h)) _ _
  have hK : Tally.AtMost 0 σ K K := Pending.testsAll_atMost
    (fun s p hmem => hfixes (hpending s p hmem)) (.const (Nat.le_refl _))
  have hplace : σ (.given fresh) = .made 0 := Function.update_self ..
  have hvia : (Trail.ofEnv branch.env).via σ 1 = (Trail.ofEnv branch.env).project := by
    have hbound : ∀ b ∈ (Trail.ofEnv branch.env).bound, (b.1, σ b.2) = id b := by
      intro b hb
      obtain ⟨c, hc, rfl⟩ := List.mem_map.mp hb
      have hmem : c.2 ∈ branch.env.subjects := by
        rw [Environment.subjects_eq]
        exact List.mem_map_of_mem hc
      exact Prod.ext rfl (hfixes (henv _ hmem))
    exact congrArg (Trail.mk 1) ((List.map_congr_left hbound).trans (List.map_id _))
  have hle := inner.tests_atMost (s := .given fresh) trivial hK σ (.ofEnv branch.env) 1 f f
    (.refl _ _) (Nat.zero_le _) (Trail.ofEnv_proper _) (Nat.le_refl f)
  rw [hplace, hvia] at hle
  rw [tests_push, tests_projected]
  exact hle

theorem tests_not (inner : Pattern ε) (queue : Queue ε) :
    Queue.tests (branch.probe subject inner queue :: branch :: queue) =
      (branch.push (.pattern subject (.not inner))).tests (Queue.tests queue) := by
  rw [tests_push, Queue.tests, Queue.tests, tests_eq, tests_eq branch]
  rfl

end Branch

namespace Queue

variable [BEq ε] {options : Options} {mentions : ε → Name → Bool}

theorem tests_testStep_le (test : Test ε) (branch : Branch ε) (queue : Queue ε) (fresh : Name) :
    (testStep options mentions test branch queue).tests fresh ≤
      1 + branch.tests (Queue.tests queue) + Queue.tests queue := by
  unfold testStep
  split
  · have hyes := branch.tests_mono (tests_refine_le mentions test true queue)
    have hno := tests_refine_le mentions test false queue
    simp only [Step.tests, Queue.tests]
    omega
  · exact Nat.le_refl _

theorem le_tests_testStep (hplain : options.Plain) (test : Test ε) (branch : Branch ε)
    (queue : Queue ε) (fresh : Name) :
    1 + branch.tests (Queue.tests queue) + Queue.tests queue ≤
      (testStep options mentions test branch queue).tests fresh := by
  rw [testStep, hplain.split]
  exact Nat.le_refl _

/-- A step takes no more tests than were counted for the queue. -/
theorem tests_patternStep_le (subject : Name) (branch : Branch ε) (queue : Queue ε)
    (p : Pattern ε) (fresh : Name) :
    (patternStep options mentions subject branch queue p).tests fresh ≤
      (branch.push (.pattern subject p)).tests (Queue.tests queue) := by
  cases p with
  | wildcard => exact Nat.le_of_eq (branch.tests_eq _)
  | bind x => exact Nat.le_of_eq (branch.tests_bind subject _ x)
  | literal l =>
      rw [branch.tests_push_literal]
      exact tests_testStep_le _ branch queue fresh
  | predicate func =>
      rw [branch.tests_push_of_test subject _ mentions func fun _ _ _ _ => rfl]
      exact tests_testStep_le _ (branch.read mentions func) queue fresh
  | guard expr =>
      rw [branch.tests_push_of_test subject _ mentions expr fun _ _ _ _ => rfl]
      exact tests_testStep_le _ (branch.read mentions expr) queue fresh
  | app func inner =>
      refine branch.tests_projected_le subject _ mentions func fresh inner ?_
      split
      · exact tests_share_le mentions _ queue
      · exact Nat.le_refl _
  | not inner => exact Nat.le_of_eq (branch.tests_not subject inner queue)
  | and items => exact Nat.le_of_eq (branch.tests_and subject _ items)
  | or alternatives =>
      rw [branch.tests_push]
      refine Nat.le_trans (Nat.le_of_eq (tests_map_push_append branch _ queue)) ?_
      exact fanTests_alternativeMatches_le _ branch.pending_atMost (Trail.ofEnv_proper _)
        alternatives (Queue.tests queue)

theorem tests_step_le (options : Options) (mentions : ε → Name → Bool) (queue : Queue ε)
    (fresh : Name) : (step options mentions queue).tests fresh ≤ Queue.tests queue := by
  match queue with
  | [] => exact Nat.le_refl _
  | ⟨[], env, .select case⟩ :: queue => exact Nat.zero_le _
  | ⟨[], env, .resume saved⟩ :: queue =>
      rw [Queue.tests, Branch.tests_eq]
      exact Nat.le_refl _
  | ⟨.pattern subject p :: ms, env, goal⟩ :: queue =>
      exact tests_patternStep_le subject ⟨ms, env, goal⟩ queue p fresh
  | ⟨.member subject set eqv :: ms, env, goal⟩ :: queue
  | ⟨.sameAs subject other :: ms, env, goal⟩ :: queue =>
      refine Nat.le_trans (tests_testStep_le _ ⟨ms, env, goal⟩ queue fresh) ?_
      rw [Queue.tests, Branch.tests_eq, Branch.tests_eq]
      exact Nat.le_refl _

/-- A step without optimizations takes all the tests, if the variable of a projection is new. -/
theorem le_tests_patternStep (hplain : options.Plain) (subject : Name) (branch : Branch ε)
    (queue : Queue ε) (p : Pattern ε) {fresh : Name}
    (hpending : ∀ s q, .pattern s q ∈ branch.pending → s ≠ fresh)
    (henv : ∀ s ∈ branch.env.subjects, s ≠ fresh) :
    (branch.push (.pattern subject p)).tests (Queue.tests queue) ≤
      (patternStep options mentions subject branch queue p).tests fresh := by
  cases p with
  | wildcard => exact Nat.le_of_eq (branch.tests_eq _).symm
  | bind x => exact Nat.le_of_eq (branch.tests_bind subject _ x).symm
  | literal l =>
      rw [branch.tests_push_literal]
      exact le_tests_testStep hplain _ branch queue fresh
  | predicate func =>
      rw [branch.tests_push_of_test subject _ mentions func fun _ _ _ _ => rfl]
      exact le_tests_testStep hplain _ (branch.read mentions func) queue fresh
  | guard expr =>
      rw [branch.tests_push_of_test subject _ mentions expr fun _ _ _ _ => rfl]
      exact le_tests_testStep hplain _ (branch.read mentions expr) queue fresh
  | app func inner =>
      have hle := branch.le_tests_projected subject (Queue.tests queue) mentions func inner
        hpending henv
      rw [patternStep, projectStep, hplain.split]
      exact hle
  | not inner => exact Nat.le_of_eq (branch.tests_not subject inner queue).symm
  | and items => exact Nat.le_of_eq (branch.tests_and subject _ items).symm
  | or alternatives =>
      rw [branch.tests_push, patternStep, hplain.fold]
      refine Nat.le_of_eq (Eq.trans ?_ (tests_map_push_append branch _ queue).symm)
      exact (fanTests_map_pattern subject alternatives _ _ _).symm

theorem le_tests_step (hplain : options.Plain) {queue : Queue ε} {fresh : Name}
    (hq : Queue.Within (.onSubjects (· ≠ fresh)) queue) :
    Queue.tests queue ≤ (step options mentions queue).tests fresh := by
  match queue with
  | [] => exact Nat.le_refl _
  | ⟨[], env, .select case⟩ :: queue =>
      rw [Queue.tests, Branch.tests_eq]
      exact Nat.le_refl _
  | ⟨[], env, .resume saved⟩ :: queue =>
      rw [Queue.tests, Branch.tests_eq]
      exact Nat.le_refl _
  | ⟨.pattern subject p :: ms, env, goal⟩ :: queue =>
      obtain ⟨hpending, henv, -⟩ := Branch.within_iff.mp (within_cons.mp hq).1
      exact le_tests_patternStep hplain subject ⟨ms, env, goal⟩ queue p
        (fun s q hmem => (hpending _ (List.mem_cons_of_mem _ hmem)).1) henv
  | ⟨.member subject set eqv :: ms, env, goal⟩ :: queue
  | ⟨.sameAs subject other :: ms, env, goal⟩ :: queue =>
      refine Nat.le_trans ?_ (le_tests_testStep hplain _ ⟨ms, env, goal⟩ queue fresh)
      rw [Queue.tests, Branch.tests_eq, Branch.tests_eq]
      exact Nat.le_refl _

/-! ## Trees -/

/-- A tree has no more tests than were counted for its queue. -/
theorem testCount_build_le (options : Options) (mentions : ε → Name → Bool) (queue : Queue ε)
    (b : Builder) : (build options mentions queue b).1.testCount ≤ Queue.tests queue := by
  induction queue using Queue.build.induct options mentions generalizing b with
  | case1 queue hstep =>
      rw [build_of_fail hstep]
      exact Nat.zero_le _
  | case2 queue case env hstep =>
      rw [build_of_select hstep]
      exact Nat.zero_le _
  | case3 queue next hstep ih =>
      have hle := tests_step_le options mentions queue b.projection.1
      rw [hstep] at hle
      rw [build_of_advance hstep]
      exact Nat.le_trans (ih b) hle
  | case4 queue asked yes no hstep ihyes ihno =>
      have hle := tests_step_le options mentions queue b.projection.1
      rw [hstep] at hle
      have hyes := ihyes b
      have hno := ihno (build options mentions yes b).2
      rw [build_of_test hstep]
      simp only [Step.tests, Decision.testCount] at hle ⊢
      omega
  | case5 queue func subject pairs body hstep ih =>
      have hle := tests_step_le options mentions queue b.projection.1
      rw [hstep] at hle
      rw [build_of_project hstep]
      exact Nat.le_trans (ih _ b.projection.2) hle

/-- Without optimizations a tree has all the tests that were counted for its queue. -/
theorem le_testCount_build (hplain : options.Plain) {queue : Queue ε} {b : Builder}
    (hb : b.names.symbols.Coherent) (hq : Queue.Within (.onSubjects b.names.Settled) queue) :
    Queue.tests queue ≤ (build options mentions queue b).1.testCount := by
  have hfresh {queue : Queue ε} {b : Builder} (hb : b.names.symbols.Coherent)
      (hq : Queue.Within (.onSubjects b.names.Settled) queue) :
      Queue.tests queue ≤ (step options mentions queue).tests b.projection.1 :=
    le_tests_step hplain (hq.mono (.onSubjects fun _ hx => hx.ne_fresh hb))
  induction queue using Queue.build.induct options mentions generalizing b with
  | case1 queue hstep =>
      have hle := hfresh hb hq
      rw [hstep] at hle
      exact Nat.le_trans hle (Nat.zero_le _)
  | case2 queue case env hstep =>
      have hle := hfresh hb hq
      rw [hstep] at hle
      exact Nat.le_trans hle (Nat.zero_le _)
  | case3 queue next hstep ih =>
      have hle := hfresh hb hq
      have hnext := step_within options mentions hq
      rw [hstep] at hle hnext
      rw [build_of_advance hstep]
      exact Nat.le_trans hle (ih hb hnext)
  | case4 queue asked yes no hstep ihyes ihno =>
      have hle := hfresh hb hq
      have hnext := step_within options mentions hq
      rw [hstep] at hle hnext
      have hgrows := build_grows options mentions yes b
      have hyes := ihyes hb hnext.1
      have hno := ihno (hgrows.coherent hb)
        (hnext.2.mono (.onSubjects fun _ hx => hx.grows hgrows))
      rw [build_of_test hstep]
      simp only [Step.tests, Decision.testCount] at hle ⊢
      omega
  | case5 queue func subject pairs body hstep ih =>
      have hle := hfresh hb hq
      have hlater := hq.mono (.onSubjects fun _ hx => hx.fresh "x")
      have hnext := step_within options mentions hlater
      rw [hstep] at hle hnext
      rw [build_of_project hstep]
      exact Nat.le_trans hle (ih _ (NameSupply.fresh_coherent hb "x")
        (hnext _ (NameSupply.fresh_settled hb)))

omit [BEq ε] in
/-- It does not matter which variable holds the subject of all cases. -/
theorem tests_ofPatterns_le (root root' : Name) (patterns : List (Pattern ε)) :
    Queue.tests (Queue.ofPatterns root patterns) ≤
      Queue.tests (Queue.ofPatterns root' patterns) := by
  let σ := Function.update id (Place.given root') (.given root)
  have hroot : σ (.given root') = .given root := Function.update_self ..
  have branch (case : Nat) (p : Pattern ε) {f f' : Nat} (hf : f ≤ f') :
      (Branch.ofCase root case p).tests f ≤ (Branch.ofCase root' case p).tests f' := by
    have hle := p.tests_atMost (s := .given root') trivial (.const (Nat.le_refl 0)) σ
      (.ofEnv .empty) 0 f f' (.refl 0 _) (Nat.le_refl _) (Trail.ofEnv_proper _) hf
    rw [hroot] at hle
    rw [Branch.tests_eq, Branch.tests_eq]
    exact hle
  have cases (number : Nat → Nat) :
      Queue.tests (patterns.mapIdx fun i p => Branch.ofCase root (number i) p) ≤
        Queue.tests (patterns.mapIdx fun i p => Branch.ofCase root' (number i) p) := by
    induction patterns generalizing number with
    | nil => exact Nat.le_refl _
    | cons p ps ih =>
        rw [List.mapIdx_cons, List.mapIdx_cons]
        exact branch (number 0) p (ih fun i => number (i + 1))
  exact cases id

end Queue

theorem Plan.testCount_ofPatterns_le [BEq ε] (options : Options) (mentions : ε → Name → Bool)
    (patterns : List (Pattern ε)) (names : NameSupply) {plain : Options} (hplain : plain.Plain)
    {names' : NameSupply} (hnames : names'.symbols.Coherent) :
    (Plan.ofPatterns options mentions patterns names).1.decision.testCount ≤
      (Plan.ofPatterns plain mentions patterns names').1.decision.testCount := by
  have hroot : Queue.Within (.onSubjects (NameSupply.fresh "val" names').2.Settled)
      (Queue.ofPatterns (NameSupply.fresh "val" names').1 patterns) :=
    Queue.within_ofPatterns (NameSupply.root_settled hnames) fun _ _ => trivial
  calc (Plan.ofPatterns options mentions patterns names).1.decision.testCount
      ≤ Queue.tests (Queue.ofPatterns (NameSupply.fresh "val" names).1 patterns) :=
        Queue.testCount_build_le options mentions _ _
    _ ≤ Queue.tests (Queue.ofPatterns (NameSupply.fresh "val" names').1 patterns) :=
        Queue.tests_ofPatterns_le _ _ patterns
    _ ≤ (Plan.ofPatterns plain mentions patterns names').1.decision.testCount :=
        Queue.le_testCount_build hplain (NameSupply.fresh_coherent hnames "val") hroot

/-- Under any options the code of well-formed cases has no more tests than without optimizations,
whatever the emitter says that expressions mention, and from whatever names either starts. -/
theorem optimizations_add_no_tests {τ κ : Type} [BEq ε] (emitter : Emitter τ ε κ)
    (options : Options) (subject : ε) {cases : List (Case τ ε κ)}
    (hcases : ∀ c ∈ cases, c.pattern.isWellFormed = true) (session : Session τ)
    {plainSession : Session τ} (hnames : plainSession.names.symbols.Coherent) :
    ∃ compiled plain,
      (compile emitter options subject cases session).1 = .ok compiled ∧
      (compile emitter .unoptimized subject cases plainSession).1 = .ok plain ∧
      compiled.stats.tests ≤ plain.stats.tests := by
  have hnone : firstMalformed? 0 (cases.map Case.pattern) = none :=
    firstMalformed?_eq_none (List.forall_mem_map.mpr hcases) 0
  rw [compile_of_firstMalformed? hnone, compile_of_firstMalformed? hnone]
  refine ⟨_, _, rfl, rfl, ?_⟩
  exact Plan.testCount_ofPatterns_le options emitter.mentions _ _ ⟨rfl, rfl⟩ hnames

/-- Two literals in a row become one test, which also decides the negation behind them. -/
theorem optimizations_add_no_tests_of_literals :
    let cases : List (Case ObjectSupply Form Form) :=
      [⟨.or [.literal (.int 3), .literal (.int 4)], fun _ _ => return .nil, false⟩,
        ⟨.not (.literal (.int 3)), fun _ _ => return .nil, false⟩]
    let e := formEmitter (Vocabulary.intern .initial).1.operators
    let session : Session ObjectSupply := ⟨⟨.initial, 0⟩, ⟨0⟩⟩
    ∃ compiled plain,
      (compile e {} (.int 3) cases session).1 = .ok compiled ∧
      (compile e .unoptimized (.int 3) cases session).1 = .ok plain ∧
      compiled.stats.tests ≤ plain.stats.tests := by
  intro cases e session
  refine optimizations_add_no_tests e {} (.int 3) (fun c hc => ?_) session
    SymbolTable.initial_coherent
  rcases List.mem_pair.mp hc with rfl | rfl
  · rfl
  · rfl

end PatternCompiler
