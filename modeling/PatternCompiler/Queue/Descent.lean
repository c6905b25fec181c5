import PatternCompiler.Queue.Cost
import PatternCompiler.Queue.Residue
import PatternCompiler.Queue.Step

/-!
# Every step descends

Splitting and sharing never raise the cost of a queue, so each queue that a step asks for costs
less than the queue the step was made on. Building decisions step by step therefore ends.
-/

namespace PatternCompiler

set_option autoImplicit false

variable {ε : Type}

namespace Knowledge

variable [BEq ε]

mutual

theorem costAll_residue (k : Knowledge ε) (free : Bool) (subject : Name)
    (p : Pattern ε) {left : List (Pending ε)} (h : k.residue free subject p = some left)
    {s : Nat → Nat} (hm : Below s s) (hi : Inflationary s) (f : Nat) :
    Pending.costAll left s f ≤ p.cost s f := by
  have keep : ∀ {q : Pattern ε},
      remainder (k.verdict free subject q) (some [.pattern subject q]) = some left →
      Pending.costAll left s f ≤ q.cost s f := by
    intro q hq
    simp only [remainder] at hq
    split at hq
    · cases hq; exact q.le_cost hi f
    · cases hq
    · cases hq; exact Nat.le_refl _
  cases p with
  | and items =>
      simp only [residue, remainder] at h
      split at h
      · cases h; exact Pattern.le_cost _ hi f
      · cases h
      · have := costAll_residueItems k free subject items h hm hi f
        simp only [Pattern.cost]; omega
  | wildcard => exact keep h
  | bind _ => exact keep h
  | literal _ => exact keep h
  | predicate _ => exact keep h
  | guard _ => exact keep h
  | app _ _ => exact keep h
  | not _ => exact keep h
  | or _ => exact keep h

theorem costAll_residueItems (k : Knowledge ε) (free : Bool) (subject : Name)
    (ps : List (Pattern ε)) {left : List (Pending ε)}
    (h : k.residueItems free subject ps = some left)
    {s : Nat → Nat} (hm : Below s s) (hi : Inflationary s) (f : Nat) :
    Pending.costAll left s f ≤ Pattern.costAll ps s f := by
  cases ps with
  | nil => cases h; exact Nat.le_refl _
  | cons p ps =>
      obtain ⟨first, rest, hfirst, hrest, rfl⟩ := exists_of_residueItems_cons h
      rw [Pending.costAll_append]
      have hbelow : Below (Pending.costAll rest s) (Pattern.costAll ps s) := by
        intro g g' hg
        exact Nat.le_trans (Pending.costAll_below rest hm g g' hg)
          (costAll_residueItems k free subject ps hrest hm hi g')
      have step := costAll_residue k free subject p hfirst
        (Pending.costAll_below rest hm) (Pending.costAll_inflationary rest hi) f
      exact Nat.le_trans step (p.cost_below hbelow f f (Nat.le_refl f))

end

theorem costAll_residuePending (k : Knowledge ε) (free : Bool) (m : Pending ε)
    {left : List (Pending ε)} (h : k.residuePending free m = some left)
    {s : Nat → Nat} (hm : Below s s) (hi : Inflationary s) (f : Nat) :
    Pending.costAll left s f ≤ m.cost s f := by
  have keep : ∀ {verdict : Option Bool}, remainder verdict (some [m]) = some left →
      Pending.costAll left s f ≤ m.cost s f := by
    intro verdict hv
    simp only [remainder] at hv
    split at hv
    · cases hv; exact m.le_cost hi f
    · cases hv
    · cases hv; exact Nat.le_refl _
  cases m with
  | pattern subject p =>
      simp only [residuePending] at h
      split at h
      · exact costAll_residue k free subject p h hm hi f
      · cases h; exact Nat.le_refl _
  | member _ _ _ => exact keep h
  | sameAs _ _ => exact keep h

theorem costAll_residueAll (k : Knowledge ε) (free : Bool) (ms : List (Pending ε))
    {left : List (Pending ε)} (h : k.residueAll free ms = some left)
    {s : Nat → Nat} (hm : Below s s) (hi : Inflationary s) (f : Nat) :
    Pending.costAll left s f ≤ Pending.costAll ms s f := by
  induction ms generalizing left f with
  | nil => cases h; exact Nat.le_refl _
  | cons m ms ih =>
      obtain ⟨first, rest, hfirst, hrest, rfl⟩ := exists_of_residueAll_cons h
      rw [Pending.costAll_append]
      have hbelow : Below (Pending.costAll rest s) (Pending.costAll ms s) := by
        intro g g' hg
        exact Nat.le_trans (Pending.costAll_below rest hm g g' hg) (ih hrest g')
      have step := costAll_residuePending k free m hfirst
        (Pending.costAll_below rest hm) (Pending.costAll_inflationary rest hi) f
      exact Nat.le_trans step (m.cost_below hbelow f f (Nat.le_refl f))

theorem cost_refineBranch (k : Knowledge ε) (mentions : ε → Name → Bool) {branch refined : Branch ε}
    (h : k.refineBranch mentions branch = some refined) (f : Nat) :
    refined.cost f ≤ branch.cost f := by
  obtain ⟨free, left, -, hleft, rfl⟩ := exists_of_refineBranch h
  rw [Branch.cost_eq, Branch.cost_eq]
  have := costAll_residueAll k free branch.pending hleft branch.goal.onward_below
    branch.goal.onward_inflationary f
  exact Nat.add_le_add_left this 1

end Knowledge

namespace Projection

variable [BEq ε]

mutual

theorem costAll_redirectPattern (pr : Projection ε) (p : Pattern ε)
    {s : Nat → Nat} (hm : Below s s) (f : Nat) :
    Pending.costAll (pr.redirectPattern p) s f ≤ p.cost s f := by
  cases p with
  | app func inner =>
      simp only [redirectPattern]
      split
      · have := inner.cost_below hm f f (Nat.le_refl f)
        exact Nat.le_trans this (Nat.le_add_left _ _)
      · exact Nat.le_refl _
  | and items =>
      simp only [redirectPattern]
      split
      · exact Nat.le_trans (costAll_redirectItems pr items hm f) (Nat.le_add_left _ _)
      · exact Nat.le_refl _
  | wildcard => exact Nat.le_refl _
  | bind _ => exact Nat.le_refl _
  | literal _ => exact Nat.le_refl _
  | predicate _ => exact Nat.le_refl _
  | guard _ => exact Nat.le_refl _
  | not _ => exact Nat.le_refl _
  | or _ => exact Nat.le_refl _

theorem costAll_redirectItems (pr : Projection ε) (ps : List (Pattern ε))
    {s : Nat → Nat} (hm : Below s s) (f : Nat) :
    Pending.costAll (pr.redirectItems ps) s f ≤ Pattern.costAll ps s f := by
  cases ps with
  | nil => exact Nat.le_refl _
  | cons p ps =>
      simp only [redirectItems]
      rw [Pending.costAll_append]
      have hrest : Below (Pending.costAll (pr.redirectItems ps) s) (Pattern.costAll ps s) := by
        intro g g' hg
        exact Nat.le_trans (Pending.costAll_below _ hm g g' hg) (costAll_redirectItems pr ps hm g')
      exact Nat.le_trans (costAll_redirectPattern pr p (Pending.costAll_below _ hm) f)
        (p.cost_below hrest f f (Nat.le_refl f))

end

theorem costAll_redirectPending (pr : Projection ε) (m : Pending ε)
    {s : Nat → Nat} (hm : Below s s) (f : Nat) :
    Pending.costAll (pr.redirectPending m) s f ≤ m.cost s f := by
  cases m with
  | pattern subject p =>
      simp only [redirectPending]
      split
      · exact costAll_redirectPattern pr p hm f
      · exact Nat.le_refl _
  | member _ _ _ => exact Nat.le_refl _
  | sameAs _ _ => exact Nat.le_refl _

theorem costAll_flatMap_redirectPending (pr : Projection ε) (ms : List (Pending ε))
    {s : Nat → Nat} (hm : Below s s) (f : Nat) :
    Pending.costAll (ms.flatMap pr.redirectPending) s f ≤ Pending.costAll ms s f := by
  induction ms generalizing f with
  | nil => exact Nat.le_refl _
  | cons m ms ih =>
      rw [List.flatMap_cons, Pending.costAll_append]
      have hrest : Below (Pending.costAll (ms.flatMap pr.redirectPending) s)
          (Pending.costAll ms s) := by
        intro g g' hg
        exact Nat.le_trans (Pending.costAll_below _ hm g g' hg) (ih g')
      exact Nat.le_trans (costAll_redirectPending pr m (Pending.costAll_below _ hm) f)
        (m.cost_below hrest f f (Nat.le_refl f))

theorem cost_shareBranch (pr : Projection ε) (mentions : ε → Name → Bool) (branch : Branch ε)
    (f : Nat) : (pr.shareBranch mentions branch).cost f ≤ branch.cost f := by
  simp only [shareBranch]
  split
  · rw [Branch.cost_eq, Branch.cost_eq]
    exact Nat.add_le_add_left
      (costAll_flatMap_redirectPending pr branch.pending branch.goal.onward_below f) 1
  · exact Nat.le_refl _

end Projection

namespace Queue

theorem cost_filterMap_refineBranch [BEq ε] (k : Knowledge ε) (mentions : ε → Name → Bool)
    (queue : Queue ε) :
    Queue.cost (queue.filterMap (k.refineBranch mentions)) ≤ Queue.cost queue := by
  induction queue with
  | nil => exact Nat.le_refl _
  | cons branch queue ih =>
      simp only [Queue.cost]
      cases h : k.refineBranch mentions branch with
      | none =>
          rw [List.filterMap_cons_none h]
          exact Nat.le_trans ih (Nat.le_of_lt (branch.lt_cost _))
      | some refined =>
          rw [List.filterMap_cons_some h]
          simp only [Queue.cost]
          exact Nat.le_trans (refined.cost_mono ih) (k.cost_refineBranch mentions h _)

theorem cost_refine_le [BEq ε] (mentions : ε → Name → Bool) (test : Test ε) (outcome : Bool)
    (queue : Queue ε) : Queue.cost (Queue.refine mentions test outcome queue) ≤ Queue.cost queue := by
  simp only [Queue.refine]
  split
  · exact Nat.le_refl _
  · exact cost_filterMap_refineBranch _ mentions queue

theorem cost_share_le [BEq ε] (mentions : ε → Name → Bool) (pr : Projection ε) (queue : Queue ε) :
    Queue.cost (Queue.share mentions pr queue) ≤ Queue.cost queue := by
  induction queue with
  | nil => exact Nat.le_refl _
  | cons branch queue ih =>
      simp only [Queue.share, List.map_cons, Queue.cost] at ih ⊢
      exact Nat.le_trans (Branch.cost_mono _ ih) (pr.cost_shareBranch mentions branch _)

/-! ## Alternatives -/

/-- The cost of the branches that alternatives fan out to, in front of a queue of cost `f`. -/
def fanCost (ms : List (Pending ε)) (s : Nat → Nat) (f : Nat) : Nat :=
  ms.foldr (fun m rest => 1 + m.cost s rest) f

theorem fanCost_append (ms ns : List (Pending ε)) (s : Nat → Nat) (f : Nat) :
    fanCost (ms ++ ns) s f = fanCost ms s (fanCost ns s f) := by
  simp only [fanCost, List.foldr_append]

theorem cost_map_push_append (branch : Branch ε) (ms : List (Pending ε)) (queue : Queue ε) :
    Queue.cost (ms.map branch.push ++ queue)
      = fanCost ms (Pending.costAll branch.pending branch.goal.onward) (Queue.cost queue) := by
  induction ms with
  | nil => rfl
  | cons m ms ih =>
      simp only [List.map_cons, List.cons_append, Queue.cost, ih, Branch.cost_eq, fanCost,
        List.foldr_cons]
      rfl

theorem fanCost_map_pattern_le (subject : Name) (ps : List (Pattern ε)) {s : Nat → Nat}
    (hm : Below s s) (hi : Inflationary s) (f : Nat) :
    fanCost (ps.map (.pattern subject)) s f ≤ 1 + Pattern.costAny ps s f := by
  induction ps with
  | nil =>
      have := hi f
      simp only [List.map_nil, fanCost, List.foldr_nil, Pattern.costAny]; omega
  | cons p ps ih =>
      exact Nat.add_le_add_left (p.cost_below hm _ _ ih) 1

theorem costAny_mono_append (ps qs : List (Pattern ε)) {s : Nat → Nat}
    (hi : Inflationary s) (f : Nat) :
    Pattern.costAny qs s f ≤ Pattern.costAny (ps ++ qs) s f := by
  induction ps with
  | nil => exact Nat.le_refl _
  | cons p ps ih =>
      simp only [List.cons_append, Pattern.costAny]
      have := p.le_cost hi (1 + Pattern.costAny (ps ++ qs) s f)
      have := hi (1 + Pattern.costAny (ps ++ qs) s f)
      omega

/-- A run of comparisons costs no more as one match than as alternatives. -/
theorem fanCost_matchesOfRun_le (subject : Name) (run : List (Pattern ε × Literal))
    (hrun : ∀ e ∈ run, e.1.quoted? = some e.2) (ps : List (Pattern ε)) {s : Nat → Nat}
    (hm : Below s s) (hi : Inflationary s) (f g : Nat) (hg : g ≤ 1 + Pattern.costAny ps s f) :
    fanCost (matchesOfRun subject run) s g
      ≤ 1 + Pattern.costAny (run.map Prod.fst ++ ps) s f := by
  match run with
  | [] => simpa [matchesOfRun, fanCost] using hg
  | [(p, l)] =>
      have := p.cost_below hm _ _ hg
      simp only [matchesOfRun, fanCost, List.foldr_cons, List.foldr_nil, Pending.cost,
        List.map_cons, List.map_nil, List.cons_append, List.nil_append, Pattern.costAny]
      omega
  | (p, l) :: e :: rest =>
      have hq : p.quoted? = some l := hrun (p, l) List.mem_cons_self
      have htail := costAny_mono_append ((e :: rest).map Prod.fst) ps hi f
      have hcost := Pattern.test_le_cost_of_quoted? hq hm hi
        (1 + Pattern.costAny ((e :: rest).map Prod.fst ++ ps) s f)
      have hs := hm g (1 + Pattern.costAny ((e :: rest).map Prod.fst ++ ps) s f) (by omega)
      simp only [matchesOfRun, fanCost, List.foldr_cons, List.foldr_nil, Pending.cost]
      simp only [List.map_cons, List.cons_append, Pattern.costAny] at hcost hs htail ⊢
      omega

theorem fanCost_foldFrom_le (subject : Name) (run : List (Pattern ε × Literal))
    (hrun : ∀ e ∈ run, e.1.quoted? = some e.2) (ps : List (Pattern ε)) {s : Nat → Nat}
    (hm : Below s s) (hi : Inflationary s) (f : Nat) :
    fanCost (foldFrom subject run ps) s f
      ≤ 1 + Pattern.costAny (run.map Prod.fst ++ ps) s f := by
  induction ps generalizing run with
  | nil =>
      refine fanCost_matchesOfRun_le subject run hrun [] hm hi f f ?_
      have := hi f
      simp only [Pattern.costAny]; omega
  | cons p ps ih =>
      simp only [foldFrom]
      split
      · rename_i l hl
        have := ih (run ++ [(p, l)]) (by
          intro e he
          rcases List.mem_append.mp he with he | he
          · exact hrun e he
          · rw [List.mem_singleton.mp he]; exact hl)
        simpa using this
      · rw [fanCost_append]
        refine fanCost_matchesOfRun_le subject run hrun (p :: ps) hm hi f _ ?_
        have hrest := ih [] (by simp)
        simp only [List.map_nil, List.nil_append] at hrest
        have := p.cost_below hm _ _ hrest
        simp only [fanCost, List.foldr_cons, Pending.cost, Pattern.costAny] at this ⊢
        omega

theorem fanCost_alternativeMatches_le (fold : Bool) (subject : Name) (ps : List (Pattern ε))
    {s : Nat → Nat} (hm : Below s s) (hi : Inflationary s) (f : Nat) :
    fanCost (alternativeMatches fold subject ps) s f ≤ 1 + Pattern.costAny ps s f := by
  cases fold with
  | true => exact fanCost_foldFrom_le subject [] (by simp) ps hm hi f
  | false => exact fanCost_map_pattern_le subject ps hm hi f

end Queue

/-! ## Steps -/

/-- Every queue that the step asks for costs less than `bound`. -/
def Step.Descends (bound : Nat) : Step ε → Prop
  | .fail => True
  | .select .. => True
  | .advance queue => Queue.cost queue < bound
  | .test _ yes no => Queue.cost yes < bound ∧ Queue.cost no < bound
  | .project _ _ _ body => ∀ fresh, Queue.cost (body fresh) < bound

namespace Queue

theorem cost_cons_push (branch : Branch ε) (m : Pending ε) (queue : Queue ε) :
    Queue.cost (branch.push m :: queue)
      = 1 + m.cost (Pending.costAll branch.pending branch.goal.onward) (Queue.cost queue) := by
  simp only [Queue.cost, Branch.cost_eq]; rfl

theorem cost_cons (branch : Branch ε) (queue : Queue ε) :
    Queue.cost (branch :: queue)
      = 1 + Pending.costAll branch.pending branch.goal.onward (Queue.cost queue) := by
  simp only [Queue.cost, Branch.cost_eq]

variable [BEq ε] (options : Options) (mentions : ε → Name → Bool)

theorem testStep_descends (test : Test ε) (branch : Branch ε) (queue : Queue ε) (bound : Nat)
    (h : 1 + Pending.costAll branch.pending branch.goal.onward (Queue.cost queue)
      + Queue.cost queue < bound) :
    (testStep options mentions test branch queue).Descends bound := by
  have hb := branch.cost_eq (Queue.cost queue)
  simp only [testStep]
  split
  · have hyes := branch.cost_mono (cost_refine_le mentions test true queue)
    have hno := cost_refine_le mentions test false queue
    constructor
    · simp only [Queue.cost]; omega
    · omega
  · constructor
    · simp only [Queue.cost]; omega
    · omega

theorem patternStep_descends (subject : Name) (branch : Branch ε) (queue : Queue ε)
    (p : Pattern ε) :
    (patternStep options mentions subject branch queue p).Descends
      (Queue.cost (branch.push (.pattern subject p) :: queue)) := by
  rw [cost_cons_push]
  have hm := Pending.costAll_below branch.pending branch.goal.onward_below
  have hi := Pending.costAll_inflationary branch.pending branch.goal.onward_inflationary
  cases p with
  | wildcard =>
      simp only [patternStep, Step.Descends, cost_cons, Pending.cost, Pattern.cost]; omega
  | bind name =>
      simp only [patternStep, Step.Descends, Branch.bind, Pending.cost, Pattern.cost]
      split
      · simp only [cost_cons]; omega
      · split
        · simp only [cost_cons]; omega
        · simp only [cost_cons_push, Pending.cost]; omega
  | literal _ =>
      refine testStep_descends options mentions _ branch queue _ ?_
      simp only [Pending.cost, Pattern.cost]; omega
  | predicate func =>
      refine testStep_descends options mentions _ (branch.read mentions func) queue _ ?_
      simp only [Pending.cost, Pattern.cost, Branch.read]; omega
  | guard expr =>
      refine testStep_descends options mentions _ (branch.read mentions expr) queue _ ?_
      simp only [Pending.cost, Pattern.cost, Branch.read]; omega
  | app func inner =>
      intro fresh
      rw [cost_cons_push]
      simp only [Pending.cost, Pattern.cost, Branch.read]
      have hq : Queue.cost (if options.splitBranches && (branch.env.visible mentions func).isEmpty
          then Queue.share mentions ⟨subject, func, fresh⟩ queue else queue)
          ≤ Queue.cost queue := by
        split
        · exact cost_share_le mentions _ queue
        · exact Nat.le_refl _
      have := inner.cost_below hm _ _ hq
      omega
  | not inner =>
      simp only [patternStep, Step.Descends, cost_cons, Branch.probe, Pending.costAll, Pending.cost,
        Pattern.cost]
      have : Below (Goal.onward (.resume queue)) (fun g => Queue.cost queue + g) := by
        intro g g' hg
        simp only [Goal.onward, Goal.cost]; omega
      have hinner := inner.cost_below this _ _ (Nat.le_refl (1 + Pending.costAll branch.pending
        branch.goal.onward (Queue.cost queue)))
      exact Nat.lt_of_le_of_lt (Nat.add_le_add_left hinner 1) (by omega)
  | and items =>
      simp only [patternStep, Step.Descends, cost_cons, Pending.costAll_append,
        Pending.costAll_map_pattern, Pending.cost, Pattern.cost]
      omega
  | or alternatives =>
      have := fanCost_alternativeMatches_le options.foldMemberships subject alternatives hm hi
        (Queue.cost queue)
      simp only [patternStep, Step.Descends, cost_map_push_append, Pending.cost, Pattern.cost]
      omega

theorem step_descends (queue : Queue ε) :
    (step options mentions queue).Descends (Queue.cost queue) := by
  match queue with
  | [] => trivial
  | ⟨[], env, .select case⟩ :: queue => trivial
  | ⟨[], env, .resume saved⟩ :: queue =>
      simp only [step, Step.Descends, cost_cons, Pending.costAll, Goal.onward, Goal.cost]; omega
  | ⟨.pattern subject p :: ms, env, goal⟩ :: queue =>
      exact patternStep_descends options mentions subject ⟨ms, env, goal⟩ queue p
  | ⟨.member subject set eqv :: ms, env, goal⟩ :: queue =>
      refine testStep_descends options mentions _ ⟨ms, env, goal⟩ queue _ ?_
      simp only [cost_cons, Pending.costAll, Pending.cost]; omega
  | ⟨.sameAs subject other :: ms, env, goal⟩ :: queue =>
      refine testStep_descends options mentions _ ⟨ms, env, goal⟩ queue _ ?_
      simp only [cost_cons, Pending.costAll, Pending.cost]; omega

end Queue

end PatternCompiler
