import PatternCompiler.Proofs.Ways

/-!
# Demands on queues

A demand says where a variable may be at the end of every way through a case, and where it may be
around negations. Demands on cases are demands on the branches of their queue, those in saved queues
included, and every step keeps them.
-/

namespace PatternCompiler

set_option autoImplicit false

/-! ## Demands -/

/-- What is demanded of the ways through the patterns of cases, and through those that are probed.
Nothing is demanded while the variable is unbound. -/
structure Demand where
  goal : Usage → Bool
  probe : Usage → Bool
  goal_unbound : goal .unbound = true
  probe_unbound : probe .unbound = true

def Demand.at {Q : Type} (d : Demand) : Goal Q → Usage → Bool
  | .select _ => d.goal
  | .resume _ => d.probe

theorem Demand.at_unbound {Q : Type} (d : Demand) (goal : Goal Q) : d.at goal .unbound = true := by
  cases goal with
  | select case => exact d.goal_unbound
  | resume queue => exact d.probe_unbound

section

variable {ε : Type} (mentions : ε → Name → Bool) (x : Name) (d : Demand)

/-- From where the bindings leave the variable, the pending matches ensure the demand. -/
def Branch.Ensures (branch : Branch ε) : Prop :=
  ∃ s : Usage, s.Fits x branch.env ∧
    Pending.ensuresAll mentions x d.probe branch.pending (d.at branch.goal) s = true

mutual

def Branch.Meets : Branch ε → Prop
  | ⟨pending, env, goal⟩ => Branch.Ensures mentions x d ⟨pending, env, goal⟩ ∧ Goal.Meets goal

def Goal.Meets : Goal (List (Branch ε)) → Prop
  | .select _ => True
  | .resume queue => Queue.Meets queue

/-- Every branch of the queue, and of the queues that its goals save, ensures the demand. -/
def Queue.Meets : List (Branch ε) → Prop
  | [] => True
  | branch :: queue => branch.Meets ∧ Queue.Meets queue

end

def Step.Meets : Step ε → Prop
  | .fail => True
  | .select _ env => ∃ s : Usage, s.Fits x env ∧ d.goal s = true
  | .advance queue => Queue.Meets mentions x d queue
  | .test _ yes no => Queue.Meets mentions x d yes ∧ Queue.Meets mentions x d no
  | .project _ _ _ body => ∀ fresh, Queue.Meets mentions x d (body fresh)

end

variable {ε : Type} {mentions : ε → Name → Bool} {x : Name} {d : Demand} {branch : Branch ε}
  {queue : Queue ε}

theorem Branch.meets_iff :
    branch.Meets mentions x d ↔
      branch.Ensures mentions x d ∧ branch.goal.Meets mentions x d := by
  obtain ⟨pending, env, goal⟩ := branch
  rw [Branch.Meets]

theorem Queue.meets_iff :
    Queue.Meets mentions x d queue ↔ ∀ branch ∈ queue, branch.Meets mentions x d := by
  induction queue with
  | nil => simp [Queue.Meets]
  | cons branch queue ih => rw [Queue.Meets, ih, List.forall_mem_cons]

theorem Queue.meets_cons :
    Queue.Meets mentions x d (branch :: queue) ↔
      branch.Meets mentions x d ∧ Queue.Meets mentions x d queue := by
  rw [Queue.Meets]

/-! ## Branches -/

/-- Patterns that do not bind the variable, on any subject. -/
def Contents.notBinding (x : Name) : Contents ε where
  subject _ := True
  pattern p := x ∉ p.binders
  inner_app h := h
  inner_not h := h
  item h _ hp hmem := h (Pattern.mem_bindersOfList hp hmem)
  alternative h _ hp hmem := h (Pattern.mem_bindersOfList hp hmem)

theorem Pending.Within.not_mem_binders {m : Pending ε} (h : m.Within (.notBinding x)) :
    x ∉ m.binders := by
  cases m with
  | pattern subject p => exact h.2
  | member | sameAs => exact List.not_mem_nil

namespace Branch

theorem not_mem_boundNames_iff :
    x ∉ branch.boundNames ↔
      x ∉ branch.env.names ∧ ∀ m ∈ branch.pending, m.Within (.notBinding x) := by
  rw [boundNames, List.mem_append, not_or, List.mem_flatMap]
  refine and_congr_right fun _ => ⟨fun h m hm => ?_, fun h ⟨m, hm, hx⟩ => ?_⟩
  · have hx : x ∉ m.binders := fun hx => h ⟨m, hm, hx⟩
    cases m with
    | pattern subject p => exact ⟨trivial, hx⟩
    | member subject set eqv => exact trivial
    | sameAs subject other => exact ⟨trivial, trivial⟩
  · exact (h m hm).not_mem_binders hx

/-- Nothing is demanded of a branch that never binds the variable. -/
theorem ensures_of_not_bound (henv : x ∉ branch.env.names)
    (hpending : ∀ m ∈ branch.pending, m.Within (.notBinding x)) :
    branch.Ensures mentions x d :=
  ⟨.unbound, henv, Pending.ensuresAll_of_not_binder d.probe_unbound (d.at_unbound _)
    fun m hm => (hpending m hm).not_mem_binders⟩

theorem not_mentions_of_isIndependentOf {func : ε}
    (h : branch.isIndependentOf mentions func = true) (hx : x ∈ branch.boundNames) :
    mentions func x = false := by
  rw [isIndependentOf, List.all_eq_true] at h
  exact Bool.not_eq_true' _ ▸ h x hx

/-- Less is pending, and that binds and reads nothing new: the demand is still ensured. -/
theorem Ensures.withPending (h : branch.Ensures mentions x d) {pending : List (Pending ε)}
    (hunbound : (∀ m ∈ branch.pending, m.Within (.notBinding x)) →
      ∀ m ∈ pending, m.Within (.notBinding x))
    (hbound : x ∈ branch.boundNames → ∀ s,
      Pending.ensuresAll mentions x d.probe branch.pending (d.at branch.goal) s = true →
        Pending.ensuresAll mentions x d.probe pending (d.at branch.goal) s = true) :
    Branch.Ensures mentions x d { branch with pending := pending } := by
  by_cases hx : x ∈ branch.boundNames
  · obtain ⟨s, hs, hensures⟩ := h
    exact ⟨s, hs, hbound hx s hensures⟩
  · obtain ⟨henv, hpending⟩ := not_mem_boundNames_iff.mp hx
    exact ensures_of_not_bound henv (hunbound hpending)

theorem Meets.withPending (h : branch.Meets mentions x d) {pending : List (Pending ε)}
    (hpending : Branch.Ensures mentions x d { branch with pending := pending }) :
    Branch.Meets mentions x d { branch with pending := pending } :=
  meets_iff.mpr ⟨hpending, (meets_iff.mp h).2⟩

end Branch

/-- Functions that compare equal mention the variable alike, or it need not be read. -/
def Demand.Shares [BEq ε] (mentions : ε → Name → Bool) (x : Name) (d : Demand) : Prop :=
  (∀ func func', (func == func') = true → mentions func x = mentions func' x) ∨
    Falls d.probe ∧ Falls d.goal

/-- What is dropped for a function that does not mention the variable is spared. -/
theorem Demand.Shares.spares [BEq ε] (h : d.Shares mentions x) {dropped : ε → Prop}
    (hdropped : (∀ func func', (func == func') = true → mentions func x = mentions func' x) →
      ∀ func, dropped func → mentions func x = false) (goal : Goal (List (Branch ε))) :
    Spares dropped mentions x d.probe (d.at goal) := by
  intro func hfunc
  refine h.imp (fun hlike => hdropped hlike func hfunc) fun ⟨hprobe, hgoal⟩ => ⟨hprobe, ?_⟩
  cases goal with
  | select case => exact hgoal
  | resume saved => exact hprobe

namespace Branch

theorem Meets.refineBranch [BEq ε] (hshares : d.Shares mentions x) (h : branch.Meets mentions x d)
    {k : Knowledge ε} {refined : Branch ε} (hrefined : k.refineBranch mentions branch = some refined) :
    refined.Meets mentions x d := by
  obtain ⟨free, left, hasked, hleft, rfl⟩ := Knowledge.exists_of_refineBranch hrefined
  refine h.withPending ((meets_iff.mp h).1.withPending (fun hms => ?_) fun hx s hs => ?_)
  · exact Knowledge.residueAll_within _ _ hms hleft
  · refine k.residueAll_ensures (hshares.spares ?_ branch.goal) hleft hs
    rintro hlike func ⟨hyes, habout⟩
    obtain ⟨first, hfirst, hindependent⟩ := hasked hyes
    obtain ⟨known, hknown, hfunc⟩ := hfirst.exists_alike habout
    rw [← hlike known func hfunc, hlike known first hknown]
    exact not_mentions_of_isIndependentOf hindependent hx

theorem Meets.shareBranch [BEq ε] (hshares : d.Shares mentions x) (h : branch.Meets mentions x d)
    (pr : Projection ε) : (pr.shareBranch mentions branch).Meets mentions x d := by
  unfold Projection.shareBranch
  split
  · rename_i hcandidate
    have hindependent := (Bool.and_eq_true_iff.mp hcandidate).2
    refine h.withPending ((meets_iff.mp h).1.withPending (fun hms n hn => ?_) fun hx s hs => ?_)
    · obtain ⟨m, hm, hn⟩ := List.mem_flatMap.mp hn
      exact pr.redirectPending_within trivial (hms m hm) n hn
    · refine Projection.redirectAll_ensures (hshares.spares ?_ branch.goal) hs
      intro hlike func hfunc
      rw [hlike func pr.func hfunc]
      exact not_mentions_of_isIndependentOf hindependent hx
  · exact h

end Branch

/-! ## Steps -/

namespace Usage

variable {s : Usage}

theorem Fits.read (h : s.Fits x branch.env) (expr : ε) :
    (s.look (mentions expr x)).Fits x (branch.read mentions expr).env := by
  have hnames : (branch.read mentions expr).env.names = branch.env.names :=
    Environment.names_markAllUsed _ _
  cases s with
  | unbound => exact fun hx => h (hnames ▸ hx)
  | read => exact Branch.isUsed_read.mpr (.inl h)
  | bound =>
      cases hexpr : mentions expr x with
      | true => exact Branch.isUsed_read.mpr (.inr ⟨h, hexpr⟩)
      | false =>
          change x ∈ (branch.read mentions expr).env.names
          exact hnames ▸ h

end Usage

namespace Branch

theorem mem_names_bind (branch : Branch ε) (y subject : Name) :
    x ∈ (branch.bind y subject).env.names ↔ x ∈ branch.env.names ∨ x = y := by
  unfold Branch.bind Environment.extend
  cases hy : branch.env.lookup? y with
  | none => simp [Environment.names]
  | some b =>
      have hbound : x = y → x ∈ branch.env.names := by
        rintro rfl
        rw [Environment.mem_names_iff, Environment.subject?, hy]
        exact Option.some_ne_none _
      simp only
      split
      · exact ⟨.inl, fun h => h.elim id hbound⟩
      · simp only [push, Environment.names_markUsed]
        exact ⟨.inl, fun h => h.elim id hbound⟩

theorem isUsed_bind (h : branch.env.isUsed x = true) (y subject : Name) :
    (branch.bind y subject).env.isUsed x = true := by
  unfold Branch.bind Environment.extend
  cases branch.env.lookup? y with
  | none =>
      simp only [Environment.isUsed, List.any_append, Bool.or_eq_true]
      exact .inl h
  | some b =>
      simp only
      split
      · exact h
      · exact Environment.isUsed_markUsed.mpr (.inl h)

theorem ensuresAll_bind (branch : Branch ε) (y subject : Name) (probe goal : Usage → Bool) :
    Pending.ensuresAll mentions x probe (branch.bind y subject).pending goal =
      Pending.ensuresAll mentions x probe branch.pending goal := by
  unfold Branch.bind
  cases branch.env.extend y subject with
  | fresh env => rfl
  | existing bound =>
      simp only
      split
      · rfl
      · rfl

theorem goal_bind (branch : Branch ε) (y subject : Name) :
    (branch.bind y subject).goal = branch.goal := by
  unfold Branch.bind
  cases branch.env.extend y subject with
  | fresh env => rfl
  | existing bound =>
      simp only
      split
      · rfl
      · rfl

end Branch

theorem Usage.Fits.bind {s : Usage} (h : s.Fits x branch.env) (y subject : Name) :
    (if y = x then s.bind else s).Fits x (branch.bind y subject).env := by
  have hnames := Branch.mem_names_bind (x := x) branch y subject
  split
  · rename_i hyx
    cases s with
    | unbound => exact hnames.mpr (.inr hyx.symm)
    | bound => exact hnames.mpr (.inl h)
    | read => exact Branch.isUsed_bind h y subject
  · rename_i hyx
    cases s with
    | unbound => exact fun hx => (hnames.mp hx).elim h fun heq => hyx heq.symm
    | bound => exact hnames.mpr (.inl h)
    | read => exact Branch.isUsed_bind h y subject

namespace Queue

variable [BEq ε] {options : Options}

theorem Meets.refine (hshares : d.Shares mentions x) (h : Queue.Meets mentions x d queue)
    (test : Test ε) (outcome : Bool) :
    Queue.Meets mentions x d (Queue.refine mentions test outcome queue) := by
  unfold Queue.refine
  split
  · exact h
  · rw [meets_iff] at h ⊢
    intro left hmem
    obtain ⟨branch, hbranch, hleft⟩ := List.mem_filterMap.mp hmem
    exact (h branch hbranch).refineBranch hshares hleft

theorem Meets.share (hshares : d.Shares mentions x) (h : Queue.Meets mentions x d queue)
    (pr : Projection ε) : Queue.Meets mentions x d (Queue.share mentions pr queue) := by
  rw [meets_iff] at h ⊢
  intro shared hmem
  obtain ⟨branch, hbranch, rfl⟩ := List.mem_map.mp hmem
  exact (h branch hbranch).shareBranch hshares pr

theorem testStep_meets (hshares : d.Shares mentions x) (hb : branch.Meets mentions x d)
    (hq : Queue.Meets mentions x d queue) (test : Test ε) :
    (testStep options mentions test branch queue).Meets mentions x d := by
  unfold testStep
  split
  · exact ⟨meets_cons.mpr ⟨hb, hq.refine hshares test true⟩, hq.refine hshares test false⟩
  · exact ⟨meets_cons.mpr ⟨hb, hq⟩, hq⟩

theorem patternStep_meets (hshares : d.Shares mentions x) (subject : Name) {p : Pattern ε}
    {s : Usage} (hs : s.Fits x branch.env)
    (hp : p.ensures mentions x d.probe
      (Pending.ensuresAll mentions x d.probe branch.pending (d.at branch.goal)) s = true)
    (hgoal : branch.goal.Meets mentions x d) (hq : Queue.Meets mentions x d queue) :
    (patternStep options mentions subject branch queue p).Meets mentions x d := by
  have meets {b : Branch ε} {s : Usage} (hs : s.Fits x b.env)
      (hb : Pending.ensuresAll mentions x d.probe b.pending (d.at b.goal) s = true)
      (heq : b.goal = branch.goal) : b.Meets mentions x d :=
    Branch.meets_iff.mpr ⟨⟨s, hs, hb⟩, heq ▸ hgoal⟩
  cases p with
  | wildcard => exact meets_cons.mpr ⟨meets hs hp rfl, hq⟩
  | bind y =>
      refine meets_cons.mpr ⟨meets (hs.bind y subject) ?_ (branch.goal_bind y subject), hq⟩
      rw [branch.ensuresAll_bind, branch.goal_bind]
      exact hp
  | literal l => exact testStep_meets hshares (meets hs hp rfl) hq _
  | predicate func => exact testStep_meets hshares (meets (hs.read func) hp rfl) hq _
  | guard expr => exact testStep_meets hshares (meets (hs.read expr) hp rfl) hq _
  | app func inner =>
      intro fresh
      refine meets_cons.mpr ⟨meets (hs.read func) hp rfl, ?_⟩
      split
      · exact hq.share hshares _
      · exact hq
  | not inner =>
      rw [Pattern.ensures, Bool.and_eq_true, Bool.and_eq_true] at hp
      obtain ⟨⟨-, hinner⟩, hrest⟩ := hp
      have hprobe : (branch.probe subject inner queue).Meets mentions x d := by
        refine Branch.meets_iff.mpr ⟨⟨s, hs, hinner⟩, ?_⟩
        rw [Branch.probe, Goal.Meets]
        exact hq
      exact meets_cons.mpr ⟨hprobe, meets_cons.mpr ⟨meets hs hrest rfl, hq⟩⟩
  | and items =>
      refine meets_cons.mpr ⟨meets hs ?_ rfl, hq⟩
      rw [Pending.ensuresAll_append, Pending.ensuresAll_map_pattern]
      exact hp
  | or alternatives =>
      refine meets_iff.mpr (List.forall_mem_append.mpr ⟨fun b hmem => ?_, meets_iff.mp hq⟩)
      obtain ⟨m, hm, rfl⟩ := List.mem_map.mp hmem
      exact meets hs (Pending.ensures_of_mem_alternativeMatches
        (Pattern.ensuresEach_iff.mp hp) hm) rfl

/-- A step demands no more than the queue it is made on. -/
theorem step_meets (hshares : d.Shares mentions x) (h : Queue.Meets mentions x d queue) :
    (step options mentions queue).Meets mentions x d := by
  match queue with
  | [] => trivial
  | ⟨[], env, .select case⟩ :: queue =>
      obtain ⟨s, hs, hgoal⟩ := (Branch.meets_iff.mp (meets_cons.mp h).1).1
      exact ⟨s, hs, hgoal⟩
  | ⟨[], env, .resume saved⟩ :: queue =>
      rw [Queue.Meets, Branch.Meets, Goal.Meets] at h
      exact h.1.2
  | ⟨m :: ms, env, goal⟩ :: queue =>
      obtain ⟨hb, hq⟩ := meets_cons.mp h
      obtain ⟨⟨s, hs, hm⟩, hgoal⟩ := Branch.meets_iff.mp hb
      have hrest (hms : Pending.ensuresAll mentions x d.probe ms (d.at goal) s = true) :
          Branch.Meets mentions x d ⟨ms, env, goal⟩ :=
        Branch.meets_iff.mpr ⟨⟨s, hs, hms⟩, hgoal⟩
      cases m with
      | pattern subject p =>
          exact @patternStep_meets _ _ _ _ ⟨ms, env, goal⟩ _ _ options hshares subject _ s hs hm
            hgoal hq
      | member subject set eqv => exact testStep_meets hshares (hrest hm) hq _
      | sameAs subject other => exact testStep_meets hshares (hrest hm) hq _

end Queue

/-- From the start, all ways through the pattern ensure the demand. -/
def Pattern.Meets (mentions : ε → Name → Bool) (x : Name) (d : Demand) (p : Pattern ε) : Prop :=
  p.ensures mentions x d.probe d.goal .unbound = true

theorem Queue.ofPatterns_meets (root : Name) {patterns : List (Pattern ε)}
    (h : ∀ p ∈ patterns, p.Meets mentions x d) :
    Queue.Meets mentions x d (Queue.ofPatterns root patterns) := by
  refine Queue.meets_iff.mpr fun branch hbranch => ?_
  obtain ⟨case, p, -, hp, rfl⟩ := Branch.exists_of_mem_ofPatterns hbranch
  exact Branch.meets_iff.mpr ⟨⟨.unbound, List.not_mem_nil, h p hp⟩, trivial⟩

/-- Wherever a queue arrives, a way has ended where the demand allows. -/
theorem Queue.Arrives.meets [BEq ε] {options : Options} (hshares : d.Shares mentions x)
    {decision : Decision ε} {case : Nat} {env : Environment}
    (harrives : Queue.Arrives options mentions queue decision case env)
    (h : Queue.Meets mentions x d queue) : ∃ s : Usage, s.Fits x env ∧ d.goal s = true := by
  induction harrives with
  | select _ hstep =>
      have hmeets := hstep ▸ step_meets hshares h
      exact hmeets
  | advance hstep _ ih =>
      have hmeets := hstep ▸ step_meets hshares h
      exact ih hmeets
  | yes hstep _ ih =>
      have hmeets := hstep ▸ step_meets hshares h
      exact ih hmeets.1
  | no hstep _ ih =>
      have hmeets := hstep ▸ step_meets hshares h
      exact ih hmeets.2
  | project hstep _ ih =>
      have hmeets := hstep ▸ step_meets hshares h
      exact ih (hmeets _)

end PatternCompiler
