import PatternCompiler.Proofs.Signature

/-!
# What holds throughout a queue

A property of subjects and one of patterns that every pattern passes on to its parts. If they hold
of all that a queue mentions, also in the queues that its goals save, then they hold of all that a
step on the queue asks for. A projection adds its new variable to the subjects.
-/

namespace PatternCompiler

set_option autoImplicit false

variable {ε : Type}

/-- A property of the subjects in a queue and one of the patterns, with all that is inside them. -/
structure Contents (ε : Type) where
  subject : Name → Prop
  pattern : Pattern ε → Prop
  inner_app : ∀ {func : ε} {inner : Pattern ε}, pattern (.app func inner) → pattern inner
  inner_not : ∀ {inner : Pattern ε}, pattern (.not inner) → pattern inner
  item : ∀ {items : List (Pattern ε)}, pattern (.and items) → ∀ p ∈ items, pattern p
  alternative : ∀ {items : List (Pattern ε)}, pattern (.or items) → ∀ p ∈ items, pattern p

def Pending.Within (c : Contents ε) : Pending ε → Prop
  | .pattern subject p => c.subject subject ∧ c.pattern p
  | .member subject _ _ => c.subject subject
  | .sameAs subject other => c.subject subject ∧ c.subject other

mutual

def Branch.Within (c : Contents ε) : Branch ε → Prop
  | ⟨pending, env, goal⟩ =>
      (∀ m ∈ pending, m.Within c) ∧ (∀ s ∈ env.subjects, c.subject s) ∧ Goal.Within c goal

def Goal.Within (c : Contents ε) : Goal (List (Branch ε)) → Prop
  | .select _ => True
  | .resume queue => Queue.Within c queue

def Queue.Within (c : Contents ε) : List (Branch ε) → Prop
  | [] => True
  | branch :: queue => branch.Within c ∧ Queue.Within c queue

end

/-- What the step asks for, if the variable of a projection has the property, too. -/
def Step.Within (c : Contents ε) : Step ε → Prop
  | .fail | .select .. => True
  | .advance queue => Queue.Within c queue
  | .test _ yes no => Queue.Within c yes ∧ Queue.Within c no
  | .project _ _ _ body => ∀ fresh, c.subject fresh → Queue.Within c (body fresh)

variable {c c' : Contents ε}

theorem Branch.within_iff {branch : Branch ε} :
    branch.Within c ↔ (∀ m ∈ branch.pending, m.Within c) ∧
      (∀ s ∈ branch.env.subjects, c.subject s) ∧ branch.goal.Within c := by
  obtain ⟨pending, env, goal⟩ := branch
  rw [Branch.Within]

theorem Queue.within_iff {queue : Queue ε} :
    Queue.Within c queue ↔ ∀ branch ∈ queue, branch.Within c := by
  induction queue with
  | nil => simp [Queue.Within]
  | cons branch queue ih => rw [Queue.Within, ih, List.forall_mem_cons]

theorem Queue.within_cons {branch : Branch ε} {queue : Queue ε} :
    Queue.Within c (branch :: queue) ↔ branch.Within c ∧ Queue.Within c queue := by
  rw [Queue.Within]

theorem Queue.within_ofPatterns {root : Name} (hroot : c.subject root) {patterns : List (Pattern ε)}
    (hpatterns : ∀ p ∈ patterns, c.pattern p) :
    Queue.Within c (Queue.ofPatterns root patterns) := by
  rw [Queue.within_iff]
  intro branch hbranch
  obtain ⟨case, p, -, hp, rfl⟩ := Branch.exists_of_mem_ofPatterns hbranch
  refine Branch.within_iff.mpr ⟨fun m hm => ?_, fun s hs => ?_, trivial⟩
  · rw [Branch.ofCase, List.mem_singleton] at hm
    exact hm ▸ ⟨hroot, hpatterns p hp⟩
  · cases hs

/-! ## Weaker properties -/

structure Contents.Implies (c c' : Contents ε) : Prop where
  subject : ∀ x, c.subject x → c'.subject x
  pattern : ∀ p, c.pattern p → c'.pattern p

/-- A property of subjects only. -/
def Contents.onSubjects (subject : Name → Prop) : Contents ε where
  subject := subject
  pattern _ := True
  inner_app _ := trivial
  inner_not _ := trivial
  item _ _ _ := trivial
  alternative _ _ _ := trivial

theorem Contents.Implies.onSubjects {P Q : Name → Prop} (h : ∀ x, P x → Q x) :
    (Contents.onSubjects P : Contents ε).Implies (.onSubjects Q) :=
  ⟨h, fun _ _ => trivial⟩

theorem Pending.Within.mono (hc : c.Implies c') {m : Pending ε} (h : m.Within c) : m.Within c' := by
  cases m with
  | pattern subject p => exact ⟨hc.subject _ h.1, hc.pattern _ h.2⟩
  | member subject set eqv => exact hc.subject _ h
  | sameAs subject other => exact ⟨hc.subject _ h.1, hc.subject _ h.2⟩

mutual

theorem Branch.Within.mono (hc : c.Implies c') {branch : Branch ε} (h : branch.Within c) :
    branch.Within c' := by
  match branch with
  | ⟨pending, env, goal⟩ =>
      rw [Branch.Within] at h ⊢
      exact ⟨fun m hm => (h.1 m hm).mono hc, fun s hs => hc.subject s (h.2.1 s hs),
        Goal.Within.mono hc h.2.2⟩

theorem Goal.Within.mono (hc : c.Implies c') {goal : Goal (List (Branch ε))} (h : goal.Within c) :
    goal.Within c' := by
  match goal with
  | .select case =>
      rw [Goal.Within]
      trivial
  | .resume queue =>
      rw [Goal.Within] at h ⊢
      exact Queue.Within.mono hc h

theorem Queue.Within.mono (hc : c.Implies c') {queue : List (Branch ε)}
    (h : Queue.Within c queue) : Queue.Within c' queue := by
  match queue with
  | [] =>
      rw [Queue.Within]
      trivial
  | branch :: queue =>
      rw [Queue.Within] at h ⊢
      exact ⟨Branch.Within.mono hc h.1, Queue.Within.mono hc h.2⟩

end

/-! ## Branches -/

namespace Branch

variable {branch : Branch ε} {mentions : ε → Name → Bool}

theorem Within.withPending (h : branch.Within c) {pending : List (Pending ε)}
    (hp : ∀ m ∈ pending, m.Within c) : Branch.Within c { branch with pending := pending } := by
  rw [within_iff] at h ⊢
  exact ⟨hp, h.2⟩

theorem Within.push (h : branch.Within c) {m : Pending ε} (hm : m.Within c) :
    (branch.push m).Within c :=
  h.withPending (List.forall_mem_cons.mpr ⟨hm, (within_iff.mp h).1⟩)

theorem Within.withEnv (h : branch.Within c) {env : Environment}
    (henv : ∀ s ∈ env.subjects, c.subject s) : Branch.Within c { branch with env := env } := by
  rw [within_iff] at h ⊢
  exact ⟨h.1, henv, h.2.2⟩

theorem Within.withPairs (h : branch.Within c) {env : Environment}
    (hpairs : env.pairs = branch.env.pairs) : Branch.Within c { branch with env := env } := by
  refine h.withEnv fun s hs => (within_iff.mp h).2.1 s ?_
  rwa [Environment.subjects_eq, hpairs, ← Environment.subjects_eq] at hs

theorem Within.read (h : branch.Within c) (expr : ε) : (branch.read mentions expr).Within c :=
  h.withPairs (Environment.pairs_markAllUsed _ _)

theorem Within.bind (h : branch.Within c) (x : Name) {subject : Name} (hs : c.subject subject) :
    (branch.bind x subject).Within c := by
  have henv := (within_iff.mp h).2.1
  unfold Branch.bind Environment.extend
  cases hbound : branch.env.lookup? x with
  | none =>
      refine h.withEnv fun s hmem => ?_
      rw [Environment.subjects, List.map_append, List.mem_append] at hmem
      rcases hmem with hmem | hmem
      · exact henv s hmem
      · rw [List.map_singleton, List.mem_singleton] at hmem
        exact hmem ▸ hs
  | some b =>
      have hb : c.subject b.subject :=
        henv _ (List.mem_map_of_mem (List.mem_of_find?_eq_some hbound))
      simp only
      split
      · exact h
      · exact (h.withPairs (Environment.pairs_markUsed _ _)).push ⟨hs, hb⟩

theorem Within.probe (h : branch.Within c) {queue : Queue ε} (hq : Queue.Within c queue)
    {subject : Name} (hs : c.subject subject) {p : Pattern ε} (hp : c.pattern p) :
    (branch.probe subject p queue).Within c := by
  refine within_iff.mpr ⟨fun m hm => ?_, (within_iff.mp h).2.1, ?_⟩
  · rw [Branch.probe, List.mem_singleton] at hm
    exact hm ▸ ⟨hs, hp⟩
  · rw [Branch.probe, Goal.Within]
    exact hq

end Branch

/-! ## Folding -/

theorem matchesOfRun_within {subject : Name} (hs : c.subject subject)
    {run : List (Pattern ε × Literal)} (hrun : ∀ e ∈ run, c.pattern e.1) :
    ∀ m ∈ matchesOfRun subject run, m.Within c := by
  unfold matchesOfRun
  split
  · exact fun m hm => by cases hm
  · exact fun m hm => List.mem_singleton.mp hm ▸ ⟨hs, hrun _ List.mem_cons_self⟩
  · exact fun m hm => List.mem_singleton.mp hm ▸ hs

theorem foldFrom_within {subject : Name} (hs : c.subject subject)
    {run : List (Pattern ε × Literal)} (hrun : ∀ e ∈ run, c.pattern e.1) {ps : List (Pattern ε)}
    (hps : ∀ p ∈ ps, c.pattern p) : ∀ m ∈ foldFrom subject run ps, m.Within c := by
  induction ps generalizing run with
  | nil => exact matchesOfRun_within hs hrun
  | cons p ps ih =>
      obtain ⟨hp, hps⟩ := List.forall_mem_cons.mp hps
      rw [foldFrom]
      split
      · exact ih (List.forall_mem_append.mpr
          ⟨hrun, fun e he => List.mem_singleton.mp he ▸ hp⟩) hps
      · exact List.forall_mem_append.mpr ⟨matchesOfRun_within hs hrun, List.forall_mem_cons.mpr
          ⟨⟨hs, hp⟩, ih (fun _ he => by cases he) hps⟩⟩

theorem alternativeMatches_within (fold : Bool) {subject : Name} (hs : c.subject subject)
    {ps : List (Pattern ε)} (hps : ∀ p ∈ ps, c.pattern p) :
    ∀ m ∈ alternativeMatches fold subject ps, m.Within c := by
  unfold alternativeMatches
  split
  · exact foldFrom_within hs (fun _ he => by cases he) hps
  · intro m hm
    obtain ⟨p, hp, rfl⟩ := List.mem_map.mp hm
    exact ⟨hs, hps p hp⟩

/-! ## Splitting and sharing -/

namespace Knowledge

theorem remainder_within {verdict : Option Bool} {undecided : Option (List (Pending ε))}
    (hleft : ∀ {ms}, undecided = some ms → ∀ m ∈ ms, m.Within c) {left : List (Pending ε)}
    (h : remainder verdict undecided = some left) : ∀ m ∈ left, m.Within c := by
  unfold remainder at h
  split at h
  · cases h
    exact fun _ hm => by cases hm
  · cases h
  · exact hleft h

theorem singleton_within {m : Pending ε} (hm : m.Within c) {ms : List (Pending ε)}
    (h : some [m] = some ms) : ∀ n ∈ ms, n.Within c := by
  cases h
  exact fun n hn => List.mem_singleton.mp hn ▸ hm

variable [BEq ε] (k : Knowledge ε) (free : Bool)

mutual

theorem residue_within {subject : Name} (hs : c.subject subject) {p : Pattern ε}
    (hp : c.pattern p) {left : List (Pending ε)}
    (h : k.residue free subject p = some left) : ∀ m ∈ left, m.Within c := by
  have keep {q : Pattern ε} (hq : c.pattern q)
      (h : remainder (k.verdict free subject q) (some [.pattern subject q]) = some left) :
      ∀ m ∈ left, m.Within c :=
    remainder_within (fun h => singleton_within (m := .pattern subject q) ⟨hs, hq⟩ h) h
  cases p with
  | and items =>
      rw [residue] at h
      exact remainder_within (fun h => residueItems_within hs (c.item hp) h) h
  | wildcard | bind | literal | predicate | guard | app | not | or => exact keep hp h

theorem residueItems_within {subject : Name} (hs : c.subject subject) {ps : List (Pattern ε)}
    (hps : ∀ p ∈ ps, c.pattern p) {left : List (Pending ε)}
    (h : k.residueItems free subject ps = some left) : ∀ m ∈ left, m.Within c := by
  cases ps with
  | nil =>
      cases h
      exact fun m hm => by cases hm
  | cons p ps =>
      obtain ⟨first, rest, hfirst, hrest, rfl⟩ := exists_of_residueItems_cons h
      obtain ⟨hp, hps⟩ := List.forall_mem_cons.mp hps
      exact List.forall_mem_append.mpr
        ⟨residue_within hs hp hfirst, residueItems_within hs hps hrest⟩

end

theorem residuePending_within {m : Pending ε} (hm : m.Within c) {left : List (Pending ε)}
    (h : k.residuePending free m = some left) : ∀ n ∈ left, n.Within c := by
  cases m with
  | pattern subject p =>
      rw [residuePending] at h
      split at h
      · exact residue_within k free hm.1 hm.2 h
      · exact singleton_within hm h
  | member | sameAs => exact remainder_within (fun h => singleton_within hm h) h

theorem residueAll_within {ms : List (Pending ε)} (hms : ∀ m ∈ ms, m.Within c)
    {left : List (Pending ε)} (h : k.residueAll free ms = some left) :
    ∀ n ∈ left, n.Within c := by
  induction ms generalizing left with
  | nil =>
      cases h
      exact fun m hm => by cases hm
  | cons m ms ih =>
      obtain ⟨first, rest, hfirst, hrest, rfl⟩ := exists_of_residueAll_cons h
      obtain ⟨hm, hms⟩ := List.forall_mem_cons.mp hms
      exact List.forall_mem_append.mpr ⟨residuePending_within k free hm hfirst, ih hms hrest⟩

end Knowledge

namespace Projection

variable [BEq ε] (pr : Projection ε)

mutual

theorem redirectPattern_within (hs : c.subject pr.subject) (hf : c.subject pr.fresh)
    {p : Pattern ε} (hp : c.pattern p) : ∀ m ∈ pr.redirectPattern p, m.Within c := by
  have keep {q : Pattern ε} (hq : c.pattern q) :
      ∀ m ∈ [Pending.pattern pr.subject q], m.Within c :=
    fun m hm => List.mem_singleton.mp hm ▸ ⟨hs, hq⟩
  match p with
  | .app func inner =>
      rw [redirectPattern]
      split
      · exact fun m hm => List.mem_singleton.mp hm ▸ ⟨hf, c.inner_app hp⟩
      · exact keep hp
  | .and items =>
      rw [redirectPattern]
      split
      · exact redirectItems_within hs hf (c.item hp)
      · exact keep hp
  | .wildcard | .bind _ | .literal _ | .predicate _ | .guard _ | .not _ | .or _ => exact keep hp

theorem redirectItems_within (hs : c.subject pr.subject) (hf : c.subject pr.fresh)
    {ps : List (Pattern ε)} (hps : ∀ p ∈ ps, c.pattern p) :
    ∀ m ∈ pr.redirectItems ps, m.Within c := by
  match ps with
  | [] => exact fun m hm => by cases hm
  | p :: ps =>
      obtain ⟨hp, hps⟩ := List.forall_mem_cons.mp hps
      rw [redirectItems]
      exact List.forall_mem_append.mpr
        ⟨redirectPattern_within hs hf hp, redirectItems_within hs hf hps⟩

end

theorem redirectPending_within (hf : c.subject pr.fresh) {m : Pending ε} (hm : m.Within c) :
    ∀ n ∈ pr.redirectPending m, n.Within c := by
  cases m with
  | pattern subject p =>
      rw [redirectPending]
      split
      · rename_i hsubject
        exact redirectPattern_within pr (hsubject ▸ hm.1) hf hm.2
      · exact fun n hn => List.mem_singleton.mp hn ▸ hm
  | member | sameAs => exact fun n hn => List.mem_singleton.mp hn ▸ hm

end Projection

namespace Queue

variable [BEq ε] {options : Options} {mentions : ε → Name → Bool} {branch : Branch ε}
  {queue : Queue ε}

theorem Within.refine (h : Queue.Within c queue) (mentions : ε → Name → Bool) (test : Test ε)
    (outcome : Bool) : Queue.Within c (Queue.refine mentions test outcome queue) := by
  unfold Queue.refine
  split
  · exact h
  · rw [within_iff] at h ⊢
    intro branch hbranch
    obtain ⟨b, hb, hrefined⟩ := List.mem_filterMap.mp hbranch
    obtain ⟨_, left, -, hleft, rfl⟩ := Knowledge.exists_of_refineBranch hrefined
    exact (h b hb).withPending
      (Knowledge.residueAll_within _ _ (Branch.within_iff.mp (h b hb)).1 hleft)

theorem Within.share (h : Queue.Within c queue) (mentions : ε → Name → Bool) (pr : Projection ε)
    (hf : c.subject pr.fresh) : Queue.Within c (Queue.share mentions pr queue) := by
  rw [within_iff] at h ⊢
  intro branch hbranch
  obtain ⟨b, hb, rfl⟩ := List.mem_map.mp hbranch
  unfold Projection.shareBranch
  split
  · refine (h b hb).withPending fun n hn => ?_
    obtain ⟨m, hm, hn⟩ := List.mem_flatMap.mp hn
    exact pr.redirectPending_within hf ((Branch.within_iff.mp (h b hb)).1 m hm) n hn
  · exact h b hb

/-! ## Steps -/

theorem testStep_within (test : Test ε) (hb : branch.Within c) (hq : Queue.Within c queue) :
    (testStep options mentions test branch queue).Within c := by
  unfold testStep
  split
  · exact ⟨within_cons.mpr ⟨hb, hq.refine mentions test true⟩, hq.refine mentions test false⟩
  · exact ⟨within_cons.mpr ⟨hb, hq⟩, hq⟩

theorem patternStep_within {subject : Name} (hs : c.subject subject) {p : Pattern ε}
    (hp : c.pattern p) (hb : branch.Within c) (hq : Queue.Within c queue) :
    (patternStep options mentions subject branch queue p).Within c := by
  cases p with
  | wildcard => exact within_cons.mpr ⟨hb, hq⟩
  | bind x => exact within_cons.mpr ⟨hb.bind x hs, hq⟩
  | literal l => exact testStep_within _ hb hq
  | predicate func => exact testStep_within _ (hb.read func) hq
  | guard expr => exact testStep_within _ (hb.read expr) hq
  | app func inner =>
      intro fresh hfresh
      refine within_cons.mpr ⟨(hb.read func).push ⟨hfresh, c.inner_app hp⟩, ?_⟩
      split
      · exact hq.share mentions _ hfresh
      · exact hq
  | not inner =>
      exact within_cons.mpr ⟨hb.probe hq hs (c.inner_not hp), within_cons.mpr ⟨hb, hq⟩⟩
  | and items =>
      refine within_cons.mpr ⟨hb.withPending ?_, hq⟩
      refine List.forall_mem_append.mpr ⟨fun m hm => ?_, (Branch.within_iff.mp hb).1⟩
      obtain ⟨q, hq, rfl⟩ := List.mem_map.mp hm
      exact ⟨hs, c.item hp q hq⟩
  | or alternatives =>
      refine within_iff.mpr (List.forall_mem_append.mpr ⟨fun b hmem => ?_, within_iff.mp hq⟩)
      obtain ⟨m, hm, rfl⟩ := List.mem_map.mp hmem
      exact hb.push (alternativeMatches_within _ hs (c.alternative hp) m hm)

/-- Every queue that a step asks for keeps within the contents. -/
theorem step_within (options : Options) (mentions : ε → Name → Bool) (h : Queue.Within c queue) :
    (step options mentions queue).Within c := by
  match queue with
  | [] => trivial
  | ⟨[], env, .select case⟩ :: queue => trivial
  | ⟨[], env, .resume saved⟩ :: queue =>
      rw [Queue.Within, Branch.Within, Goal.Within] at h
      exact h.1.2.2
  | ⟨m :: ms, env, goal⟩ :: queue =>
      obtain ⟨hb, hq⟩ := within_cons.mp h
      obtain ⟨hm, hms⟩ := List.forall_mem_cons.mp (Branch.within_iff.mp hb).1
      have hb' : Branch.Within c ⟨ms, env, goal⟩ := hb.withPending hms
      cases m with
      | pattern subject p => exact patternStep_within hm.1 hm.2 hb' hq
      | member subject set eqv => exact testStep_within _ hb' hq
      | sameAs subject other => exact testStep_within _ hb' hq

end Queue

end PatternCompiler
