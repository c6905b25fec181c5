import PatternCompiler.Proofs.Matching
import PatternCompiler.Queue.Descent

/-!
# What may occur in a queue

A signature lists the variables that hold subjects, the pattern variables, and the functions and
guards of the patterns. Every step keeps a queue within its signature, to which a projection adds its
new variable. No step brings up a pattern variable twice in an environment.
-/

namespace PatternCompiler

set_option autoImplicit false

structure Signature where
  subject : Name → Prop
  binder : Name → Prop
  function : Form → Prop
  guard : Form → Prop
  /-- How many cases there are. -/
  cases : Nat

/-- The signature with one more variable for a subject. -/
def Signature.extend (sig : Signature) (fresh : Name) : Signature :=
  { sig with subject := fun s => s = fresh ∨ sig.subject s }

structure Pattern.Over (sig : Signature) (p : Pattern Form) : Prop where
  binders : ∀ x ∈ p.binders, sig.binder x
  functions : ∀ f ∈ p.functions, sig.function f
  guards : ∀ f ∈ p.guards, sig.guard f

/-- The comparator suits every literal. -/
def Equivalence.Suits (eqv : Equivalence) (set : List Literal) : Prop :=
  ∀ l ∈ set, l.equivalence.implies eqv = true

def Pending.Over (sig : Signature) : Pending Form → Prop
  | .pattern subject p => sig.subject subject ∧ p.Over sig
  | .member subject set eqv => sig.subject subject ∧ eqv.Suits set
  | .sameAs subject other => sig.subject subject ∧ sig.subject other

structure Environment.Over (sig : Signature) (env : Environment) : Prop where
  nodup : env.names.Nodup
  names : ∀ x ∈ env.names, sig.binder x
  subjects : ∀ s ∈ env.subjects, sig.subject s

mutual

def Branch.Over (sig : Signature) : Branch Form → Prop
  | ⟨pending, env, goal⟩ => (∀ m ∈ pending, m.Over sig) ∧ env.Over sig ∧ Goal.Over sig goal

def Goal.Over (sig : Signature) : Goal (List (Branch Form)) → Prop
  | .select case => case < sig.cases
  | .resume queue => Queue.Over sig queue

def Queue.Over (sig : Signature) : List (Branch Form) → Prop
  | [] => True
  | branch :: queue => branch.Over sig ∧ Queue.Over sig queue

end

def Test.Over (sig : Signature) : Test Form → Prop
  | .equal subject literal eqv => sig.subject subject ∧ eqv.Suits [literal]
  | .member subject set eqv => sig.subject subject ∧ eqv.Suits set
  | .sameAs subject other => sig.subject subject ∧ sig.subject other
  | .predicate subject func bindings => sig.subject subject ∧ sig.function func ∧
      ∀ b ∈ bindings, sig.binder b.1 ∧ sig.subject b.2
  | .guard expr bindings => sig.guard expr ∧ ∀ b ∈ bindings, sig.binder b.1 ∧ sig.subject b.2

/-- Everything the step asks for is within the signature, if a projection's variable is `fresh`. -/
def Step.Over (sig : Signature) (fresh : Name) : Step Form → Prop
  | .fail => True
  | .select case env => case < sig.cases ∧ env.Over sig
  | .advance queue => Queue.Over sig queue
  | .test asked yes no => asked.Over sig ∧ Queue.Over sig yes ∧ Queue.Over sig no
  | .project func subject bindings body => sig.subject subject ∧ sig.function func ∧
      (∀ b ∈ bindings, sig.binder b.1 ∧ sig.subject b.2) ∧
      Queue.Over (sig.extend fresh) (body fresh)

/-! ## Environments -/

namespace Environment

theorem markFirst_subjects (x : Name) (bindings : List Binding) :
    (markFirst x bindings).map (fun b => (b.name, b.subject)) =
      bindings.map fun b => (b.name, b.subject) := by
  induction bindings with
  | nil => rfl
  | cons b bs ih =>
      simp only [markFirst]
      split
      · rfl
      · simp only [List.map_cons, ih]

/-- The pattern variables with their subjects. -/
def pairs (env : Environment) : List (Name × Name) := env.bindings.map fun b => (b.name, b.subject)

@[simp] theorem pairs_markUsed (env : Environment) (x : Name) :
    (env.markUsed x).pairs = env.pairs := markFirst_subjects x env.bindings

@[simp] theorem pairs_markAllUsed (env : Environment) (xs : List Name) :
    (env.markAllUsed xs).pairs = env.pairs := by
  unfold markAllUsed
  induction xs generalizing env with
  | nil => rfl
  | cons x xs ih => rw [List.foldl_cons, ih, pairs_markUsed]

end Environment

variable {sig : Signature}

/-! ## Patterns -/

namespace Pattern

theorem Over.inner_app {func : Form} {p : Pattern Form} (h : (Pattern.app func p).Over sig) :
    p.Over sig :=
  ⟨h.binders, fun f hf => h.functions f (by simp [Pattern.functions, hf]), h.guards⟩

theorem Over.function_app {func : Form} {p : Pattern Form} (h : (Pattern.app func p).Over sig) :
    sig.function func := h.functions func (by simp [Pattern.functions])

theorem Over.inner_not {p : Pattern Form} (h : (Pattern.not p).Over sig) : p.Over sig :=
  ⟨h.binders, h.functions, h.guards⟩

theorem Over.item {ps : List (Pattern Form)} (h : (Pattern.and ps).Over sig) {p : Pattern Form}
    (hp : p ∈ ps) : p.Over sig where
  binders x hx := h.binders x (mem_bindersOfList hp hx)
  functions f hf := h.functions f (mem_listFunctions hp hf)
  guards f hf := h.guards f (mem_listGuards hp hf)

theorem Over.alternative {ps : List (Pattern Form)} (h : (Pattern.or ps).Over sig)
    {p : Pattern Form} (hp : p ∈ ps) : p.Over sig where
  binders x hx := h.binders x (mem_bindersOfList hp hx)
  functions f hf := h.functions f (mem_listFunctions hp hf)
  guards f hf := h.guards f (mem_listGuards hp hf)

theorem Over.extend {p : Pattern Form} (h : p.Over sig) (fresh : Name) :
    p.Over (sig.extend fresh) := ⟨h.binders, h.functions, h.guards⟩

end Pattern

/-! ## Taking conjunctions apart -/

/-- A relation between a pattern and what is left of it that taking conjunctions apart and leaving
conjuncts out respects. -/
structure Dismantles (R : Pattern Form → List (Pattern Form) → Prop) : Prop where
  whole : ∀ p, R p [p]
  dropped : ∀ p, R p []
  conjuncts : ∀ {ps : List (Pattern Form)} {ls : List (List (Pattern Form))},
    List.Forall₂ R ps ls → R (.and ps) ls.flatten

namespace Knowledge

variable {R : Pattern Form → List (Pattern Form) → Prop}

mutual

theorem residue_dismantles (hR : Dismantles R) (k : Knowledge Form) (free : Bool) (subject : Name)
    (p : Pattern Form) {left : List (Pending Form)}
    (h : k.residue free subject p = some left) :
    ∃ l, left = l.map (.pattern subject) ∧ R p l := by
  have keep : ∀ {q : Pattern Form},
      remainder (k.verdict free subject q) (some [.pattern subject q]) = some left →
      ∃ l, left = l.map (.pattern subject) ∧ R q l := by
    intro q hq
    simp only [remainder] at hq
    split at hq
    · cases hq; exact ⟨[], rfl, hR.dropped q⟩
    · cases hq
    · cases hq; exact ⟨[q], rfl, hR.whole q⟩
  cases p with
  | and items =>
      simp only [residue, remainder] at h
      split at h
      · cases h; exact ⟨[], rfl, hR.dropped _⟩
      · cases h
      · obtain ⟨ls, rfl, hls⟩ := residueItems_dismantles hR k free subject items h
        exact ⟨ls.flatten, rfl, hR.conjuncts hls⟩
  | wildcard | bind | literal | predicate | guard | app | not | or => exact keep h

theorem residueItems_dismantles (hR : Dismantles R) (k : Knowledge Form) (free : Bool) (subject : Name)
    (ps : List (Pattern Form)) {left : List (Pending Form)}
    (h : k.residueItems free subject ps = some left) :
    ∃ ls : List (List (Pattern Form)),
      left = ls.flatten.map (.pattern subject) ∧ List.Forall₂ R ps ls := by
  cases ps with
  | nil => cases h; exact ⟨[], rfl, .nil⟩
  | cons p ps =>
      obtain ⟨first, rest, hfirst, hrest, rfl⟩ := exists_of_residueItems_cons h
      obtain ⟨l, rfl, hl⟩ := residue_dismantles hR k free subject p hfirst
      obtain ⟨ls, rfl, hls⟩ := residueItems_dismantles hR k free subject ps hrest
      exact ⟨l :: ls, by simp, .cons hl hls⟩

end

end Knowledge

/-! ## Branches -/

namespace Environment

theorem names_eq (env : Environment) : env.names = env.pairs.map Prod.fst := by
  simp only [names, pairs, List.map_map, Function.comp_def]

theorem subjects_eq (env : Environment) : env.subjects = env.pairs.map Prod.snd := by
  simp only [subjects, pairs, List.map_map, Function.comp_def]

theorem Over.of_pairs {env env' : Environment} (h : env.Over sig) (hp : env'.pairs = env.pairs) :
    env'.Over sig := by
  have hnames : env'.names = env.names := by rw [names_eq, names_eq, hp]
  have hsubjects : env'.subjects = env.subjects := by rw [subjects_eq, subjects_eq, hp]
  exact ⟨hnames ▸ h.nodup, hnames ▸ h.names, hsubjects ▸ h.subjects⟩

theorem nodup_push {env : Environment} (h : env.names.Nodup) {x : Name}
    (hx : env.lookup? x = none) (subject : Name) :
    (Environment.mk (env.bindings ++ [⟨x, subject, false⟩])).names.Nodup := by
  have hfresh : x ∉ env.names := by
    intro hmem
    obtain ⟨b, hbmem, rfl⟩ := List.mem_map.mp hmem
    have := List.find?_eq_none.mp hx b hbmem
    simp at this
  simp only [Environment.names, List.map_append, List.map_cons, List.map_nil]
  refine List.nodup_append.mpr ⟨h, by simp, ?_⟩
  intro a ha b hb hab
  rw [List.mem_singleton] at hb
  exact hfresh (hb ▸ hab ▸ ha)

theorem Over.push {env : Environment} (h : env.Over sig) {x subject : Name}
    (hx : env.lookup? x = none) (hb : sig.binder x) (hs : sig.subject subject) :
    (Environment.mk (env.bindings ++ [⟨x, subject, false⟩])).Over sig := by
  constructor
  · exact nodup_push h.nodup hx subject
  · intro y hy
    simp only [Environment.names, List.map_append, List.map_cons, List.map_nil, List.mem_append,
      List.mem_singleton] at hy
    rcases hy with hy | rfl
    · exact h.names y hy
    · exact hb
  · intro s hmem
    simp only [Environment.subjects, List.map_append, List.map_cons, List.map_nil, List.mem_append,
      List.mem_singleton] at hmem
    rcases hmem with hmem | rfl
    · exact h.subjects s hmem
    · exact hs

theorem Over.visible {env : Environment} (h : env.Over sig) (mentions : Form → Name → Bool)
    (expr : Form) : ∀ b ∈ env.visible mentions expr, sig.binder b.1 ∧ sig.subject b.2 := by
  intro b hb
  obtain ⟨c, hc, rfl⟩ := List.mem_map.mp hb
  have hmem := (List.mem_filter.mp hc).1
  exact ⟨h.names _ (List.mem_map_of_mem hmem), h.subjects _ (List.mem_map_of_mem hmem)⟩

end Environment

theorem Branch.over_iff {branch : Branch Form} :
    branch.Over sig ↔ (∀ m ∈ branch.pending, m.Over sig) ∧ branch.env.Over sig ∧
      branch.goal.Over sig := by
  obtain ⟨pending, env, goal⟩ := branch
  rw [Branch.Over]

theorem Queue.over_iff {queue : Queue Form} :
    Queue.Over sig queue ↔ ∀ branch ∈ queue, branch.Over sig := by
  induction queue with
  | nil => simp [Queue.Over]
  | cons branch queue ih => rw [Queue.Over, ih, List.forall_mem_cons]

theorem Branch.exists_of_mem_ofPatterns {ε : Type} {root : Name} {patterns : List (Pattern ε)}
    {branch : Branch ε} (h : branch ∈ Queue.ofPatterns root patterns) :
    ∃ case p, case < patterns.length ∧ p ∈ patterns ∧ branch = .ofCase root case p := by
  obtain ⟨case, hcase, rfl⟩ := List.mem_iff_getElem.mp h
  rw [Queue.ofPatterns, List.length_mapIdx] at hcase
  exact ⟨case, patterns[case], hcase, List.getElem_mem hcase, List.getElem_mapIdx ..⟩

theorem Pending.Over.extend {m : Pending Form} (h : m.Over sig) (fresh : Name) :
    m.Over (sig.extend fresh) := by
  cases m with
  | pattern subject p => exact ⟨.inr h.1, h.2.extend fresh⟩
  | member subject set eqv => exact ⟨.inr h.1, h.2⟩
  | sameAs subject other => exact ⟨.inr h.1, .inr h.2⟩

theorem Environment.Over.extend {env : Environment} (h : env.Over sig) (fresh : Name) :
    env.Over (sig.extend fresh) :=
  ⟨h.nodup, h.names, fun s hs => .inr (h.subjects s hs)⟩

mutual

theorem Branch.Over.extend {branch : Branch Form} (h : branch.Over sig) (fresh : Name) :
    branch.Over (sig.extend fresh) := by
  match branch with
  | ⟨pending, env, goal⟩ =>
      rw [Branch.Over] at h ⊢
      exact ⟨fun m hm => (h.1 m hm).extend fresh, h.2.1.extend fresh, Goal.Over.extend h.2.2 fresh⟩

theorem Goal.Over.extend {goal : Goal (List (Branch Form))} (h : goal.Over sig) (fresh : Name) :
    goal.Over (sig.extend fresh) := by
  match goal with
  | .select case =>
      rw [Goal.Over] at h ⊢
      exact h
  | .resume queue =>
      rw [Goal.Over] at h ⊢
      exact Queue.Over.extend h fresh

theorem Queue.Over.extend {queue : List (Branch Form)} (h : Queue.Over sig queue) (fresh : Name) :
    Queue.Over (sig.extend fresh) queue := by
  match queue with
  | [] => trivial
  | branch :: queue =>
      rw [Queue.Over] at h ⊢
      exact ⟨Branch.Over.extend h.1 fresh, Queue.Over.extend h.2 fresh⟩

end

namespace Branch

variable {branch : Branch Form} {mentions : Form → Name → Bool}

theorem Over.push (h : branch.Over sig) {m : Pending Form} (hm : m.Over sig) :
    (branch.push m).Over sig := by
  rw [over_iff] at h ⊢
  exact ⟨List.forall_mem_cons.mpr ⟨hm, h.1⟩, h.2⟩

theorem Over.withPending (h : branch.Over sig) {pending : List (Pending Form)}
    (hp : ∀ m ∈ pending, m.Over sig) : Branch.Over sig { branch with pending := pending } := by
  rw [over_iff] at h ⊢
  exact ⟨hp, h.2⟩

theorem Over.withEnv (h : branch.Over sig) {env : Environment} (he : env.Over sig) :
    Branch.Over sig { branch with env := env } := by
  rw [over_iff] at h ⊢
  exact ⟨h.1, he, h.2.2⟩

theorem Over.read (h : branch.Over sig) (expr : Form) : (branch.read mentions expr).Over sig :=
  h.withEnv ((over_iff.mp h).2.1.of_pairs (Environment.pairs_markAllUsed _ _))

theorem Over.bind (h : branch.Over sig) {x subject : Name} (hx : sig.binder x)
    (hs : sig.subject subject) : (branch.bind x subject).Over sig := by
  have henv := (over_iff.mp h).2.1
  unfold Branch.bind Environment.extend
  cases hbound : branch.env.lookup? x with
  | none => exact h.withEnv (henv.push hbound hx hs)
  | some b =>
      have hb : sig.subject b.subject :=
        henv.subjects _ (List.mem_map_of_mem (List.mem_of_find?_eq_some hbound))
      simp only
      split
      · exact h
      · exact (h.withEnv (henv.of_pairs (Environment.pairs_markUsed _ _))).push ⟨hs, hb⟩

theorem Over.probe (h : branch.Over sig) {queue : Queue Form} (hq : Queue.Over sig queue)
    {subject : Name} (hs : sig.subject subject) {p : Pattern Form} (hp : p.Over sig) :
    (branch.probe subject p queue).Over sig := by
  rw [over_iff] at h ⊢
  refine ⟨?_, h.2.1, ?_⟩
  · intro m hm
    rw [Branch.probe, List.mem_singleton] at hm
    exact hm ▸ ⟨hs, hp⟩
  · rw [Branch.probe, Goal.Over]
    exact hq

end Branch

/-! ## Steps -/

/-- What holds of conjuncts, too, holds of whatever is left. -/
theorem dismantles_keep {P : Pattern Form → Prop}
    (hP : ∀ {ps : List (Pattern Form)}, P (.and ps) → ∀ p ∈ ps, P p) :
    Dismantles fun p l => P p → ∀ q ∈ l, P q ∧ ∀ x ∈ q.binders, x ∈ p.binders where
  whole p hp q hq := by
    obtain rfl := List.mem_singleton.mp hq
    exact ⟨hp, fun x hx => hx⟩
  dropped p _ q hq := by cases hq
  conjuncts := by
    intro ps ls hls hp q hq
    have hitems := hP hp
    clear hp
    induction hls with
    | nil => cases hq
    | @cons p l ps ls h _ ih =>
        rw [Pattern.binders, Pattern.bindersOfList]
        rw [List.flatten_cons, List.mem_append] at hq
        rcases hq with hq | hq
        · obtain ⟨hkept, hx⟩ := h (hitems _ List.mem_cons_self) q hq
          exact ⟨hkept, fun x hmem => List.mem_append.mpr (.inl (hx x hmem))⟩
        · obtain ⟨hkept, hx⟩ := ih hq fun p hmem => hitems p (List.mem_cons_of_mem _ hmem)
          exact ⟨hkept, fun x hmem => List.mem_append.mpr (.inr (hx x hmem))⟩

theorem dismantles_over : Dismantles fun p l =>
    p.Over sig → ∀ q ∈ l, q.Over sig ∧ ∀ x ∈ q.binders, x ∈ p.binders :=
  dismantles_keep fun h _ hp => h.item hp

namespace Knowledge

theorem remainder_over {verdict : Option Bool} {m : Pending Form} (hm : m.Over sig)
    {left : List (Pending Form)} (h : remainder verdict (some [m]) = some left) :
    ∀ n ∈ left, n.Over sig := by
  intro n hn
  unfold remainder at h
  split at h
  · cases h; cases hn
  · cases h
  · cases h; exact List.mem_singleton.mp hn ▸ hm

theorem residuePending_over (k : Knowledge Form) (free : Bool) {m : Pending Form}
    (hm : m.Over sig) {left : List (Pending Form)} (h : k.residuePending free m = some left) :
    ∀ n ∈ left, n.Over sig := by
  cases m with
  | pattern subject p =>
      simp only [residuePending] at h
      split at h
      · obtain ⟨l, rfl, hl⟩ := residue_dismantles dismantles_over k free subject p h
        intro n hn
        obtain ⟨q, hq, rfl⟩ := List.mem_map.mp hn
        exact ⟨hm.1, (hl hm.2 q hq).1⟩
      · cases h
        intro n hn
        exact List.mem_singleton.mp hn ▸ hm
  | member subject set eqv => exact remainder_over hm h
  | sameAs subject other => exact remainder_over hm h

theorem residueAll_over (k : Knowledge Form) (free : Bool) {ms : List (Pending Form)}
    (hms : ∀ m ∈ ms, m.Over sig) {left : List (Pending Form)}
    (h : k.residueAll free ms = some left) : ∀ n ∈ left, n.Over sig := by
  induction ms generalizing left with
  | nil => cases h; intro n hn; cases hn
  | cons m ms ih =>
      obtain ⟨first, rest, hfirst, hrest, rfl⟩ := exists_of_residueAll_cons h
      intro n hn
      rcases List.mem_append.mp hn with hn | hn
      · exact residuePending_over k free (hms m List.mem_cons_self) hfirst n hn
      · exact ih (fun m hm => hms m (List.mem_cons_of_mem _ hm)) hrest n hn

end Knowledge

theorem Queue.Over.refine {queue : Queue Form} (h : Queue.Over sig queue)
    (mentions : Form → Name → Bool) (test : Test Form) (outcome : Bool) :
    Queue.Over sig (Queue.refine mentions test outcome queue) := by
  unfold Queue.refine
  split
  · exact h
  · rw [Queue.over_iff] at h ⊢
    intro branch hbranch
    obtain ⟨b, hb, hrefined⟩ := List.mem_filterMap.mp hbranch
    obtain ⟨_, left, -, hleft, rfl⟩ := Knowledge.exists_of_refineBranch hrefined
    exact (h b hb).withPending
      (Knowledge.residueAll_over _ _ (Branch.over_iff.mp (h b hb)).1 hleft)

namespace Projection

variable (pr : Projection Form)

mutual

theorem redirectPattern_over {p : Pattern Form} (hs : sig.subject pr.subject) (hp : p.Over sig) :
    ∀ m ∈ pr.redirectPattern p, m.Over (sig.extend pr.fresh) := by
  have keep : ∀ {q : Pattern Form}, q.Over sig →
      ∀ m ∈ [Pending.pattern pr.subject q], m.Over (sig.extend pr.fresh) := by
    intro q hq m hm
    exact List.mem_singleton.mp hm ▸ ⟨.inr hs, hq.extend _⟩
  match p with
  | .app func inner =>
      rw [redirectPattern]
      split
      · intro m hm
        exact List.mem_singleton.mp hm ▸ ⟨.inl rfl, hp.inner_app.extend _⟩
      · exact keep hp
  | .and items =>
      rw [redirectPattern]
      split
      · exact redirectItems_over hs fun q hq => hp.item hq
      · exact keep hp
  | .wildcard | .bind _ | .literal _ | .predicate _ | .guard _ | .not _ | .or _ =>
      rw [redirectPattern]
      · exact keep hp
      all_goals simp

theorem redirectItems_over {ps : List (Pattern Form)} (hs : sig.subject pr.subject)
    (hp : ∀ p ∈ ps, p.Over sig) : ∀ m ∈ pr.redirectItems ps, m.Over (sig.extend pr.fresh) := by
  match ps with
  | [] => intro m hm; cases hm
  | p :: ps =>
      intro m hm
      rw [redirectItems] at hm
      rcases List.mem_append.mp hm with hm | hm
      · exact redirectPattern_over hs (hp p List.mem_cons_self) m hm
      · exact redirectItems_over hs (fun q hq => hp q (List.mem_cons_of_mem _ hq)) m hm

end

theorem redirectPending_over {m : Pending Form} (hs : sig.subject pr.subject) (hm : m.Over sig) :
    ∀ n ∈ pr.redirectPending m, n.Over (sig.extend pr.fresh) := by
  intro n hn
  cases m with
  | pattern subject p =>
      simp only [redirectPending] at hn
      split at hn
      · exact redirectPattern_over pr hs hm.2 n hn
      · exact List.mem_singleton.mp hn ▸ hm.extend _
  | member | sameAs => exact List.mem_singleton.mp hn ▸ hm.extend _

end Projection

theorem Branch.Over.share {branch : Branch Form} (h : branch.Over sig)
    (mentions : Form → Name → Bool) (pr : Projection Form) (hs : sig.subject pr.subject) :
    (pr.shareBranch mentions branch).Over (sig.extend pr.fresh) := by
  unfold Projection.shareBranch
  split
  · refine (h.extend pr.fresh).withPending fun n hn => ?_
    obtain ⟨m, hm, hn⟩ := List.mem_flatMap.mp hn
    exact pr.redirectPending_over hs ((Branch.over_iff.mp h).1 m hm) n hn
  · exact h.extend pr.fresh

theorem Queue.Over.share {queue : Queue Form} (h : Queue.Over sig queue)
    (mentions : Form → Name → Bool) (pr : Projection Form) (hs : sig.subject pr.subject) :
    Queue.Over (sig.extend pr.fresh) (Queue.share mentions pr queue) := by
  rw [Queue.over_iff] at h ⊢
  intro branch hbranch
  obtain ⟨b, hb, rfl⟩ := List.mem_map.mp hbranch
  exact (h b hb).share mentions pr hs

theorem Equivalence.implies_join_left (a b : Equivalence) : a.implies (a.join b) = true := by
  cases a <;> cases b <;> rfl

theorem Equivalence.implies_join_right (a b : Equivalence) : b.implies (a.join b) = true := by
  cases a <;> cases b <;> rfl

theorem Equivalence.implies_trans {a b c : Equivalence} (h : a.implies b = true)
    (h' : b.implies c = true) : a.implies c = true := by
  simp only [Equivalence.implies, decide_eq_true_eq] at h h' ⊢
  exact Nat.le_trans h h'

theorem Equivalence.ofLiterals_suits (set : List Literal) :
    (Equivalence.ofLiterals set).Suits set := by
  -- The fold only ever moves up, from wherever it starts.
  have fold : ∀ (ls : List Literal) (start : Equivalence),
      start.implies (ls.foldl (fun eqv l => eqv.join l.equivalence) start) = true ∧
        Equivalence.Suits (ls.foldl (fun eqv l => eqv.join l.equivalence) start) ls := by
    intro ls
    induction ls with
    | nil =>
        intro start
        exact ⟨start.implies_refl, fun l hl => by cases hl⟩
    | cons l ls ih =>
        intro start
        obtain ⟨hstart, hls⟩ := ih (start.join l.equivalence)
        refine ⟨implies_trans (implies_join_left _ _) hstart, ?_⟩
        intro m hm
        rcases List.mem_cons.mp hm with rfl | hm
        · exact implies_trans (implies_join_right _ _) hstart
        · exact hls m hm
  exact (fold set .identity).2

/-- What alternatives may turn into: matches of single alternatives, and folded runs. -/
def FoldsTo (subject : Name) (ps : List (Pattern Form)) (m : Pending Form) : Prop :=
  (∃ p ∈ ps, m = .pattern subject p) ∨ ∃ set, m = .member subject set (.ofLiterals set)

theorem FoldsTo.mono {subject : Name} {ps qs : List (Pattern Form)} {m : Pending Form}
    (h : FoldsTo subject ps m) (hsub : ∀ p ∈ ps, p ∈ qs) : FoldsTo subject qs m := by
  rcases h with ⟨p, hp, rfl⟩ | hset
  · exact .inl ⟨p, hsub p hp, rfl⟩
  · exact .inr hset

theorem matchesOfRun_foldsTo (subject : Name) (run : List (Pattern Form × Literal)) :
    ∀ m ∈ matchesOfRun subject run, FoldsTo subject (run.map Prod.fst) m := by
  intro m hm
  unfold matchesOfRun at hm
  split at hm
  · cases hm
  · exact .inl ⟨_, List.mem_singleton_self _, List.mem_singleton.mp hm⟩
  · exact .inr ⟨_, List.mem_singleton.mp hm⟩

theorem foldFrom_foldsTo (subject : Name) (run : List (Pattern Form × Literal))
    (ps : List (Pattern Form)) :
    ∀ m ∈ foldFrom subject run ps, FoldsTo subject (run.map Prod.fst ++ ps) m := by
  induction ps generalizing run with
  | nil =>
      rw [List.append_nil]
      exact matchesOfRun_foldsTo subject run
  | cons p ps ih =>
      intro m hm
      simp only [foldFrom] at hm
      split at hm
      · rename_i literal _
        refine (ih (run ++ [(p, literal)]) m hm).mono fun q hq => ?_
        simpa using hq
      · rcases List.mem_append.mp hm with hm | hm
        · exact (matchesOfRun_foldsTo subject run m hm).mono fun q hq => by simp [hq]
        · rcases List.mem_cons.mp hm with rfl | hm
          · exact .inl ⟨p, by simp, rfl⟩
          · exact (ih [] m hm).mono fun q hq => by
              simp only [List.map_nil, List.nil_append] at hq
              simp [hq]

theorem alternativeMatches_foldsTo (fold : Bool) (subject : Name) (ps : List (Pattern Form)) :
    ∀ m ∈ alternativeMatches fold subject ps, FoldsTo subject ps m := by
  unfold alternativeMatches
  split
  · exact foldFrom_foldsTo subject [] ps
  · intro m hm
    obtain ⟨p, hp, rfl⟩ := List.mem_map.mp hm
    exact .inl ⟨p, hp, rfl⟩

theorem FoldsTo.over {subject : Name} {ps : List (Pattern Form)} {m : Pending Form}
    (h : FoldsTo subject ps m) (hs : sig.subject subject) (hps : ∀ p ∈ ps, p.Over sig) :
    m.Over sig := by
  rcases h with ⟨p, hp, rfl⟩ | ⟨set, rfl⟩
  · exact ⟨hs, hps p hp⟩
  · exact ⟨hs, Equivalence.ofLiterals_suits set⟩

namespace Queue

variable {options : Options} {mentions : Form → Name → Bool} {branch : Branch Form}
  {queue : Queue Form} {fresh : Name}

theorem testStep_over {test : Test Form} (ht : test.Over sig) (hb : branch.Over sig)
    (hq : Queue.Over sig queue) : (testStep options mentions test branch queue).Over sig fresh := by
  unfold testStep
  split
  · exact ⟨ht, Queue.over_iff.mpr (List.forall_mem_cons.mpr
      ⟨hb, Queue.over_iff.mp (hq.refine mentions test true)⟩), hq.refine mentions test false⟩
  · exact ⟨ht, by rw [Queue.Over]; exact ⟨hb, hq⟩, hq⟩

theorem patternStep_over {subject : Name} {p : Pattern Form} (hs : sig.subject subject)
    (hp : p.Over sig) (hb : branch.Over sig) (hq : Queue.Over sig queue) :
    (patternStep options mentions subject branch queue p).Over sig fresh := by
  have henv := (Branch.over_iff.mp hb).2.1
  have cons : ∀ {b : Branch Form}, b.Over sig → Queue.Over sig (b :: queue) := by
    intro b hb
    rw [Queue.Over]
    exact ⟨hb, hq⟩
  cases p with
  | wildcard => exact cons hb
  | bind x => exact cons (hb.bind (hp.binders x (by simp [Pattern.binders])) hs)
  | literal l =>
      refine testStep_over ⟨hs, fun m hm => ?_⟩ hb hq
      rw [List.mem_singleton.mp hm]
      exact l.equivalence.implies_refl
  | predicate func =>
      exact testStep_over ⟨hs, hp.functions func (by simp [Pattern.functions]),
        henv.visible mentions func⟩ (hb.read func) hq
  | guard expr =>
      exact testStep_over ⟨hp.guards expr (by simp [Pattern.guards]), henv.visible mentions expr⟩
        (hb.read expr) hq
  | app func inner =>
      refine ⟨hs, hp.function_app, henv.visible mentions func, ?_⟩
      rw [Queue.Over]
      refine ⟨((hb.read func).extend fresh).push ⟨.inl rfl, hp.inner_app.extend fresh⟩, ?_⟩
      split
      · exact hq.share mentions ⟨subject, func, fresh⟩ hs
      · exact hq.extend fresh
  | not inner =>
      simp only [patternStep, Step.Over]
      rw [Queue.Over]
      exact ⟨hb.probe hq hs hp.inner_not, cons hb⟩
  | and items =>
      refine cons (hb.withPending fun m hm => ?_)
      rcases List.mem_append.mp hm with hm | hm
      · obtain ⟨q, hmem, rfl⟩ := List.mem_map.mp hm
        exact ⟨hs, hp.item hmem⟩
      · exact (Branch.over_iff.mp hb).1 m hm
  | or alternatives =>
      simp only [patternStep, Step.Over]
      rw [Queue.over_iff]
      intro b hmem
      rcases List.mem_append.mp hmem with hmem | hmem
      · obtain ⟨m, hm, rfl⟩ := List.mem_map.mp hmem
        exact hb.push
          ((alternativeMatches_foldsTo _ _ _ m hm).over hs fun q hq => hp.alternative hq)
      · exact Queue.over_iff.mp hq b hmem

/-- A step stays within the signature, to which a projection adds its variable. -/
theorem step_over (h : Queue.Over sig queue) :
    (step options mentions queue).Over sig fresh := by
  match queue with
  | [] => trivial
  | ⟨[], env, .select case⟩ :: queue =>
      rw [Queue.Over, Branch.Over, Goal.Over] at h
      exact ⟨h.1.2.2, h.1.2.1⟩
  | ⟨[], env, .resume saved⟩ :: queue =>
      rw [Queue.Over, Branch.Over, Goal.Over] at h
      exact h.1.2.2
  | ⟨m :: ms, env, goal⟩ :: queue =>
      rw [Queue.Over] at h
      obtain ⟨hb, hq⟩ := h
      rw [Branch.over_iff] at hb
      obtain ⟨hm, hms⟩ := List.forall_mem_cons.mp hb.1
      have hb' : Branch.Over sig ⟨ms, env, goal⟩ := Branch.over_iff.mpr ⟨hms, hb.2⟩
      cases m with
      | pattern subject p => exact patternStep_over hm.1 hm.2 hb' hq
      | member subject set eqv => exact testStep_over hm hb' hq
      | sameAs subject other => exact testStep_over hm hb' hq

end Queue

end PatternCompiler
