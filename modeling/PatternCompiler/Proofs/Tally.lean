import PatternCompiler.Proofs.Signature

/-!
# Counting tests before they are built

How many tests a queue takes if nothing is shared, folded or decided in advance. The number for a
match depends on what follows: on the number of tests behind its success and on that behind its
failure. A name that is bound again is only tested if its places differ, so the number also depends
on the places of the names, which are the variables at hand and the values projected on the way.

Two counts are compared along a map of places. Places that fall together only save tests.
-/

namespace PatternCompiler

set_option autoImplicit false

variable {ε : Type}

/-- What holds a value: a variable that is there, or a projection made on the way. -/
inductive Place where
  | given (subject : Name)
  | made (number : Nat)
deriving DecidableEq

/-- What a path has come by: how many values it has projected, and the places of its names. -/
structure Trail where
  made : Nat
  bound : List (Name × Place)

/-- A number of tests, given the path so far and the number of tests behind a failure. -/
abbrev Tally := Trail → Nat → Nat

namespace Trail

def bind (t : Trail) (x : Name) (s : Place) : Trail := { t with bound := t.bound ++ [(x, s)] }

/-- One more value has been projected. -/
def project (t : Trail) : Trail := { t with made := t.made + 1 }

def ofEnv (env : Environment) : Trail := ⟨0, env.pairs.map fun b => (b.1, .given b.2)⟩

end Trail

namespace Pattern

mutual

/-- The tests for matching what is at a place, given those behind success and behind failure. -/
def tests : Pattern ε → Place → Tally → Tally
  | .wildcard, _, k, t, f => k t f
  | .bind x, s, k, t, f =>
      match t.bound.lookup x with
      | none => k (t.bind x s) f
      | some p => if p = s then k t f else 1 + k t f + f
  | .literal _, _, k, t, f => 1 + k t f + f
  | .predicate _, _, k, t, f => 1 + k t f + f
  | .guard _, _, k, t, f => 1 + k t f + f
  | .app _ inner, _, k, t, f => tests inner (.made t.made) k t.project f
  | .not inner, s, k, t, f => tests inner s (fun _ _ => f) t (k t f)
  | .and items, s, k, t, f => testsAll items s k t f
  | .or alternatives, s, k, t, f => testsAny alternatives s k t f

def testsAll : List (Pattern ε) → Place → Tally → Tally
  | [], _, k, t, f => k t f
  | p :: ps, s, k, t, f => tests p s (testsAll ps s k) t f

def testsAny : List (Pattern ε) → Place → Tally → Tally
  | [], _, _, _, f => f
  | p :: ps, s, k, t, f => tests p s k t (testsAny ps s k t f)

end

end Pattern

namespace Pending

def tests : Pending ε → Tally → Tally
  | .pattern subject p, k, t, f => p.tests (.given subject) k t f
  | .member .., k, t, f => 1 + k t f + f
  | .sameAs .., k, t, f => 1 + k t f + f

def testsAll : List (Pending ε) → Tally → Tally
  | [], k, t, f => k t f
  | m :: ms, k, t, f => m.tests (testsAll ms k) t f

end Pending

mutual

/-- The tests of a branch in front of a queue with `f` tests. -/
def Branch.tests : Branch ε → Nat → Nat
  | ⟨pending, env, goal⟩, f => Pending.testsAll pending (fun _ _ => Goal.tests goal) (.ofEnv env) f

def Goal.tests : Goal (List (Branch ε)) → Nat
  | .select _ => 0
  | .resume queue => Queue.tests queue

def Queue.tests : List (Branch ε) → Nat
  | [] => 0
  | branch :: queue => branch.tests (Queue.tests queue)

end

/-- The tests that a step takes, if the variable of a projection is `fresh`. -/
def Step.tests (fresh : Name) : Step ε → Nat
  | .fail | .select .. => 0
  | .advance queue => Queue.tests queue
  | .test _ yes no => 1 + Queue.tests yes + Queue.tests no
  | .project _ _ _ body => Queue.tests (body fresh)

/-! ## Places -/

/-- The place is there once `n` values have been projected. -/
def Place.Before (n : Nat) : Place → Prop
  | given _ => True
  | made m => m < n

/-- Two maps agree on the places that are there once `n` values have been projected. -/
def AgreeBefore (n : Nat) (σ τ : Place → Place) : Prop := ∀ s : Place, s.Before n → τ s = σ s

theorem AgreeBefore.refl (n : Nat) (σ : Place → Place) : AgreeBefore n σ σ := fun _ _ => rfl

theorem Place.Before.mono {s : Place} {m n : Nat} (h : s.Before m) (hle : m ≤ n) : s.Before n := by
  cases s with
  | given => trivial
  | made i => exact Nat.lt_of_lt_of_le h hle

theorem AgreeBefore.trans {m n : Nat} {σ τ υ : Place → Place} (h : AgreeBefore m σ τ)
    (h' : AgreeBefore n τ υ) (hle : m ≤ n) : AgreeBefore m σ υ :=
  fun s hs => (h' s (hs.mono hle)).trans (h s hs)

namespace Trail

/-- The names are at places that are there. -/
def Proper (t : Trail) : Prop := ∀ b ∈ t.bound, b.2.Before t.made

/-- The trail with its places mapped, after `made` projections. -/
def via (t : Trail) (τ : Place → Place) (made : Nat) : Trail :=
  ⟨made, t.bound.map fun b => (b.1, τ b.2)⟩

@[simp] theorem via_id (t : Trail) : t.via id t.made = t := by
  simp [via]

theorem lookup_via (t : Trail) (τ : Place → Place) (made : Nat) (x : Name) :
    (t.via τ made).bound.lookup x = (t.bound.lookup x).map τ := by
  simp only [via]
  induction t.bound with
  | nil => rfl
  | cons b bound ih =>
      rw [List.map_cons, List.lookup_cons, List.lookup_cons, ih]
      cases x == b.1 <;> rfl

theorem bind_via (t : Trail) (τ : Place → Place) (made : Nat) (x : Name) (s : Place) :
    (t.via τ made).bind x (τ s) = (t.bind x s).via τ made := by
  simp [bind, via]

theorem Proper.via_eq {t : Trail} (h : t.Proper) {σ τ : Place → Place}
    (hτ : AgreeBefore t.made σ τ) (made : Nat) : t.via τ made = t.via σ made := by
  rw [via, via]
  congr 1
  exact List.map_congr_left fun b hb => by rw [hτ _ (h b hb)]

theorem Proper.bind {t : Trail} (h : t.Proper) (x : Name) {s : Place} (hs : s.Before t.made) :
    (t.bind x s).Proper := by
  intro b hb
  rcases List.mem_append.mp hb with hb | hb
  · exact h b hb
  · exact List.mem_singleton.mp hb ▸ hs

theorem Proper.project {t : Trail} (h : t.Proper) : t.project.Proper :=
  fun b hb => (h b hb).mono (Nat.le_succ _)

theorem ofEnv_proper (env : Environment) : (ofEnv env).Proper := by
  intro b hb
  obtain ⟨c, -, rfl⟩ := List.mem_map.mp hb
  trivial

theorem ofEnv_of_pairs {env env' : Environment} (h : env'.pairs = env.pairs) :
    ofEnv env' = ofEnv env := by rw [ofEnv, ofEnv, h]

end Trail

/-! ## Comparison of counts -/

/-- The first count is at most the second one wherever the places of the first are those of the
second under a map that agrees with `σ` on what is there after `n` projections. -/
def Tally.AtMost (n : Nat) (σ : Place → Place) (c c' : Tally) : Prop :=
  ∀ (τ : Place → Place) (t : Trail) (made f f' : Nat), AgreeBefore n σ τ → n ≤ t.made → t.Proper →
    f ≤ f' → c (t.via τ made) f ≤ c' t f'

namespace Tally.AtMost

variable {n n' : Nat} {σ σ' : Place → Place} {c c' : Tally}

theorem weaken (h : Tally.AtMost n σ c c') (hσ : AgreeBefore n σ σ') (hn : n ≤ n') :
    Tally.AtMost n' σ' c c' :=
  fun τ t made f f' hτ ht => h τ t made f f' (hσ.trans hτ hn) (Nat.le_trans hn ht)

theorem const {a b : Nat} (h : a ≤ b) : Tally.AtMost n σ (fun _ _ => a) (fun _ _ => b) :=
  fun _ _ _ _ _ _ _ _ _ => h

/-- On one trail, more tests behind a failure make for more tests. -/
theorem mono (h : Tally.AtMost 0 id c c') {t : Trail} (ht : t.Proper) {f f' : Nat} (hf : f ≤ f') :
    c t f ≤ c' t f' := by
  have hle := h id t t.made f f' (.refl _ _) (Nat.zero_le _) ht hf
  rwa [t.via_id] at hle

/-- Behind a projection its number is a place. It may be any place on the first path. -/
theorem projected {k k' : Tally} (h : Tally.AtMost n σ k k') {c d : Place → Tally}
    (hc : ∀ {n : Nat} {σ : Place → Place} {s : Place}, s.Before n → Tally.AtMost n σ k k' →
      Tally.AtMost n σ (c (σ s)) (d s))
    (place : Place) {τ : Place → Place} {t : Trail} (hτ : AgreeBefore n σ τ) (hn : n ≤ t.made)
    (ht : t.Proper) (made : Nat) {f f' : Nat} (hf : f ≤ f') :
    c place (t.via τ made) f ≤ d (.made t.made) t.project f' := by
  let τ' := Function.update τ (.made t.made) place
  have hτ' : AgreeBefore t.made τ τ' := by
    intro s hs
    refine Function.update_of_ne ?_ _ _
    rintro rfl
    exact Nat.lt_irrefl _ hs
  have hplace : τ' (.made t.made) = place := Function.update_self ..
  have hle := hc (s := .made t.made) (Nat.lt_succ_self t.made)
    (h.weaken (hτ.trans hτ' hn) (Nat.le_succ_of_le hn)) τ' t.project made f f' (.refl _ _)
    (Nat.le_refl _) ht.project hf
  rw [hplace] at hle
  rwa [← ht.via_eq hτ' made]

end Tally.AtMost

namespace Pattern

mutual

theorem tests_atMost (p : Pattern ε) {n : Nat} {σ : Place → Place} {s : Place} (hs : s.Before n)
    {k k' : Tally} (h : Tally.AtMost n σ k k') :
    Tally.AtMost n σ (p.tests (σ s) k) (p.tests s k') := by
  intro τ t made f f' hτ hn ht hf
  have hk := h τ t made f f' hτ hn ht hf
  cases p with
  | wildcard => exact hk
  | literal | predicate | guard =>
      simp only [tests]
      omega
  | bind x =>
      simp only [tests]
      rw [t.lookup_via]
      cases t.bound.lookup x with
      | none =>
          rw [← hτ s hs]
          simp only [Option.map_none]
          rw [t.bind_via]
          exact h τ (t.bind x s) made f f' hτ hn (ht.bind x (hs.mono hn)) hf
      | some place =>
          simp only [Option.map_some]
          by_cases hplace : place = s
          · rw [if_pos hplace, if_pos (by rw [hplace, hτ s hs])]
            exact hk
          · rw [if_neg hplace]
            split <;> omega
  | app func inner =>
      exact h.projected (c := fun s => inner.tests s k) (d := fun s => inner.tests s k')
        (fun hs h => tests_atMost inner hs h) (.made made) hτ hn ht (made + 1) hf
  | not inner => exact tests_atMost inner hs (.const hf) τ t made _ _ hτ hn ht hk
  | and items => exact testsAll_atMost items hs h τ t made f f' hτ hn ht hf
  | or alternatives => exact testsAny_atMost alternatives hs h τ t made f f' hτ hn ht hf

theorem testsAll_atMost (ps : List (Pattern ε)) {n : Nat} {σ : Place → Place} {s : Place}
    (hs : s.Before n) {k k' : Tally} (h : Tally.AtMost n σ k k') :
    Tally.AtMost n σ (testsAll ps (σ s) k) (testsAll ps s k') := by
  cases ps with
  | nil => exact h
  | cons p ps => exact tests_atMost p hs (testsAll_atMost ps hs h)

theorem testsAny_atMost (ps : List (Pattern ε)) {n : Nat} {σ : Place → Place} {s : Place}
    (hs : s.Before n) {k k' : Tally} (h : Tally.AtMost n σ k k') :
    Tally.AtMost n σ (testsAny ps (σ s) k) (testsAny ps s k') := by
  intro τ t made f f' hτ hn ht hf
  cases ps with
  | nil => exact hf
  | cons p ps =>
      exact tests_atMost p hs h τ t made _ _ hτ hn ht
        (testsAny_atMost ps hs h τ t made f f' hτ hn ht hf)

end

end Pattern

namespace Pattern

mutual

/-- What is below success and failure is below the match. -/
theorem le_tests (p : Pattern ε) {k : Tally} {b : Nat} (hk : ∀ t f, b ≤ f → b ≤ k t f) {s : Place}
    {t : Trail} {f : Nat} (hf : b ≤ f) : b ≤ p.tests s k t f := by
  have hs := hk t f hf
  cases p with
  | wildcard => exact hs
  | literal | predicate | guard =>
      simp only [tests]
      omega
  | bind x =>
      simp only [tests]
      split
      · exact hk _ _ hf
      · split <;> omega
  | app func inner => exact le_tests inner hk hf
  | not inner => exact le_tests inner (fun _ _ _ => hf) hs
  | and items => exact le_testsAll items hk hf
  | or alternatives => exact le_testsAny alternatives hk hf

theorem le_testsAll (ps : List (Pattern ε)) {k : Tally} {b : Nat} (hk : ∀ t f, b ≤ f → b ≤ k t f)
    {s : Place} {t : Trail} {f : Nat} (hf : b ≤ f) : b ≤ testsAll ps s k t f := by
  cases ps with
  | nil => exact hk t f hf
  | cons p ps => exact le_tests p (fun _ _ hf => le_testsAll ps hk hf) hf

theorem le_testsAny (ps : List (Pattern ε)) {k : Tally} {b : Nat} (hk : ∀ t f, b ≤ f → b ≤ k t f)
    {s : Place} {t : Trail} {f : Nat} (hf : b ≤ f) : b ≤ testsAny ps s k t f := by
  cases ps with
  | nil => exact hf
  | cons p ps => exact le_tests p hk (le_testsAny ps hk hf)

end

/-- A plain comparison is one test. -/
theorem tests_of_quoted {p : Pattern ε} {l : Literal} (h : p.quoted? = some l) (s : Place)
    (k : Tally) (t : Trail) (f : Nat) : p.tests s k t f = 1 + k t f + f := by
  fun_induction quoted? p with
  | case1 l => rfl
  | case2 p ih => exact ih h
  | case3 p ih => exact ih h
  | case4 => cases h

end Pattern

/-! ## Pending matches and queues -/

/-- A map of places that leaves this variable where it is. -/
def Place.Fixes (σ : Place → Place) (subject : Name) : Prop := σ (.given subject) = .given subject

namespace Pending

variable {n : Nat} {σ : Place → Place} {k k' : Tally}

theorem tests_atMost {m : Pending ε}
    (hm : ∀ subject p, m = .pattern subject p → Place.Fixes σ subject)
    (h : Tally.AtMost n σ k k') : Tally.AtMost n σ (m.tests k) (m.tests k') := by
  cases m with
  | pattern subject p =>
      have hp := p.tests_atMost (n := n) (s := .given subject) trivial h
      rwa [hm subject p rfl] at hp
  | member | sameAs =>
      intro τ t made f f' hτ hn ht hf
      have hk := h τ t made f f' hτ hn ht hf
      simp only [tests]
      omega

theorem testsAll_atMost {ms : List (Pending ε)}
    (hms : ∀ subject p, .pattern subject p ∈ ms → Place.Fixes σ subject)
    (h : Tally.AtMost n σ k k') : Tally.AtMost n σ (testsAll ms k) (testsAll ms k') := by
  induction ms with
  | nil => exact h
  | cons m ms ih =>
      refine tests_atMost (fun subject p hm => ?_) (ih fun subject p hp => ?_)
      · exact hms subject p (hm ▸ List.mem_cons_self)
      · exact hms subject p (List.mem_cons_of_mem _ hp)

theorem testsAll_append (ms ns : List (Pending ε)) (k : Tally) :
    testsAll (ms ++ ns) k = testsAll ms (testsAll ns k) := by
  induction ms with
  | nil => rfl
  | cons m ms ih =>
      funext t f
      rw [List.cons_append, testsAll, testsAll, ih]

theorem testsAll_map_pattern (subject : Name) (ps : List (Pattern ε)) (k : Tally) :
    testsAll (ps.map (.pattern subject)) k = Pattern.testsAll ps (.given subject) k := by
  induction ps with
  | nil => rfl
  | cons p ps ih =>
      funext t f
      rw [List.map_cons, testsAll, ih]
      rfl

end Pending

/-- Once everything pending has succeeded, only the goal counts. -/
def Goal.onwardTests (goal : Goal (List (Branch ε))) : Tally := fun _ _ => goal.tests

theorem Branch.tests_eq (branch : Branch ε) (f : Nat) :
    branch.tests f =
      Pending.testsAll branch.pending branch.goal.onwardTests (.ofEnv branch.env) f := by
  obtain ⟨pending, env, goal⟩ := branch
  rw [Branch.tests]
  rfl

/-- The counts of what is pending and of the goal, as they are. -/
theorem Branch.pending_atMost (branch : Branch ε) : Tally.AtMost 0 id
    (Pending.testsAll branch.pending branch.goal.onwardTests)
    (Pending.testsAll branch.pending branch.goal.onwardTests) :=
  Pending.testsAll_atMost (fun _ _ _ => rfl) (.const (Nat.le_refl _))

theorem Branch.tests_mono (branch : Branch ε) {f f' : Nat} (hf : f ≤ f') :
    branch.tests f ≤ branch.tests f' := by
  rw [branch.tests_eq, branch.tests_eq]
  exact branch.pending_atMost.mono (Trail.ofEnv_proper _) hf

end PatternCompiler
