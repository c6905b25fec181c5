import Mathlib.Data.List.Forall2
import PatternCompiler.Proofs.Linearity
import PatternCompiler.Proofs.Numbering

/-!
# Queues with more cases behind them

A queue may be followed by another one that has the same branches, up to the names of the variables
that hold subjects, and more branches behind them. As long as the first queue has a branch, both ask
for the same step, and the queues they go on with follow each other again. Subjects are only ever
compared with subjects, so it is enough that their names stand for each other one to one.
-/

namespace PatternCompiler

set_option autoImplicit false

/-- Names on two sides that stand for each other. -/
structure Renaming where
  relates : Name → Name → Prop
  eq_iff : ∀ {a a' b b' : Name}, relates a a' → relates b b' → (a = b ↔ a' = b')

namespace Renaming

def Extends (ρ ρ' : Renaming) : Prop := ∀ a a', ρ.relates a a' → ρ'.relates a a'

theorem Extends.refl (ρ : Renaming) : ρ.Extends ρ := fun _ _ h => h

theorem Extends.trans {ρ ρ' ρ'' : Renaming} (h : ρ.Extends ρ') (h' : ρ'.Extends ρ'') :
    ρ.Extends ρ'' := fun a a' ha => h' a a' (h a a' ha)

def single (x x' : Name) : Renaming where
  relates a a' := a = x ∧ a' = x'
  eq_iff := by
    rintro a a' b b' ⟨rfl, rfl⟩ ⟨rfl, rfl⟩
    exact iff_of_true rfl rfl

/-- One more pair, of names that were on neither side. -/
def add (ρ : Renaming) (x x' : Name) (hx : ∀ a', ¬ ρ.relates x a') (hx' : ∀ a, ¬ ρ.relates a x') :
    Renaming where
  relates a a' := (a = x ∧ a' = x') ∨ ρ.relates a a'
  eq_iff := by
    rintro a a' b b' (⟨rfl, rfl⟩ | ha) (⟨rfl, rfl⟩ | hb)
    · exact iff_of_true rfl rfl
    · refine iff_of_false ?_ ?_
      · rintro rfl
        exact hx _ hb
      · rintro rfl
        exact hx' _ hb
    · refine iff_of_false ?_ ?_
      · rintro rfl
        exact hx _ ha
      · rintro rfl
        exact hx' _ ha
    · exact ρ.eq_iff ha hb

end Renaming

/-! ## Parts of queues -/

variable {ε : Type}

inductive Pending.Follows (ρ : Renaming) : Pending ε → Pending ε → Prop where
  | pattern {s s' : Name} (p : Pattern ε) (h : ρ.relates s s') :
      Follows ρ (.pattern s p) (.pattern s' p)
  | member {s s' : Name} (set : List Literal) (eqv : Equivalence) (h : ρ.relates s s') :
      Follows ρ (.member s set eqv) (.member s' set eqv)
  | sameAs {s s' o o' : Name} (hs : ρ.relates s s') (ho : ρ.relates o o') :
      Follows ρ (.sameAs s o) (.sameAs s' o')

structure Binding.Follows (ρ : Renaming) (b b' : Binding) : Prop where
  name : b.name = b'.name
  subject : ρ.relates b.subject b'.subject
  used : b.used = b'.used

def Environment.Follows (ρ : Renaming) (env env' : Environment) : Prop :=
  List.Forall₂ (Binding.Follows ρ) env.bindings env'.bindings

mutual

/-- The branches differ in names of subjects only, and in what lies behind the first `n` cases. -/
inductive Branch.Follows (ρ : Renaming) (n : Nat) : Branch ε → Branch ε → Prop where
  | mk {pending pending' : List (Pending ε)} {env env' : Environment}
      {goal goal' : Goal (List (Branch ε))}
      (hpending : List.Forall₂ (Pending.Follows ρ) pending pending') (henv : env.Follows ρ env')
      (hgoal : Goal.Follows ρ n goal goal') :
      Branch.Follows ρ n ⟨pending, env, goal⟩ ⟨pending', env', goal'⟩

inductive Goal.Follows (ρ : Renaming) (n : Nat) :
    Goal (List (Branch ε)) → Goal (List (Branch ε)) → Prop where
  | select {case : Nat} (h : case < n) : Goal.Follows ρ n (.select case) (.select case)
  | resume {queue queue' : List (Branch ε)} (h : Queue.Follows ρ n queue queue') :
      Goal.Follows ρ n (.resume queue) (.resume queue')

/-- The second queue has the branches of the first one, and behind them branches of later cases. -/
inductive Queue.Follows (ρ : Renaming) (n : Nat) : List (Branch ε) → List (Branch ε) → Prop where
  | later {queue' : List (Branch ε)} (h : Queue.Linear (n ≤ ·) queue') :
      Queue.Follows ρ n [] queue'
  | cons {branch branch' : Branch ε} {queue queue' : List (Branch ε)}
      (hbranch : Branch.Follows ρ n branch branch') (hqueue : Queue.Follows ρ n queue queue') :
      Queue.Follows ρ n (branch :: queue) (branch' :: queue')

end

/-- The steps go on with queues that follow each other; a projection may name its variable anew on
either side. -/
inductive Step.Follows (ρ : Renaming) (n : Nat) : Step ε → Step ε → Prop where
  | select {case : Nat} {env env' : Environment} (hcase : case < n) (henv : env.Follows ρ env') :
      Follows ρ n (.select case env) (.select case env')
  | advance {queue queue' : Queue ε} (h : Queue.Follows ρ n queue queue') :
      Follows ρ n (.advance queue) (.advance queue')
  | test {asked asked' : Test ε} {yes yes' no no' : Queue ε} (hyes : Queue.Follows ρ n yes yes')
      (hno : Queue.Follows ρ n no no') : Follows ρ n (.test asked yes no) (.test asked' yes' no')
  | project {func : ε} {s s' : Name} {pairs pairs' : List (Name × Name)}
      {body body' : Name → Queue ε}
      (hbody : ∀ ρ' fresh fresh', ρ.Extends ρ' → ρ'.relates fresh fresh' →
        Queue.Follows ρ' n (body fresh) (body' fresh')) :
      Follows ρ n (.project func s pairs body) (.project func s' pairs' body')

section

variable {ρ ρ' : Renaming} {n : Nat}

theorem Pending.Follows.mono {m m' : Pending ε} (h : m.Follows ρ m') (hρ : ρ.Extends ρ') :
    m.Follows ρ' m' := by
  cases h with
  | pattern p h => exact .pattern p (hρ _ _ h)
  | member set eqv h => exact .member set eqv (hρ _ _ h)
  | sameAs hs ho => exact .sameAs (hρ _ _ hs) (hρ _ _ ho)

theorem Environment.Follows.mono {env env' : Environment} (h : env.Follows ρ env')
    (hρ : ρ.Extends ρ') : env.Follows ρ' env' :=
  List.Forall₂.imp (fun _ _ hb => ⟨hb.name, hρ _ _ hb.subject, hb.used⟩) h

mutual

theorem Branch.Follows.mono {branch branch' : Branch ε} (h : branch.Follows ρ n branch')
    (hρ : ρ.Extends ρ') : branch.Follows ρ' n branch' := by
  cases h with
  | mk hpending henv hgoal =>
      exact .mk (hpending.imp fun _ _ hm => hm.mono hρ) (henv.mono hρ) (hgoal.mono hρ)

theorem Goal.Follows.mono {goal goal' : Goal (List (Branch ε))} (h : goal.Follows ρ n goal')
    (hρ : ρ.Extends ρ') : goal.Follows ρ' n goal' := by
  cases h with
  | select h => exact .select h
  | resume h => exact .resume (h.mono hρ)

theorem Queue.Follows.mono {queue queue' : List (Branch ε)} (h : Queue.Follows ρ n queue queue')
    (hρ : ρ.Extends ρ') : Queue.Follows ρ' n queue queue' := by
  cases h with
  | later h => exact .later h
  | cons hbranch hqueue => exact .cons (hbranch.mono hρ) (hqueue.mono hρ)

end

/-! ## Environments -/

namespace Environment

variable {env env' : Environment}

theorem Follows.names_eq (h : env.Follows ρ env') : env.names = env'.names := by
  obtain ⟨bindings⟩ := env
  obtain ⟨bindings'⟩ := env'
  simp only [Environment.Follows, Environment.names] at h ⊢
  induction h with
  | nil => rfl
  | cons hb _ ih => rw [List.map_cons, List.map_cons, ih, hb.name]

theorem Follows.usedNames_eq (h : env.Follows ρ env') : env.usedNames = env'.usedNames := by
  obtain ⟨bindings⟩ := env
  obtain ⟨bindings'⟩ := env'
  simp only [Environment.Follows, Environment.usedNames] at h ⊢
  induction h with
  | nil => rfl
  | @cons b b' bs bs' hb _ ih =>
      rw [List.filter_cons, List.filter_cons, ← hb.used]
      split
      · rw [List.map_cons, List.map_cons, ih, hb.name]
      · exact ih

theorem Follows.isUsed_eq (h : env.Follows ρ env') (x : Name) : env.isUsed x = env'.isUsed x := by
  obtain ⟨bindings⟩ := env
  obtain ⟨bindings'⟩ := env'
  simp only [Environment.Follows, Environment.isUsed] at h ⊢
  induction h with
  | nil => rfl
  | cons hb _ ih => rw [List.any_cons, List.any_cons, ih, hb.name, hb.used]

theorem Follows.lookup? (h : env.Follows ρ env') (x : Name) :
    Option.Rel (Binding.Follows ρ) (env.lookup? x) (env'.lookup? x) := by
  obtain ⟨bindings⟩ := env
  obtain ⟨bindings'⟩ := env'
  simp only [Environment.Follows, Environment.lookup?] at h ⊢
  induction h with
  | nil => exact .none
  | @cons b b' bs bs' hb _ ih =>
      rw [List.find?_cons, List.find?_cons, ← hb.name]
      split
      · exact .some hb
      · exact ih

theorem Follows.subject? (h : env.Follows ρ env') (x : Name) :
    Option.Rel ρ.relates (env.subject? x) (env'.subject? x) := by
  have hlookup := h.lookup? x
  unfold Environment.subject?
  generalize env.lookup? x = found at hlookup ⊢
  generalize env'.lookup? x = found' at hlookup ⊢
  cases hlookup with
  | none => exact .none
  | some hb => exact .some hb.subject

theorem Follows.markUsed (h : env.Follows ρ env') (x : Name) :
    (env.markUsed x).Follows ρ (env'.markUsed x) := by
  obtain ⟨bindings⟩ := env
  obtain ⟨bindings'⟩ := env'
  simp only [Environment.Follows, Environment.markUsed] at h ⊢
  induction h with
  | nil => exact .nil
  | @cons b b' bs bs' hb hbs ih =>
      rw [markFirst, markFirst, ← hb.name]
      split
      · exact .cons ⟨rfl, hb.subject, rfl⟩ hbs
      · exact .cons hb ih

theorem Follows.markAllUsed (h : env.Follows ρ env') (xs : List Name) :
    (env.markAllUsed xs).Follows ρ (env'.markAllUsed xs) := by
  unfold Environment.markAllUsed
  induction xs generalizing env env' with
  | nil => exact h
  | cons x xs ih => exact ih (h.markUsed x)

theorem Follows.push (h : env.Follows ρ env') (x : Name) {s s' : Name} (hs : ρ.relates s s') :
    (Environment.mk (env.bindings ++ [⟨x, s, false⟩])).Follows ρ
      (Environment.mk (env'.bindings ++ [⟨x, s', false⟩])) :=
  List.rel_append h (.cons ⟨rfl, hs, rfl⟩ .nil)

/-- The variables that an expression sees have the same names. -/
theorem Follows.visible (h : env.Follows ρ env') (mentions : ε → Name → Bool) (expr : ε) :
    (env.visible mentions expr).map Prod.fst = (env'.visible mentions expr).map Prod.fst := by
  obtain ⟨bindings⟩ := env
  obtain ⟨bindings'⟩ := env'
  simp only [Environment.Follows, Environment.visible] at h ⊢
  induction h with
  | nil => rfl
  | @cons b b' bs bs' hb _ ih =>
      rw [List.filter_cons, List.filter_cons, ← hb.name]
      split
      · rw [List.map_cons, List.map_cons, List.map_cons, List.map_cons, ih, hb.name]
      · exact ih

theorem Follows.isEmpty_visible (h : env.Follows ρ env') (mentions : ε → Name → Bool) (expr : ε) :
    (env.visible mentions expr).isEmpty = (env'.visible mentions expr).isEmpty := by
  have hnames := congrArg List.isEmpty (h.visible mentions expr)
  rwa [List.isEmpty_map, List.isEmpty_map] at hnames

end Environment

/-! ## Branches -/

namespace Branch

variable {branch branch' : Branch ε}

theorem follows_iff : branch.Follows ρ n branch' ↔
    List.Forall₂ (Pending.Follows ρ) branch.pending branch'.pending ∧
      branch.env.Follows ρ branch'.env ∧ branch.goal.Follows ρ n branch'.goal := by
  obtain ⟨pending, env, goal⟩ := branch
  obtain ⟨pending', env', goal'⟩ := branch'
  constructor
  · rintro ⟨hpending, henv, hgoal⟩
    exact ⟨hpending, henv, hgoal⟩
  · rintro ⟨hpending, henv, hgoal⟩
    exact .mk hpending henv hgoal

theorem Follows.withPending (h : branch.Follows ρ n branch') {pending pending' : List (Pending ε)}
    (hpending : List.Forall₂ (Pending.Follows ρ) pending pending') :
    Branch.Follows ρ n { branch with pending := pending } { branch' with pending := pending' } :=
  follows_iff.mpr ⟨hpending, (follows_iff.mp h).2⟩

theorem Follows.withEnv (h : branch.Follows ρ n branch') {env env' : Environment}
    (henv : env.Follows ρ env') :
    Branch.Follows ρ n { branch with env := env } { branch' with env := env' } :=
  follows_iff.mpr ⟨(follows_iff.mp h).1, henv, (follows_iff.mp h).2.2⟩

theorem Follows.push (h : branch.Follows ρ n branch') {m m' : Pending ε} (hm : m.Follows ρ m') :
    (branch.push m).Follows ρ n (branch'.push m') :=
  h.withPending (.cons hm (follows_iff.mp h).1)

theorem Follows.read (h : branch.Follows ρ n branch') (mentions : ε → Name → Bool) (expr : ε) :
    (branch.read mentions expr).Follows ρ n (branch'.read mentions expr) := by
  have henv := (follows_iff.mp h).2.1
  refine h.withEnv ?_
  rw [← henv.visible mentions expr]
  exact henv.markAllUsed _

theorem Follows.bind (h : branch.Follows ρ n branch') (x : Name) {s s' : Name}
    (hs : ρ.relates s s') : (branch.bind x s).Follows ρ n (branch'.bind x s') := by
  have henv := (follows_iff.mp h).2.1
  have hlookup := henv.lookup? x
  unfold Branch.bind Environment.extend
  generalize branch.env.lookup? x = found at hlookup ⊢
  generalize branch'.env.lookup? x = found' at hlookup ⊢
  cases hlookup with
  | none => exact h.withEnv (henv.push x hs)
  | @some b b' hb =>
      simp only [ρ.eq_iff hb.subject hs]
      split
      · exact h
      · exact (h.withEnv (henv.markUsed x)).push (.sameAs hs hb.subject)

theorem Follows.probe (h : branch.Follows ρ n branch') {s s' : Name} (hs : ρ.relates s s')
    (p : Pattern ε) {queue queue' : Queue ε} (hq : Queue.Follows ρ n queue queue') :
    (branch.probe s p queue).Follows ρ n (branch'.probe s' p queue') :=
  .mk (.cons (.pattern p hs) .nil) (follows_iff.mp h).2.1 (.resume hq)

theorem Follows.isIndependentOf_eq (h : branch.Follows ρ n branch') (mentions : ε → Name → Bool) :
    branch.isIndependentOf mentions = branch'.isIndependentOf mentions := by
  obtain ⟨hpending, henv, -⟩ := follows_iff.mp h
  have hbinders : branch.pending.flatMap Pending.binders =
      branch'.pending.flatMap Pending.binders := by
    generalize branch.pending = ms at hpending
    generalize branch'.pending = ms' at hpending
    induction hpending with
    | nil => rfl
    | @cons m m' ms ms' hm _ ih =>
        rw [List.flatMap_cons, List.flatMap_cons, ih]
        cases hm with
        | pattern p h => rfl
        | member set eqv h => rfl
        | sameAs hs ho => rfl
  funext expr
  unfold Branch.isIndependentOf Branch.boundNames
  rw [henv.names_eq, hbinders]

end Branch

/-! ## Refinement -/

inductive Fact.Follows (ρ : Renaming) : Fact ε → Fact ε → Prop where
  | member {s s' : Name} (set : List Literal) (eqv : Equivalence) (h : ρ.relates s s') :
      Follows ρ (.member s set eqv) (.member s' set eqv)
  | sameAs {s s' o o' : Name} (hs : ρ.relates s s') (ho : ρ.relates o o') :
      Follows ρ (.sameAs s o) (.sameAs s' o')
  | predicate {s s' : Name} (func : ε) (h : ρ.relates s s') :
      Follows ρ (.predicate s func) (.predicate s' func)

/-- The outcomes of the tests settle facts that follow each other, or none. -/
def Test.Follows (ρ : Renaming) (test test' : Test ε) : Prop :=
  Option.Rel (Fact.Follows ρ) (Fact.ofTest? test) (Fact.ofTest? test')

structure Knowledge.Follows (ρ : Renaming) (k k' : Knowledge ε) : Prop where
  fact : k.fact.Follows ρ k'.fact
  holds : k.holds = k'.holds

namespace Knowledge

variable {k k' : Knowledge ε} {s s' o o' : Name}

theorem Follows.subject?_iff (hk : k.Follows ρ k') (hs : ρ.relates s s') :
    k.fact.subject? = some s ↔ k'.fact.subject? = some s' := by
  obtain ⟨fact, holds⟩ := k
  obtain ⟨fact', holds'⟩ := k'
  obtain ⟨hfact, -⟩ := hk
  cases hfact with
  | member set eqv h => simp only [Fact.subject?, Option.some.injEq, ρ.eq_iff h hs]
  | sameAs => simp only [Fact.subject?, reduceCtorEq]
  | predicate func h => simp only [Fact.subject?, Option.some.injEq, ρ.eq_iff h hs]

theorem Follows.decideMember_eq (hk : k.Follows ρ k') (hs : ρ.relates s s') (set : List Literal)
    (eqv : Equivalence) : k.decideMember s set eqv = k'.decideMember s' set eqv := by
  obtain ⟨fact, holds⟩ := k
  obtain ⟨fact', holds'⟩ := k'
  obtain ⟨hfact, rfl⟩ := hk
  cases hfact with
  | member known knownEqv h => simp only [decideMember, ρ.eq_iff hs h]
  | sameAs => rfl
  | predicate => rfl

theorem Follows.decideSameAs_eq (hk : k.Follows ρ k') (hs : ρ.relates s s') (ho : ρ.relates o o') :
    k.decideSameAs s o = k'.decideSameAs s' o' := by
  obtain ⟨fact, holds⟩ := k
  obtain ⟨fact', holds'⟩ := k'
  obtain ⟨hfact, rfl⟩ := hk
  cases hfact with
  | member => rfl
  | sameAs ha hb =>
      simp only [decideSameAs, ρ.eq_iff hs ha, ρ.eq_iff hs hb, ρ.eq_iff ho ha, ρ.eq_iff ho hb]
  | predicate => rfl

/-- What is left of matches on either side: nothing on both, or lists that follow each other. -/
abbrev Left (ρ : Renaming) : Option (List (Pending ε)) → Option (List (Pending ε)) → Prop :=
  Option.Rel (List.Forall₂ (Pending.Follows ρ))

/-- The same is asked on either side, and what is left follows. -/
def Remain (ρ : Renaming) (m m' : Asking (Option (List (Pending ε)))) : Prop :=
  ∀ cell, Left ρ (m.run cell).1 (m'.run cell).1 ∧ (m.run cell).2 = (m'.run cell).2

theorem Remain.pure {left left' : Option (List (Pending ε))} (h : Left ρ left left') :
    Remain ρ (pure left) (pure left') := fun _ => ⟨h, rfl⟩

theorem Remain.bind {α : Type} (asked : Asking α) {m m' : α → Asking (Option (List (Pending ε)))}
    (h : ∀ a, Remain ρ (m a) (m' a)) : Remain ρ (asked >>= m) (asked >>= m') :=
  fun cell => h (asked.run cell).1 (asked.run cell).2

theorem Remain.andThen {m m' : Asking (Option (List (Pending ε)))} (h : Remain ρ m m')
    {f f' : Option (List (Pending ε)) → Asking (Option (List (Pending ε)))}
    (hf : ∀ {left left'}, Left ρ left left' → Remain ρ (f left) (f' left')) :
    Remain ρ (m >>= f) (m' >>= f') := by
  intro cell
  obtain ⟨hleft, hcell⟩ := h cell
  have hrun : (m' >>= f').run cell = (f' (m'.run cell).1).run (m.run cell).2 := by
    rw [hcell]
    rfl
  rw [hrun]
  exact hf hleft (m.run cell).2

theorem Remain.settle (verdict : Option Bool) {m m' : Asking (Option (List (Pending ε)))}
    (h : Remain ρ m m') : Remain ρ (settle verdict m) (settle verdict m') := by
  match verdict with
  | some true => exact .pure (.some .nil)
  | some false => exact .pure .none
  | none => exact h

/-- What is left of the later part decides whether the earlier one is looked at. -/
theorem Remain.append {first first' rest rest' : Asking (Option (List (Pending ε)))}
    (h : Remain ρ first first') (hrest : Remain ρ rest rest') :
    Remain ρ
      (do
        let some ns ← rest | return none
        let some ms ← first | return none
        return some (ms ++ ns))
      (do
        let some ns ← rest' | return none
        let some ms ← first' | return none
        return some (ms ++ ns)) := by
  refine hrest.andThen fun hrest => ?_
  cases hrest with
  | none => exact .pure .none
  | some hrest =>
      refine h.andThen fun h => ?_
      cases h with
      | none => exact .pure .none
      | some h => exact .pure (.some (List.rel_append h hrest))

variable [BEq ε] {isFree : ε → Bool}

theorem Follows.decidePredicate_eq (hk : k.Follows ρ k') (hs : ρ.relates s s') (func : ε) :
    k.decidePredicate isFree s func = k'.decidePredicate isFree s' func := by
  obtain ⟨fact, holds⟩ := k
  obtain ⟨fact', holds'⟩ := k'
  obtain ⟨hfact, rfl⟩ := hk
  cases hfact with
  | member => rfl
  | sameAs => rfl
  | predicate known h => simp only [decidePredicate, ρ.eq_iff hs h]

mutual

theorem Follows.decidePattern_eq (hk : k.Follows ρ k') (hs : ρ.relates s s') (p : Pattern ε) :
    k.decidePattern isFree s p = k'.decidePattern isFree s' p := by
  match p with
  | .literal literal => rw [decidePattern, decidePattern, hk.decideMember_eq hs]
  | .predicate func => rw [decidePattern, decidePattern, hk.decidePredicate_eq hs]
  | .not inner => rw [decidePattern, decidePattern, Follows.decidePattern_eq hk hs inner]
  | .and items => rw [decidePattern, decidePattern, Follows.decideAll_eq hk hs items]
  | .or alternatives => rw [decidePattern, decidePattern, Follows.refutesAll_eq hk hs alternatives]
  | .wildcard | .bind _ | .guard _ | .app .. => rw [decidePattern, decidePattern]

theorem Follows.decideAll_eq (hk : k.Follows ρ k') (hs : ρ.relates s s') (ps : List (Pattern ε)) :
    k.decideAll isFree s ps = k'.decideAll isFree s' ps := by
  match ps with
  | [] => rw [decideAll, decideAll]
  | p :: ps =>
      rw [decideAll, decideAll, Follows.decidePattern_eq hk hs p, Follows.decideAll_eq hk hs ps]

theorem Follows.refutesAll_eq (hk : k.Follows ρ k') (hs : ρ.relates s s') (ps : List (Pattern ε)) :
    k.refutesAll isFree s ps = k'.refutesAll isFree s' ps := by
  match ps with
  | [] => rw [refutesAll, refutesAll]
  | p :: ps =>
      rw [refutesAll, refutesAll, Follows.decidePattern_eq hk hs p, Follows.refutesAll_eq hk hs ps]

end

mutual

theorem Follows.refinePattern (hk : k.Follows ρ k') (hs : ρ.relates s s') (p : Pattern ε) :
    Remain ρ (k.refinePattern isFree s p) (k'.refinePattern isFree s' p) := by
  match p with
  | .and items =>
      rw [Knowledge.refinePattern, Knowledge.refinePattern, hk.decidePattern_eq hs]
      exact .bind _ fun verdict => (Follows.refineItems hk hs items).settle verdict
  | .wildcard | .bind _ | .literal _ | .predicate _ | .guard _ | .app .. | .not _ | .or _ =>
      simp only [Knowledge.refinePattern, hk.decidePattern_eq hs]
      exact .bind _ fun verdict => (Remain.pure (.some (.cons (.pattern _ hs) .nil))).settle verdict

theorem Follows.refineItems (hk : k.Follows ρ k') (hs : ρ.relates s s') (ps : List (Pattern ε)) :
    Remain ρ (k.refineItems isFree s ps) (k'.refineItems isFree s' ps) := by
  match ps with
  | [] => exact .pure (.some .nil)
  | p :: ps => exact (Follows.refinePattern hk hs p).append (Follows.refineItems hk hs ps)

end

theorem Follows.refinePending (hk : k.Follows ρ k') {m m' : Pending ε} (hm : m.Follows ρ m') :
    Remain ρ (k.refinePending isFree m) (k'.refinePending isFree m') := by
  cases hm with
  | pattern p hs =>
      simp only [Knowledge.refinePending, hk.subject?_iff hs]
      split
      · exact hk.refinePattern hs p
      · exact .pure (.some (.cons (.pattern p hs) .nil))
  | member set eqv hs =>
      simp only [Knowledge.refinePending, hk.decideMember_eq hs]
      exact (Remain.pure (.some (.cons (.member set eqv hs) .nil))).settle _
  | sameAs hs ho =>
      simp only [Knowledge.refinePending, hk.decideSameAs_eq hs ho]
      exact (Remain.pure (.some (.cons (.sameAs hs ho) .nil))).settle _

theorem Follows.refineAll (hk : k.Follows ρ k') {ms ms' : List (Pending ε)}
    (hms : List.Forall₂ (Pending.Follows ρ) ms ms') :
    Remain ρ (k.refineAll isFree ms) (k'.refineAll isFree ms') := by
  induction hms with
  | nil => exact .pure (.some .nil)
  | cons hm _ ih => exact (hk.refinePending hm).append ih

theorem Follows.refineBranch (hk : k.Follows ρ k') (mentions : ε → Name → Bool)
    {branch branch' : Branch ε} (h : branch.Follows ρ n branch') :
    Option.Rel (Branch.Follows ρ n) (k.refineBranch mentions branch)
      (k'.refineBranch mentions branch') := by
  have hremain : Remain ρ (k.refineAll (branch'.isIndependentOf mentions) branch.pending)
      (k'.refineAll (branch'.isIndependentOf mentions) branch'.pending) :=
    hk.refineAll (Branch.follows_iff.mp h).1
  have hleft := (hremain none).1
  simp only [Knowledge.refineBranch, h.isIndependentOf_eq mentions]
  generalize ((k.refineAll _ branch.pending).run none).1 = left at hleft ⊢
  generalize ((k'.refineAll _ branch'.pending).run none).1 = left' at hleft ⊢
  cases hleft with
  | none => exact .none
  | some hleft => exact .some (h.withPending hleft)

end Knowledge

/-- Refinement by tests that settle the same keeps queues behind each other. -/
theorem Queue.Follows.refine [BEq ε] {queue queue' : Queue ε} (h : Queue.Follows ρ n queue queue')
    (mentions : ε → Name → Bool) {test test' : Test ε} (ht : test.Follows ρ test')
    (outcome : Bool) :
    Queue.Follows ρ n (Queue.refine mentions test outcome queue)
      (Queue.refine mentions test' outcome queue') := by
  have hlater {later : Queue ε} (hlinear : Queue.Linear (n ≤ ·) later) :
      Queue.Linear (n ≤ ·) (Queue.refine mentions test' outcome later) :=
    hlinear.refine test' outcome
  unfold Test.Follows at ht
  unfold Queue.refine at hlater ⊢
  generalize Fact.ofTest? test = fact at ht ⊢
  generalize Fact.ofTest? test' = fact' at ht hlater ⊢
  cases ht with
  | none => exact h
  | @some fact fact' hfact =>
      have hk : Knowledge.Follows ρ ⟨fact, outcome⟩ ⟨fact', outcome⟩ := ⟨hfact, rfl⟩
      simp only at hlater ⊢
      induction queue generalizing queue' with
      | nil =>
          cases h with
          | later h => exact .later (hlater h)
      | cons branch queue ih =>
          cases h with
          | cons hbranch hqueue =>
              have hrefined := hk.refineBranch mentions hbranch
              rw [List.filterMap_cons, List.filterMap_cons]
              generalize Knowledge.refineBranch ⟨fact, outcome⟩ mentions _ = refined at hrefined ⊢
              generalize Knowledge.refineBranch ⟨fact', outcome⟩ mentions _ = refined' at hrefined ⊢
              cases hrefined with
              | none => exact ih hqueue
              | some hrefined => exact .cons hrefined (ih hqueue)

/-! ## Sharing and folding -/

/-- The variables hold what the same function gives for the same subject. -/
structure Projection.Follows (ρ : Renaming) (pr pr' : Projection ε) : Prop where
  subject : ρ.relates pr.subject pr'.subject
  func : pr.func = pr'.func
  fresh : ρ.relates pr.fresh pr'.fresh

namespace Projection

variable [BEq ε] {pr pr' : Projection ε}

mutual

theorem projects_eq (h : pr.func = pr'.func) (p : Pattern ε) : pr.projects p = pr'.projects p := by
  match p with
  | .app func inner => rw [projects, projects, h]
  | .and items => rw [projects, projects, anyProjects_eq h items]
  | .wildcard | .bind _ | .literal _ | .predicate _ | .guard _ | .not _ | .or _ =>
      simp only [projects]

theorem anyProjects_eq (h : pr.func = pr'.func) (ps : List (Pattern ε)) :
    pr.anyProjects ps = pr'.anyProjects ps := by
  match ps with
  | [] => rw [anyProjects, anyProjects]
  | p :: ps => rw [anyProjects, anyProjects, projects_eq h p, anyProjects_eq h ps]

end

mutual

theorem Follows.redirectPattern (h : pr.Follows ρ pr') (p : Pattern ε) :
    List.Forall₂ (Pending.Follows ρ) (pr.redirectPattern p) (pr'.redirectPattern p) := by
  have keep (q : Pattern ε) : List.Forall₂ (Pending.Follows ρ) [.pattern pr.subject q]
      [.pattern pr'.subject q] := .cons (.pattern q h.subject) .nil
  match p with
  | .app func inner =>
      rw [Projection.redirectPattern, Projection.redirectPattern, h.func]
      split
      · exact .cons (.pattern inner h.fresh) .nil
      · exact keep (.app func inner)
  | .and items =>
      rw [Projection.redirectPattern, Projection.redirectPattern, anyProjects_eq h.func]
      split
      · exact Follows.redirectItems h items
      · exact keep (.and items)
  | .wildcard => exact keep .wildcard
  | .bind x => exact keep (.bind x)
  | .literal l => exact keep (.literal l)
  | .predicate func => exact keep (.predicate func)
  | .guard expr => exact keep (.guard expr)
  | .not inner => exact keep (.not inner)
  | .or alternatives => exact keep (.or alternatives)

theorem Follows.redirectItems (h : pr.Follows ρ pr') (ps : List (Pattern ε)) :
    List.Forall₂ (Pending.Follows ρ) (pr.redirectItems ps) (pr'.redirectItems ps) := by
  match ps with
  | [] => exact .nil
  | p :: ps => exact List.rel_append (Follows.redirectPattern h p) (Follows.redirectItems h ps)

end

theorem Follows.redirectPending (h : pr.Follows ρ pr') {m m' : Pending ε} (hm : m.Follows ρ m') :
    List.Forall₂ (Pending.Follows ρ) (pr.redirectPending m) (pr'.redirectPending m') := by
  cases hm with
  | pattern p hs =>
      simp only [Projection.redirectPending, ρ.eq_iff hs h.subject]
      split
      · exact h.redirectPattern p
      · exact .cons (.pattern p hs) .nil
  | member set eqv hs => exact .cons (.member set eqv hs) .nil
  | sameAs hs ho => exact .cons (.sameAs hs ho) .nil

theorem Follows.isCandidate_eq (h : pr.Follows ρ pr') {m m' : Pending ε} (hm : m.Follows ρ m') :
    pr.isCandidate m = pr'.isCandidate m' := by
  cases hm with
  | pattern p hs => simp only [isCandidate, ρ.eq_iff hs h.subject, projects_eq h.func]
  | member set eqv hs => rfl
  | sameAs hs ho => rfl

theorem Follows.anyCandidate_eq (h : pr.Follows ρ pr') {ms ms' : List (Pending ε)}
    (hms : List.Forall₂ (Pending.Follows ρ) ms ms') :
    ms.any pr.isCandidate = ms'.any pr'.isCandidate := by
  induction hms with
  | nil => rfl
  | cons hm _ ih => rw [List.any_cons, List.any_cons, h.isCandidate_eq hm, ih]

theorem Follows.shareBranch (h : pr.Follows ρ pr') (mentions : ε → Name → Bool)
    {branch branch' : Branch ε} (hb : branch.Follows ρ n branch') :
    (pr.shareBranch mentions branch).Follows ρ n (pr'.shareBranch mentions branch') := by
  have hpending := (Branch.follows_iff.mp hb).1
  unfold Projection.shareBranch
  rw [h.anyCandidate_eq hpending, hb.isIndependentOf_eq mentions, h.func]
  split
  · refine hb.withPending ?_
    generalize branch.pending = ms at hpending
    generalize branch'.pending = ms' at hpending
    induction hpending with
    | nil => exact .nil
    | cons hm _ ih => exact List.rel_append (h.redirectPending hm) ih
  · exact hb

end Projection

theorem Queue.Follows.share [BEq ε] {queue queue' : Queue ε} (h : Queue.Follows ρ n queue queue')
    (mentions : ε → Name → Bool) {pr pr' : Projection ε} (hpr : pr.Follows ρ pr') :
    Queue.Follows ρ n (Queue.share mentions pr queue) (Queue.share mentions pr' queue') := by
  induction queue generalizing queue' with
  | nil =>
      cases h with
      | later h => exact .later (h.share pr')
  | cons branch queue ih =>
      cases h with
      | cons hbranch hqueue => exact .cons (hpr.shareBranch mentions hbranch) (ih hqueue)

theorem matchesOfRun_follows {s s' : Name} (hs : ρ.relates s s')
    (run : List (Pattern ε × Literal)) :
    List.Forall₂ (Pending.Follows ρ) (matchesOfRun s run) (matchesOfRun s' run) := by
  unfold matchesOfRun
  split
  · exact .nil
  · exact .cons (.pattern _ hs) .nil
  · exact .cons (.member _ _ hs) .nil

theorem foldFrom_follows {s s' : Name} (hs : ρ.relates s s') (run : List (Pattern ε × Literal))
    (ps : List (Pattern ε)) :
    List.Forall₂ (Pending.Follows ρ) (foldFrom s run ps) (foldFrom s' run ps) := by
  induction ps generalizing run with
  | nil => exact matchesOfRun_follows hs run
  | cons p ps ih =>
      rw [foldFrom, foldFrom]
      split
      · exact ih _
      · exact List.rel_append (matchesOfRun_follows hs run) (.cons (.pattern p hs) (ih []))

theorem alternativeMatches_follows (fold : Bool) {s s' : Name} (hs : ρ.relates s s')
    (ps : List (Pattern ε)) :
    List.Forall₂ (Pending.Follows ρ) (alternativeMatches fold s ps)
      (alternativeMatches fold s' ps) := by
  unfold alternativeMatches
  split
  · exact foldFrom_follows hs [] ps
  · exact List.forall₂_map_left_iff.mpr (List.forall₂_map_right_iff.mpr
      (List.forall₂_same.mpr fun p _ => .pattern p hs))

/-! ## Steps -/

namespace Queue

variable [BEq ε] {options : Options} {mentions : ε → Name → Bool} {branch branch' : Branch ε}
  {queue queue' : Queue ε}

theorem testStep_follows {test test' : Test ε} (ht : test.Follows ρ test')
    (hb : branch.Follows ρ n branch') (hq : Queue.Follows ρ n queue queue') :
    (testStep options mentions test branch queue).Follows ρ n
      (testStep options mentions test' branch' queue') := by
  unfold testStep
  split
  · exact .test (.cons hb (hq.refine mentions ht true)) (hq.refine mentions ht false)
  · exact .test (.cons hb hq) hq

omit [BEq ε] in
theorem fan_follows (hb : branch.Follows ρ n branch') (hq : Queue.Follows ρ n queue queue')
    {ms ms' : List (Pending ε)} (hms : List.Forall₂ (Pending.Follows ρ) ms ms') :
    Queue.Follows ρ n (ms.map branch.push ++ queue) (ms'.map branch'.push ++ queue') := by
  induction hms with
  | nil => exact hq
  | cons hm _ ih => exact .cons (hb.push hm) ih

theorem projectStep_follows {s s' : Name} (hs : ρ.relates s s') (func : ε) (inner : Pattern ε)
    (hb : branch.Follows ρ n branch') (hq : Queue.Follows ρ n queue queue') :
    (projectStep options mentions s func inner branch queue).Follows ρ n
      (projectStep options mentions s' func inner branch' queue') := by
  have henv := (Branch.follows_iff.mp hb).2.1
  -- The fresh variables are known only to the builder, so this holds for all that stand for each
  -- other in some larger renaming.
  refine .project fun ρ' fresh fresh' hρ hfresh => .cons ?_ ?_
  · exact ((hb.read mentions func).mono hρ).push (.pattern inner hfresh)
  · rw [henv.isEmpty_visible]
    split
    · exact (hq.mono hρ).share mentions ⟨hρ _ _ hs, rfl, hfresh⟩
    · exact hq.mono hρ

theorem patternStep_follows {s s' : Name} (hs : ρ.relates s s') (p : Pattern ε)
    (hb : branch.Follows ρ n branch') (hq : Queue.Follows ρ n queue queue') :
    (patternStep options mentions s branch queue p).Follows ρ n
      (patternStep options mentions s' branch' queue' p) := by
  have hempty (expr : ε) := (Branch.follows_iff.mp hb).2.1.isEmpty_visible mentions expr
  cases p with
  | wildcard => exact .advance (.cons hb hq)
  | bind x => exact .advance (.cons (hb.bind x hs) hq)
  | literal l => exact testStep_follows (.some (.member _ _ hs)) hb hq
  | predicate func =>
      refine testStep_follows ?_ (hb.read mentions func) hq
      unfold Test.Follows
      simp only [Fact.ofTest?, hempty func]
      split
      · exact .some (.predicate func hs)
      · exact .none
  | guard expr => exact testStep_follows .none (hb.read mentions expr) hq
  | app func inner => exact projectStep_follows hs func inner hb hq
  | not inner => exact .advance (.cons (hb.probe hs inner hq) (.cons hb hq))
  | and items =>
      refine .advance (.cons (hb.withPending ?_) hq)
      refine List.rel_append ?_ (Branch.follows_iff.mp hb).1
      exact List.forall₂_map_left_iff.mpr (List.forall₂_map_right_iff.mpr
        (List.forall₂_same.mpr fun q _ => .pattern q hs))
  | or alternatives =>
      exact .advance (fan_follows hb hq (alternativeMatches_follows _ hs alternatives))

theorem cons_follows (hb : branch.Follows ρ n branch') (hq : Queue.Follows ρ n queue queue') :
    (step options mentions (branch :: queue)).Follows ρ n
      (step options mentions (branch' :: queue')) := by
  cases hb with
  | @mk pending pending' env env' goal goal' hpending henv hgoal =>
      cases hpending with
      | nil =>
          cases hgoal with
          | select hcase => exact .select hcase henv
          | resume hsaved => exact .advance hsaved
      | cons hm hms =>
          have hrest : Branch.Follows ρ n ⟨_, env, goal⟩ ⟨_, env', goal'⟩ := .mk hms henv hgoal
          cases hm with
          | pattern p hs => exact patternStep_follows hs p hrest hq
          | member set eqv hs => exact testStep_follows (.some (.member _ _ hs)) hrest hq
          | sameAs hs ho => exact testStep_follows (.some (.sameAs hs ho)) hrest hq

/-- A queue makes the steps of the queue that it follows, as long as that one has a branch. -/
theorem step_follows {next : Step ε} (h : Queue.Follows ρ n queue queue')
    (hstep : step options mentions queue = next) (hnext : next ≠ .fail) :
    ∃ next', step options mentions queue' = next' ∧ next.Follows ρ n next' := by
  cases h with
  | later => exact absurd hstep.symm hnext
  | cons hb hq => exact ⟨_, rfl, hstep ▸ cons_follows hb hq⟩

/-- Where a queue fails, only branches of later cases are left of one that follows it. -/
theorem linear_of_fail (h : Queue.Follows ρ n queue queue')
    (hstep : step options mentions queue = .fail) : Queue.Linear (n ≤ ·) queue' := by
  cases h with
  | later hlater => exact hlater
  | @cons branch branch' queue queue' hb hq =>
      have hfollows : Step.Follows ρ n .fail (step options mentions (branch' :: queue')) :=
        hstep ▸ cons_follows hb hq
      cases hfollows

end Queue

end

end PatternCompiler
