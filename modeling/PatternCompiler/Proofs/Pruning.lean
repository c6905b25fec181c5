import PatternCompiler.Proofs.Lowering

/-!
# Which projections are left out

Lowering decides from the leaves up, with one record of what has been read so far for the whole
tree. That record tells of a projection, when its turn comes, whether something inside its body
reads it, since nothing outside can. The code is that of the pruned tree, in which exactly the
projections are gone that no test, no projection that is kept and no site in their body reads.
-/

namespace PatternCompiler

set_option autoImplicit false

namespace Decision

variable {ε κ : Type}

/-- The variables that projections introduce. -/
def projections : Decision ε → List Name
  | fail | leaf .. => []
  | test _ yes no => yes.projections ++ no.projections
  | project fresh _ _ _ body => fresh :: body.projections

/-- Every subject is read where it is known, and every leaf has a site. -/
def Scoped (sites : List (List (Site κ))) : Decision ε → List Name → Prop
  | fail, _ => True
  | leaf case use, known =>
      ∃ site, siteAt? sites case use = some site ∧ ∀ x ∈ site.subjects, x ∈ known
  | test asked yes no, known =>
      (∀ x ∈ asked.subjects, x ∈ known) ∧ yes.Scoped sites known ∧ no.Scoped sites known
  | project fresh _ subject pairs body, known =>
      (∀ x ∈ subject :: pairs.map Prod.snd, x ∈ known) ∧ body.Scoped sites (fresh :: known)

/-- A test, a projection that is kept or a site at a leaf reads the variable. -/
def reads (sites : List (List (Site κ))) (x : Name) : Decision ε → Bool
  | fail => false
  | leaf case use => (siteAt? sites case use).any fun site => x ∈ site.subjects
  | test asked yes no => x ∈ asked.subjects || yes.reads sites x || no.reads sites x
  | project fresh _ subject pairs body =>
      body.reads sites x || body.reads sites fresh && x ∈ subject :: pairs.map Prod.snd

/-- The decision without the projections that nothing in their body reads. -/
def prune (sites : List (List (Site κ))) : Decision ε → Decision ε
  | fail => fail
  | leaf case use => leaf case use
  | test asked yes no => test asked (yes.prune sites) (no.prune sites)
  | project fresh func subject pairs body =>
      if body.reads sites fresh then project fresh func subject pairs (body.prune sites)
      else body.prune sites

/-- Projections have names of their own, and every subject is read where it is known. -/
structure Tidy (sites : List (List (Site κ))) (known : List Name) (decision : Decision ε) :
    Prop where
  names : decision.projections.Nodup
  fresh : ∀ x ∈ decision.projections, x ∉ known
  subjects : decision.Scoped sites known

section

variable {sites : List (List (Site κ))} {known : List Name}

theorem Tidy.test {asked : Test ε} {yes no : Decision ε}
    (h : (test asked yes no).Tidy sites known) :
    yes.Tidy sites known ∧ no.Tidy sites known ∧
      ∀ x ∈ no.projections, x ∉ yes.projections := by
  obtain ⟨hyes, hno, hapart⟩ := List.nodup_append.mp h.names
  refine ⟨⟨hyes, fun x hx => h.fresh x (List.mem_append_left _ hx), h.subjects.2.1⟩,
    ⟨hno, fun x hx => h.fresh x (List.mem_append_right _ hx), h.subjects.2.2⟩, ?_⟩
  intro x hx hx'
  exact hapart x hx' x hx rfl

theorem Tidy.project {fresh subject : Name} {func : ε} {pairs : List (Name × Name)}
    {body : Decision ε} (h : (project fresh func subject pairs body).Tidy sites known) :
    body.Tidy sites (fresh :: known) ∧ fresh ∉ known := by
  obtain ⟨hfresh, hbody⟩ := List.nodup_cons.mp h.names
  refine ⟨⟨hbody, fun x hx hknown => ?_, h.subjects.2⟩, h.fresh fresh List.mem_cons_self⟩
  rcases List.mem_cons.mp hknown with rfl | hknown
  · exact hfresh hx
  · exact h.fresh x (List.mem_cons_of_mem _ hx) hknown

/-- Nothing else is read than what is known around the decision or introduced in it. -/
theorem mem_of_reads {decision : Decision ε} (h : decision.Scoped sites known) {x : Name}
    (hx : decision.reads sites x = true) : x ∈ known ∨ x ∈ decision.projections := by
  induction decision generalizing known with
  | fail => cases hx
  | leaf case use =>
      obtain ⟨site, hsite, hsubjects⟩ := h
      rw [reads, hsite] at hx
      exact .inl (hsubjects x (of_decide_eq_true hx))
  | test asked yes no ihyes ihno =>
      simp only [reads, Bool.or_eq_true, decide_eq_true_eq] at hx
      rcases hx with (hx | hx) | hx
      · exact .inl (h.1 x hx)
      · exact (ihyes h.2.1 hx).imp id (List.mem_append_left _)
      · exact (ihno h.2.2 hx).imp id (List.mem_append_right _)
  | project fresh func subject pairs body ih =>
      simp only [reads, Bool.or_eq_true, Bool.and_eq_true, decide_eq_true_eq] at hx
      rcases hx with hx | ⟨-, hx⟩
      · rcases ih h.2 hx with hx | hx
        · exact (List.mem_cons.mp hx).elim (fun hx => .inr (hx ▸ List.mem_cons_self)) .inl
        · exact .inr (List.mem_cons_of_mem _ hx)
      · exact .inl (h.1 x hx)

end

end Decision

/-! ## What actions record -/

namespace LowerM

variable {σ ε κ α β : Type} {m : LowerM σ α} {xs ys : List Name}

/-- The action records that these subjects are read. It counts no projection as left out and does
not depend on how many were. -/
structure Records (xs : List Name) (m : LowerM σ α) : Prop where
  referenced : ∀ l j x, x ∈ (m l j).1.2.referenced ↔ x ∈ l.referenced ∨ x ∈ xs
  dropped : ∀ l j, (m l j).1.2.dropped = l.dropped
  uncounted : ∀ l d j, m ⟨l.referenced, d⟩ j =
    (((m l j).1.1, ⟨(m l j).1.2.referenced, d⟩), (m l j).2)

theorem Records.of_mem (h : Records xs m) (hxs : ∀ x, x ∈ xs ↔ x ∈ ys) : Records ys m where
  referenced l j x := by rw [h.referenced, hxs]
  dropped := h.dropped
  uncounted := h.uncounted

theorem Records.pure (a : α) : Records [] (Pure.pure a : LowerM σ α) :=
  ⟨fun _ _ _ => (or_iff_left List.not_mem_nil).symm, fun _ _ => rfl, fun _ _ _ => rfl⟩

theorem Records.lift (action : StateM σ α) : Records [] (monadLift action : LowerM σ α) :=
  ⟨fun _ _ _ => (or_iff_left List.not_mem_nil).symm, fun _ _ => rfl, fun _ _ _ => rfl⟩

theorem bind_run (m : LowerM σ α) (f : α → LowerM σ β) (l : Lowering) (j : σ) :
    (m >>= f) l j = f (m l j).1.1 (m l j).1.2 (m l j).2 := rfl

theorem Records.bind (h : Records xs m) {f : α → LowerM σ β} (hf : ∀ a, Records ys (f a)) :
    Records (xs ++ ys) (m >>= f) where
  referenced l j x := by
    rw [bind_run, (hf _).referenced, h.referenced, List.mem_append, or_assoc]
  dropped l j := by rw [bind_run, (hf _).dropped, h.dropped]
  uncounted l d j := by rw [bind_run, h.uncounted, (hf _).uncounted, bind_run]

theorem mem_foldl_reference (xs : List Name) (l : Lowering) (x : Name) :
    x ∈ (xs.foldl Lowering.reference l).referenced ↔ x ∈ l.referenced ∨ x ∈ xs := by
  induction xs generalizing l with
  | nil => simp
  | cons y xs ih =>
      rw [List.foldl_cons, ih, Lowering.reference, List.mem_insert_iff, List.mem_cons]
      tauto

theorem foldl_reference_uncounted (xs : List Name) (l : Lowering) (d : Nat) :
    xs.foldl Lowering.reference ⟨l.referenced, d⟩ =
      ⟨(xs.foldl Lowering.reference l).referenced, d⟩ := by
  induction xs generalizing l with
  | nil => rfl
  | cons y xs ih => exact ih (l.reference y)

theorem records_reads (xs : List Name) : Records xs (reads xs : LowerM σ Unit) where
  referenced l _ x := mem_foldl_reference xs l x
  dropped l _ := (l.foldl_reference_reads xs).dropped
  uncounted l d j := congrArg (fun l => (((), l), j)) (foldl_reference_uncounted xs l d)

theorem records_bindings (e : Emitter σ ε κ) (pairs : List (Name × Name)) :
    Records (pairs.map Prod.snd) (bindings e pairs) := by
  unfold bindings
  induction pairs with
  | nil =>
      rw [List.mapM_nil]
      exact .pure _
  | cons p pairs ih =>
      rw [List.mapM_cons]
      have hone : Records ([p.2] ++ ([] ++ []))
          (do reads [p.2]; return (p.1, ← e.var p.2) : LowerM σ (Name × ε)) :=
        (records_reads [p.2]).bind fun _ => (Records.lift _).bind fun _ => .pure _
      refine (hone.bind fun _ => ih.bind fun _ => .pure _).of_mem fun x => ?_
      simp

/-- The binding of the variable of a projection that is kept, around the code of the body. -/
def keep (e : Emitter σ ε κ) (fresh : Name) (func : ε) (subject : Name)
    (pairs : List (Name × Name)) (code : κ) : LowerM σ κ := do
  reads [subject]
  let bindings ← bindings e pairs
  let value ← e.apply func (← e.var subject) bindings
  e.letIn [(fresh, value)] code

theorem records_keep (e : Emitter σ ε κ) (fresh : Name) (func : ε) (subject : Name)
    (pairs : List (Name × Name)) (code : κ) :
    Records (subject :: pairs.map Prod.snd) (keep e fresh func subject pairs code) := by
  refine ((records_reads _).bind fun _ => (records_bindings e pairs).bind fun _ =>
    (Records.lift (e.var subject)).bind fun _ => (Records.lift _).bind fun _ =>
      .lift _).of_mem fun x => ?_
  simp

end LowerM

namespace Test

variable {σ ε κ : Type}

theorem records_lower (e : Emitter σ ε κ) (test : Test ε) :
    LowerM.Records test.subjects (test.lower e) := by
  unfold lower
  have hreads := LowerM.records_reads (σ := σ) test.subjects
  cases test with
  | equal subject literal eqv =>
      refine (hreads.bind fun _ => (LowerM.Records.lift (e.var subject)).bind fun _ =>
        .lift _).of_mem fun x => by simp
  | member subject set eqv =>
      refine (hreads.bind fun _ => (LowerM.Records.lift (e.var subject)).bind fun _ =>
        .lift _).of_mem fun x => by simp
  | sameAs subject other =>
      refine (hreads.bind fun _ => (LowerM.Records.lift (e.var subject)).bind fun _ =>
        (LowerM.Records.lift (e.var other)).bind fun _ => .lift _).of_mem fun x => by simp
  | predicate subject func pairs =>
      refine (hreads.bind fun _ => (LowerM.records_bindings e pairs).bind fun _ =>
        (LowerM.Records.lift (e.var subject)).bind fun _ => .lift _).of_mem fun x => ?_
      simp only [subjects, List.mem_append, List.mem_cons, List.not_mem_nil, or_false]
      tauto
  | guard expr pairs =>
      refine (hreads.bind fun _ => (LowerM.records_bindings e pairs).bind fun _ =>
        .lift _).of_mem fun x => by simp [subjects]

end Test

namespace Decision

variable {σ ε κ : Type} {e : Emitter σ ε κ} {sites : List (List (Site κ))} {known : List Name}

theorem lower_test (asked : Test ε) (yes no : Decision ε) (l : Lowering) (j : σ) :
    (test asked yes no).lower e sites l j =
      let y := yes.lower e sites l j
      let n := no.lower e sites y.1.2 y.2
      let t := asked.lower e n.1.2 n.2
      let c := e.cond t.1.1 y.1.1 n.1.1 t.2
      ((c.1, t.1.2), c.2) := rfl

theorem lower_project (fresh : Name) (func : ε) (subject : Name) (pairs : List (Name × Name))
    (body : Decision ε) (l : Lowering) (j : σ) :
    (project fresh func subject pairs body).lower e sites l j =
      let b := body.lower e sites l j
      if fresh ∈ b.1.2.referenced then LowerM.keep e fresh func subject pairs b.1.1 b.1.2 b.2
      else ((b.1.1, ⟨b.1.2.referenced, b.1.2.dropped + 1⟩), b.2) := by
  rw [lower, LowerM.bind_run, LowerM.bind_run]
  simp only [List.contains_iff_mem]
  split
  · rename_i hread
    have hread : fresh ∈ (body.lower e sites l j).1.2.referenced := hread
    rw [if_pos hread]
    rfl
  · rename_i hunread
    have hunread : fresh ∉ (body.lower e sites l j).1.2.referenced := hunread
    rw [if_neg hunread]
    rfl

section

variable {decision : Decision ε} {l : Lowering} {j : σ}

/-- What the first arm of a test reads is none of what the second arm introduces. -/
theorem Tidy.unread_later {asked : Test ε} {yes no : Decision ε} {l' : Lowering}
    (h : (Decision.test asked yes no).Tidy sites known)
    (hl : ∀ x ∈ (Decision.test asked yes no).projections, x ∉ l.referenced)
    (hl' : ∀ x, x ∈ l'.referenced ↔ x ∈ l.referenced ∨ yes.reads sites x = true) :
    ∀ x ∈ no.projections, x ∉ l'.referenced := by
  intro x hx hread
  obtain ⟨hyes, hno, hapart⟩ := h.test
  rcases (hl' x).mp hread with hread | hread
  · exact hl x (List.mem_append_right _ hx) hread
  · rcases mem_of_reads hyes.subjects hread with hknown | hyes
    · exact hno.fresh x hx hknown
    · exact hapart x hx hyes

/-- What is read inside a decision is recorded, and nothing else. -/
theorem mem_referenced_lower (h : decision.Tidy sites known)
    (hl : ∀ x ∈ decision.projections, x ∉ l.referenced) (x : Name) :
    x ∈ (decision.lower e sites l j).1.2.referenced ↔
      x ∈ l.referenced ∨ decision.reads sites x = true := by
  induction decision generalizing known l j x with
  | fail => exact (or_iff_left Bool.false_ne_true).symm
  | leaf case use =>
      obtain ⟨site, hsite, -⟩ := h.subjects
      rw [lower, reads, hsite]
      exact (LowerM.mem_foldl_reference _ _ _).trans (by simp)
  | test asked yes no ihyes ihno =>
      obtain ⟨hyes, hno, -⟩ := h.test
      have hread := @ihyes known l j hyes fun x hx => hl x (List.mem_append_left _ hx)
      rw [lower_test, (asked.records_lower e).referenced,
        ihno hno (h.unread_later hl hread), hread]
      simp only [reads, Bool.or_eq_true, decide_eq_true_eq]
      tauto
  | project fresh func subject pairs body ih =>
      have hread := @ih _ l j h.project.1 fun x hx => hl x (List.mem_cons_of_mem _ hx)
      have hfresh := hl fresh List.mem_cons_self
      rw [lower_project]
      simp only [hread, hfresh, false_or]
      simp only [reads, Bool.or_eq_true, Bool.and_eq_true, decide_eq_true_eq]
      split
      · rename_i hkept
        rw [(LowerM.records_keep _ _ _ _ _ _).referenced, hread]
        tauto
      · rename_i hdropped
        rw [hread]
        tauto

/-- A projection is kept exactly if something in its body reads it. -/
theorem lower_project_eq {fresh subject : Name} {func : ε} {pairs : List (Name × Name)}
    {body : Decision ε} (h : (project fresh func subject pairs body).Tidy sites known)
    (hl : ∀ x ∈ (project fresh func subject pairs body).projections, x ∉ l.referenced) :
    (project fresh func subject pairs body).lower e sites l j =
      let b := body.lower e sites l j
      if body.reads sites fresh then LowerM.keep e fresh func subject pairs b.1.1 b.1.2 b.2
      else ((b.1.1, ⟨b.1.2.referenced, b.1.2.dropped + 1⟩), b.2) := by
  have hread := @mem_referenced_lower _ _ _ e sites _ body l j h.project.1
    fun x hx => hl x (List.mem_cons_of_mem _ hx)
  have hfresh := hl fresh List.mem_cons_self
  rw [lower_project]
  simp only [hread, hfresh, false_or]

/-- The pruned decision is lowered to the same code, and nothing of it is left out. -/
theorem lower_prune (h : decision.Tidy sites known)
    (hl : ∀ x ∈ decision.projections, x ∉ l.referenced) (d : Nat) :
    (decision.prune sites).lower e sites ⟨l.referenced, d⟩ j =
      (((decision.lower e sites l j).1.1, ⟨(decision.lower e sites l j).1.2.referenced, d⟩),
        (decision.lower e sites l j).2) := by
  induction decision generalizing known l j with
  | fail => rfl
  | leaf case use =>
      obtain ⟨site, hsite, -⟩ := h.subjects
      rw [prune, lower, hsite]
      exact ((LowerM.records_reads site.subjects).bind fun _ => .pure site.code).uncounted l d j
  | test asked yes no ihyes ihno =>
      obtain ⟨hyes, hno, -⟩ := h.test
      have hfresh : ∀ x ∈ yes.projections, x ∉ l.referenced :=
        fun x hx => hl x (List.mem_append_left _ hx)
      have hread := @mem_referenced_lower _ _ _ e sites _ yes l j hyes hfresh
      rw [prune, lower_test, lower_test]
      simp only [ihyes hyes hfresh, ihno hno (h.unread_later hl hread)]
      rw [(asked.records_lower e).uncounted]
  | project fresh func subject pairs body ih =>
      have hbody : ∀ x ∈ body.projections, x ∉ l.referenced :=
        fun x hx => hl x (List.mem_cons_of_mem _ hx)
      rw [lower_project_eq h hl, prune]
      cases hkept : body.reads sites fresh with
      | true =>
          have hfresh := (@mem_referenced_lower _ _ _ e sites _ body l j h.project.1 hbody
            fresh).mpr (.inr hkept)
          rw [if_pos rfl, lower_project, ih h.project.1 hbody]
          simp only [if_true]
          rw [if_pos hfresh, (LowerM.records_keep _ _ _ _ _ _).uncounted]
      | false => exact ih h.project.1 hbody

/-- The projections that were left out are those that pruning takes away. -/
theorem dropped_lower (h : decision.Tidy sites known)
    (hl : ∀ x ∈ decision.projections, x ∉ l.referenced) :
    (decision.lower e sites l j).1.2.dropped + (decision.prune sites).projectionCount =
      l.dropped + decision.projectionCount := by
  induction decision generalizing known l j with
  | fail => rfl
  | leaf case use =>
      obtain ⟨site, hsite, -⟩ := h.subjects
      rw [lower, hsite]
      exact congrArg (· + 0)
        (((LowerM.records_reads site.subjects).bind fun _ => .pure site.code).dropped l j)
  | test asked yes no ihyes ihno =>
      obtain ⟨hyes, hno, -⟩ := h.test
      have hfresh : ∀ x ∈ yes.projections, x ∉ l.referenced :=
        fun x hx => hl x (List.mem_append_left _ hx)
      have hread := @mem_referenced_lower _ _ _ e sites _ yes l j hyes hfresh
      have hcount := @ihyes _ l j hyes hfresh
      have hcount' := @ihno _ _ (yes.lower e sites l j).2 hno (h.unread_later hl hread)
      rw [lower_test]
      simp only [(asked.records_lower e).dropped, prune, projectionCount]
      omega
  | project fresh func subject pairs body ih =>
      have hcount := @ih _ l j h.project.1 fun x hx => hl x (List.mem_cons_of_mem _ hx)
      rw [lower_project_eq h hl, prune]
      cases body.reads sites fresh with
      | true =>
          simp only [if_true, (LowerM.records_keep _ _ _ _ _ _).dropped, projectionCount]
          omega
      | false =>
          simp only [Bool.false_eq_true, if_false, projectionCount]
          omega

end

end Decision

end PatternCompiler
