import PatternCompiler.Proofs.Contexts

/-!
# Marks

A variable is marked on a path once something on the path has read it. Marks are never lost, and
reaching a case again in the same context adds the marks of the new path to those of the use. So a
variable that is marked where the queue arrives at a case is marked in some use of the case.
-/

namespace PatternCompiler

set_option autoImplicit false

/-! ## Marks in environments -/

namespace Environment

variable {env : Environment} {x y : Name}

theorem isUsed_iff : env.isUsed x = true ↔ ∃ b ∈ env.bindings, b.name = x ∧ b.used = true := by
  simp [isUsed]

theorem mem_names_of_isUsed (h : env.isUsed x = true) : x ∈ env.names := by
  obtain ⟨b, hb, rfl, -⟩ := isUsed_iff.mp h
  exact List.mem_map_of_mem hb

theorem mem_usedNames_iff : x ∈ env.usedNames ↔ env.isUsed x = true := by
  rw [isUsed_iff, usedNames]
  constructor
  · intro h
    obtain ⟨b, hb, rfl⟩ := List.mem_map.mp h
    exact ⟨b, (List.mem_filter.mp hb).1, rfl, (List.mem_filter.mp hb).2⟩
  · rintro ⟨b, hb, rfl, hused⟩
    exact List.mem_map_of_mem (List.mem_filter.mpr ⟨hb, hused⟩)

theorem any_markFirst (y : Name) (bindings : List Binding) :
    (markFirst y bindings).any (fun b => b.name = x && b.used) = true ↔
      bindings.any (fun b => b.name = x && b.used) = true ∨
        x = y ∧ x ∈ bindings.map Binding.name := by
  induction bindings with
  | nil => simp [markFirst]
  | cons b bindings ih =>
      rw [markFirst]
      split
      · rename_i hb
        subst hb
        by_cases hx : b.name = x
        · simp [hx]
        · simp [hx, Ne.symm hx]
      · rename_i hb
        rw [List.any_cons, List.any_cons, Bool.or_eq_true, Bool.or_eq_true, ih, List.map_cons,
          List.mem_cons]
        have hne : x = y → x ≠ b.name := fun hxy heq => hb (heq ▸ hxy)
        tauto

theorem isUsed_markUsed :
    (env.markUsed y).isUsed x = true ↔ env.isUsed x = true ∨ x = y ∧ x ∈ env.names :=
  any_markFirst y env.bindings

theorem isUsed_markAllUsed {ys : List Name} :
    (env.markAllUsed ys).isUsed x = true ↔ env.isUsed x = true ∨ x ∈ ys ∧ x ∈ env.names := by
  induction ys generalizing env with
  | nil => simp [markAllUsed]
  | cons y ys ih =>
      change ((env.markUsed y).markAllUsed ys).isUsed x = true ↔ _
      rw [ih, isUsed_markUsed, names_markUsed, List.mem_cons]
      tauto

theorem mem_visible_iff {ε : Type} {mentions : ε → Name → Bool} {expr : ε} :
    x ∈ (env.visible mentions expr).map Prod.fst ↔ x ∈ env.names ∧ mentions expr x = true := by
  rw [visible, List.map_map, names]
  constructor
  · intro h
    obtain ⟨b, hb, rfl⟩ := List.mem_map.mp h
    obtain ⟨hmem, hmentions⟩ := List.mem_filter.mp hb
    exact ⟨List.mem_map_of_mem hmem, hmentions⟩
  · rintro ⟨h, hmentions⟩
    obtain ⟨b, hb, rfl⟩ := List.mem_map.mp h
    exact List.mem_map.mpr ⟨b, List.mem_filter.mpr ⟨hb, hmentions⟩, rfl⟩

end Environment

/-- Reading an expression marks the variables it mentions and no others. -/
theorem Branch.isUsed_read {ε : Type} {mentions : ε → Name → Bool} {branch : Branch ε} {expr : ε}
    {x : Name} :
    (branch.read mentions expr).env.isUsed x = true ↔
      branch.env.isUsed x = true ∨ x ∈ branch.env.names ∧ mentions expr x = true := by
  rw [read, Environment.isUsed_markAllUsed, Environment.mem_visible_iff]
  tauto

/-! ## Marks in tables -/

namespace UseTable

/-- The variables that are marked in some use of the case. -/
def marked (table : UseTable) (case : Nat) : Set Name :=
  {x | ∃ use ∈ table.uses case, use.isUsed x = true}

/-- Recording an environment adds its marks at its own number and nowhere else. -/
theorem isUsed_record {env : Environment} (henv : env.names.Nodup) {uses : List Environment}
    {i : Nat} {use : Environment} (huse : (record env uses).2[i]? = some use) (x : Name) :
    use.isUsed x = true ↔ (∃ old, uses[i]? = some old ∧ old.isUsed x = true) ∨
      (record env uses).1 = i ∧ env.isUsed x = true := by
  induction uses generalizing i with
  | nil =>
      cases i with
      | zero =>
          cases huse
          simp [record]
      | succ i => cases huse
  | cons first uses ih =>
      rw [record] at huse ⊢
      split at huse
      · rename_i hcontext
        rw [if_pos hcontext]
        cases i with
        | zero =>
            cases huse
            have hnames : env.isUsed x = true → x ∈ first.names := by
              intro hx
              rw [Environment.mem_names_iff, Environment.subject?_of_sameContext hcontext henv,
                ← Environment.mem_names_iff]
              exact Environment.mem_names_of_isUsed hx
            rw [Environment.isUsed_markAllUsed, Environment.mem_usedNames_iff]
            simp only [List.getElem?_cons_zero, Option.some.injEq, exists_eq_left', true_and]
            tauto
        | succ i =>
            rw [List.getElem?_cons_succ] at huse ⊢
            simp [huse]
      · rename_i hcontext
        rw [if_neg hcontext]
        cases i with
        | zero =>
            cases huse
            simp
        | succ i => simpa using ih huse

/-- Recording an environment loses no mark of the uses and none of its own. -/
theorem record_marks {env : Environment} (henv : env.names.Nodup) {uses : List Environment}
    {x : Name} (h : env.isUsed x = true ∨ ∃ use ∈ uses, use.isUsed x = true) :
    ∃ use ∈ (record env uses).2, use.isUsed x = true := by
  rcases h with h | ⟨old, hold, h⟩
  · obtain ⟨use, huse, -⟩ := record_finds henv uses
    exact ⟨use, List.mem_of_getElem? huse, (isUsed_record henv huse x).mpr (.inr ⟨rfl, h⟩)⟩
  · obtain ⟨i, hi⟩ := List.mem_iff_getElem?.mp hold
    obtain ⟨use, huse, -⟩ := record_keeps env hi
    exact ⟨use, List.mem_of_getElem? huse, (isUsed_record henv huse x).mpr (.inl ⟨old, hi, h⟩)⟩

variable {table : UseTable}

theorem marked_reach {case : Nat} (hcase : case < table.entries.length) {env : Environment}
    (henv : env.names.Nodup) {x : Name} (hx : env.isUsed x = true) :
    x ∈ (table.reach case env).2.marked case := by
  rw [marked, Set.mem_ofPred_eq, uses_reach hcase, if_pos rfl]
  exact record_marks henv (.inl hx)

theorem marked_subset_reach {case : Nat} (hcase : case < table.entries.length)
    {env : Environment} (henv : env.names.Nodup) (other : Nat) :
    table.marked other ⊆ (table.reach case env).2.marked other := by
  intro x hx
  rw [marked, Set.mem_ofPred_eq, uses_reach hcase]
  split
  · rename_i heq
    subst heq
    exact record_marks henv (.inr hx)
  · exact hx

end UseTable

/-! ## Marks where a queue arrives -/

namespace Queue

variable {ε : Type} [BEq ε] {options : Options} {mentions : ε → Name → Bool} {queue : Queue ε}

theorem Arrives.of_advance {next : Queue ε} {decision : Decision ε} {case : Nat}
    {env : Environment} (h : Arrives options mentions queue decision case env)
    (hstep : step options mentions queue = .advance next) :
    Arrives options mentions next decision case env := by
  cases h with
  | advance h harrives =>
      rw [hstep] at h
      cases h
      exact harrives
  | select _ h | yes h | no h | project h => rw [hstep] at h; cases h

/-- Between two tables no mark was lost, and those of all arrivals were recorded. -/
structure Marks (options : Options) (mentions : ε → Name → Bool) (queue : Queue ε)
    (decision : Decision ε) (before after : UseTable) : Prop where
  keeps : ∀ case, before.marked case ⊆ after.marked case
  arrivals : ∀ {case env}, Arrives options mentions queue decision case env →
    ∀ {x}, env.isUsed x = true → x ∈ after.marked case

/-- The uses recorded while a tree is built carry the marks of all arrivals. -/
theorem build_marks (options : Options) (mentions : ε → Name → Bool) {b : Builder}
    (hb : b.uses.Distinct) (hq : Queue.Linear (· < b.uses.entries.length) queue) :
    Marks options mentions queue (Queue.build options mentions queue b).1 b.uses
      (Queue.build options mentions queue b).2.uses := by
  induction queue using Queue.build.induct options mentions generalizing b with
  | case1 queue hstep =>
      rw [build_of_fail hstep]
      refine ⟨fun _ => subset_rfl, fun harrives => ?_⟩
      cases harrives with
      | advance h => rw [hstep] at h; cases h
  | case2 queue case env hstep =>
      have hlinear := hstep ▸ step_linear hq
      rw [build_of_select hstep]
      refine ⟨UseTable.marked_subset_reach hlinear.1 hlinear.2, fun harrives => ?_⟩
      cases harrives with
      | select _ h =>
          rw [hstep] at h
          cases h
          exact UseTable.marked_reach hlinear.1 hlinear.2
      | advance h => rw [hstep] at h; cases h
  | case3 queue next hstep ih =>
      have hlinear := hstep ▸ step_linear hq
      rw [build_of_advance hstep]
      have hnext := ih hb hlinear
      exact ⟨hnext.keeps, fun harrives => hnext.arrivals (harrives.of_advance hstep)⟩
  | case4 queue asked yes no hstep ihyes ihno =>
      have hlinear := hstep ▸ step_linear hq
      rw [build_of_test hstep]
      have hrecorded := build_records options mentions hb hlinear.1
      have hyes := ihyes hb hlinear.1
      have hno := ihno hrecorded.distinct (hrecorded.length ▸ hlinear.2)
      refine ⟨fun case => (hyes.keeps case).trans (hno.keeps case), fun harrives => ?_⟩
      cases harrives with
      | yes h harrives =>
          rw [hstep] at h
          cases h
          exact fun hx => hno.keeps _ (hyes.arrivals harrives hx)
      | no h harrives =>
          rw [hstep] at h
          cases h
          exact hno.arrivals harrives
      | advance h => rw [hstep] at h; cases h
  | case5 queue func subject pairs body hstep ih =>
      have hlinear := hstep ▸ step_linear hq
      rw [build_of_project hstep]
      have hbody := ih b.projection.1 (b := b.projection.2) hb (hlinear _)
      refine ⟨hbody.keeps, fun harrives => ?_⟩
      cases harrives with
      | project h harrives =>
          rw [hstep] at h
          cases h
          exact hbody.arrivals harrives
      | advance h => rw [hstep] at h; cases h

end Queue

end PatternCompiler
