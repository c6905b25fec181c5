import Mathlib.Data.Set.Card
import PatternCompiler.Proofs.Decisions
import PatternCompiler.Proofs.Linearity

/-!
# The contexts of leaves

A context says which subject every variable is bound to, in no order. A leaf of a decision tree has
the context in which the queue arrives there, but refers to it by a number only. The uses recorded
for a case while a tree is built are the different contexts of its leaves, each of them once.
-/

namespace PatternCompiler

set_option autoImplicit false

/-! ## Environments as contexts -/

namespace Environment

variable {a b : Environment}

theorem mem_names_iff (env : Environment) (x : Name) : x ∈ env.names ↔ env.subject? x ≠ none := by
  simp only [names, subject?, lookup?, List.mem_map, ne_eq, Option.map_eq_none_iff,
    List.find?_eq_none, decide_eq_true_eq, not_forall, not_not, exists_prop]

theorem size_eq_of_subject?_eq (ha : a.names.Nodup) (hb : b.names.Nodup)
    (h : a.subject? = b.subject?) : a.size = b.size := by
  have hperm : a.names.Perm b.names := by
    rw [List.perm_ext_iff_of_nodup ha hb]
    intro x
    rw [mem_names_iff, mem_names_iff, h]
  have hlength := hperm.length_eq
  rwa [names, names, List.length_map, List.length_map] at hlength

/-- Environments are compared as contexts. -/
theorem sameContext_iff (ha : a.names.Nodup) (hb : b.names.Nodup) :
    a.sameContext b = true ↔ a.subject? = b.subject? := by
  constructor
  · intro h
    exact funext fun x => subject?_of_sameContext h hb x
  · intro h
    simp only [sameContext, Bool.and_eq_true, decide_eq_true_eq, List.all_eq_true]
    refine ⟨size_eq_of_subject?_eq ha hb h, fun c hc => ?_⟩
    rw [h, subject?_of_mem hb hc]

@[simp] theorem subject?_markAllUsed (env : Environment) (xs : List Name) :
    (env.markAllUsed xs).subject? = env.subject? := by
  funext x
  rw [subject?_eq, pairs_markAllUsed, ← subject?_eq]

end Environment

/-! ## Uses as contexts -/

namespace UseTable

/-- Recording an environment adds its context, unless a use has it already. -/
theorem record_contexts {env : Environment} (henv : env.names.Nodup) {uses : List Environment}
    (huses : ∀ use ∈ uses, use.names.Nodup) :
    (env.subject? ∈ uses.map Environment.subject? ∧
        (record env uses).2.map Environment.subject? = uses.map Environment.subject?) ∨
      (env.subject? ∉ uses.map Environment.subject? ∧
        (record env uses).2.map Environment.subject? =
          uses.map Environment.subject? ++ [env.subject?]) := by
  induction uses with
  | nil => exact .inr ⟨by simp, rfl⟩
  | cons use uses ih =>
      obtain ⟨huse, huses⟩ := List.forall_mem_cons.mp huses
      have hsame := Environment.sameContext_iff huse henv
      rw [record]
      split
      · rename_i hcontext
        have heq := hsame.mp hcontext
        exact .inl ⟨by simp [heq], by simp⟩
      · rename_i hcontext
        have hne : env.subject? ≠ use.subject? := fun heq => hcontext (hsame.mpr heq.symm)
        rcases ih huses with ⟨hmem, hrest⟩ | ⟨hmem, hrest⟩
        · exact .inl ⟨List.mem_cons_of_mem _ hmem, by simp [hrest]⟩
        · refine .inr ⟨?_, by simp [hrest]⟩
          rw [List.map_cons, List.mem_cons]
          rintro (heq | hmem')
          · exact hne heq
          · exact hmem hmem'

/-- No use binds a name twice, and the uses of a case have different contexts. -/
structure Distinct (table : UseTable) : Prop where
  nodup : ∀ case, ∀ env ∈ table.uses case, env.names.Nodup
  contexts : ∀ case, ((table.uses case).map Environment.subject?).Nodup

/-- The contexts of the uses of a case. -/
def contexts (table : UseTable) (case : Nat) : Set (Name → Option Name) :=
  {context | context ∈ (table.uses case).map Environment.subject?}

variable {table : UseTable}

theorem Distinct.length_eq_encard (h : table.Distinct) (case : Nat) :
    ((table.uses case).length : ℕ∞) = (table.contexts case).encard := by
  classical
  have hset : table.contexts case =
      (((table.uses case).map Environment.subject?).toFinset : Set (Name → Option Name)) := by
    ext context
    rw [Finset.mem_coe, List.mem_toFinset]
    rfl
  rw [hset, Set.encard_coe_eq_coe_finsetCard, List.toFinset_card_of_nodup (h.contexts case),
    List.length_map]

theorem isReached_iff (table : UseTable) (case : Nat) :
    table.isReached case = true ↔ (table.contexts case).Nonempty := by
  simp only [isReached, contexts, Set.Nonempty, Set.mem_ofPred_eq, List.mem_map]
  cases table.uses case with
  | nil => simp
  | cons env rest => simp

theorem Distinct.empty (cases : Nat) : (UseTable.empty cases).Distinct := by
  constructor <;> simp [uses_empty]

theorem Distinct.reach (h : table.Distinct) {case : Nat} (hcase : case < table.entries.length)
    {env : Environment} (henv : env.names.Nodup) : (table.reach case env).2.Distinct := by
  constructor
  · intro other
    rw [uses_reach hcase]
    split
    · exact record_names (P := List.Nodup) henv (h.nodup case)
    · exact h.nodup other
  · intro other
    rw [uses_reach hcase]
    split
    · rcases record_contexts henv (h.nodup case) with ⟨-, heq⟩ | ⟨hnew, heq⟩
      · rw [heq]
        exact h.contexts case
      · rw [heq]
        exact List.nodup_append.mpr ⟨h.contexts case, by simp, by
          intro context hmem other hother heq'
          rw [List.mem_singleton.mp hother] at heq'
          exact hnew (heq' ▸ hmem)⟩
    · exact h.contexts other

theorem contexts_reach (h : table.Distinct) {case : Nat} (hcase : case < table.entries.length)
    {env : Environment} (henv : env.names.Nodup) (other : Nat) :
    (table.reach case env).2.contexts other =
      table.contexts other ∪ {context | other = case ∧ env.subject? = context} := by
  ext context
  simp only [contexts, Set.mem_union, Set.mem_ofPred_eq, uses_reach hcase]
  split
  · rename_i heq
    subst heq
    rcases record_contexts henv (h.nodup other) with ⟨hold, hmap⟩ | ⟨-, hmap⟩
    · rw [hmap]
      constructor
      · exact .inl
      · rintro (hmem | ⟨-, rfl⟩)
        · exact hmem
        · exact hold
    · rw [hmap, List.mem_append, List.mem_singleton]
      simp only [true_and, eq_comm]
  · rename_i hne
    simp [hne]

end UseTable

/-! ## Leaves as contexts -/

/-- The decision has a leaf of the case, and the queue it was built from arrives there with these
bindings. -/
inductive Queue.Arrives {ε : Type} [BEq ε] (options : Options) (mentions : ε → Name → Bool) :
    Queue ε → Decision ε → Nat → Environment → Prop where
  | select {queue : Queue ε} {case : Nat} {env : Environment} (use : Nat)
      (hstep : Queue.step options mentions queue = .select case env) :
      Arrives options mentions queue (.leaf case use) case env
  | advance {queue next : Queue ε} {decision : Decision ε} {case : Nat} {env : Environment}
      (hstep : Queue.step options mentions queue = .advance next)
      (h : Arrives options mentions next decision case env) :
      Arrives options mentions queue decision case env
  | yes {queue yes no : Queue ε} {asked : Test ε} {dyes dno : Decision ε} {case : Nat}
      {env : Environment} (hstep : Queue.step options mentions queue = .test asked yes no)
      (h : Arrives options mentions yes dyes case env) :
      Arrives options mentions queue (.test asked dyes dno) case env
  | no {queue yes no : Queue ε} {asked : Test ε} {dyes dno : Decision ε} {case : Nat}
      {env : Environment} (hstep : Queue.step options mentions queue = .test asked yes no)
      (h : Arrives options mentions no dno case env) :
      Arrives options mentions queue (.test asked dyes dno) case env
  | project {queue : Queue ε} {func : ε} {subject fresh : Name} {pairs : List (Name × Name)}
      {body : Name → Queue ε} {decision : Decision ε} {case : Nat} {env : Environment}
      (hstep : Queue.step options mentions queue = .project func subject pairs body)
      (h : Arrives options mentions (body fresh) decision case env) :
      Arrives options mentions queue (.project fresh func subject pairs decision) case env

namespace Queue

variable {ε : Type} [BEq ε] {options : Options} {mentions : ε → Name → Bool} {queue : Queue ε}

/-- The contexts of the leaves of a case. -/
def contexts (options : Options) (mentions : ε → Name → Bool) (queue : Queue ε)
    (decision : Decision ε) (case : Nat) : Set (Name → Option Name) :=
  {context | ∃ env, Arrives options mentions queue decision case env ∧ env.subject? = context}

theorem contexts_fail (hstep : step options mentions queue = .fail) (decision : Decision ε)
    (case : Nat) : contexts options mentions queue decision case = ∅ := by
  refine Set.eq_empty_of_forall_notMem ?_
  rintro context ⟨env, harrives, -⟩
  cases harrives <;> simp_all

theorem contexts_select {case : Nat} {env : Environment}
    (hstep : step options mentions queue = .select case env) (use other : Nat) :
    contexts options mentions queue (.leaf case use) other =
      {context | other = case ∧ env.subject? = context} := by
  ext context
  constructor
  · rintro ⟨env', harrives, rfl⟩
    cases harrives with
    | select _ h =>
        rw [hstep] at h
        cases h
        exact ⟨rfl, rfl⟩
    | advance h => rw [hstep] at h; cases h
  · rintro ⟨rfl, rfl⟩
    exact ⟨env, .select use hstep, rfl⟩

theorem contexts_advance {next : Queue ε} (hstep : step options mentions queue = .advance next)
    (decision : Decision ε) (case : Nat) :
    contexts options mentions queue decision case =
      contexts options mentions next decision case := by
  ext context
  constructor
  · rintro ⟨env, harrives, rfl⟩
    cases harrives with
    | advance h harrives =>
        rw [hstep] at h
        cases h
        exact ⟨env, harrives, rfl⟩
    | select _ h | yes h | no h | project h => rw [hstep] at h; cases h
  · rintro ⟨env, harrives, rfl⟩
    exact ⟨env, .advance hstep harrives, rfl⟩

theorem contexts_test {asked : Test ε} {yes no : Queue ε}
    (hstep : step options mentions queue = .test asked yes no) (dyes dno : Decision ε)
    (case : Nat) :
    contexts options mentions queue (.test asked dyes dno) case =
      contexts options mentions yes dyes case ∪ contexts options mentions no dno case := by
  ext context
  constructor
  · rintro ⟨env, harrives, rfl⟩
    cases harrives with
    | yes h harrives =>
        rw [hstep] at h
        cases h
        exact .inl ⟨env, harrives, rfl⟩
    | no h harrives =>
        rw [hstep] at h
        cases h
        exact .inr ⟨env, harrives, rfl⟩
    | advance h => rw [hstep] at h; cases h
  · rintro (⟨env, harrives, rfl⟩ | ⟨env, harrives, rfl⟩)
    · exact ⟨env, .yes hstep harrives, rfl⟩
    · exact ⟨env, .no hstep harrives, rfl⟩

theorem contexts_project {func : ε} {subject : Name} {pairs : List (Name × Name)}
    {body : Name → Queue ε} (hstep : step options mentions queue = .project func subject pairs body)
    (fresh : Name) (decision : Decision ε) (case : Nat) :
    contexts options mentions queue (.project fresh func subject pairs decision) case =
      contexts options mentions (body fresh) decision case := by
  ext context
  constructor
  · rintro ⟨env, harrives, rfl⟩
    cases harrives with
    | project h harrives =>
        rw [hstep] at h
        cases h
        exact ⟨env, harrives, rfl⟩
    | advance h => rw [hstep] at h; cases h
  · rintro ⟨env, harrives, rfl⟩
    exact ⟨env, .project hstep harrives, rfl⟩

/-! ## Building records contexts -/

/-- Between two tables exactly the contexts of the leaves of the decision were recorded. -/
structure Records (options : Options) (mentions : ε → Name → Bool) (queue : Queue ε)
    (decision : Decision ε) (before after : UseTable) : Prop where
  length : after.entries.length = before.entries.length
  distinct : after.Distinct
  contexts : ∀ case, after.contexts case =
    before.contexts case ∪ contexts options mentions queue decision case
  leaves : ∀ case, (∃ use, (case, use) ∈ decision.leaves) ↔
    (Queue.contexts options mentions queue decision case).Nonempty

/-- The tree built from a queue has recorded the contexts of its leaves. -/
theorem build_records (options : Options) (mentions : ε → Name → Bool) {b : Builder}
    (hb : b.uses.Distinct) (hq : Queue.Linear (· < b.uses.entries.length) queue) :
    Records options mentions queue (Queue.build options mentions queue b).1 b.uses
      (Queue.build options mentions queue b).2.uses := by
  induction queue using Queue.build.induct options mentions generalizing b with
  | case1 queue hstep =>
      rw [build_of_fail hstep]
      refine ⟨rfl, hb, fun case => ?_, fun case => ?_⟩
      · rw [contexts_fail hstep, Set.union_empty]
      · simp [contexts_fail hstep, Decision.leaves]
  | case2 queue case env hstep =>
      have hlinear := hstep ▸ step_linear hq
      rw [build_of_select hstep]
      refine ⟨List.length_set, hb.reach hlinear.1 hlinear.2, fun other => ?_, fun other => ?_⟩
      · rw [contexts_select hstep]
        exact UseTable.contexts_reach hb hlinear.1 hlinear.2 other
      · simp [contexts_select hstep, Decision.leaves, Set.Nonempty]
  | case3 queue next hstep ih =>
      have hlinear := hstep ▸ step_linear hq
      rw [build_of_advance hstep]
      have hnext := ih hb hlinear
      refine ⟨hnext.length, hnext.distinct, fun case => ?_, fun case => ?_⟩
      · rw [contexts_advance hstep]
        exact hnext.contexts case
      · rw [contexts_advance hstep]
        exact hnext.leaves case
  | case4 queue asked yes no hstep ihyes ihno =>
      have hlinear := hstep ▸ step_linear hq
      rw [build_of_test hstep]
      have hyes := ihyes hb hlinear.1
      have hno := ihno hyes.distinct (hyes.length ▸ hlinear.2)
      refine ⟨hno.length.trans hyes.length, hno.distinct, fun case => ?_, fun case => ?_⟩
      · rw [hno.contexts, hyes.contexts, contexts_test hstep, Set.union_assoc]
      · rw [contexts_test hstep, Set.union_nonempty, ← hyes.leaves, ← hno.leaves, ← exists_or]
        exact exists_congr fun use => List.mem_append
  | case5 queue func subject pairs body hstep ih =>
      have hlinear := hstep ▸ step_linear hq
      rw [build_of_project hstep]
      have hbody := ih b.projection.1 (b := b.projection.2) hb (hlinear _)
      refine ⟨hbody.length, hbody.distinct, fun case => ?_, fun case => ?_⟩
      · rw [contexts_project hstep]
        exact hbody.contexts case
      · rw [contexts_project hstep]
        exact hbody.leaves case

end Queue

/-! ## Plans -/

namespace Plan

variable {ε : Type} [BEq ε]

/-- The contexts in which the tree of the plan arrives at a case. -/
def contexts (options : Options) (mentions : ε → Name → Bool) (patterns : List (Pattern ε))
    (plan : Plan ε) (case : Nat) : Set (Name → Option Name) :=
  Queue.contexts options mentions (Queue.ofPatterns plan.root patterns) plan.decision case

/-- The uses of a plan are the contexts of the leaves of its tree. -/
structure Recorded (options : Options) (mentions : ε → Name → Bool) (patterns : List (Pattern ε))
    (plan : Plan ε) : Prop where
  length : plan.uses.entries.length = patterns.length
  distinct : plan.uses.Distinct
  contexts : ∀ case, plan.uses.contexts case = plan.contexts options mentions patterns case
  leaves : ∀ case, (∃ use, (case, use) ∈ plan.decision.leaves) ↔
    (plan.contexts options mentions patterns case).Nonempty

theorem ofPatterns_recorded (options : Options) (mentions : ε → Name → Bool)
    (patterns : List (Pattern ε)) (names : NameSupply) :
    (Plan.ofPatterns options mentions patterns names).1.Recorded options mentions patterns := by
  have hlength : (UseTable.empty patterns.length).entries.length = patterns.length :=
    List.length_replicate
  have hbuilt := @Queue.build_records ε _
    (Queue.ofPatterns (NameSupply.fresh "val" names).1 patterns) options mentions
    ⟨(NameSupply.fresh "val" names).2, .empty patterns.length, 0⟩ (.empty _)
    (Queue.ofPatterns_linear _ fun case hcase => hlength.symm ▸ hcase)
  refine ⟨hbuilt.length.trans hlength, hbuilt.distinct, fun case => ?_, hbuilt.leaves⟩
  refine (hbuilt.contexts case).trans ?_
  have hnone : (UseTable.empty patterns.length).contexts case = ∅ := by
    simp [UseTable.contexts, UseTable.uses_empty]
  rw [hnone, Set.empty_union]
  rfl

theorem Recorded.isReached_iff {options : Options} {mentions : ε → Name → Bool}
    {patterns : List (Pattern ε)} {plan : Plan ε} (h : plan.Recorded options mentions patterns)
    (case : Nat) :
    plan.uses.isReached case = true ↔ ∃ use, (case, use) ∈ plan.decision.leaves := by
  rw [UseTable.isReached_iff, h.contexts, h.leaves]

end Plan

end PatternCompiler
