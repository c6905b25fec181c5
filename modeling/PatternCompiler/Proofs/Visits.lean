import PatternCompiler.Proofs.Marking
import PatternCompiler.Proofs.Sites

/-!
# Visits of cases

A table of uses is filled by visiting cases, one after another. A visit is given a number before the
table is complete, and the use with that number is written to again by later visits. Whatever the
visits are, the number goes on to stand for a use with the context of the visit, and a variable is
marked in a use just if it was marked on one of the visits that were given its number. The leaves of
a decision tree are numbered by the visits made while it is built, so each of them has a site.
-/

namespace PatternCompiler

set_option autoImplicit false

/-! ## Environments that are built -/

namespace Environment

/-- The environment is made from the empty one by binding free names and marking. -/
inductive Built : Environment → Prop where
  | empty : Built .empty
  | extend {env env' : Environment} {x subject : Name} (h : Built env)
      (hfresh : env.extend x subject = .fresh env') : Built env'
  | markUsed {env : Environment} (h : Built env) (x : Name) : Built (env.markUsed x)

variable {env : Environment}

theorem Built.nodup (h : env.Built) : env.names.Nodup := by
  induction h with
  | empty => exact List.nodup_nil
  | @extend env _ x subject _ hfresh ih =>
      unfold Environment.extend at hfresh
      split at hfresh
      · cases hfresh
      · rename_i hfree
        cases hfresh
        exact nodup_push ih hfree subject
  | markUsed _ x ih => exact (names_markUsed _ x).symm ▸ ih

theorem markFirst_append {x : Name} {front : List Binding} (h : x ∉ front.map Binding.name)
    (rest : List Binding) : markFirst x (front ++ rest) = front ++ markFirst x rest := by
  induction front with
  | nil => rfl
  | cons b front ih =>
      rw [List.map_cons, List.mem_cons, not_or] at h
      rw [List.cons_append, markFirst, if_neg (Ne.symm h.1), ih h.2, List.cons_append]

theorem Built.of_nodup {bindings : List Binding} (h : (bindings.map Binding.name).Nodup) :
    Built ⟨bindings⟩ := by
  induction bindings using List.reverseRecOn with
  | nil => exact .empty
  | append_singleton front b ih =>
      rw [List.map_append, List.nodup_append] at h
      have hfree : b.name ∉ front.map Binding.name := fun hmem =>
        h.2.2 _ hmem _ (List.mem_singleton_self _) rfl
      have hlookup : (Environment.mk front).lookup? b.name = none :=
        List.find?_eq_none.mpr fun c hc hname =>
          hfree (of_decide_eq_true hname ▸ List.mem_map_of_mem hc)
      have hextend : (Environment.mk front).extend b.name b.subject =
          .fresh ⟨front ++ [⟨b.name, b.subject, false⟩]⟩ := by
        rw [Environment.extend, hlookup]
      have hpushed := (ih h.1).extend hextend
      -- The last binding was free before it was made, and was marked later if at all.
      obtain ⟨x, subject, used⟩ := b
      cases used with
      | false => exact hpushed
      | true =>
          have hmarked := hpushed.markUsed x
          rwa [Environment.markUsed, markFirst_append hfree, markFirst, if_pos rfl] at hmarked

/-- What can be built are the environments that bind no name twice. -/
theorem built_iff : env.Built ↔ env.names.Nodup := ⟨Built.nodup, Built.of_nodup⟩

end Environment

/-! ## One visit -/

/-- A case that was reached, the bindings there, and the number of the use that it was given. -/
structure Visit where
  case : Nat
  env : Environment
  use : Nat

namespace UseTable

/-- Every use stays where it is with its variables, their subjects and its marks. -/
def Grows (table table' : UseTable) : Prop :=
  ∀ (case i : Nat) (use : Environment), (table.uses case)[i]? = some use →
    ∃ use', (table'.uses case)[i]? = some use' ∧ use'.pairs = use.pairs ∧
      ∀ x, use.isUsed x = true → use'.isUsed x = true

/-- What a table tells about the visits that filled it. -/
structure Tells (table : UseTable) (visits : List Visit) : Prop where
  /-- No use binds a name twice, and no two uses of a case have the same context. -/
  distinct : table.Distinct
  /-- The number of a visit stands for a use that binds the variables of the visit to the same
  subjects. -/
  designates : ∀ v ∈ visits, ∃ use, (table.uses v.case)[v.use]? = some use ∧
    use.subject? = v.env.subject?
  /-- The marks of a use are those of its visits. -/
  marks : ∀ (case i : Nat) (use : Environment), (table.uses case)[i]? = some use →
    ∀ x, use.isUsed x = true ↔
      ∃ v ∈ visits, v.case = case ∧ v.use = i ∧ v.env.isUsed x = true

variable {table table' table'' : UseTable} {visits : List Visit} {case : Nat} {env : Environment}

theorem Grows.refl (table : UseTable) : table.Grows table :=
  fun _ _ use h => ⟨use, h, rfl, fun _ hx => hx⟩

theorem Grows.trans (h : table.Grows table') (h' : table'.Grows table'') :
    table.Grows table'' := by
  intro case i use huse
  obtain ⟨use', huse', hpairs, hmarks⟩ := h case i use huse
  obtain ⟨use'', huse'', hpairs', hmarks'⟩ := h' case i use' huse'
  exact ⟨use'', huse'', hpairs'.trans hpairs, fun x hx => hmarks' x (hmarks x hx)⟩

theorem Tells.empty (cases : Nat) : (UseTable.empty cases).Tells [] where
  distinct := .empty cases
  designates v hv := by cases hv
  marks case i use huse := by
    rw [uses_empty] at huse
    cases huse

section

variable (hcase : case < table.entries.length) (henv : env.names.Nodup)

include hcase henv

theorem reach_grows : table.Grows (table.reach case env).2 := by
  intro other i use huse
  obtain ⟨use', huse', hpairs⟩ := reach_keeps hcase env other i use huse
  refine ⟨use', huse', hpairs, fun x hx => ?_⟩
  rw [uses_reach hcase] at huse'
  split at huse'
  · rename_i heq
    subst heq
    exact (isUsed_record henv huse' x).mpr (.inl ⟨use, huse, hx⟩)
  · obtain rfl := Option.some.inj (huse.symm.trans huse')
    exact hx

/-- The number that a visit is given stands for a use with its context. -/
theorem reach_designates :
    ∃ use, ((table.reach case env).2.uses case)[(table.reach case env).1]? = some use ∧
      use.subject? = env.subject? := by
  rw [uses_reach hcase, if_pos rfl]
  obtain ⟨use, huse, hsubject⟩ := record_finds henv (table.uses case)
  exact ⟨use, huse, funext hsubject⟩

/-- One more visit. -/
theorem Tells.reach (h : table.Tells visits) :
    (table.reach case env).2.Tells (visits ++ [⟨case, env, (table.reach case env).1⟩]) where
  distinct := h.distinct.reach hcase henv
  designates := by
    refine List.forall_mem_append.mpr ⟨fun v hv => ?_, ?_⟩
    · obtain ⟨use, huse, hcontext⟩ := h.designates v hv
      obtain ⟨use', huse', hpairs, -⟩ := reach_grows hcase henv v.case v.use use huse
      refine ⟨use', huse', ?_⟩
      rw [← hcontext]
      funext x
      rw [Environment.subject?_eq, hpairs, ← Environment.subject?_eq]
    · exact List.forall_mem_singleton.mpr (reach_designates hcase henv)
  marks other i use huse x := by
    -- Only uses that are there already were visited before.
    have hold : (∃ old, (table.uses other)[i]? = some old ∧ old.isUsed x = true) ↔
        ∃ v ∈ visits, v.case = other ∧ v.use = i ∧ v.env.isUsed x = true := by
      constructor
      · rintro ⟨old, hold, hx⟩
        exact (h.marks other i old hold x).mp hx
      · rintro ⟨v, hv, rfl, rfl, hx⟩
        obtain ⟨old, hold, -⟩ := h.designates v hv
        exact ⟨old, hold, (h.marks _ _ old hold x).mpr ⟨v, hv, rfl, rfl, hx⟩⟩
    simp only [List.mem_append, List.mem_singleton, or_and_right, exists_or, exists_eq_left]
    rw [← hold]
    rw [uses_reach hcase] at huse
    split at huse
    · rename_i heq
      subst heq
      rw [isUsed_record henv huse x]
      simp only [true_and]
      rfl
    · rename_i hne
      simp [huse, Ne.symm hne]

end

/-! ## Visits one after another -/

/-- Visit cases in turn: the visits with the numbers given to them, and the table after them. -/
def visitAll (table : UseTable) : List (Nat × Environment) → List Visit × UseTable
  | [] => ([], table)
  | (case, env) :: calls =>
      let reached := table.reach case env
      let later := reached.2.visitAll calls
      (⟨case, env, reached.1⟩ :: later.1, later.2)

/-- The calls are on cases of the table, with environments that can be built. -/
def Valid (cases : Nat) (calls : List (Nat × Environment)) : Prop :=
  ∀ call ∈ calls, call.1 < cases ∧ call.2.Built

theorem visitAll_append (table : UseTable) (calls later : List (Nat × Environment)) :
    table.visitAll (calls ++ later) =
      ((table.visitAll calls).1 ++ ((table.visitAll calls).2.visitAll later).1,
        ((table.visitAll calls).2.visitAll later).2) := by
  induction calls generalizing table with
  | nil => rfl
  | cons call calls ih =>
      simp only [List.cons_append, visitAll, ih]

theorem length_reach (table : UseTable) (case : Nat) (env : Environment) :
    (table.reach case env).2.entries.length = table.entries.length := List.length_set

theorem length_visitAll (table : UseTable) (calls : List (Nat × Environment)) :
    (table.visitAll calls).2.entries.length = table.entries.length := by
  induction calls generalizing table with
  | nil => rfl
  | cons call calls ih => exact (ih _).trans (table.length_reach _ _)

variable {calls : List (Nat × Environment)}

theorem visitAll_grows (hcalls : Valid table.entries.length calls) :
    table.Grows (table.visitAll calls).2 := by
  induction calls generalizing table with
  | nil => exact .refl table
  | cons call calls ih =>
      obtain ⟨⟨hcase, henv⟩, hcalls⟩ := List.forall_mem_cons.mp hcalls
      exact (reach_grows hcase henv.nodup).trans (ih (table.length_reach _ _ ▸ hcalls))

/-- After any visits the table tells what they were. -/
theorem Tells.visitAll (h : table.Tells visits) (hcalls : Valid table.entries.length calls) :
    (table.visitAll calls).2.Tells (visits ++ (table.visitAll calls).1) := by
  induction calls generalizing table visits with
  | nil => exact (List.append_nil visits).symm ▸ h
  | cons call calls ih =>
      obtain ⟨⟨hcase, henv⟩, hcalls⟩ := List.forall_mem_cons.mp hcalls
      have hlater := ih (h.reach hcase henv.nodup) (table.length_reach _ _ ▸ hcalls)
      rwa [List.append_assoc, List.singleton_append] at hlater

end UseTable

/-! ## The visits of a tree -/

/-- Where the leaf of a visit refers to. -/
def Visit.leaf (v : Visit) : Nat × Nat := (v.case, v.use)

/-- While a tree is built one case after another is visited, and each visit makes a leaf. -/
theorem Queue.build_visits {ε : Type} [BEq ε] (options : Options) (mentions : ε → Name → Bool)
    {queue : Queue ε} {b : Builder} (hq : Queue.Linear (· < b.uses.entries.length) queue) :
    ∃ calls, UseTable.Valid b.uses.entries.length calls ∧
      (Queue.build options mentions queue b).2.uses = (b.uses.visitAll calls).2 ∧
      (Queue.build options mentions queue b).1.leaves =
        (b.uses.visitAll calls).1.map Visit.leaf := by
  induction queue using Queue.build.induct options mentions generalizing b with
  | case1 queue hstep =>
      rw [build_of_fail hstep]
      exact ⟨[], fun _ h => (by cases h), rfl, rfl⟩
  | case2 queue case env hstep =>
      have hlinear := hstep ▸ step_linear hq
      rw [build_of_select hstep]
      exact ⟨[(case, env)],
        List.forall_mem_singleton.mpr ⟨hlinear.1, Environment.built_iff.mpr hlinear.2⟩, rfl, rfl⟩
  | case3 queue next hstep ih =>
      have hlinear := hstep ▸ step_linear hq
      rw [build_of_advance hstep]
      exact ih hlinear
  | case4 queue asked yes no hstep ihyes ihno =>
      have hlinear := hstep ▸ step_linear hq
      rw [build_of_test hstep]
      obtain ⟨onYes, hvalid, huses, hleaves⟩ := ihyes hlinear.1
      have hlength : (Queue.build options mentions yes b).2.uses.entries.length =
          b.uses.entries.length := huses ▸ UseTable.length_visitAll _ _
      -- The other side goes on with the table that the first one has filled.
      obtain ⟨onNo, hvalid', huses', hleaves'⟩ := ihno (hlength.symm ▸ hlinear.2)
      rw [hlength] at hvalid'
      rw [huses] at huses' hleaves'
      refine ⟨onYes ++ onNo, List.forall_mem_append.mpr ⟨hvalid, hvalid'⟩, ?_, ?_⟩
      · rw [UseTable.visitAll_append]
        exact huses'
      · rw [UseTable.visitAll_append, List.map_append, ← hleaves, ← hleaves']
        rfl
  | case5 queue func subject pairs body hstep ih =>
      have hlinear := hstep ▸ step_linear hq
      rw [build_of_project hstep]
      exact ih b.projection.1 (b := b.projection.2) (hlinear _)

/-- The table of a plan is filled by the visits that the leaves of its tree stand for. -/
theorem Plan.ofPatterns_visits {ε : Type} [BEq ε] (options : Options)
    (mentions : ε → Name → Bool) (patterns : List (Pattern ε)) (names : NameSupply) :
    ∃ calls, UseTable.Valid patterns.length calls ∧
      (Plan.ofPatterns options mentions patterns names).1.uses =
        ((UseTable.empty patterns.length).visitAll calls).2 ∧
      (Plan.ofPatterns options mentions patterns names).1.decision.leaves =
        ((UseTable.empty patterns.length).visitAll calls).1.map Visit.leaf := by
  have hlength : (UseTable.empty patterns.length).entries.length = patterns.length :=
    List.length_replicate
  obtain ⟨calls, hvalid, hbuilt⟩ := @Queue.build_visits ε _ options mentions
    (Queue.ofPatterns (NameSupply.fresh "val" names).1 patterns)
    ⟨(NameSupply.fresh "val" names).2, .empty patterns.length, 0⟩
    (Queue.ofPatterns_linear _ fun case hcase => hlength.symm ▸ hcase)
  rw [hlength] at hvalid
  exact ⟨calls, hvalid, hbuilt⟩

/-! ## Sites -/

namespace Site

variable {σ ε κ : Type}

/-- Entries made one by one keep what each of them is made from. -/
theorem map_mapM {α β γ : Type} {f : α → StateM σ β} {g : β → γ} {h : α → γ}
    (hf : ∀ a s, g (f a s).1 = h a) (as : List α) (s : σ) :
    ((as.mapM f) s).1.map g = as.map h := by
  induction as generalizing s with
  | nil =>
      rw [List.mapM_nil]
      rfl
  | cons a as ih =>
      rw [List.mapM_cons]
      exact congrArg₂ List.cons (hf a s) (ih (f a s).2)

theorem subjects_ofUse (e : Emitter σ ε κ) (handed : List (Variable ε)) (body : κ)
    (use : Environment) (target : σ) :
    (ofUse e handed body use target).1.subjects = use.subjects := by
  unfold ofUse
  simp only [bind, StateT.bind]
  split
  split <;> rfl

/-- A case has a site for every use, in order. -/
theorem subjects_ofUses (e : Emitter σ ε κ) (generator : Generator σ ε κ)
    (uses : List Environment) (session : Session σ) :
    (ofUses e generator uses session).1.map subjects = uses.map Environment.subjects :=
  map_mapM (subjects_ofUse e _ _) uses _

theorem subjects_ofTable (e : Emitter σ ε κ) {entries : List (List Environment)}
    {generators : List (Generator σ ε κ)} (h : entries.length = generators.length)
    (session : Session σ) :
    (ofTable e entries generators session).1.map (List.map subjects) =
      entries.map (List.map Environment.subjects) := by
  induction entries generalizing generators session with
  | nil => rfl
  | cons uses entries ih =>
      obtain _ | ⟨generator, generators⟩ := generators
      · cases h
      obtain ⟨sites, session', hrun, hsites⟩ : ∃ sites session',
          (if uses.isEmpty then pure [] else ofUses e generator uses) session =
            (sites, session') ∧ sites.map subjects = uses.map Environment.subjects := by
        split
        · rename_i hempty
          rw [List.isEmpty_iff.mp hempty]
          exact ⟨_, _, rfl, rfl⟩
        · exact ⟨_, _, rfl, subjects_ofUses e generator uses session⟩
      rw [ofTable_cons hrun, List.map_cons, List.map_cons, hsites, ih (Nat.succ.inj h)]

/-- Every use of the table has a site, which may read the subjects of the use. -/
theorem exists_siteAt? (e : Emitter σ ε κ) {table : UseTable}
    {generators : List (Generator σ ε κ)} (h : table.entries.length = generators.length)
    (session : Session σ) {case i : Nat} {use : Environment}
    (huse : (table.uses case)[i]? = some use) :
    ∃ site, siteAt? (ofTable e table.entries generators session).1 case i = some site ∧
      site.subjects = use.subjects := by
  obtain ⟨uses, hentry, huse⟩ : ∃ uses, table.entries[case]? = some uses ∧
      uses[i]? = some use := by
    unfold UseTable.uses at huse
    cases hentry : table.entries[case]? with
    | none =>
        rw [hentry] at huse
        cases huse
    | some uses =>
        rw [hentry] at huse
        exact ⟨uses, rfl, huse⟩
  have hcase := congrArg (·[case]?) (subjects_ofTable e h session)
  simp only [List.getElem?_map, hentry, Option.map_some] at hcase
  obtain ⟨sites, hsites, hsubjects⟩ := Option.map_eq_some_iff.mp hcase
  have hsite := congrArg (·[i]?) hsubjects
  simp only [List.getElem?_map, huse, Option.map_some] at hsite
  obtain ⟨site, hsite, hsubjects⟩ := Option.map_eq_some_iff.mp hsite
  exact ⟨site, by rw [siteAt?, hsites]; exact hsite, hsubjects⟩

end Site

/-! ## Tables of visits -/

namespace UseTable

/-- Whatever visits are made in a new table, it tells what they were, and later visits take back no
number, change no context and clear no mark. The table of a compilation is filled by such visits,
one for every leaf of its tree, so every leaf refers to a use, and to a site that reads the subjects
of that use. -/
theorem visits_recorded :
    (∀ (cases : Nat) (calls later : List (Nat × Environment)),
      Valid cases calls → Valid cases later →
      ((empty cases).visitAll calls).2.Tells ((empty cases).visitAll calls).1 ∧
        ((empty cases).visitAll calls).1 <+: ((empty cases).visitAll (calls ++ later)).1 ∧
        ((empty cases).visitAll calls).2.Grows ((empty cases).visitAll (calls ++ later)).2) ∧
    ∀ (σ ε κ : Type) [BEq ε] (e : Emitter σ ε κ) (options : Options) (cases : List (Case σ ε κ))
      (names : NameSupply) (session : Session σ),
      let plan := (Plan.ofPatterns options e.mentions (cases.map Case.pattern) names).1
      let sites := (Site.ofTable e plan.uses.entries (cases.map Case.generator) session).1
      (∃ calls, Valid cases.length calls ∧
        plan.uses = ((empty cases.length).visitAll calls).2 ∧
        plan.decision.leaves = ((empty cases.length).visitAll calls).1.map Visit.leaf) ∧
      ∀ case i, (case, i) ∈ plan.decision.leaves → ∃ use site,
        (plan.uses.uses case)[i]? = some use ∧ siteAt? sites case i = some site ∧
          site.subjects = use.subjects := by
  have hempty (n : Nat) : (empty n).entries.length = n := List.length_replicate
  constructor
  · intro cases calls later hcalls hlater
    rw [← hempty cases] at hcalls
    rw [visitAll_append]
    refine ⟨(Tells.empty cases).visitAll hcalls, List.prefix_append _ _, visitAll_grows ?_⟩
    rwa [length_visitAll, hempty]
  · intro σ ε κ _ e options cases names session plan sites
    obtain ⟨calls, hcalls, huses, hleaves⟩ :=
      Plan.ofPatterns_visits options e.mentions (cases.map Case.pattern) names
    rw [List.length_map] at hcalls huses hleaves
    refine ⟨⟨calls, hcalls, huses, hleaves⟩, fun case i hleaf => ?_⟩
    have htells := (Tells.empty cases.length).visitAll ((hempty cases.length).symm ▸ hcalls)
    obtain ⟨v, hv, hcase⟩ := List.mem_map.mp (hleaves ▸ hleaf)
    obtain ⟨rfl, rfl⟩ := Prod.mk.inj hcase
    obtain ⟨use, huse, -⟩ := htells.designates v hv
    rw [← huses] at huse
    have hlength : plan.uses.entries.length = (cases.map Case.generator).length := by
      rw [huses, length_visitAll, hempty, List.length_map]
    obtain ⟨site, hsite, hsubjects⟩ := Site.exists_siteAt? e hlength session huse
    exact ⟨use, site, huse, hsite, hsubjects⟩

/-- The same variables in another order are the same use, and those with another subject are not. -/
theorem visits_recorded_of_three :
    let calls : List (Nat × Environment) :=
      [(0, ⟨[⟨⟨10⟩, ⟨20⟩, false⟩, ⟨⟨11⟩, ⟨21⟩, false⟩]⟩),
        (0, ⟨[⟨⟨11⟩, ⟨21⟩, true⟩, ⟨⟨10⟩, ⟨20⟩, false⟩]⟩)]
    let later : List (Nat × Environment) :=
      [(0, ⟨[⟨⟨10⟩, ⟨22⟩, false⟩, ⟨⟨11⟩, ⟨21⟩, false⟩]⟩)]
    Valid 1 calls ∧ Valid 1 later ∧
      ((empty 1).visitAll (calls ++ later)).1.map Visit.use = [0, 0, 1] ∧
      ((empty 1).visitAll calls).2 = ⟨[[⟨[⟨⟨10⟩, ⟨20⟩, false⟩, ⟨⟨11⟩, ⟨21⟩, true⟩]⟩]]⟩ ∧
      ((empty 1).visitAll calls).2.Tells ((empty 1).visitAll calls).1 ∧
      ((empty 1).visitAll calls).2.Grows ((empty 1).visitAll (calls ++ later)).2 := by
  intro calls later
  have hcalls : Valid 1 calls := by
    simp [calls, Valid, Environment.built_iff, Environment.names]
  have hlater : Valid 1 later := by
    simp [later, Valid, Environment.built_iff, Environment.names]
  obtain ⟨htells, -, hgrows⟩ := visits_recorded.1 1 calls later hcalls hlater
  exact ⟨hcalls, hlater, by decide, by decide, htells, hgrows⟩

end UseTable

end PatternCompiler
