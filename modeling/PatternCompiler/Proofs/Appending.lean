import PatternCompiler.Proofs.Invocations
import PatternCompiler.Proofs.Renaming

/-!
# Cases behind other cases

Cases that are added behind others leave those as they are. The tree gets larger only where it would
fail, where the queue of the earlier cases is empty; everywhere else the two queues make the same
steps. The uses of the earlier cases are therefore recorded in the same order, with the same
variables and with subjects that stand for each other.
-/

namespace PatternCompiler

set_option autoImplicit false

/-! ## Uses -/

/-- Uses with the same variables, bound to subjects that stand for each other. -/
def UseTable.Follows (ρ : Renaming) (n : Nat) (table table' : UseTable) : Prop :=
  ∀ case < n, List.Forall₂ (Environment.Follows ρ) (table.uses case) (table'.uses case)

section

variable {ρ ρ' : Renaming} {n : Nat}

theorem UseTable.Follows.mono {table table' : UseTable} (h : table.Follows ρ n table')
    (hρ : ρ.Extends ρ') : table.Follows ρ' n table' :=
  fun case hcase => (h case hcase).imp fun _ _ henv => henv.mono hρ

theorem Renaming.relates_iff_eq {a b a' b' : Option Name} (ha : Option.Rel ρ.relates a a')
    (hb : Option.Rel ρ.relates b b') : a = b ↔ a' = b' := by
  cases ha with
  | none =>
      cases hb with
      | none => exact iff_of_true rfl rfl
      | some hb => exact iff_of_false (by simp) (by simp)
  | some ha =>
      cases hb with
      | none => exact iff_of_false (by simp) (by simp)
      | some hb => rw [Option.some.injEq, Option.some.injEq, ρ.eq_iff ha hb]

theorem Environment.Follows.sameContext_eq {a a' b b' : Environment} (ha : a.Follows ρ a')
    (hb : b.Follows ρ b') : a.sameContext b = a'.sameContext b' := by
  have hall : (b.bindings.all fun x => a.subject? x.name = some x.subject) =
      b'.bindings.all fun x => a'.subject? x.name = some x.subject := by
    obtain ⟨bindings⟩ := b
    obtain ⟨bindings'⟩ := b'
    simp only [Environment.Follows] at hb ⊢
    induction hb with
    | nil => rfl
    | @cons x x' xs xs' hx _ ih =>
        have hfirst :
            (a.subject? x.name = some x.subject) ↔ a'.subject? x'.name = some x'.subject :=
          hx.name ▸ ρ.relates_iff_eq (ha.subject? x.name) (.some hx.subject)
        rw [List.all_cons, List.all_cons, ih, decide_eq_decide.mpr hfirst]
  unfold Environment.sameContext Environment.size
  rw [hall, List.Forall₂.length_eq ha, List.Forall₂.length_eq hb]

theorem UseTable.record_follows {env env' : Environment} (henv : env.Follows ρ env')
    {uses uses' : List Environment} (huses : List.Forall₂ (Environment.Follows ρ) uses uses') :
    List.Forall₂ (Environment.Follows ρ) (record env uses).2 (record env' uses').2 := by
  induction huses with
  | nil => exact .cons henv .nil
  | @cons use use' uses uses' huse huses ih =>
      rw [record, record, huse.sameContext_eq henv, henv.usedNames_eq]
      split
      · exact .cons (huse.markAllUsed _) huses
      · exact .cons huse ih

theorem UseTable.Follows.reach {table table' : UseTable} (h : table.Follows ρ n table')
    (hlength : n ≤ table.entries.length) (hlength' : n ≤ table'.entries.length) {case : Nat}
    (hcase : case < n) {env env' : Environment} (henv : env.Follows ρ env') :
    (table.reach case env).2.Follows ρ n (table'.reach case env').2 := by
  intro other hother
  rw [uses_reach (Nat.lt_of_lt_of_le hcase hlength), uses_reach (Nat.lt_of_lt_of_le hcase hlength')]
  split
  · exact record_follows henv (h case hcase)
  · exact h other hother

end

/-! ## Trees -/

variable {ε : Type} [BEq ε] {options : Options} {mentions : ε → Name → Bool}

/-- The compiler made the name up, and no later projection gets it. -/
structure NameSupply.Made (supply : NameSupply) (x : Name) : Prop where
  settled : supply.Settled x
  generated : supply.symbols.isGenerated? x = some true

namespace NameSupply

variable {supply supply' : NameSupply} {x : Name}

theorem Made.grows (h : supply.Made x) (hg : supply.Grows supply') : supply'.Made x :=
  ⟨h.settled.grows hg, hg.symbols.isGenerated? h.generated⟩

theorem fresh_isGenerated? (hc : supply.symbols.Coherent) (stem : String) :
    (NameSupply.fresh stem supply).2.symbols.isGenerated? (NameSupply.fresh stem supply).1 =
      some true := by
  have hname := hc.lookup?_intern (SymbolTable.generatedString stem supply.next)
  exact Option.map_eq_some_iff.mpr ⟨_, hname, isGeneratedString_generatedString stem _⟩

theorem fresh_made (hc : supply.symbols.Coherent) :
    (NameSupply.fresh "x" supply).2.Made (NameSupply.fresh "x" supply).1 :=
  ⟨fresh_settled hc, fresh_isGenerated? hc "x"⟩

theorem root_made (hc : supply.symbols.Coherent) :
    (NameSupply.fresh "val" supply).2.Made (NameSupply.fresh "val" supply).1 :=
  ⟨root_settled hc, fresh_isGenerated? hc "val"⟩

end NameSupply

/-- Builders that can go on with queues that follow each other. -/
structure Builder.Follows (ρ : Renaming) (n : Nat) (b b' : Builder) : Prop where
  coherent : b.names.symbols.Coherent
  coherent' : b'.names.symbols.Coherent
  made : ∀ x x', ρ.relates x x' → b.names.Made x ∧ b'.names.Made x'
  length : n ≤ b.uses.entries.length
  length' : n ≤ b'.uses.entries.length
  uses : b.uses.Follows ρ n b'.uses

/-- The variables of two projections stand for each other from then on. -/
theorem Builder.Follows.projection {ρ : Renaming} {n : Nat} {b b' : Builder}
    (h : b.Follows ρ n b') :
    ∃ ρ', ρ.Extends ρ' ∧ ρ'.relates b.projection.1 b'.projection.1 ∧
      b.projection.2.Follows ρ' n b'.projection.2 := by
  have hnew (x' : Name) (hx : ρ.relates b.projection.1 x') : False :=
    (h.made _ x' hx).1.settled.ne_fresh h.coherent rfl
  have hnew' (x : Name) (hx : ρ.relates x b'.projection.1) : False :=
    (h.made x _ hx).2.settled.ne_fresh h.coherent' rfl
  have hextends : ρ.Extends (ρ.add b.projection.1 b'.projection.1 hnew hnew') :=
    fun _ _ hx => .inr hx
  refine ⟨ρ.add b.projection.1 b'.projection.1 hnew hnew', hextends, .inl ⟨rfl, rfl⟩, {
    coherent := NameSupply.fresh_coherent h.coherent "x"
    coherent' := NameSupply.fresh_coherent h.coherent' "x"
    made := ?_
    length := h.length
    length' := h.length'
    uses := h.uses.mono hextends }⟩
  rintro x x' (⟨rfl, rfl⟩ | hx)
  · exact ⟨NameSupply.fresh_made h.coherent, NameSupply.fresh_made h.coherent'⟩
  · exact ⟨(h.made x x' hx).1.grows (b.names.fresh_grows "x"),
      (h.made x x' hx).2.grows (b'.names.fresh_grows "x")⟩

namespace Queue

variable {n : Nat} {queue queue' : Queue ε}

theorem length_build (queue : Queue ε) (b : Builder) :
    (build options mentions queue b).2.uses.entries.length = b.uses.entries.length :=
  build_related options mentions
    (R := fun b b' => b'.uses.entries.length = b.uses.entries.length)
    (fun _ => rfl) (fun h h' => h'.trans h) (fun _ _ _ => List.length_set) (fun _ => rfl) queue b

/-- The tree of later cases records no use of the earlier ones. -/
theorem uses_build_of_later (h : Queue.Linear (n ≤ ·) queue) (b : Builder) {case : Nat}
    (hcase : case < n) :
    (build options mentions queue b).2.uses.uses case = b.uses.uses case := by
  induction queue using Queue.build.induct options mentions generalizing b with
  | case1 queue hstep => rw [build_of_fail hstep]
  | case2 queue other env hstep =>
      have hlater := hstep ▸ step_linear h
      rw [build_of_select hstep]
      have hne : other ≠ case := Nat.ne_of_gt (Nat.lt_of_lt_of_le hcase hlater.1)
      simp only [Builder.reach, UseTable.reach, UseTable.uses, List.getElem?_set_ne hne]
  | case3 queue next hstep ih =>
      have hlater := hstep ▸ step_linear h
      rw [build_of_advance hstep]
      exact ih hlater b
  | case4 queue asked yes no hstep ihyes ihno =>
      have hlater := hstep ▸ step_linear h
      rw [build_of_test hstep]
      exact (ihno hlater.2 _).trans (ihyes hlater.1 b)
  | case5 queue func subject pairs body hstep ih =>
      have hlater := hstep ▸ step_linear h
      rw [build_of_project hstep]
      exact ih _ (hlater _) b.projection.2

variable (options mentions) in
/-- Behind the queue that it follows, a queue records the uses of the earlier cases likewise. -/
theorem build_follows {ρ : Renaming} {b b' : Builder} (hb : b.Follows ρ n b')
    (hq : Queue.Follows ρ n queue queue') :
    ∃ ρ', ρ.Extends ρ' ∧ (build options mentions queue b).2.Follows ρ' n
      (build options mentions queue' b').2 := by
  induction queue using Queue.build.induct options mentions generalizing ρ queue' b b' with
  -- The earlier cases fail here; whatever the later ones go on with records no use of them.
  | case1 queue hstep =>
      have hlater := linear_of_fail hq hstep
      have hgrows := build_grows options mentions queue' b'
      rw [build_of_fail hstep]
      exact ⟨ρ, .refl ρ, {
        coherent := hb.coherent
        coherent' := hgrows.coherent hb.coherent'
        made := fun x x' hx => ⟨(hb.made x x' hx).1, (hb.made x x' hx).2.grows hgrows⟩
        length := hb.length
        length' := length_build queue' b' ▸ hb.length'
        uses := fun case hcase => uses_build_of_later hlater b' hcase ▸ hb.uses case hcase }⟩
  | case2 queue case env hstep =>
      obtain ⟨next', hstep', hfollows⟩ := step_follows hq hstep (by simp)
      cases hfollows with
      | select hcase henv =>
          rw [build_of_select hstep, build_of_select hstep']
          exact ⟨ρ, .refl ρ, {
            coherent := hb.coherent
            coherent' := hb.coherent'
            made := hb.made
            length := hb.length.trans_eq List.length_set.symm
            length' := hb.length'.trans_eq List.length_set.symm
            uses := hb.uses.reach hb.length hb.length' hcase henv }⟩
  | case3 queue next hstep ih =>
      obtain ⟨next', hstep', hfollows⟩ := step_follows hq hstep (by simp)
      cases hfollows with
      | advance hnext =>
          rw [build_of_advance hstep, build_of_advance hstep']
          exact ih hb hnext
  | case4 queue asked yes no hstep ihyes ihno =>
      obtain ⟨next', hstep', hfollows⟩ := step_follows hq hstep (by simp)
      cases hfollows with
      -- The renaming may grow while the first tree is built, and the second one starts from there.
      | test hyes hno =>
          rw [build_of_test hstep, build_of_test hstep']
          obtain ⟨ρ₁, hρ₁, hb₁⟩ := ihyes hb hyes
          obtain ⟨ρ₂, hρ₂, hb₂⟩ := ihno hb₁ (hno.mono hρ₁)
          exact ⟨ρ₂, hρ₁.trans hρ₂, hb₂⟩
  | case5 queue func subject pairs body hstep ih =>
      obtain ⟨next', hstep', hfollows⟩ := step_follows hq hstep (by simp)
      cases hfollows with
      | project hbody =>
          rw [build_of_project hstep, build_of_project hstep']
          obtain ⟨ρ₁, hρ₁, hfresh, hb₁⟩ := hb.projection
          obtain ⟨ρ₂, hρ₂, hb₂⟩ := ih _ hb₁ (hbody ρ₁ _ _ hρ₁ hfresh)
          exact ⟨ρ₂, hρ₁.trans hρ₂, hb₂⟩

omit [BEq ε] in
/-- Branches at the same places, and then branches of later cases. -/
theorem mapIdx_follows {ρ : Renaming} {branch branch' : Nat → Pattern ε → Branch ε}
    {first later : List (Pattern ε)}
    (hfirst : ∀ i < first.length, ∀ p, (branch i p).Follows ρ n (branch' i p))
    (hlater : ∀ i p, (branch' (first.length + i) p).Linear (n ≤ ·)) :
    Queue.Follows ρ n (first.mapIdx branch) ((first ++ later).mapIdx branch') := by
  induction first generalizing branch branch' with
  | nil =>
      refine .later (linear_iff.mpr fun b hb => ?_)
      obtain ⟨i, hi, rfl⟩ := List.mem_mapIdx.mp hb
      have hlinear := hlater i later[i]
      rwa [List.length_nil, Nat.zero_add] at hlinear
  | cons p first ih =>
      rw [List.cons_append, List.mapIdx_cons, List.mapIdx_cons]
      refine .cons (hfirst 0 (Nat.zero_lt_succ _) p) (ih (fun i hi q => ?_) fun i q => ?_)
      · exact hfirst (i + 1) (Nat.succ_lt_succ hi) q
      · have hlinear := hlater i q
        rwa [List.length_cons, Nat.add_right_comm] at hlinear

omit [BEq ε] in
theorem ofPatterns_follows (root root' : Name) (first later : List (Pattern ε)) :
    Queue.Follows (.single root root') first.length (Queue.ofPatterns root first)
      (Queue.ofPatterns root' (first ++ later)) := by
  refine mapIdx_follows (fun case hcase p => ?_) fun i p => ?_
  · exact .mk (.cons (.pattern p ⟨rfl, rfl⟩) .nil) .nil (.select hcase)
  · exact Branch.ofCase_linear root' (Nat.le_add_right _ _) p

end Queue

/-- Only made-up names stand for each other. -/
def Renaming.Generated (ρ : Renaming) (table table' : SymbolTable) : Prop :=
  ∀ x x', ρ.relates x x' → table.isGenerated? x = some true ∧ table'.isGenerated? x' = some true

/-- Behind other cases, cases leave the uses of those as they are. -/
theorem Plan.ofPatterns_follows (first later : List (Pattern ε)) {names names' : NameSupply}
    (hnames : names.symbols.Coherent) (hnames' : names'.symbols.Coherent) :
    ∃ ρ : Renaming,
      ρ.Generated (Plan.ofPatterns options mentions first names).2.symbols
        (Plan.ofPatterns options mentions (first ++ later) names').2.symbols ∧
      (Plan.ofPatterns options mentions first names).1.uses.Follows ρ first.length
        (Plan.ofPatterns options mentions (first ++ later) names').1.uses := by
  have hstart : Builder.Follows (.single (NameSupply.fresh "val" names).1
      (NameSupply.fresh "val" names').1) first.length
      ⟨(NameSupply.fresh "val" names).2, .empty first.length, 0⟩
      ⟨(NameSupply.fresh "val" names').2, .empty (first ++ later).length, 0⟩ := {
    coherent := NameSupply.fresh_coherent hnames "val"
    coherent' := NameSupply.fresh_coherent hnames' "val"
    made := by
      rintro x x' ⟨rfl, rfl⟩
      exact ⟨NameSupply.root_made hnames, NameSupply.root_made hnames'⟩
    length := by simp [UseTable.empty]
    length' := by simp [UseTable.empty]
    uses := by
      intro case hcase
      rw [UseTable.uses_empty, UseTable.uses_empty]
      exact .nil }
  obtain ⟨ρ, -, hfollows⟩ := Queue.build_follows options mentions hstart
    (Queue.ofPatterns_follows _ _ first later)
  refine ⟨ρ, fun x x' hx => ?_, hfollows.uses⟩
  exact ⟨(hfollows.made x x' hx).1.generated, (hfollows.made x x' hx).2.generated⟩

/-! ## Calls -/

section

/-- The same name, or names that stand for each other. -/
def Renaming.Covers (ρ : Renaming) (x x' : Name) : Prop := x = x' ∨ ρ.relates x x'

/-- The expressions are what the emitter writes for one name, or for names that stand for each
other. -/
def Emitter.ReadsAlike {σ ε κ : Type} (e : Emitter σ ε κ) (ρ : Renaming) (expr expr' : ε) : Prop :=
  ∃ x x', e.Reads x expr ∧ ρ.Covers x x' ∧ e.Reads x' expr'

theorem forall₂_span {α α' β β' : Type} {R : α → β → Prop} {S : α → α' → Prop} {R' : α' → β' → Prop}
    {T : β → β' → Prop} (hT : ∀ a a' b b', R a b → S a a' → R' a' b' → T b b') {l : List α}
    {l' : List α'} (h : List.Forall₂ S l l') {m : List β} (hm : List.Forall₂ R l m) {m' : List β'}
    (hm' : List.Forall₂ R' l' m') : List.Forall₂ T m m' := by
  induction h generalizing m m' with
  | nil =>
      cases hm
      cases hm'
      exact .nil
  | cons ha _ ih =>
      cases hm with
      | cons hb hm =>
          cases hm' with
          | cons hb' hm' => exact .cons (hT _ _ _ _ hb ha hb') (ih hm hm')

theorem Call.Alike.readsAlike {σ ε κ : Type} {e : Emitter σ ε κ} {ρ : Renaming}
    {call call' : Call Name} {shown shown' : Call ε} (h : call.Alike ρ.Covers call') (hshown : call.Alike e.Reads shown)
    (hshown' : call'.Alike e.Reads shown') : shown.Alike (e.ReadsAlike ρ) shown' := by
  refine ⟨hshown.case.symm.trans (h.case.trans hshown'.case),
    hshown.uses.symm.trans (h.uses.trans hshown'.uses), ?_⟩
  refine forall₂_span (fun v v' w w' hw hv hw' => ?_) h.handed hshown.handed hshown'.handed
  exact {
    name := hw.name.symm.trans (hv.name.trans hw'.name)
    shared := hw.shared.symm.trans (hv.shared.trans hw'.shared)
    used := hw.used.symm.trans (hv.used.trans hw'.used)
    value := ⟨_, _, hw.value, hv.value, hw'.value⟩ }

variable {ρ : Renaming}

namespace Site

variable {uses uses' : List Environment}

theorem variableNames_eq_of_follows (h : List.Forall₂ (Environment.Follows ρ) uses uses') :
    variableNames uses = variableNames uses' := by
  have hnames : uses.flatMap Environment.names = uses'.flatMap Environment.names := by
    induction h with
    | nil => rfl
    | cons huse _ ih => rw [List.flatMap_cons, List.flatMap_cons, huse.names_eq, ih]
  rw [variableNames, hnames, variableNames]

theorem firstSubject?_follows (h : List.Forall₂ (Environment.Follows ρ) uses uses') (x : Name) :
    Option.Rel ρ.relates (firstSubject? uses x) (firstSubject? uses' x) := by
  cases h with
  | nil => exact .none
  | cons huse _ => exact huse.subject? x

theorem isShared_eq_of_follows (h : List.Forall₂ (Environment.Follows ρ) uses uses') (x : Name) :
    isShared uses x = isShared uses' x := by
  have hfirst := firstSubject?_follows h x
  unfold isShared
  generalize firstSubject? uses x = first at hfirst ⊢
  generalize firstSubject? uses' x = first' at hfirst ⊢
  induction h with
  | nil => rfl
  | @cons use use' uses uses' huse _ ih =>
      have hiff := ρ.relates_iff_eq (huse.subject? x) hfirst
      rw [List.all_cons, List.all_cons, ih, decide_eq_decide.mpr hiff]

theorem holderOf_follows (h : List.Forall₂ (Environment.Follows ρ) uses uses') (x : Name) :
    ρ.Covers (holderOf uses x) (holderOf uses' x) := by
  have hfirst := firstSubject?_follows h x
  unfold holderOf
  rw [isShared_eq_of_follows h]
  generalize firstSubject? uses x = first at hfirst ⊢
  generalize firstSubject? uses' x = first' at hfirst ⊢
  cases isShared uses' x with
  | false => exact .inl rfl
  | true =>
      cases hfirst with
      | none => exact .inl rfl
      | some hsubject => exact .inr hsubject

theorem outlineOf_follows (h : List.Forall₂ (Environment.Follows ρ) uses uses') (x : Name) :
    (outlineOf uses x).Alike ρ.Covers (outlineOf uses' x) := by
  have hused : (uses.any fun use => use.isUsed x) = uses'.any fun use => use.isUsed x := by
    induction h with
    | nil => rfl
    | cons huse _ ih => rw [List.any_cons, List.any_cons, huse.isUsed_eq, ih]
  exact ⟨rfl, isShared_eq_of_follows h x, hused, holderOf_follows h x⟩

theorem callOf_follows (case : Nat) (h : List.Forall₂ (Environment.Follows ρ) uses uses') :
    (callOf case uses).Alike ρ.Covers (callOf case uses') := by
  refine ⟨rfl, h.length_eq, ?_⟩
  rw [callOf, callOf, variableNames_eq_of_follows h]
  exact List.forall₂_map_left_iff.mpr (List.forall₂_map_right_iff.mpr
    (List.forall₂_same.mpr fun x _ => outlineOf_follows h x))

theorem outlines_follows {entries entries' : List (List Environment)} (case : Nat)
    (h : List.Forall₂ (List.Forall₂ (Environment.Follows ρ)) entries entries') :
    List.Forall₂ (Call.Alike ρ.Covers) (outlines case entries) (outlines case entries') := by
  induction h generalizing case with
  | nil => exact .nil
  | @cons uses uses' entries entries' huses _ ih =>
      rw [outlines, outlines]
      refine List.rel_append ?_ (ih (case + 1))
      cases huses with
      | nil => exact .nil
      | cons huse huses => exact .cons (callOf_follows case (.cons huse huses)) .nil

theorem outlines_append (case : Nat) (entries more : List (List Environment)) :
    outlines case (entries ++ more) =
      outlines case entries ++ outlines (case + entries.length) more := by
  induction entries generalizing case with
  | nil => rfl
  | cons uses entries ih =>
      rw [List.cons_append, outlines_cons, ih, outlines_cons case uses entries, List.append_assoc,
        List.length_cons, Nat.add_right_comm, Nat.add_assoc]

/-- The calls for the first cases are those that the entries of the first cases lead to. -/
theorem filter_outlines_append (entries more : List (List Environment)) :
    (outlines 0 (entries ++ more)).filter (fun call => call.case < entries.length) =
      outlines 0 entries := by
  have hfirst : ∀ call ∈ outlines 0 entries, decide (call.case < entries.length) = true := by
    intro call hcall
    obtain ⟨i, uses, hi, -, rfl⟩ := mem_outlines.mp hcall
    obtain ⟨hlt, -⟩ := List.getElem?_eq_some_iff.mp hi
    simpa [callOf] using hlt
  have hmore : ∀ call ∈ outlines (0 + entries.length) more,
      ¬ decide (call.case < entries.length) = true := by
    intro call hcall
    obtain ⟨i, uses, -, -, rfl⟩ := mem_outlines.mp hcall
    simp [callOf]
  rw [outlines_append, List.filter_append, List.filter_eq_self.mpr hfirst,
    List.filter_eq_nil_iff.mpr hmore, List.append_nil]

end Site

variable {table table' : UseTable}

theorem UseTable.Follows.entries {n : Nat} (h : table.Follows ρ n table')
    (hlength : table.entries.length = n) (hlength' : n ≤ table'.entries.length) :
    List.Forall₂ (List.Forall₂ (Environment.Follows ρ)) table.entries (table'.entries.take n) := by
  refine List.forall₂_iff_get.mpr ⟨?_, fun i hi hi' => ?_⟩
  · rw [List.length_take, hlength, Nat.min_eq_left hlength']
  · have huses := h i (hlength ▸ hi)
    rw [List.length_take] at hi'
    have hi'' : i < table'.entries.length := by omega
    rw [uses_of_getElem? (List.getElem?_eq_getElem hi),
      uses_of_getElem? (List.getElem?_eq_getElem hi'')] at huses
    simpa using huses

theorem UseTable.Follows.isReached_eq {n : Nat} (h : table.Follows ρ n table') {case : Nat}
    (hcase : case < n) : table.isReached case = table'.isReached case := by
  have huses := h case hcase
  unfold UseTable.isReached
  generalize table.uses case = uses at huses ⊢
  generalize table'.uses case = uses' at huses ⊢
  cases huses with
  | nil => rfl
  | cons => rfl

/-- The calls for the earlier cases. -/
theorem UseTable.Follows.outlines {n : Nat} (h : table.Follows ρ n table')
    (hlength : table.entries.length = n) (hlength' : n ≤ table'.entries.length) :
    List.Forall₂ (Call.Alike ρ.Covers) (Site.outlines 0 table.entries)
      ((Site.outlines 0 table'.entries).filter fun call => call.case < n) := by
  have htake : (table'.entries.take n).length = n := by
    rw [List.length_take, Nat.min_eq_left hlength']
  have hfilter := Site.filter_outlines_append (table'.entries.take n) (table'.entries.drop n)
  rw [List.take_append_drop, htake] at hfilter
  rw [hfilter]
  exact Site.outlines_follows 0 (h.entries hlength hlength')

theorem UseTable.Follows.calls {σ ε κ : Type} {e : Emitter σ ε κ} {n : Nat}
    (h : table.Follows ρ n table') (hlength : table.entries.length = n)
    (hlength' : n ≤ table'.entries.length) {calls calls' : List (Call ε)}
    (hcalls : List.Forall₂ (Call.Alike e.Reads) (Site.outlines 0 table.entries) calls)
    (hcalls' : List.Forall₂ (Call.Alike e.Reads) (Site.outlines 0 table'.entries) calls') :
    List.Forall₂ (Call.Alike (e.ReadsAlike ρ)) calls
      (calls'.filter fun call => call.case < n) := by
  have hkept : List.Forall₂ (Call.Alike e.Reads)
      ((Site.outlines 0 table'.entries).filter fun call => call.case < n)
      (calls'.filter fun call => call.case < n) :=
    List.rel_filter (fun call call' halike => by simp only [halike.case]) hcalls'
  exact forall₂_span (fun _ _ _ _ hshown halike hshown' => halike.readsAlike hshown hshown')
    (h.outlines hlength hlength') hcalls hkept

/-- The warnings about the earlier cases. -/
theorem UseTable.Follows.warnings {σ ε κ : Type} {first : List (Case σ ε κ)}
    (h : table.Follows ρ first.length table') (later : List (Case σ ε κ)) :
    (unreachableCases table' 0 (first ++ later)).filter (fun w => w.case < first.length) =
      unreachableCases table 0 first := by
  have hfirst : ∀ c ∈ first.zipIdx, (decide (c.2 < first.length) &&
      (!table'.isReached c.2 && !c.1.allowUnreachable)) =
        (!table.isReached c.2 && !c.1.allowUnreachable) := by
    intro c hc
    obtain ⟨-, hlt, -⟩ := List.mem_zipIdx hc
    have hcase : c.2 < first.length := by omega
    rw [h.isReached_eq hcase, decide_eq_true hcase, Bool.true_and]
  have hlater : ∀ c ∈ later.zipIdx (0 + first.length), ¬ (decide (c.2 < first.length) &&
      (!table'.isReached c.2 && !c.1.allowUnreachable)) = true := by
    intro c hc
    obtain ⟨hle, -⟩ := List.mem_zipIdx hc
    have hcase : ¬ c.2 < first.length := by omega
    rw [decide_eq_false hcase, Bool.false_and]
    decide
  rw [unreachableCases_eq, unreachableCases_eq, List.filter_map, List.filter_filter,
    List.zipIdx_append, List.filter_append]
  simp only [Function.comp_def]
  rw [List.filter_congr hfirst, List.filter_eq_nil_iff.mpr hlater, List.append_nil]

end

/-! ## Compilations -/

variable {σ κ : Type}

/-- What a compilation with cases behind others has in common with one without them. -/
structure Plan.Keeps (e : Emitter σ ε κ) (n : Nat) (ρ : Renaming) (plan plan' : Plan ε)
    (calls calls' : List (Call ε)) (warnings warnings' : List (Unreachable ε)) : Prop where
  /-- The same ones of the first `n` cases are reached. -/
  reached : ∀ case < n, (∃ use, (case, use) ∈ plan'.decision.leaves) ↔
    ∃ use, (case, use) ∈ plan.decision.leaves
  /-- Their generators are called alike. -/
  calls : List.Forall₂ (Call.Alike (e.ReadsAlike ρ)) calls (calls'.filter fun call => call.case < n)
  warnings : (warnings'.filter fun w => w.case < n) = warnings

theorem Plan.Recorded.keeps {e : Emitter σ ε κ} {first later : List (Case σ ε κ)}
    {plan plan' : Plan ε} (h : plan.Recorded options e.mentions (first.map Case.pattern))
    (h' : plan'.Recorded options e.mentions ((first ++ later).map Case.pattern)) {ρ : Renaming}
    (hfollows : plan.uses.Follows ρ first.length plan'.uses) {calls calls' : List (Call ε)}
    (hcalls : List.Forall₂ (Call.Alike e.Reads) (Site.outlines 0 plan.uses.entries) calls)
    (hcalls' : List.Forall₂ (Call.Alike e.Reads) (Site.outlines 0 plan'.uses.entries) calls')
    {warnings warnings' : List (Unreachable ε)}
    (hwarnings : warnings =
      if options.warnUnreachable then unreachableCases plan.uses 0 first else [])
    (hwarnings' : warnings' =
      if options.warnUnreachable then unreachableCases plan'.uses 0 (first ++ later) else []) :
    Plan.Keeps e first.length ρ plan plan' calls calls' warnings warnings' where
  reached case hcase := by
    rw [← h'.isReached_iff, ← h.isReached_iff, hfollows.isReached_eq hcase]
  calls := by
    have hlength : plan.uses.entries.length = first.length := by
      rw [h.length, List.length_map]
    have hlength' : first.length ≤ plan'.uses.entries.length := by
      rw [h'.length, List.length_map, List.length_append]
      exact Nat.le_add_right _ _
    exact hfollows.calls hlength hlength' hcalls hcalls'
  warnings := by
    rw [hwarnings, hwarnings']
    split
    · exact hfollows.warnings later
    · rfl

/-- Cases that are appended to others leave those alone: the same cases are reached, their generators
get the same variables in the same order, with the same marks and numbers of uses, and the warnings
about them are the same. Only made-up names for subjects may differ. -/
theorem appended_cases_leave_earlier_ones (e : Emitter σ ε κ) (options : Options) (subject : ε)
    {first later : List (Case σ ε κ)} (hfirst : ∀ c ∈ first, c.pattern.isWellFormed = true)
    (hlater : ∀ c ∈ later, c.pattern.isWellFormed = true) {session session' : Session σ}
    (hnames : session.names.symbols.Coherent) (hnames' : session'.names.symbols.Coherent) :
    let planned := Plan.ofPatterns options e.mentions (first.map Case.pattern) session.names
    let planned' := Plan.ofPatterns options e.mentions ((first ++ later).map Case.pattern)
      session'.names
    ∃ compiled after calls compiled' after' calls' ρ,
      compile e options subject first session = (.ok compiled, after) ∧
      compile e.watched options subject (Case.watchedFrom 0 first) (session.watched []) =
        (.ok compiled, after.watched calls) ∧
      compile e options subject (first ++ later) session' = (.ok compiled', after') ∧
      compile e.watched options subject (Case.watchedFrom 0 (first ++ later))
        (session'.watched []) = (.ok compiled', after'.watched calls') ∧
      ρ.Generated planned.2.symbols planned'.2.symbols ∧
      Plan.Keeps e first.length ρ planned.1 planned'.1 calls calls' compiled.warnings
        compiled'.warnings := by
  intro planned planned'
  have hwell : ∀ c ∈ first ++ later, c.pattern.isWellFormed = true := by
    intro c hc
    exact (List.mem_append.mp hc).elim (hfirst c) (hlater c)
  obtain ⟨calls, hcompile, hwatched, hcalls⟩ := compile_watched e options subject hfirst session
  obtain ⟨calls', hcompile', hwatched', hcalls'⟩ := compile_watched e options subject hwell session'
  obtain ⟨ρ, hgenerated, hfollows⟩ := Plan.ofPatterns_follows (first.map Case.pattern)
    (later.map Case.pattern) hnames hnames'
  rw [← List.map_append, List.length_map] at hfollows
  rw [← List.map_append] at hgenerated
  refine ⟨_, _, calls, _, _, calls', ρ, hcompile, hwatched, hcompile', hwatched', hgenerated, ?_⟩
  exact (Plan.ofPatterns_recorded options e.mentions _ session.names).keeps
    (Plan.ofPatterns_recorded options e.mentions _ session'.names) hfollows hcalls hcalls'
    (warnings_of_compile hcompile) (warnings_of_compile hcompile')

theorem appended_cases_leave_earlier_ones_of_wildcard :
    let first : List (Case ObjectSupply Form Form) :=
      [⟨.app (.function Name.t) (.or [.literal (.int 3), .bind (SymbolTable.initial.intern "x").1]),
          fun handed _ => return .call .t (handed.map Variable.value), false⟩,
        ⟨.literal (.int 3), fun _ _ => return .nil, false⟩]
    let later : List (Case ObjectSupply Form Form) :=
      [⟨.wildcard, fun _ _ => return .nil, false⟩]
    let e := formEmitter (Vocabulary.intern .initial).1.operators
    let session : Session ObjectSupply := ⟨⟨(SymbolTable.initial.intern "x").2, 0⟩, ⟨0⟩⟩
    ∃ compiled after calls compiled' after' calls' ρ,
      compile e {} (.int 3) first session = (.ok compiled, after) ∧
      compile e.watched {} (.int 3) (Case.watchedFrom 0 first) (session.watched []) =
        (.ok compiled, after.watched calls) ∧
      compile e {} (.int 3) (first ++ later) session = (.ok compiled', after') ∧
      compile e.watched {} (.int 3) (Case.watchedFrom 0 (first ++ later)) (session.watched []) =
        (.ok compiled', after'.watched calls') ∧
      ρ.Generated (Plan.ofPatterns {} e.mentions (first.map Case.pattern) session.names).2.symbols
        (Plan.ofPatterns {} e.mentions ((first ++ later).map Case.pattern) session.names).2.symbols ∧
      Plan.Keeps e 2 ρ (Plan.ofPatterns {} e.mentions (first.map Case.pattern) session.names).1
        (Plan.ofPatterns {} e.mentions ((first ++ later).map Case.pattern) session.names).1
        calls calls' compiled.warnings compiled'.warnings := by
  intro first later e session
  have hnames := SymbolTable.initial_coherent.intern "x"
  refine appended_cases_leave_earlier_ones e {} (.int 3) (fun c hc => ?_) (fun c hc => ?_) hnames
    hnames
  · rcases List.mem_pair.mp hc with rfl | rfl
    · rfl
    · rfl
  · obtain rfl := List.mem_singleton.mp hc
    rfl

end PatternCompiler
