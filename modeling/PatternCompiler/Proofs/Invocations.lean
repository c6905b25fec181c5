import PatternCompiler.Proofs.Compilation
import PatternCompiler.Proofs.Contexts

/-!
# Calls of generators

A compilation can be watched: its target then keeps a list of the calls of generators, each with its
case and with what the generator was given. Watching changes nothing else. The list has one call
for every case that is reached, in case order, and the calls are accounted for by the contexts of
the leaves of the decision tree.
-/

namespace PatternCompiler

set_option autoImplicit false

/-! ## Watched compilations -/

/-- A call of a generator. -/
structure Call (ε : Type) where
  case : Nat
  uses : Nat
  handed : List (Variable ε)

/-- A target with the calls so far. -/
structure Watched (σ ε : Type) where
  target : σ
  calls : List (Call ε)

variable {σ ε κ α β : Type}

/-- A map between monads that respects their structure respects loops. -/
theorem mapM_commutes {m n : Type → Type} [Monad m] [LawfulMonad m] [Monad n] [LawfulMonad n]
    (f : {α : Type} → m α → n α) (hpure : ∀ {α : Type} (a : α), f (pure a) = pure a)
    (hbind : ∀ {α β : Type} (x : m α) (g : α → m β), f (x >>= g) = f x >>= fun a => f (g a))
    (g : α → m β) (l : List α) : f (l.mapM g) = l.mapM fun a => f (g a) := by
  induction l with
  | nil => rw [List.mapM_nil, List.mapM_nil, hpure]
  | cons a l ih => simp only [List.mapM_cons, hbind, hpure, ih]

namespace Watched

/-- An action on the target alone. -/
def within (action : StateM σ α) : StateM (Watched σ ε) α := fun w =>
  ((action w.target).1, { w with target := (action w.target).2 })

theorem within_pure (a : α) : (within (pure a) : StateM (Watched σ ε) α) = pure a := rfl

theorem within_bind (m : StateM σ α) (f : α → StateM σ β) :
    (within (m >>= f) : StateM (Watched σ ε) β) = within m >>= fun a => within (f a) := rfl

theorem within_mapM (f : α → StateM σ β) (l : List α) :
    (within (l.mapM f) : StateM (Watched σ ε) (List β)) = l.mapM fun a => within (f a) :=
  mapM_commutes within within_pure within_bind f l

end Watched

def Emitter.watched (e : Emitter σ ε κ) : Emitter (Watched σ ε) ε κ := e.lift Watched.within

/-- The session of a watched compilation with these calls so far. -/
def Session.watched (session : Session σ) (calls : List (Call ε)) : Session (Watched σ ε) :=
  ⟨session.names, ⟨session.target, calls⟩⟩

/-- The generator, with its call recorded as one for the case. -/
def Generator.watched (g : Generator σ ε κ) (case : Nat) : Generator (Watched σ ε) ε κ :=
  fun handed uses session =>
    let (body, after) := g handed uses ⟨session.names, session.target.target⟩
    (body, after.watched (session.target.calls ++ [⟨case, uses, handed⟩]))

def Case.watched (case : Nat) (c : Case σ ε κ) : Case (Watched σ ε) ε κ :=
  ⟨c.pattern, Generator.watched c.generator case, c.allowUnreachable⟩

/-- The cases, each watched under its own number, from `case` on. -/
def Case.watchedFrom (case : Nat) : List (Case σ ε κ) → List (Case (Watched σ ε) ε κ)
  | [] => []
  | c :: cases => c.watched case :: Case.watchedFrom (case + 1) cases

namespace Site

variable (e : Emitter σ ε κ)

theorem variableOf_watched (uses : List Environment) (x : Name) :
    variableOf e.watched uses x = Watched.within (variableOf e uses x) := by
  unfold variableOf
  cases isShared uses x with
  | false => rfl
  | true =>
      cases firstSubject? uses x with
      | none => rfl
      | some subject => rfl

theorem valueAt_watched (use : Environment) (x : Name) :
    valueAt e.watched use x = Watched.within (valueAt e use x) := by
  unfold valueAt
  cases use.subject? x with
  | none => rfl
  | some subject => rfl

theorem ofUse_watched (handed : List (Variable ε)) (body : κ) (use : Environment) :
    ofUse e.watched handed body use = Watched.within (ofUse e handed body use) := by
  unfold ofUse
  simp only [valueAt_watched, Watched.within_bind, Watched.within_mapM, Watched.within_pure]
  refine bind_congr fun bindings => ?_
  split
  · rfl
  · rfl

end Site

namespace LowerM

/-- An action on the target alone, while code is lowered. -/
def within (action : LowerM σ α) : LowerM (Watched σ ε) α := fun l => Watched.within (action l)

theorem within_pure (a : α) : (within (pure a) : LowerM (Watched σ ε) α) = pure a := rfl

theorem within_bind (m : LowerM σ α) (f : α → LowerM σ β) :
    (within (m >>= f) : LowerM (Watched σ ε) β) = within m >>= fun a => within (f a) := rfl

theorem within_mapM (f : α → LowerM σ β) (l : List α) :
    (within (l.mapM f) : LowerM (Watched σ ε) (List β)) = l.mapM fun a => within (f a) :=
  mapM_commutes within within_pure within_bind f l

theorem bindings_watched (e : Emitter σ ε κ) (pairs : List (Name × Name)) :
    bindings e.watched pairs = within (bindings e pairs) := by
  unfold bindings
  rw [within_mapM]
  rfl

end LowerM

theorem Test.lower_watched (e : Emitter σ ε κ) (test : Test ε) :
    test.lower e.watched = LowerM.within (test.lower e) := by
  cases test with
  | equal subject literal eqv => rfl
  | member subject set eqv => rfl
  | sameAs subject other => rfl
  | predicate subject func pairs =>
      simp only [lower, LowerM.bindings_watched]
      rfl
  | guard expr pairs =>
      simp only [lower, LowerM.bindings_watched]
      rfl

theorem Decision.lower_watched (e : Emitter σ ε κ) (sites : List (List (Site κ)))
    (decision : Decision ε) :
    decision.lower e.watched sites = LowerM.within (decision.lower e sites) := by
  induction decision with
  | fail => rfl
  | leaf case use =>
      simp only [lower]
      cases siteAt? sites case use with
      | none => rfl
      | some site => rfl
  | test asked yes no ihyes ihno =>
      simp only [lower, ihyes, ihno, Test.lower_watched]
      rfl
  | project fresh func subject pairs body ih =>
      simp only [lower, ih, LowerM.bindings_watched, LowerM.within_bind]
      refine bind_congr fun code => ?_
      refine bind_congr fun lowering => ?_
      split
      · rfl
      · rfl

/-! ## Calls in terms of names -/

/-- Variables with the same name and the same marks, whose values are related. -/
structure Variable.Alike {α β : Type} (R : α → β → Prop) (v : Variable α) (v' : Variable β) :
    Prop where
  name : v.name = v'.name
  shared : v.shared = v'.shared
  used : v.used = v'.used
  value : R v.value v'.value

/-- Calls for the same case, with as many uses and with like variables in the same order. -/
structure Call.Alike {α β : Type} (R : α → β → Prop) (call : Call α) (call' : Call β) : Prop where
  case : call.case = call'.case
  uses : call.uses = call'.uses
  handed : List.Forall₂ (Variable.Alike R) call.handed call'.handed

/-- The expression is what the emitter writes for the variable `x`. -/
def Emitter.Reads (e : Emitter σ ε κ) (x : Name) (expr : ε) : Prop :=
  ∃ target, expr = (e.var x target).1

namespace Site

/-- The name that the body of a case with these uses reads for `x`. -/
def holderOf (uses : List Environment) (x : Name) : Name :=
  match isShared uses x, firstSubject? uses x with
  | true, some subject => subject
  | _, _ => x

def outlineOf (uses : List Environment) (x : Name) : Variable Name :=
  ⟨x, holderOf uses x, isShared uses x, uses.any fun use => use.isUsed x⟩

/-- The call that the uses of a case lead to. -/
def callOf (case : Nat) (uses : List Environment) : Call Name :=
  ⟨case, uses.length, (variableNames uses).map (outlineOf uses)⟩

/-- The calls that a table of uses leads to, from case `case` on. -/
def outlines (case : Nat) : List (List Environment) → List (Call Name)
  | [] => []
  | uses :: entries =>
      (if uses.isEmpty then [] else [callOf case uses]) ++ outlines (case + 1) entries

theorem variableOf_alike (e : Emitter σ ε κ) (uses : List Environment) (x : Name) (target : σ) :
    (outlineOf uses x).Alike e.Reads (variableOf e uses x target).1 := by
  unfold variableOf outlineOf holderOf
  cases isShared uses x with
  | false => exact ⟨rfl, rfl, rfl, target, rfl⟩
  | true =>
      cases firstSubject? uses x with
      | none => exact ⟨rfl, rfl, rfl, target, rfl⟩
      | some subject => exact ⟨rfl, rfl, rfl, target, rfl⟩

theorem handed_alike (e : Emitter σ ε κ) (uses : List Environment) (xs : List Name) (target : σ) :
    List.Forall₂ (Variable.Alike e.Reads) (xs.map (outlineOf uses))
      (xs.mapM (variableOf e uses) target).1 := by
  induction xs generalizing target with
  | nil => exact .nil
  | cons x xs ih =>
      rw [List.mapM_cons]
      exact .cons (variableOf_alike e uses x target) (ih _)

theorem ofUses_watched (e : Emitter σ ε κ) (g : Generator σ ε κ) (case : Nat)
    (uses : List Environment) (session : Session σ) (calls : List (Call ε)) :
    ofUses e.watched (g.watched case) uses (session.watched calls) =
      ((ofUses e g uses session).1, (ofUses e g uses session).2.watched (calls ++
        [⟨case, uses.length,
          ((variableNames uses).mapM (variableOf e uses) session.target).1⟩])) := by
  have hofUse (handed : List (Variable ε)) (body : κ) := funext (ofUse_watched e handed body)
  unfold ofUses
  simp only [funext (variableOf_watched e uses), hofUse, ← Watched.within_mapM]
  rfl

/-- A watched case gets the sites it would get, and one call if it is reached. -/
theorem placed_watched (e : Emitter σ ε κ) (g : Generator σ ε κ) (case : Nat)
    (uses : List Environment) (session : Session σ) (calls : List (Call ε)) :
    ∃ sites session' made,
      (if uses.isEmpty then pure [] else ofUses e g uses) session = (sites, session') ∧
      (if uses.isEmpty then pure [] else ofUses e.watched (g.watched case) uses)
        (session.watched calls) = (sites, session'.watched (calls ++ made)) ∧
      List.Forall₂ (Call.Alike e.Reads) (outlines case [uses]) made := by
  cases hempty : uses.isEmpty with
  | true =>
      refine ⟨[], session, [], rfl, ?_, ?_⟩
      · rw [List.append_nil]
        rfl
      · rw [outlines, hempty]
        exact .nil
  | false =>
      refine ⟨_, _, _, rfl, ofUses_watched e g case uses session calls, ?_⟩
      rw [outlines, hempty]
      exact .cons ⟨rfl, rfl, handed_alike e uses _ session.target⟩ .nil

theorem outlines_cons (case : Nat) (uses : List Environment) (entries : List (List Environment)) :
    outlines case (uses :: entries) = outlines case [uses] ++ outlines (case + 1) entries := by
  rw [outlines, outlines, outlines, List.append_nil]

theorem ofTable_watched (e : Emitter σ ε κ) {entries : List (List Environment)}
    {cases : List (Case σ ε κ)} (hlength : entries.length = cases.length) (case : Nat)
    (session : Session σ) (calls : List (Call ε)) :
    ∃ sites session' made,
      ofTable e entries (cases.map Case.generator) session = (sites, session') ∧
      ofTable e.watched entries ((Case.watchedFrom case cases).map Case.generator)
        (session.watched calls) = (sites, session'.watched (calls ++ made)) ∧
      List.Forall₂ (Call.Alike e.Reads) (outlines case entries) made := by
  induction entries generalizing cases case session calls with
  | nil =>
      obtain rfl := List.length_eq_zero_iff.mp hlength.symm
      refine ⟨[], session, [], rfl, ?_, .nil⟩
      rw [List.append_nil]
      rfl
  | cons uses entries ih =>
      cases cases with
      | nil => cases hlength
      | cons c cases =>
          obtain ⟨sites, session₁, made, hplain, hwatched, hmade⟩ :=
            placed_watched e c.generator case uses session calls
          obtain ⟨rest, session₂, more, hrest, hrestWatched, hmore⟩ :=
            ih (Nat.succ.inj hlength) (case + 1) session₁ (calls ++ made)
          refine ⟨sites :: rest, session₂, made ++ more, ?_, ?_, ?_⟩
          · rw [List.map_cons, ofTable_cons hplain, hrest]
          · rw [Case.watchedFrom, List.map_cons, Case.watched, ofTable_cons hwatched, hrestWatched,
              List.append_assoc]
          · rw [outlines_cons]
            exact List.rel_append hmade hmore

end Site

/-- Watching changes nothing, and the calls are those that the uses of the plan lead to. -/
theorem Plan.emit_watched (e : Emitter σ ε κ) (subject : ε) {cases : List (Case σ ε κ)}
    {plan : Plan ε} (hlength : plan.uses.entries.length = cases.length) (session : Session σ)
    (calls : List (Call ε)) :
    ∃ made : List (Call ε),
      plan.emit e.watched subject ((Case.watchedFrom 0 cases).map Case.generator)
          (session.watched calls) =
        ((plan.emit e subject (cases.map Case.generator) session).1,
          (plan.emit e subject (cases.map Case.generator) session).2.watched (calls ++ made)) ∧
      List.Forall₂ (Call.Alike e.Reads) (Site.outlines 0 plan.uses.entries) made := by
  obtain ⟨sites, session', made, hplain, hwatched, hmade⟩ :=
    Site.ofTable_watched e hlength 0 session calls
  refine ⟨made, ?_, hmade⟩
  rw [Plan.emit_eq, Plan.emit_eq, hplain, hwatched]
  simp only [Decision.lower_watched]
  rfl

/-! ## Accounts of calls -/

theorem map_eq_of_forall₂ {γ : Type} {R : α → β → Prop} {f : α → γ} {g : β → γ}
    (hR : ∀ a b, R a b → f a = g b) {l : List α} {l' : List β} (h : List.Forall₂ R l l') :
    l.map f = l'.map g := by
  induction h with
  | nil => rfl
  | cons hab _ ih => rw [List.map_cons, List.map_cons, hR _ _ hab, ih]

theorem exists_of_mem_of_forall₂ {R : α → β → Prop} {l : List α} {l' : List β}
    (h : List.Forall₂ R l l') {b : β} (hb : b ∈ l') : ∃ a ∈ l, R a b := by
  obtain ⟨i, hi, rfl⟩ := List.getElem_of_mem hb
  exact ⟨_, List.getElem_mem (h.length_eq.symm ▸ hi), h.get (h.length_eq.symm ▸ hi) hi⟩

theorem nodup_eraseDups {α : Type} [BEq α] [LawfulBEq α] (l : List α) : l.eraseDups.Nodup := by
  induction hn : l.length using Nat.strongRecOn generalizing l with
  | _ n ih =>
    subst hn
    cases l with
    | nil => exact List.nodup_nil
    | cons a l =>
        rw [List.eraseDups_cons, List.nodup_cons]
        refine ⟨?_, ih _ (Nat.lt_succ_of_le (List.length_filter_le _ l)) _ rfl⟩
        rw [List.mem_eraseDups, List.mem_filter]
        simp

namespace Site

variable {uses : List Environment} {x : Name}

theorem isShared_iff (hx : x ∈ variableNames uses) :
    isShared uses x = true ↔ ∃ subject, ∀ use ∈ uses, use.subject? x = some subject := by
  obtain ⟨bound, hbound, hmem⟩ := mem_variableNames.mp hx
  have hsome : bound.subject? x ≠ none := (bound.mem_names_iff x).mp hmem
  simp only [isShared, List.all_eq_true, decide_eq_true_eq]
  constructor
  · intro hall
    obtain ⟨subject, hsubject⟩ := Option.ne_none_iff_exists'.mp hsome
    refine ⟨subject, fun use huse => ?_⟩
    rw [hall use huse, ← hall bound hbound, hsubject]
  · rintro ⟨subject, hall⟩ use huse
    rw [hall use huse]
    cases uses with
    | nil => cases huse
    | cons first rest => exact (hall first List.mem_cons_self).symm

theorem mem_outlines {case : Nat} {entries : List (List Environment)} {call : Call Name} :
    call ∈ outlines case entries ↔
      ∃ i uses, entries[i]? = some uses ∧ uses ≠ [] ∧ call = callOf (case + i) uses := by
  induction entries generalizing case with
  | nil => simp [outlines]
  | cons uses entries ih =>
      rw [outlines, List.mem_append, ih]
      constructor
      · rintro (h | ⟨i, uses', hi, hne, rfl⟩)
        · split at h
          · cases h
          · rename_i hne
            exact ⟨0, uses, rfl, by simpa using hne, List.mem_singleton.mp h⟩
        · refine ⟨i + 1, uses', hi, hne, ?_⟩
          rw [Nat.add_assoc, Nat.add_comm 1 i]
      · rintro ⟨i, uses', hi, hne, rfl⟩
        cases i with
        | zero =>
            cases hi
            exact .inl (by simp [hne])
        | succ i =>
            refine .inr ⟨i, uses', hi, hne, ?_⟩
            rw [Nat.add_assoc, Nat.add_comm 1 i]

theorem outlines_ordered (case : Nat) (entries : List (List Environment)) :
    ((outlines case entries).map Call.case).Pairwise (· < ·) := by
  induction entries generalizing case with
  | nil => exact .nil
  | cons uses entries ih =>
      rw [outlines]
      split
      · exact ih (case + 1)
      · rw [List.singleton_append, List.map_cons, List.pairwise_cons]
        refine ⟨fun later hlater => ?_, ih (case + 1)⟩
        obtain ⟨call, hcall, rfl⟩ := List.mem_map.mp hlater
        obtain ⟨i, uses', -, -, rfl⟩ := mem_outlines.mp hcall
        simp only [callOf]
        omega

theorem length_outlines (case : Nat) (entries : List (List Environment)) :
    (outlines case entries).length = entries.countP fun uses => !uses.isEmpty := by
  induction entries generalizing case with
  | nil => rfl
  | cons uses entries ih =>
      rw [outlines, List.length_append, ih, List.countP_cons]
      cases uses.isEmpty with
      | true => simp
      | false => simp [Nat.add_comm]

theorem sum_uses_outlines (case : Nat) (entries : List (List Environment)) :
    ((outlines case entries).map Call.uses).sum = entries.flatten.length := by
  induction entries generalizing case with
  | nil => rfl
  | cons uses entries ih =>
      rw [outlines, List.map_append, List.sum_append, ih, List.flatten_cons, List.length_append]
      cases uses with
      | nil => rfl
      | cons use uses => rfl

/-- A call that a table leads to is for a case with uses. -/
theorem eq_callOf_of_mem {table : UseTable} {call : Call Name}
    (h : call ∈ outlines 0 table.entries) :
    call = callOf call.case (table.uses call.case) := by
  obtain ⟨i, uses, hi, -, rfl⟩ := mem_outlines.mp h
  rw [Nat.zero_add, callOf, UseTable.uses_of_getElem? hi]
  rfl

theorem mem_cases_outlines {table : UseTable} {case : Nat} :
    case ∈ (outlines 0 table.entries).map Call.case ↔ table.isReached case = true := by
  rw [List.mem_map, UseTable.isReached, Bool.not_eq_true', List.isEmpty_eq_false_iff]
  constructor
  · rintro ⟨call, hcall, rfl⟩
    obtain ⟨i, uses, hi, hne, rfl⟩ := mem_outlines.mp hcall
    rw [Nat.zero_add, callOf, UseTable.uses_of_getElem? hi]
    exact hne
  · intro hne
    refine ⟨callOf case (table.uses case),
      mem_outlines.mpr ⟨case, table.uses case, ?_, hne, ?_⟩, rfl⟩
    · cases hentry : table.entries[case]? with
      | none =>
          rw [UseTable.uses, hentry] at hne
          exact absurd rfl hne
      | some uses => rw [UseTable.uses_of_getElem? hentry]
    · rw [Nat.zero_add]

end Site

theorem unreachableCases_eq (uses : UseTable) (case : Nat) (cases : List (Case σ ε κ)) :
    unreachableCases uses case cases =
      ((cases.zipIdx case).filter fun c => !uses.isReached c.2 && !c.1.allowUnreachable).map
        fun c => ⟨c.2, c.1.pattern⟩ := by
  induction cases generalizing case with
  | nil => rfl
  | cons c cases ih =>
      rw [unreachableCases, ih, List.zipIdx_cons, List.filter_cons]
      cases uses.isReached case with
      | true => rfl
      | false =>
          cases c.allowUnreachable with
          | true => rfl
          | false => rfl

/-- The calls made by a compilation, the sizes it reports and its warnings, all accounted for by the
leaves of the tree of its plan. -/
structure Plan.Accounts [BEq ε] (options : Options) (mentions : ε → Name → Bool)
    (cases : List (Case σ ε κ)) (plan : Plan ε) (calls : List (Call ε)) (compiled : Compiled ε κ) :
    Prop where
  /-- Every case is called at most once, in case order. -/
  ordered : (calls.map Call.case).Pairwise (· < ·)
  /-- The cases that are called are those with a leaf. -/
  called : ∀ case, case ∈ calls.map Call.case ↔ ∃ use, (case, use) ∈ plan.decision.leaves
  uses : ∀ call ∈ calls, (call.uses : ℕ∞) =
    (plan.contexts options mentions (cases.map Case.pattern) call.case).encard
  nodup : ∀ call ∈ calls, (call.handed.map Variable.name).Nodup
  handed : ∀ call ∈ calls, ∀ x, x ∈ call.handed.map Variable.name ↔
    ∃ context ∈ plan.contexts options mentions (cases.map Case.pattern) call.case, context x ≠ none
  shared : ∀ call ∈ calls, ∀ v ∈ call.handed, v.shared = true ↔
    ∃ subject, ∀ context ∈ plan.contexts options mentions (cases.map Case.pattern) call.case,
      context v.name = some subject
  reached : compiled.stats.reached = calls.length
  useCount : compiled.stats.uses = (calls.map Call.uses).sum
  warnings : compiled.warnings = if options.warnUnreachable then
      (cases.zipIdx.filter fun c => c.2 ∉ calls.map Call.case && !c.1.allowUnreachable).map
        fun c => ⟨c.2, c.1.pattern⟩
    else []

theorem Plan.Recorded.mem_contexts [BEq ε] {options : Options} {mentions : ε → Name → Bool}
    {patterns : List (Pattern ε)} {plan : Plan ε} (h : plan.Recorded options mentions patterns)
    {case : Nat} {context : Name → Option Name} :
    context ∈ plan.contexts options mentions patterns case ↔
      ∃ use ∈ plan.uses.uses case, use.subject? = context := by
  rw [← h.contexts]
  exact List.mem_map

section

variable {e : Emitter σ ε κ} {calls : List (Call ε)} {table : UseTable}
  (hcalls : List.Forall₂ (Call.Alike e.Reads) (Site.outlines 0 table.entries) calls)

include hcalls

theorem Site.map_case_calls : (Site.outlines 0 table.entries).map Call.case = calls.map Call.case :=
  map_eq_of_forall₂ (fun _ _ h => h.case) hcalls

theorem Site.callOf_alike {call : Call ε} (hcall : call ∈ calls) :
    (callOf call.case (table.uses call.case)).Alike e.Reads call := by
  obtain ⟨outline, houtline, halike⟩ := exists_of_mem_of_forall₂ hcalls hcall
  rw [← halike.case, ← eq_callOf_of_mem houtline]
  exact halike

theorem Site.names_of_mem {call : Call ε} (hcall : call ∈ calls) :
    call.handed.map Variable.name = variableNames (table.uses call.case) := by
  rw [← map_eq_of_forall₂ (fun _ _ h => h.name) (callOf_alike hcalls hcall).handed, callOf,
    List.map_map]
  exact List.map_id _

theorem Site.shared_of_mem {call : Call ε} (hcall : call ∈ calls) {v : Variable ε}
    (hv : v ∈ call.handed) : v.shared = isShared (table.uses call.case) v.name := by
  obtain ⟨outline, houtline, halike⟩ :=
    exists_of_mem_of_forall₂ (callOf_alike hcalls hcall).handed hv
  obtain ⟨x, -, rfl⟩ := List.mem_map.mp houtline
  rw [← halike.shared, ← halike.name]
  rfl

end

/-- What the uses of a plan lead to is accounted for by the leaves of its tree. -/
theorem Plan.Recorded.accounts [BEq ε] {options : Options} {mentions : ε → Name → Bool}
    {cases : List (Case σ ε κ)} {plan : Plan ε}
    (h : plan.Recorded options mentions (cases.map Case.pattern)) {e : Emitter σ ε κ}
    {calls : List (Call ε)}
    (hcalls : List.Forall₂ (Call.Alike e.Reads) (Site.outlines 0 plan.uses.entries) calls)
    {compiled : Compiled ε κ} {lowering : Lowering}
    (hwarnings : compiled.warnings =
      if options.warnUnreachable then unreachableCases plan.uses 0 cases else [])
    (hstats : compiled.stats = plan.stats cases.length lowering) :
    plan.Accounts options mentions cases calls compiled where
  ordered := by
    rw [← Site.map_case_calls hcalls]
    exact Site.outlines_ordered 0 _
  called case := by
    rw [← Site.map_case_calls hcalls, Site.mem_cases_outlines]
    exact h.isReached_iff case
  uses call hcall := by
    have huses : call.uses = (plan.uses.uses call.case).length :=
      (Site.callOf_alike hcalls hcall).uses.symm
    rw [huses, h.distinct.length_eq_encard, h.contexts]
  nodup call hcall := by
    rw [Site.names_of_mem hcalls hcall]
    exact nodup_eraseDups _
  handed call hcall x := by
    rw [Site.names_of_mem hcalls hcall, Site.mem_variableNames]
    constructor
    · rintro ⟨use, huse, hx⟩
      exact ⟨use.subject?, h.mem_contexts.mpr ⟨use, huse, rfl⟩, (use.mem_names_iff x).mp hx⟩
    · rintro ⟨context, hcontext, hx⟩
      obtain ⟨use, huse, rfl⟩ := h.mem_contexts.mp hcontext
      exact ⟨use, huse, (use.mem_names_iff x).mpr hx⟩
  shared call hcall v hv := by
    have hname : v.name ∈ Site.variableNames (plan.uses.uses call.case) :=
      Site.names_of_mem hcalls hcall ▸ List.mem_map_of_mem hv
    rw [Site.shared_of_mem hcalls hcall hv, Site.isShared_iff hname]
    refine exists_congr fun subject => ?_
    constructor
    · intro hall context hcontext
      obtain ⟨use, huse, rfl⟩ := h.mem_contexts.mp hcontext
      exact hall use huse
    · intro hall use huse
      exact hall _ (h.mem_contexts.mpr ⟨use, huse, rfl⟩)
  reached := by
    rw [hstats, ← hcalls.length_eq, Site.length_outlines]
    rfl
  useCount := by
    rw [hstats, ← map_eq_of_forall₂ (fun _ _ h => h.uses) hcalls, Site.sum_uses_outlines]
    rfl
  warnings := by
    have hreached (case : Nat) :
        decide (case ∉ calls.map Call.case) = !plan.uses.isReached case := by
      rw [Bool.eq_iff_iff, decide_eq_true_eq, ← Site.map_case_calls hcalls, Site.mem_cases_outlines,
        Bool.not_eq_true', Bool.not_eq_true]
    rw [hwarnings, unreachableCases_eq]
    simp only [hreached]

/-! ## Compilations -/

theorem Case.map_pattern_watchedFrom (case : Nat) (cases : List (Case σ ε κ)) :
    (Case.watchedFrom case cases).map Case.pattern = cases.map Case.pattern := by
  induction cases generalizing case with
  | nil => rfl
  | cons c cases ih => rw [Case.watchedFrom, List.map_cons, List.map_cons, ih]; rfl

theorem unreachableCases_watchedFrom (uses : UseTable) (case : Nat) (cases : List (Case σ ε κ)) :
    unreachableCases uses case (Case.watchedFrom case cases) =
      unreachableCases uses case cases := by
  induction cases generalizing case with
  | nil => rfl
  | cons c cases ih => rw [Case.watchedFrom, unreachableCases, unreachableCases, ih]; rfl

theorem Case.length_watchedFrom (case : Nat) (cases : List (Case σ ε κ)) :
    (Case.watchedFrom case cases).length = cases.length := by
  have hlength := congrArg List.length (Case.map_pattern_watchedFrom case cases)
  rwa [List.length_map, List.length_map] at hlength

/-- Watching a compilation changes nothing but that the calls of generators are known then. -/
theorem compileWellFormed_watched [BEq ε] (e : Emitter σ ε κ) (options : Options) (subject : ε)
    (cases : List (Case σ ε κ)) (session : Session σ) :
    ∃ calls : List (Call ε),
      compileWellFormed e.watched options subject (Case.watchedFrom 0 cases) (session.watched []) =
        ((compileWellFormed e options subject cases session).1,
          (compileWellFormed e options subject cases session).2.watched calls) ∧
      List.Forall₂ (Call.Alike e.Reads) (Site.outlines 0 (Plan.ofPatterns options e.mentions
        (cases.map Case.pattern) session.names).1.uses.entries) calls := by
  have hrecorded := Plan.ofPatterns_recorded options e.mentions (cases.map Case.pattern)
    session.names
  rw [compileWellFormed_eq, compileWellFormed_eq, Case.map_pattern_watchedFrom]
  have hsame : Plan.ofPatterns options e.watched.mentions (cases.map Case.pattern)
      (session.watched ([] : List (Call ε))).names =
        Plan.ofPatterns options e.mentions (cases.map Case.pattern) session.names := rfl
  rw [hsame]
  generalize Plan.ofPatterns options e.mentions (cases.map Case.pattern) session.names =
    planned at hrecorded ⊢
  have hlength : planned.1.uses.entries.length = cases.length := by
    rw [hrecorded.length, List.length_map]
  obtain ⟨calls, hemit, hcalls⟩ := Plan.emit_watched e subject hlength
    { session with names := planned.2 } []
  refine ⟨calls, ?_, hcalls⟩
  have hsession : { session.watched ([] : List (Call ε)) with names := planned.2 } =
      Session.watched { session with names := planned.2 } [] := rfl
  dsimp only
  rw [hsession, hemit, unreachableCases_watchedFrom, Case.length_watchedFrom]
  rfl

theorem compile_watched [BEq ε] (e : Emitter σ ε κ) (options : Options) (subject : ε)
    {cases : List (Case σ ε κ)} (hwell : ∀ c ∈ cases, c.pattern.isWellFormed = true)
    (session : Session σ) :
    ∃ calls : List (Call ε),
      compile e options subject cases session =
        (.ok (compileWellFormed e options subject cases session).1,
          (compileWellFormed e options subject cases session).2) ∧
      compile e.watched options subject (Case.watchedFrom 0 cases) (session.watched []) =
        (.ok (compileWellFormed e options subject cases session).1,
          (compileWellFormed e options subject cases session).2.watched calls) ∧
      List.Forall₂ (Call.Alike e.Reads) (Site.outlines 0 (Plan.ofPatterns options e.mentions
        (cases.map Case.pattern) session.names).1.uses.entries) calls := by
  have hnone : firstMalformed? 0 (cases.map Case.pattern) = none :=
    firstMalformed?_eq_none (List.forall_mem_map.mpr hwell) 0
  obtain ⟨calls, hwatched, hcalls⟩ := compileWellFormed_watched e options subject cases session
  refine ⟨calls, compile_of_firstMalformed? hnone, ?_, hcalls⟩
  rw [compile_of_firstMalformed? (Case.map_pattern_watchedFrom 0 cases ▸ hnone), hwatched]

/-- Every generator is called at most once, in case order, and the calls, the sizes and the warnings
are accounted for by the leaves of the decision tree. -/
theorem generator_calls_accounted [BEq ε] (e : Emitter σ ε κ) (options : Options) (subject : ε)
    {cases : List (Case σ ε κ)} (hwell : ∀ c ∈ cases, c.pattern.isWellFormed = true)
    (session : Session σ) :
    ∃ compiled session' calls,
      compile e options subject cases session = (.ok compiled, session') ∧
      compile e.watched options subject (Case.watchedFrom 0 cases) (session.watched []) =
        (.ok compiled, session'.watched calls) ∧
      (Plan.ofPatterns options e.mentions (cases.map Case.pattern) session.names).1.Accounts options
        e.mentions cases calls compiled := by
  obtain ⟨calls, hcompile, hwatched, hcalls⟩ := compile_watched e options subject hwell session
  refine ⟨_, _, calls, hcompile, hwatched, ?_⟩
  exact (Plan.ofPatterns_recorded options e.mentions (cases.map Case.pattern)
    session.names).accounts hcalls rfl rfl

theorem generator_calls_accounted_of_alternatives :
    ∃ compiled session' calls,
      compile (formEmitter (Vocabulary.intern .initial).1.operators) {} (.int 3)
        [⟨.or [.literal (.int 3), .bind ⟨7⟩], fun _ _ => return .nil, false⟩,
          ⟨.wildcard, fun _ _ => return .nil, false⟩]
        ⟨⟨.initial, 0⟩, ⟨0⟩⟩ = (.ok compiled, session') ∧
      compile (formEmitter (Vocabulary.intern .initial).1.operators).watched {} (.int 3)
        (Case.watchedFrom 0 [⟨.or [.literal (.int 3), .bind ⟨7⟩], fun _ _ => return .nil, false⟩,
          ⟨.wildcard, fun _ _ => return .nil, false⟩])
        (Session.watched ⟨⟨.initial, 0⟩, ⟨0⟩⟩ []) = (.ok compiled, session'.watched calls) ∧
      (Plan.ofPatterns {} (fun f x => f.mentions x)
        [.or [.literal (.int 3), .bind ⟨7⟩], .wildcard] ⟨.initial, 0⟩).1.Accounts {}
        (fun f x => f.mentions x)
        [⟨.or [.literal (.int 3), .bind ⟨7⟩], fun _ _ => return .nil, false⟩,
          (⟨.wildcard, fun _ _ => return .nil, false⟩ : Case ObjectSupply Form Form)]
        calls compiled := by
  refine generator_calls_accounted (formEmitter (Vocabulary.intern .initial).1.operators) {} (.int 3)
    (fun c hc => ?_) ⟨⟨.initial, 0⟩, ⟨0⟩⟩
  rcases List.mem_pair.mp hc with rfl | rfl
  · rfl
  · rfl

end PatternCompiler
