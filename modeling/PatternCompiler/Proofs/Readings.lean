import PatternCompiler.Proofs.Arrival
import PatternCompiler.Proofs.HookCalls

/-!
# Readings

A hook for a predicate, a guard or an application reads the variables that it is handed with its
expression. What the log of a compilation reads comes from the tree of its plan: every test reads
the variables of its bindings, in their order, and so does every projection that is kept. Bodies and
sites read nothing.
-/

namespace PatternCompiler

set_option autoImplicit false

variable {σ ε κ α β : Type}

/-! ## Readings in the log -/

namespace HookCall

/-- The variables handed over with an expression of a pattern, each with what holds its value. -/
def readings : HookCall ε → List (Name × ε)
  | predicateTest _ _ bindings | guardTest _ bindings | apply _ _ bindings => bindings
  | var _ | equalityTest .. | membershipTest .. | sameValueTest .. | cond | letIn _ | noMatch
  | unboundValue => []

/-- Nothing is read where nothing is tested or applied. -/
theorem Counted.flatMap_readings {calls : List (HookCall ε)} {conds lets : Nat}
    (h : Counted calls 0 conds 0 lets) : calls.flatMap readings = [] := by
  refine List.flatMap_eq_nil_iff.mpr fun call hcall => ?_
  have htest := List.countP_eq_zero.mp h.tests call hcall
  have happly := List.countP_eq_zero.mp h.applies call hcall
  cases call with
  | predicateTest | guardTest => exact absurd rfl htest
  | apply => exact absurd rfl happly
  | var | equalityTest | membershipTest | sameValueTest | cond | letIn | noMatch | unboundValue =>
      rfl

end HookCall

open HookCall (Counted readings)

/-- The variable of a binding, handed over with what the emitter writes for its subject. -/
structure Emitter.Hands (e : Emitter σ ε κ) (pair : Name × Name) (reading : Name × ε) : Prop where
  name : pair.1 = reading.1
  value : e.Reads pair.2 reading.2

namespace LowerM

/-- Calls are added to the log, and `made` holds of what is read in them. -/
def Reveals (plain : LowerM σ α) (logged : LowerM (Logged σ ε) α)
    (made : α → List (Name × ε) → Prop) : Prop :=
  ∀ l, Logs Logged.mk (plain l) (logged l) fun result calls =>
    made result.1 (calls.flatMap readings)

namespace Reveals

variable {m : LowerM σ α} {m' : LowerM (Logged σ ε) α} {f : α → LowerM σ β}
  {f' : α → LowerM (Logged σ ε) β} {made : α → List (Name × ε) → Prop}
  {made' : β → List (Name × ε) → Prop}

theorem pure {a : α} (h : made a []) :
    Reveals (pure a : LowerM σ α) (pure a : LowerM (Logged σ ε) α) made :=
  fun _ => Logs.pure h

theorem mono {made' : α → List (Name × ε) → Prop} (h : Reveals m m' made)
    (hmade : ∀ a seen, made a seen → made' a seen) : Reveals m m' made' :=
  fun l => (h l).mono fun _ _ => hmade _ _

theorem also {R : α → Prop} (h : Reveals m m' made) (hR : ∀ l s, R (m l s).1.1) :
    Reveals m m' fun a seen => R a ∧ made a seen :=
  fun l => (h l).also (R := fun result => R result.1) (hR l)

theorem bind (h : Reveals m m' made)
    (hf : ∀ a seen, made a seen → Reveals (f a) (f' a) fun b more => made' b (seen ++ more)) :
    Reveals (m >>= f) (m' >>= f') made' := by
  intro l
  change Logs Logged.mk (m l >>= fun result => f result.1 result.2)
    (m' l >>= fun result => f' result.1 result.2) _
  refine (h l).bind ?_
  rintro ⟨a, l'⟩ calls hcalls
  refine (hf a _ hcalls l').mono fun _ _ hmore => ?_
  rw [List.flatMap_append]
  exact hmore

theorem of_makes {conds lets : Nat} (h : Makes m m' 0 conds 0 lets) :
    Reveals m m' fun _ seen => seen = [] :=
  fun l => (h l).mono fun _ _ hcalls => hcalls.2.flatMap_readings

/-- The first action reads nothing. -/
theorem after (h : Reveals m m' fun _ seen => seen = [])
    (hf : ∀ a, Reveals (f a) (f' a) made') : Reveals (m >>= f) (m' >>= f') made' := by
  refine h.bind fun a seen hseen => ?_
  subst hseen
  exact hf a

theorem get : Reveals (get : LowerM σ Lowering) (get : LowerM (Logged σ ε) Lowering)
    fun _ seen => seen = [] :=
  fun _ => Logs.pure rfl

theorem hook (m : StateM σ α) (call : HookCall ε) (h : ∀ a, made a call.readings) :
    Reveals (liftM m : LowerM σ α)
      (liftM (do Logged.record call; Logged.within m : StateM (Logged σ ε) α) :
        LowerM (Logged σ ε) α) made := by
  refine fun l target log => ⟨[call], rfl, ?_⟩
  change made _ ([call].flatMap readings)
  rw [List.flatMap_singleton]
  exact h _

end Reveals

theorem bindings_hands (e : Emitter σ ε κ) (pairs : List (Name × Name)) (l : Lowering) (s : σ) :
    List.Forall₂ e.Hands pairs (bindings e pairs l s).1.1 := by
  induction pairs generalizing l s with
  | nil => exact .nil
  | cons p pairs ih =>
      rw [bindings, List.mapM_cons]
      exact .cons ⟨rfl, s, rfl⟩ (ih _ _)

/-- The bindings of an expression are made without reading anything. -/
theorem reveals_bindings (e : Emitter σ ε κ) (pairs : List (Name × Name))
    {f : List (Name × ε) → LowerM σ β} {f' : List (Name × ε) → LowerM (Logged σ ε) β}
    {made : β → List (Name × ε) → Prop}
    (hf : ∀ bindings, List.Forall₂ e.Hands pairs bindings →
      Reveals (f bindings) (f' bindings) made) :
    Reveals (bindings e pairs >>= f) (bindings e.logged pairs >>= f') made := by
  refine ((Reveals.of_makes (.bindings e pairs)).also (bindings_hands e pairs)).bind ?_
  rintro bindings seen ⟨hbindings, rfl⟩
  exact hf bindings hbindings

end LowerM

open LowerM (Reveals)

/-- The code of a test reads the variables of its bindings, in their order. -/
theorem Test.lower_reveals (e : Emitter σ ε κ) (test : Test ε) :
    Reveals (test.lower e) (test.lower e.logged) fun _ seen =>
      List.Forall₂ e.Hands test.pairs seen := by
  have hreads (subjects : List Name) : Reveals (LowerM.reads subjects : LowerM σ Unit)
      (LowerM.reads subjects : LowerM (Logged σ ε) Unit) fun _ seen => seen = [] :=
    .of_makes (.reads subjects)
  have hvar (x : Name) : Reveals (e.var x : LowerM σ ε) (e.logged.var x : LowerM (Logged σ ε) ε)
      fun _ seen => seen = [] := .of_makes (.lift (e.var_makes x))
  cases test with
  | equal subject literal eqv =>
      exact .after (hreads _) fun _ => .after (hvar subject) fun expr =>
        .hook _ (.equalityTest expr literal eqv) fun _ => .nil
  | member subject set eqv =>
      exact .after (hreads _) fun _ => .after (hvar subject) fun expr =>
        .hook _ (.membershipTest expr set eqv) fun _ => .nil
  | sameAs subject other =>
      exact .after (hreads _) fun _ => .after (hvar subject) fun a => .after (hvar other) fun b =>
        .hook _ (.sameValueTest a b) fun _ => .nil
  | predicate subject func pairs =>
      exact .after (hreads _) fun _ => LowerM.reveals_bindings e pairs fun bindings hbindings =>
        .after (hvar subject) fun expr =>
          .hook _ (.predicateTest func expr bindings) fun _ => hbindings
  | guard expr pairs =>
      exact .after (hreads _) fun _ => LowerM.reveals_bindings e pairs fun bindings hbindings =>
        .hook _ (.guardTest expr bindings) fun _ => hbindings

theorem Emitter.Hands.mem_names {e : Emitter σ ε κ} {pairs : List (Name × Name)}
    {seen : List (Name × ε)} (h : List.Forall₂ e.Hands pairs seen) :
    ∀ r ∈ seen, r.1 ∈ pairs.map Prod.fst := by
  intro r hr
  obtain ⟨pair, hpair, hhands⟩ := exists_of_mem_of_forall₂ h hr
  exact hhands.name ▸ List.mem_map_of_mem hpair

/-- The code of a tree reads no variables but those that its expressions see. -/
theorem Decision.lower_reveals (e : Emitter σ ε κ) (sites : List (List (Site κ)))
    (decision : Decision ε) :
    Reveals (decision.lower e sites) (decision.lower e.logged sites) fun _ seen =>
      ∀ r ∈ seen, r.1 ∈ decision.binders := by
  have hnothing {m : LowerM σ κ} {m' : LowerM (Logged σ ε) κ} {conds lets : Nat}
      (h : LowerM.Makes m m' 0 conds 0 lets) (names : List Name) :
      Reveals m m' fun _ seen => ∀ r ∈ seen, r.1 ∈ names :=
    (Reveals.of_makes h).mono fun _ seen hseen r hr => by
      rw [hseen] at hr
      cases hr
  have hnoMatch : LowerM.Makes (e.noMatch : LowerM σ κ) (e.logged.noMatch : LowerM (Logged σ ε) κ)
      0 0 0 0 := .lift (.hook _ ⟨rfl, rfl, rfl, rfl⟩)
  induction decision with
  | fail => exact hnothing hnoMatch _
  | leaf case use =>
      simp only [lower]
      cases siteAt? sites case use with
      | none => exact hnothing hnoMatch _
      | some site => exact hnothing ((LowerM.Makes.reads _).after fun _ => .pure _) _
  | test asked yes no ihyes ihno =>
      rw [lower, lower]
      refine ihyes.bind fun codeYes seenYes hyes => ihno.bind fun codeNo seenNo hno =>
        (asked.lower_reveals e).bind fun code seen hasked =>
          (Reveals.of_makes (.lift (e.cond_makes code codeYes codeNo))).mono fun _ last hlast => ?_
      have hseen := Emitter.Hands.mem_names hasked
      rw [hlast, List.append_nil]
      simp only [binders, List.mem_append]
      rintro r (hr | hr | hr)
      · exact .inl (.inr (hyes r hr))
      · exact .inr (hno r hr)
      · exact .inl (.inl (hseen r hr))
  | project fresh func subject pairs body ih =>
      rw [lower, lower]
      refine ih.bind fun code seenBody hbody => .after .get fun l => ?_
      split
      · refine .after (.of_makes (.reads [subject])) fun _ =>
          LowerM.reveals_bindings e pairs fun bindings hbindings =>
          .after (.of_makes (.lift (e.var_makes subject))) fun expr =>
          Reveals.bind (.hook _ (.apply func expr bindings) fun _ => hbindings)
            fun value seen hseen => (Reveals.of_makes
              (.lift (e.letIn_makes [(fresh, value)] code))).mono fun _ last hlast => ?_
        have hpairs := Emitter.Hands.mem_names hseen
        rw [hlast, List.append_nil]
        exact List.forall_mem_append.mpr ⟨fun r hr => List.mem_append_right _ (hbody r hr),
          fun r hr => List.mem_append_left _ (hpairs r hr)⟩
      · refine .after (fun _ => Logs.pure rfl) fun _ => .pure ?_
        rw [List.append_nil]
        exact fun r hr => List.mem_append_right _ (hbody r hr)

/-- The code of a tree reads what its first test reads. -/
theorem Decision.lower_test_reveals (e : Emitter σ ε κ) (sites : List (List (Site κ)))
    (asked : Test ε) (yes no : Decision ε) :
    Reveals ((test asked yes no).lower e sites) ((test asked yes no).lower e.logged sites)
      fun _ seen => ∀ pair ∈ asked.pairs, ∃ r ∈ seen, e.Hands pair r := by
  rw [lower, lower]
  refine (yes.lower_reveals e sites).bind fun codeYes seenYes _ =>
    (no.lower_reveals e sites).bind fun codeNo seenNo _ =>
      (asked.lower_reveals e).bind fun code seen hasked =>
        (Reveals.of_makes (.lift (e.cond_makes code codeYes codeNo))).mono fun _ last _ => ?_
  intro pair hpair
  obtain ⟨r, hr, hhands⟩ := exists_of_mem_of_forall₂ hasked.flip hpair
  exact ⟨r, List.mem_append_right _ (List.mem_append_right _ (List.mem_append_left _ hr)), hhands⟩

/-- Whatever is read in the code of the tree is read in the code of the plan, and nothing else. -/
theorem Plan.emit_reveals (e : Emitter σ ε κ) (subject : ε) {generators : List (Generator σ ε κ)}
    {plan : Plan ε} (hlength : plan.uses.entries.length = generators.length)
    {made : List (Name × ε) → Prop}
    (hlower : ∀ sites, Reveals (plan.decision.lower e sites) (plan.decision.lower e.logged sites)
      fun _ => made) :
    Logs Session.logged (plan.emit e subject generators)
      (plan.emit e.logged subject (generators.map Generator.logged)) fun _ log =>
        made (log.flatMap readings) := by
  refine Logs.bind (Site.ofTable_makes e hlength 0) fun sites placed hplaced => ?_
  refine Logs.bind (Logs.emit (hlower sites .empty)) ?_
  rintro ⟨body, lowering⟩ lowered hlowered
  refine Logs.bind (Logs.emit (e.letIn_makes [(plan.root, subject)] body)) fun code last hlast => ?_
  refine Logs.pure ?_
  rw [List.append_nil, List.flatMap_append, List.flatMap_append, hplaced.flatMap_readings,
    hlast.flatMap_readings, List.append_nil]
  exact hlowered

end PatternCompiler
