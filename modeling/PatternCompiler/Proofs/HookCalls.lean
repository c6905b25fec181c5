import PatternCompiler.Proofs.Invocations

/-!
# Calls of hooks

A compilation can be logged: its target then keeps a list of the hooks that the compiler calls.
Bodies are generated on the plain target, so what they emit themselves, by a compilation of their
own for example, is not in the list. Logging changes nothing else, and the list is accounted for by
the sizes that are reported: every test of the tree is made once and has one conditional, every
projection is applied and bound once or left out, and the sites that bind variables do so once.
-/

namespace PatternCompiler

set_option autoImplicit false

variable {σ ε κ α β : Type}

/-! ## What is counted -/

namespace HookCall

def isTest : HookCall ε → Bool
  | equalityTest .. | membershipTest .. | sameValueTest .. | predicateTest .. | guardTest .. => true
  | var _ | apply .. | cond | letIn _ | noMatch | unboundValue => false

def isCond : HookCall ε → Bool
  | cond => true
  | _ => false

def isApply : HookCall ε → Bool
  | apply .. => true
  | _ => false

def isLet : HookCall ε → Bool
  | letIn _ => true
  | _ => false

/-- The calls have so many tests, conditionals, projections and bindings among them. -/
structure Counted (calls : List (HookCall ε)) (tests conds applies lets : Nat) : Prop where
  tests : calls.countP isTest = tests
  conds : calls.countP isCond = conds
  applies : calls.countP isApply = applies
  lets : calls.countP isLet = lets

theorem counted_nil : Counted ([] : List (HookCall ε)) 0 0 0 0 := ⟨rfl, rfl, rfl, rfl⟩

theorem Counted.append {calls more : List (HookCall ε)} {t t' c c' a a' b b' : Nat}
    (h : Counted calls t c a b) (h' : Counted more t' c' a' b') :
    Counted (calls ++ more) (t + t') (c + c') (a + a') (b + b') where
  tests := by rw [List.countP_append, h.tests, h'.tests]
  conds := by rw [List.countP_append, h.conds, h'.conds]
  applies := by rw [List.countP_append, h.applies, h'.applies]
  lets := by rw [List.countP_append, h.lets, h'.lets]

theorem Counted.prepend {calls more : List (HookCall ε)} {t c a b : Nat}
    (h : Counted calls 0 0 0 0) (h' : Counted more t c a b) : Counted (calls ++ more) t c a b := by
  simpa only [Nat.zero_add] using h.append h'

end HookCall

open HookCall (Counted counted_nil)

/-! ## Logged compilations -/

/-- A target with the hooks called so far. -/
structure Logged (σ ε : Type) where
  target : σ
  log : List (HookCall ε)

namespace Logged

/-- An action on the target alone. -/
def within (action : StateM σ α) : StateM (Logged σ ε) α := fun w =>
  ((action w.target).1, { w with target := (action w.target).2 })

def record (call : HookCall ε) : StateM (Logged σ ε) Unit :=
  modify fun w => { w with log := w.log ++ [call] }

end Logged

/-- The same hooks on a logged target. -/
def Emitter.logged (e : Emitter σ ε κ) : Emitter (Logged σ ε) ε κ :=
  (e.lift Logged.within).traced Logged.record

/-- The session of a logged compilation with these hooks called so far. -/
def Session.logged (session : Session σ) (log : List (HookCall ε)) : Session (Logged σ ε) :=
  ⟨session.names, ⟨session.target, log⟩⟩

/-- The generator, on the plain target. -/
def Generator.logged (g : Generator σ ε κ) : Generator (Logged σ ε) ε κ :=
  fun handed uses session =>
    let (body, after) := g handed uses ⟨session.names, session.target.target⟩
    (body, after.logged session.target.log)

def Case.logged (c : Case σ ε κ) : Case (Logged σ ε) ε κ :=
  ⟨c.pattern, Generator.logged c.generator, c.allowUnreachable⟩

/-! ## Actions that log -/

section Logs

variable {S S' : Type} {within : S → List (HookCall ε) → S'}

/-- With a log, the same is done, and calls are added of which `made` holds. -/
def Logs (within : S → List (HookCall ε) → S') (plain : StateM S α) (logged : StateM S' α)
    (made : α → List (HookCall ε) → Prop) : Prop :=
  ∀ s log, ∃ calls, logged (within s log) = ((plain s).1, within (plain s).2 (log ++ calls)) ∧
    made (plain s).1 calls

namespace Logs

variable {m : StateM S α} {m' : StateM S' α} {f : α → StateM S β} {f' : α → StateM S' β}
  {made : α → List (HookCall ε) → Prop} {made' : β → List (HookCall ε) → Prop}

theorem pure {a : α} (h : made a []) : Logs within (pure a) (pure a) made := by
  intro s log
  refine ⟨[], ?_, h⟩
  rw [List.append_nil]
  rfl

theorem bind (h : Logs within m m' made)
    (hf : ∀ a calls, made a calls →
      Logs within (f a) (f' a) fun b more => made' b (calls ++ more)) :
    Logs within (m >>= f) (m' >>= f') made' := by
  intro s log
  obtain ⟨calls, hm, hmade⟩ := h s log
  obtain ⟨more, hmore, hmade'⟩ := hf _ calls hmade (m s).2 (log ++ calls)
  refine ⟨calls ++ more, ?_, hmade'⟩
  rw [← List.append_assoc]
  change f' (m' (within s log)).1 (m' (within s log)).2 = _
  rw [hm, hmore]
  rfl

/-- What is known about every result may be used. -/
theorem also {R : α → Prop} (h : Logs within m m' made) (hR : ∀ s, R (m s).1) :
    Logs within m m' fun a calls => R a ∧ made a calls := by
  intro s log
  obtain ⟨calls, hm, hcalls⟩ := h s log
  exact ⟨calls, hm, hR s, hcalls⟩

theorem mono {made' : α → List (HookCall ε) → Prop} (h : Logs within m m' made)
    (hmade : ∀ a calls, made a calls → made' a calls) : Logs within m m' made' := by
  intro s log
  obtain ⟨calls, hm, hcalls⟩ := h s log
  exact ⟨calls, hm, hmade _ _ hcalls⟩

theorem emit {m : StateM σ α} {m' : StateM (Logged σ ε) α} (h : Logs Logged.mk m m' made) :
    Logs Session.logged (Session.emit m) (Session.emit m') made := by
  intro session log
  obtain ⟨calls, hm, hcalls⟩ := h session.target log
  refine ⟨calls, ?_, hcalls⟩
  change ((m' ⟨session.target, log⟩).1, Session.mk session.names (m' ⟨session.target, log⟩).2) = _
  rw [hm]
  rfl

end Logs

/-- Calls of these numbers are added to the log. -/
def Makes (within : S → List (HookCall ε) → S') (plain : StateM S α) (logged : StateM S' α)
    (tests conds applies lets : Nat) : Prop :=
  Logs within plain logged fun _ calls => Counted calls tests conds applies lets

namespace Makes

variable {m : StateM S α} {m' : StateM S' α} {f : α → StateM S β} {f' : α → StateM S' β}
  {t t' c c' a a' b b' : Nat}

theorem pure (x : α) : Makes within (pure x) (pure x) 0 0 0 0 := Logs.pure counted_nil

theorem bind (h : Makes within m m' t c a b)
    (hf : ∀ x, Makes within (f x) (f' x) t' c' a' b') :
    Makes within (m >>= f) (m' >>= f') (t + t') (c + c') (a + a') (b + b') :=
  Logs.bind h fun x _ hcalls => (hf x).mono fun _ _ hmore => hcalls.append hmore

theorem after (h : Makes within m m' 0 0 0 0) (hf : ∀ x, Makes within (f x) (f' x) t c a b) :
    Makes within (m >>= f) (m' >>= f') t c a b := by
  simpa only [Nat.zero_add] using h.bind hf

theorem mapM (hf : ∀ x, Makes within (f x) (f' x) 0 0 0 b) (xs : List α) :
    Makes within (xs.mapM f) (xs.mapM f') 0 0 0 (xs.length * b) := by
  induction xs with
  | nil =>
      rw [List.mapM_nil, List.mapM_nil, List.length_nil, Nat.zero_mul]
      exact .pure []
  | cons x xs ih =>
      have hlength : (x :: xs).length * b = b + (xs.length * b + 0) := by
        rw [List.length_cons, Nat.succ_mul]
        omega
      rw [List.mapM_cons, List.mapM_cons, hlength]
      exact (hf x).bind fun y => ih.bind fun ys => .pure (y :: ys)

theorem hook (m : StateM σ α) {call : HookCall ε} (h : Counted [call] t c a b) :
    Makes Logged.mk m (do Logged.record call; Logged.within m) t c a b :=
  fun _ _ => ⟨[call], rfl, h⟩

end Makes

end Logs

namespace Emitter

variable (e : Emitter σ ε κ)

theorem var_makes (x : Name) : Makes Logged.mk (e.var x) (e.logged.var x) 0 0 0 0 :=
  .hook _ ⟨rfl, rfl, rfl, rfl⟩

theorem apply_makes (func subject : ε) (bindings : List (Name × ε)) :
    Makes Logged.mk (e.apply func subject bindings) (e.logged.apply func subject bindings)
      0 0 1 0 :=
  .hook _ ⟨rfl, rfl, rfl, rfl⟩

theorem cond_makes (test yes no : κ) :
    Makes Logged.mk (e.cond test yes no) (e.logged.cond test yes no) 0 1 0 0 :=
  .hook _ ⟨rfl, rfl, rfl, rfl⟩

theorem letIn_makes (bindings : List (Name × ε)) (body : κ) :
    Makes Logged.mk (e.letIn bindings body) (e.logged.letIn bindings body) 0 0 0 1 :=
  .hook _ ⟨rfl, rfl, rfl, rfl⟩

end Emitter

/-- Whatever a generator emits stays out of the log. -/
theorem Generator.makes_nothing (g : Generator σ ε κ) (handed : List (Variable ε)) (uses : Nat) :
    Makes Session.logged (g handed uses) (Generator.logged g handed uses) 0 0 0 0 := by
  intro session log
  refine ⟨[], ?_, counted_nil⟩
  rw [List.append_nil]
  rfl

/-! ## Sites -/

/-- At how many places the body of a case stands behind bindings of its own. -/
def Call.bindingSites {α : Type} (call : Call α) : Nat :=
  if call.handed.any (!·.shared) then call.uses else 0

theorem Call.Alike.bindingSites {R : α → β → Prop} {call : Call α} {call' : Call β}
    (h : call.Alike R call') : call.bindingSites = call'.bindingSites := by
  have hany : call.handed.any (!·.shared) = call'.handed.any (!·.shared) := by
    have hshared := map_eq_of_forall₂ (fun _ _ h => h.shared) h.handed
    simpa only [List.any_map, Function.comp_def] using congrArg (List.any · (!·)) hshared
  rw [Call.bindingSites, Call.bindingSites, hany, h.uses]

namespace Site

variable (e : Emitter σ ε κ)

theorem variableOf_makes (uses : List Environment) (x : Name) :
    Makes Logged.mk (variableOf e uses x) (variableOf e.logged uses x) 0 0 0 0 := by
  unfold variableOf
  cases isShared uses x with
  | false => exact (e.var_makes x).bind fun _ => .pure _
  | true =>
      cases firstSubject? uses x with
      | none => exact (e.var_makes x).bind fun _ => .pure _
      | some subject => exact (e.var_makes subject).bind fun _ => .pure _

theorem valueAt_makes (use : Environment) (x : Name) :
    Makes Logged.mk (valueAt e use x) (valueAt e.logged use x) 0 0 0 0 := by
  unfold valueAt
  cases use.subject? x with
  | none => exact Makes.hook e.unboundValue ⟨rfl, rfl, rfl, rfl⟩
  | some subject => exact e.var_makes subject

/-- The bindings that a site makes for variables. -/
def boundAt (use : Environment) (vars : List (Variable ε)) : StateM σ (List (Name × ε)) :=
  vars.mapM fun v => do return (v.name, ← valueAt e use v.name)

theorem boundAt_makes (use : Environment) (vars : List (Variable ε)) :
    Makes Logged.mk (boundAt e use vars) (boundAt e.logged use vars) 0 0 0 0 :=
  Makes.mapM (fun (v : Variable ε) => (valueAt_makes e use v.name).after fun _ => .pure _) vars

theorem length_boundAt (use : Environment) (vars : List (Variable ε)) (target : σ) :
    (boundAt e use vars target).1.length = vars.length := by
  induction vars generalizing target with
  | nil => rfl
  | cons v vars ih =>
      rw [boundAt, List.mapM_cons]
      exact congrArg Nat.succ (ih _)

/-- A site binds the variables that are not shared, if there are any. -/
theorem ofUse_makes (handed : List (Variable ε)) (body : κ) (use : Environment) :
    Makes Logged.mk (ofUse e handed body use) (ofUse e.logged handed body use) 0 0 0
      (if handed.any (!·.shared) then 1 else 0) := by
  let own := handed.filter fun v => !v.shared
  refine Logs.bind (Logs.also (R := fun bindings => bindings.length = own.length)
    (boundAt_makes e use own) (length_boundAt e use own)) ?_
  rintro bindings calls ⟨hlength, hcalls⟩
  have hempty : bindings.isEmpty = !handed.any (!·.shared) := by
    rw [Bool.eq_iff_iff, List.isEmpty_iff, ← List.length_eq_zero_iff, hlength,
      List.length_eq_zero_iff]
    simp [own]
  rw [hempty]
  cases handed.any (!·.shared) with
  | true =>
      exact ((e.letIn_makes bindings body).bind fun _ => .pure _).mono fun _ _ hmore =>
        hcalls.prepend hmore
  | false => exact .pure (hcalls.prepend counted_nil)

/-- Each use has a site of its own, so the variables that are not shared are bound once for each. -/
theorem ofUses_makes (g : Generator σ ε κ) (case : Nat) (uses : List Environment) :
    Makes Session.logged (ofUses e g uses) (ofUses e.logged (Generator.logged g) uses) 0 0 0
      (callOf case uses).bindingSites := by
  refine Logs.bind (Logs.emit (Logs.also
    (R := List.Forall₂ (Variable.Alike e.Reads) ((variableNames uses).map (outlineOf uses)))
    (Makes.mapM (variableOf_makes e uses) _) (handed_alike e uses _))) ?_
  rintro handed calls ⟨halike, hcalls⟩
  have hcall : (callOf case uses).Alike e.Reads ⟨case, uses.length, handed⟩ := ⟨rfl, rfl, halike⟩
  have hsites (body : κ) := Logs.emit (Makes.mapM (ofUse_makes e handed body) uses)
  have hcount : (callOf case uses).bindingSites =
      uses.length * if handed.any (!·.shared) then 1 else 0 := by
    rw [hcall.bindingSites, mul_ite, Nat.mul_one, Nat.mul_zero, Call.bindingSites]
  rw [hcount]
  exact ((g.makes_nothing handed uses.length).after hsites).mono fun _ _ hmore => hcalls.prepend hmore

theorem ofTable_makes {entries : List (List Environment)} {generators : List (Generator σ ε κ)}
    (hlength : entries.length = generators.length) (case : Nat) :
    Makes Session.logged (ofTable e entries generators)
      (ofTable e.logged entries (generators.map Generator.logged)) 0 0 0
      ((outlines case entries).map Call.bindingSites).sum := by
  induction entries generalizing generators case with
  | nil =>
      obtain rfl := List.length_eq_zero_iff.mp hlength.symm
      exact .pure []
  | cons uses entries ih =>
      cases generators with
      | nil => cases hlength
      | cons g generators =>
          have hrest (sites : List (Site κ)) :
              Makes Session.logged (do return sites :: (← ofTable e entries generators))
                (do return sites :: (← ofTable e.logged entries (generators.map Generator.logged)))
                0 0 0 ((outlines (case + 1) entries).map Call.bindingSites).sum :=
            (ih (Nat.succ.inj hlength) (case + 1)).bind fun _ => .pure _
          rw [List.map_cons, ofTable, ofTable, outlines]
          cases uses with
          | nil => exact (Makes.pure []).after hrest
          | cons use uses => exact (ofUses_makes e g case (use :: uses)).bind hrest

end Site

/-! ## Decisions -/

namespace LowerM

variable {m : LowerM σ α} {m' : LowerM (Logged σ ε) α} {f : α → LowerM σ β}
  {f' : α → LowerM (Logged σ ε) β} {t t' c c' a a' b b' : Nat}

/-- Calls of these numbers are added to the log, and no projection is left out. -/
def Makes (plain : LowerM σ α) (logged : LowerM (Logged σ ε) α) (tests conds applies lets : Nat) :
    Prop :=
  ∀ l, Logs Logged.mk (plain l) (logged l) fun result calls =>
    result.2.dropped = l.dropped ∧ Counted calls tests conds applies lets

namespace Makes

theorem pure (x : α) : Makes (pure x : LowerM σ α) (pure x : LowerM (Logged σ ε) α) 0 0 0 0 :=
  fun _ => Logs.pure ⟨rfl, counted_nil⟩

theorem bind (h : Makes m m' t c a b) (hf : ∀ x, Makes (f x) (f' x) t' c' a' b') :
    Makes (m >>= f) (m' >>= f') (t + t') (c + c') (a + a') (b + b') := by
  intro l
  change Logs Logged.mk (m l >>= fun result => f result.1 result.2)
    (m' l >>= fun result => f' result.1 result.2) _
  refine (h l).bind ?_
  rintro ⟨x, l'⟩ calls ⟨hdropped, hcalls⟩
  exact (hf x l').mono fun _ _ hmore => ⟨hmore.1.trans hdropped, hcalls.append hmore.2⟩

theorem after (h : Makes m m' 0 0 0 0) (hf : ∀ x, Makes (f x) (f' x) t c a b) :
    Makes (m >>= f) (m' >>= f') t c a b := by
  simpa only [Nat.zero_add] using h.bind hf

theorem lift {m : StateM σ α} {m' : StateM (Logged σ ε) α}
    (h : PatternCompiler.Makes Logged.mk m m' t c a b) :
    Makes (liftM m : LowerM σ α) (liftM m' : LowerM (Logged σ ε) α) t c a b := by
  intro l
  change Logs Logged.mk (m >>= fun x => Pure.pure (x, l)) (m' >>= fun x => Pure.pure (x, l)) _
  refine Logs.bind h fun x calls hcalls => Logs.pure ⟨rfl, ?_⟩
  rwa [List.append_nil]

theorem reads (subjects : List Name) :
    Makes (reads subjects : LowerM σ Unit) (reads subjects : LowerM (Logged σ ε) Unit) 0 0 0 0 :=
  fun l => Logs.pure ⟨(l.foldl_reference_reads subjects).dropped, counted_nil⟩

theorem mapM {f : α → LowerM σ β} {f' : α → LowerM (Logged σ ε) β}
    (hf : ∀ x, Makes (f x) (f' x) 0 0 0 0) (xs : List α) :
    Makes (xs.mapM f) (xs.mapM f') 0 0 0 0 := by
  induction xs with
  | nil =>
      rw [List.mapM_nil, List.mapM_nil]
      exact .pure []
  | cons x xs ih =>
      rw [List.mapM_cons, List.mapM_cons]
      exact (hf x).after fun y => ih.after fun ys => .pure (y :: ys)

theorem bindings (e : Emitter σ ε κ) (pairs : List (Name × Name)) :
    Makes (bindings e pairs) (bindings e.logged pairs) 0 0 0 0 :=
  mapM (fun (_, subject) => (reads [subject]).after fun _ =>
    (lift (e.var_makes subject)).after fun _ => .pure _) pairs

end Makes

end LowerM

theorem Test.lower_makes (e : Emitter σ ε κ) (test : Test ε) :
    LowerM.Makes (test.lower e) (test.lower e.logged) 1 0 0 0 := by
  have hvar (x : Name) :
      LowerM.Makes (e.var x : LowerM σ ε) (e.logged.var x : LowerM (Logged σ ε) ε) 0 0 0 0 :=
    .lift (e.var_makes x)
  cases test with
  | equal subject literal eqv =>
      exact (LowerM.Makes.reads _).after fun _ => (hvar subject).after fun _ =>
        .lift (.hook _ ⟨rfl, rfl, rfl, rfl⟩)
  | member subject set eqv =>
      exact (LowerM.Makes.reads _).after fun _ => (hvar subject).after fun _ =>
        .lift (.hook _ ⟨rfl, rfl, rfl, rfl⟩)
  | sameAs subject other =>
      exact (LowerM.Makes.reads _).after fun _ => (hvar subject).after fun _ =>
        (hvar other).after fun _ => .lift (.hook _ ⟨rfl, rfl, rfl, rfl⟩)
  | predicate subject func pairs =>
      exact (LowerM.Makes.reads _).after fun _ => (LowerM.Makes.bindings e pairs).after fun _ =>
        (hvar subject).after fun _ => .lift (.hook _ ⟨rfl, rfl, rfl, rfl⟩)
  | guard expr pairs =>
      exact (LowerM.Makes.reads _).after fun _ => (LowerM.Makes.bindings e pairs).after fun _ =>
        .lift (.hook _ ⟨rfl, rfl, rfl, rfl⟩)

namespace LowerM

/-- Every one of so many projections is applied and bound once or left out. -/
def Projects (plain : LowerM σ α) (logged : LowerM (Logged σ ε) α) (tests conds projections : Nat) :
    Prop :=
  ∀ l, Logs Logged.mk (plain l) (logged l) fun result calls =>
    ∃ kept, Counted calls tests conds kept kept ∧ kept + result.2.dropped = l.dropped + projections

namespace Projects

variable {m : LowerM σ α} {m' : LowerM (Logged σ ε) α} {f : α → LowerM σ β}
  {f' : α → LowerM (Logged σ ε) β} {t t' c c' n n' : Nat}

theorem pure (x : α) : Projects (pure x : LowerM σ α) (pure x : LowerM (Logged σ ε) α) 0 0 0 :=
  fun _ => Logs.pure ⟨0, counted_nil, Nat.zero_add _⟩

theorem get : Projects (get : LowerM σ Lowering) (get : LowerM (Logged σ ε) Lowering) 0 0 0 :=
  fun _ => Logs.pure ⟨0, counted_nil, Nat.zero_add _⟩

/-- Nothing is left out, so all are kept. -/
theorem of_makes (h : Makes m m' t c n n) : Projects m m' t c n :=
  fun l => (h l).mono fun _ _ hcalls => ⟨n, hcalls.2, by rw [hcalls.1, Nat.add_comm]⟩

theorem bind (h : Projects m m' t c n) (hf : ∀ x, Projects (f x) (f' x) t' c' n') :
    Projects (m >>= f) (m' >>= f') (t + t') (c + c') (n + n') := by
  intro l
  change Logs Logged.mk (m l >>= fun result => f result.1 result.2)
    (m' l >>= fun result => f' result.1 result.2) _
  refine (h l).bind ?_
  rintro ⟨x, l'⟩ calls ⟨kept, hcalls, hkept⟩
  refine (hf x l').mono ?_
  rintro ⟨y, l''⟩ more ⟨kept', hmore, hkept'⟩
  refine ⟨kept + kept', hcalls.append hmore, ?_⟩
  dsimp only at hkept hkept' ⊢
  omega

theorem after (h : Projects m m' 0 0 0) (hf : ∀ x, Projects (f x) (f' x) t c n) :
    Projects (m >>= f) (m' >>= f') t c n := by
  simpa only [Nat.zero_add] using h.bind hf

end Projects

end LowerM

/-- The code of a tree has a test and a conditional for every test of the tree. -/
theorem Decision.lower_projects (e : Emitter σ ε κ) (sites : List (List (Site κ)))
    (decision : Decision ε) :
    LowerM.Projects (decision.lower e sites) (decision.lower e.logged sites) decision.testCount
      decision.testCount decision.projectionCount := by
  have hnoMatch : LowerM.Makes (e.noMatch : LowerM σ κ) (e.logged.noMatch : LowerM (Logged σ ε) κ)
      0 0 0 0 := .lift (.hook _ ⟨rfl, rfl, rfl, rfl⟩)
  induction decision with
  | fail => exact .of_makes hnoMatch
  | leaf case use =>
      simp only [lower]
      cases siteAt? sites case use with
      | none => exact .of_makes hnoMatch
      | some site => exact .of_makes ((LowerM.Makes.reads _).after fun _ => .pure _)
  | test asked yes no ihyes ihno =>
      have hcount : 1 + yes.testCount + no.testCount = yes.testCount + (no.testCount + 1) := by
        omega
      rw [testCount, projectionCount, lower, lower, hcount]
      exact ihyes.bind fun codeYes => ihno.bind fun codeNo =>
        (LowerM.Projects.of_makes (asked.lower_makes e)).bind fun code =>
          .of_makes (.lift (e.cond_makes code codeYes codeNo))
  | project fresh func subject pairs body ih =>
      rw [testCount, projectionCount, lower, lower, Nat.add_comm 1]
      change LowerM.Projects _ _ (body.testCount + 0) (body.testCount + 0) _
      refine ih.bind fun code => LowerM.Projects.get.after fun l => ?_
      -- The code of the body is used either way, and only there: it is bound or handed on.
      split
      · exact .of_makes ((LowerM.Makes.reads [subject]).after fun _ =>
          (LowerM.Makes.bindings e pairs).after fun bindings =>
          (LowerM.Makes.lift (e.var_makes subject)).after fun expr =>
          (LowerM.Makes.lift (e.apply_makes func expr bindings)).bind fun value =>
          .lift (e.letIn_makes [(fresh, value)] code))
      · exact fun _ => Logs.pure ⟨0, counted_nil, Nat.zero_add _⟩

/-! ## Plans -/

/-- The hooks that are called for a plan, where the lowering has left out projections. -/
structure Plan.Emits (plan : Plan ε) (lowering : Lowering) (log : List (HookCall ε)) : Prop where
  tests : log.countP HookCall.isTest = plan.decision.testCount
  conds : log.countP HookCall.isCond = plan.decision.testCount
  applies : log.countP HookCall.isApply + lowering.dropped = plan.decision.projectionCount
  lets : log.countP HookCall.isLet = 1 + log.countP HookCall.isApply +
    ((Site.outlines 0 plan.uses.entries).map Call.bindingSites).sum

theorem Plan.emit_logs (e : Emitter σ ε κ) (subject : ε) {generators : List (Generator σ ε κ)}
    {plan : Plan ε} (hlength : plan.uses.entries.length = generators.length) :
    Logs Session.logged (plan.emit e subject generators)
      (plan.emit e.logged subject (generators.map Generator.logged)) fun result log =>
        plan.Emits result.2 log := by
  refine Logs.bind (Site.ofTable_makes e hlength 0) fun sites placed hplaced => ?_
  refine Logs.bind (Logs.emit (plan.decision.lower_projects e sites .empty)) ?_
  rintro ⟨body, lowering⟩ lowered ⟨kept, hlowered, hkept⟩
  refine Logs.bind (Logs.emit (e.letIn_makes [(plan.root, subject)] body)) fun code last hlast => ?_
  obtain ⟨htests, hconds, happlies, hlets⟩ := hplaced.append (hlowered.append hlast)
  refine Logs.pure ?_
  rw [List.append_nil]
  constructor
  · rw [htests]
    omega
  · rw [hconds]
    omega
  · change kept + lowering.dropped = 0 + plan.decision.projectionCount at hkept
    change _ + lowering.dropped = _
    rw [happlies]
    omega
  · rw [happlies, hlets]
    omega

/-- As many projections are counted as the tree has. -/
theorem Queue.build_projections [BEq ε] (options : Options) (mentions : ε → Name → Bool)
    (queue : Queue ε) (b : Builder) :
    (build options mentions queue b).2.projections =
      b.projections + (build options mentions queue b).1.projectionCount := by
  induction queue using Queue.build.induct options mentions generalizing b with
  | case1 queue hstep =>
      rw [build_of_fail hstep]
      rfl
  | case2 queue case env hstep =>
      rw [build_of_select hstep]
      rfl
  | case3 queue next hstep ih =>
      rw [build_of_advance hstep]
      exact ih b
  | case4 queue asked yes no hstep ihyes ihno =>
      rw [build_of_test hstep]
      dsimp only
      rw [ihno, ihyes, Decision.projectionCount, Nat.add_assoc]
  | case5 queue func subject pairs body hstep ih =>
      rw [build_of_project hstep]
      dsimp only
      rw [ih, Decision.projectionCount, ← Nat.add_assoc]
      rfl

theorem Plan.ofPatterns_projections [BEq ε] (options : Options) (mentions : ε → Name → Bool)
    (patterns : List (Pattern ε)) (names : NameSupply) :
    (Plan.ofPatterns options mentions patterns names).1.projections =
      (Plan.ofPatterns options mentions patterns names).1.decision.projectionCount :=
  (Queue.build_projections ..).trans (Nat.zero_add _)

/-! ## Compilations -/

theorem Case.map_pattern_logged (cases : List (Case σ ε κ)) :
    (cases.map Case.logged).map Case.pattern = cases.map Case.pattern := by
  rw [List.map_map]
  rfl

theorem Case.map_generator_logged (cases : List (Case σ ε κ)) :
    (cases.map Case.logged).map Case.generator =
      (cases.map Case.generator).map Generator.logged := by
  rw [List.map_map, List.map_map]
  rfl

theorem unreachableCases_logged (uses : UseTable) (case : Nat) (cases : List (Case σ ε κ)) :
    unreachableCases uses case (cases.map Case.logged) = unreachableCases uses case cases := by
  induction cases generalizing case with
  | nil => rfl
  | cons c cases ih =>
      rw [List.map_cons, unreachableCases, unreachableCases, ih]
      rfl

/-- Logging a compilation changes nothing but that the calls of hooks are known then: those that
are made for its plan. -/
theorem compileWellFormed_logs [BEq ε] (e : Emitter σ ε κ) (options : Options) (subject : ε)
    (cases : List (Case σ ε κ)) (session : Session σ)
    {made : κ × Lowering → List (HookCall ε) → Prop}
    (hemit : Logs Session.logged
      ((Plan.ofPatterns options e.mentions (cases.map Case.pattern) session.names).1.emit e subject
        (cases.map Case.generator))
      ((Plan.ofPatterns options e.mentions (cases.map Case.pattern) session.names).1.emit e.logged
        subject ((cases.map Case.generator).map Generator.logged)) made) :
    ∃ result log,
      compileWellFormed e.logged options subject (cases.map Case.logged) (session.logged []) =
        ((compileWellFormed e options subject cases session).1,
          (compileWellFormed e options subject cases session).2.logged log) ∧
      (compileWellFormed e options subject cases session).1.stats =
        (Plan.ofPatterns options e.mentions (cases.map Case.pattern) session.names).1.stats
          cases.length result.2 ∧
      made result log := by
  rw [compileWellFormed_eq, compileWellFormed_eq, Case.map_pattern_logged,
    Case.map_generator_logged]
  have hsame : Plan.ofPatterns options e.logged.mentions (cases.map Case.pattern)
      (session.logged ([] : List (HookCall ε))).names =
        Plan.ofPatterns options e.mentions (cases.map Case.pattern) session.names := rfl
  rw [hsame]
  generalize Plan.ofPatterns options e.mentions (cases.map Case.pattern) session.names =
    planned at hemit ⊢
  obtain ⟨log, hlogged, hlog⟩ := hemit { session with names := planned.2 } []
  refine ⟨_, log, ?_, rfl, hlog⟩
  have hsession : { session.logged ([] : List (HookCall ε)) with names := planned.2 } =
      Session.logged { session with names := planned.2 } [] := rfl
  dsimp only
  rw [hsession, hlogged, unreachableCases_logged, List.length_map]
  rfl

/-- What is logged is accounted for by the plan of the compilation. -/
theorem compileWellFormed_logged [BEq ε] (e : Emitter σ ε κ) (options : Options) (subject : ε)
    (cases : List (Case σ ε κ)) (session : Session σ) :
    ∃ lowering log,
      compileWellFormed e.logged options subject (cases.map Case.logged) (session.logged []) =
        ((compileWellFormed e options subject cases session).1,
          (compileWellFormed e options subject cases session).2.logged log) ∧
      (compileWellFormed e options subject cases session).1.stats =
        (Plan.ofPatterns options e.mentions (cases.map Case.pattern) session.names).1.stats
          cases.length lowering ∧
      (Plan.ofPatterns options e.mentions (cases.map Case.pattern) session.names).1.Emits lowering
        log := by
  have hrecorded := Plan.ofPatterns_recorded options e.mentions (cases.map Case.pattern)
    session.names
  have hlength : (Plan.ofPatterns options e.mentions (cases.map Case.pattern)
      session.names).1.uses.entries.length = (cases.map Case.generator).length := by
    rw [hrecorded.length, List.length_map, List.length_map]
  obtain ⟨result, log, hlogged⟩ := compileWellFormed_logs e options subject cases session
    (Plan.emit_logs e subject hlength)
  exact ⟨result.2, log, hlogged⟩

/-! ## Hooks and sizes -/

/-- The hooks called by a compilation are accounted for by the sizes that it reports, by its plan
and by what its generators are handed. -/
structure Plan.HookAccounts (plan : Plan ε) (calls : List (Call ε)) (compiled : Compiled ε κ)
    (log : List (HookCall ε)) : Prop where
  tests : log.countP HookCall.isTest = compiled.stats.tests
  conds : log.countP HookCall.isCond = compiled.stats.tests
  projections : compiled.stats.projections = plan.decision.projectionCount
  dropped : compiled.stats.droppedProjections ≤ compiled.stats.projections
  applies : log.countP HookCall.isApply =
    compiled.stats.projections - compiled.stats.droppedProjections
  lets : log.countP HookCall.isLet = 1 + log.countP HookCall.isApply +
    (calls.map Call.bindingSites).sum

theorem Plan.Emits.accounts {e : Emitter σ ε κ} {plan : Plan ε} {lowering : Lowering}
    {log : List (HookCall ε)} (h : plan.Emits lowering log) {calls : List (Call ε)}
    (hcalls : List.Forall₂ (Call.Alike e.Reads) (Site.outlines 0 plan.uses.entries) calls)
    (hprojections : plan.projections = plan.decision.projectionCount) {compiled : Compiled ε κ}
    {cases : Nat} (hstats : compiled.stats = plan.stats cases lowering) :
    plan.HookAccounts calls compiled log where
  tests := by rw [h.tests, hstats, Plan.stats]
  conds := by rw [h.conds, hstats, Plan.stats]
  projections := by rw [hstats, Plan.stats, hprojections]
  dropped := by
    have happlies := h.applies
    rw [hstats, Plan.stats, hprojections]
    dsimp only
    omega
  applies := by
    have happlies := h.applies
    rw [hstats, Plan.stats, hprojections]
    dsimp only
    omega
  lets := by rw [h.lets, map_eq_of_forall₂ (fun _ _ h => h.bindingSites) hcalls]

/-- A compilation with watched generators and logged hooks does what it does without, and what is
logged agrees with the sizes. -/
theorem hook_calls_accounted [BEq ε] (e : Emitter σ ε κ) (options : Options) (subject : ε)
    {cases : List (Case σ ε κ)} (hwell : ∀ c ∈ cases, c.pattern.isWellFormed = true)
    (session : Session σ) :
    ∃ compiled session' calls log,
      compile e options subject cases session = (.ok compiled, session') ∧
      compile e.watched.logged options subject ((Case.watchedFrom 0 cases).map Case.logged)
          ((session.watched []).logged []) =
        (.ok compiled, (session'.watched calls).logged log) ∧
      (Plan.ofPatterns options e.mentions (cases.map Case.pattern) session.names).1.HookAccounts
        calls compiled log := by
  have hnone : firstMalformed? 0 (cases.map Case.pattern) = none :=
    firstMalformed?_eq_none (List.forall_mem_map.mpr hwell) 0
  have hpatterns := Case.map_pattern_watchedFrom 0 cases
  have hnone' : firstMalformed? 0 (((Case.watchedFrom 0 cases).map Case.logged).map Case.pattern) =
      none := by
    rwa [Case.map_pattern_logged, hpatterns]
  obtain ⟨calls, hwatched, hcalls⟩ := compileWellFormed_watched e options subject cases session
  obtain ⟨lowering, log, hlogged, hstats, hemits⟩ := compileWellFormed_logged e.watched options
    subject (Case.watchedFrom 0 cases) (session.watched [])
  rw [hwatched] at hlogged hstats
  rw [hpatterns] at hstats hemits
  refine ⟨_, _, calls, log, compile_of_firstMalformed? hnone, ?_, ?_⟩
  · rw [compile_of_firstMalformed? hnone', hlogged]
  · have hprojections := Plan.ofPatterns_projections options e.mentions (cases.map Case.pattern)
      session.names
    exact hemits.accounts hcalls hprojections hstats

/-- A projection for two cases, one of which is reached with its variable and without. -/
theorem hook_calls_accounted_of_projection :
    let e := formEmitter (Vocabulary.intern .initial).1.operators
    let car : Form := .function ⟨10⟩
    let cases : List (Case ObjectSupply Form Form) :=
      [⟨.app car (.or [.literal (.int 3), .bind ⟨7⟩]), fun _ _ => return .nil, false⟩,
        ⟨.app car .wildcard, fun _ _ => return .nil, false⟩]
    ∃ compiled session' calls log,
      compile e {} (.int 3) cases ⟨⟨.initial, 0⟩, ⟨0⟩⟩ = (.ok compiled, session') ∧
      compile e.watched.logged {} (.int 3) ((Case.watchedFrom 0 cases).map Case.logged)
          ((Session.watched ⟨⟨.initial, 0⟩, ⟨0⟩⟩ []).logged []) =
        (.ok compiled, (session'.watched calls).logged log) ∧
      (Plan.ofPatterns {} e.mentions (cases.map Case.pattern) ⟨.initial, 0⟩).1.HookAccounts calls
        compiled log := by
  intro e car cases
  have hwell : ∀ c ∈ cases, c.pattern.isWellFormed = true := by
    intro c hc
    rcases List.mem_pair.mp hc with rfl | rfl
    · rfl
    · rfl
  exact hook_calls_accounted e {} (.int 3) hwell ⟨⟨.initial, 0⟩, ⟨0⟩⟩

end PatternCompiler
