import PatternCompiler.Proofs.Nesting

/-!
# Compiling again

A compilation hands its numbers back but leaves its names in the table, so the next one takes the
same numbers and finds the names there. A second compilation of the same cases therefore adds no name
and does what the first one did at every step, in matches inside bodies too. It makes constants anew,
which is the only way in which its code differs.
-/

namespace PatternCompiler

set_option autoImplicit false

/-! ## Names that are found again -/

namespace SymbolTable

variable {table table' table'' : SymbolTable}

/-- Every string of the first table is found in the second one, under the same name. -/
def KeptBy (table table' : SymbolTable) : Prop :=
  ∀ s x, table.get? s = some x → table'.get? s = some x

theorem KeptBy.refl (table : SymbolTable) : table.KeptBy table := fun _ _ hx => hx

theorem KeptBy.trans (h : table.KeptBy table') (h' : table'.KeptBy table'') :
    table.KeptBy table'' := fun s x hx => h' s x (h s x hx)

theorem get?_push (table : SymbolTable) (s s' : String) :
    (table.push s).2.get? s' = if s = s' then some (table.push s).1 else table.get? s' := by
  simp only [get?, SymbolTable.push, Std.HashMap.getElem?_insert, beq_iff_eq]
  split <;> rfl

theorem get?_intern (table : SymbolTable) (s : String) :
    (table.intern s).2.get? s = some (table.intern s).1 := by
  unfold SymbolTable.intern
  split
  · assumption
  · rw [get?_push, if_pos rfl]

theorem keptBy_intern (table : SymbolTable) (s : String) : table.KeptBy (table.intern s).2 := by
  unfold SymbolTable.intern
  split
  · exact .refl table
  · rename_i hnone
    intro s' x hx
    rw [get?_push, if_neg]
    · exact hx
    · rintro rfl
      rw [hnone] at hx
      cases hx

/-- A string that was interned before is not added again. -/
theorem intern_again {s : String} (h : (table.intern s).2.KeptBy table') :
    table'.intern s = ((table.intern s).1, table') := by
  rw [SymbolTable.intern, h s _ (table.get?_intern s)]

end SymbolTable

/-- The supply with another table. -/
def NameSupply.over (names : NameSupply) (table : SymbolTable) : NameSupply :=
  { names with symbols := table }

/-- The action adds names, if anything, and takes the same names again from a table that has them. -/
structure NameSupply.Replays {α : Type} (m : StateM NameSupply α) : Prop where
  keeps : ∀ names : NameSupply, names.symbols.KeptBy (m names).2.symbols
  again : ∀ {names : NameSupply} {table : SymbolTable}, (m names).2.symbols.KeptBy table →
    m (names.over table) = ((m names).1, (m names).2.over table)

theorem NameSupply.fresh_replays (stem : String) : Replays (NameSupply.fresh stem) where
  keeps names := names.symbols.keptBy_intern _
  again {names table} h := by
    simp only [NameSupply.fresh, NameSupply.over, SymbolTable.generated] at h ⊢
    rw [SymbolTable.intern_again h]

section

variable {ε : Type} [BEq ε] (options : Options) (mentions : ε → Name → Bool)

def Builder.over (b : Builder) (table : SymbolTable) : Builder :=
  { b with names := b.names.over table }

theorem Builder.projection_again {b : Builder} {table : SymbolTable}
    (h : b.projection.2.names.symbols.KeptBy table) :
    (b.over table).projection = (b.projection.1, b.projection.2.over table) := by
  have hfresh : NameSupply.fresh "x" (b.over table).names = _ :=
    (NameSupply.fresh_replays "x").again h
  unfold Builder.projection
  rw [hfresh]
  rfl

theorem Queue.build_keeps (queue : Queue ε) (b : Builder) :
    b.names.symbols.KeptBy (build options mentions queue b).2.names.symbols :=
  build_related options mentions (R := fun b b' => b.names.symbols.KeptBy b'.names.symbols)
    (fun _ => .refl _) .trans (fun _ _ _ => .refl _)
    (fun b => (NameSupply.fresh_replays "x").keeps b.names) queue b

/-- With a table that has the names of a tree, building finds the same tree. -/
theorem Queue.build_again (queue : Queue ε) {b : Builder} {table : SymbolTable}
    (h : (build options mentions queue b).2.names.symbols.KeptBy table) :
    build options mentions queue (b.over table) =
      ((build options mentions queue b).1, (build options mentions queue b).2.over table) := by
  induction queue using Queue.build.induct options mentions generalizing b with
  | case1 queue hstep => simp only [build_of_fail hstep]
  | case2 queue case env hstep =>
      simp only [build_of_select hstep]
      rfl
  | case3 queue next hstep ih =>
      rw [build_of_advance hstep] at h ⊢
      exact ih h
  | case4 queue asked yes no hstep ihyes ihno =>
      rw [build_of_test hstep] at h
      have hyes := ihyes ((build_keeps options mentions no _).trans h)
      simp only [build_of_test hstep, hyes, ihno h]
  | case5 queue func subject pairs body hstep ih =>
      rw [build_of_project hstep] at h
      have hfresh := Builder.projection_again ((build_keeps options mentions _ _).trans h)
      simp only [build_of_project hstep, hfresh, ih _ h]

theorem Plan.ofPatterns_replays (patterns : List (Pattern ε)) :
    NameSupply.Replays (Plan.ofPatterns options mentions patterns) where
  keeps names := by
    have htree := Queue.build_keeps options mentions
      (Queue.ofPatterns (NameSupply.fresh "val" names).1 patterns)
      ⟨(NameSupply.fresh "val" names).2, .empty patterns.length, 0⟩
    exact ((NameSupply.fresh_replays "val").keeps names).trans htree
  again {names table} h := by
    have hkept : (NameSupply.fresh "val" names).2.symbols.KeptBy table := by
      have htree := Queue.build_keeps options mentions
        (Queue.ofPatterns (NameSupply.fresh "val" names).1 patterns)
        ⟨(NameSupply.fresh "val" names).2, .empty patterns.length, 0⟩
      exact htree.trans h
    have hroot := (NameSupply.fresh_replays "val").again hkept
    have htree := Queue.build_again options mentions
      (Queue.ofPatterns (NameSupply.fresh "val" names).1 patterns)
      (b := ⟨(NameSupply.fresh "val" names).2, .empty patterns.length, 0⟩) h
    unfold Plan.ofPatterns
    rw [hroot]
    exact congrArg (fun built : Decision ε × Builder =>
      (Plan.mk (NameSupply.fresh "val" names).1 built.1 built.2.uses built.2.projections,
        built.2.names)) htree

end

/-! ## Two runs of an action -/

/-- From states with `S` the two actions give results with `post` and go on to states with `S`. -/
def Repeats {σ α β : Type} (S : σ → σ → Prop) (post : α → β → Prop) (m : StateM σ α)
    (m' : StateM σ β) : Prop :=
  ∀ s s', S s s' → post (m s).1 (m' s').1 ∧ S (m s).2 (m' s').2

namespace Repeats

variable {σ α β γ δ : Type} {S : σ → σ → Prop}

theorem pure {a : α} {b : β} {post : α → β → Prop} (h : post a b) :
    Repeats S post (Pure.pure a) (Pure.pure b) := fun _ _ hs => ⟨h, hs⟩

theorem bind {m : StateM σ α} {m' : StateM σ β} {f : α → StateM σ γ} {f' : β → StateM σ δ}
    {post : α → β → Prop} {post' : γ → δ → Prop} (hm : Repeats S post m m')
    (hf : ∀ a b, post a b → Repeats S post' (f a) (f' b)) :
    Repeats S post' (m >>= f) (m' >>= f') := by
  intro s s' hs
  obtain ⟨hab, hs'⟩ := hm s s' hs
  exact hf _ _ hab _ _ hs'

theorem bind_eq {m : StateM σ α} {f : α → StateM σ γ} {f' : α → StateM σ δ} {post : γ → δ → Prop}
    (hm : Repeats S Eq m m) (hf : ∀ a, Repeats S post (f a) (f' a)) :
    Repeats S post (m >>= f) (m >>= f') :=
  hm.bind fun a _ hab => hab ▸ hf a

theorem mapM {f : α → StateM σ β} {f' : α → StateM σ γ} {R : β → γ → Prop} (l : List α)
    (h : ∀ a ∈ l, Repeats S R (f a) (f' a)) :
    Repeats S (List.Forall₂ R) (l.mapM f) (l.mapM f') := by
  induction l with
  | nil =>
      simp only [List.mapM_nil]
      exact pure .nil
  | cons a l ih =>
      obtain ⟨ha, hl⟩ := List.forall_mem_cons.mp h
      simp only [List.mapM_cons]
      refine ha.bind fun b c hbc => ?_
      exact (ih hl).bind fun bs cs hrest => pure (.cons hbc hrest)

theorem mapM_eq {f : α → StateM σ β} (l : List α) (h : ∀ a ∈ l, Repeats S Eq (f a) (f a)) :
    Repeats S Eq (l.mapM f) (l.mapM f) := by
  intro s s' hs
  obtain ⟨hall, hs'⟩ := mapM l h s s' hs
  exact ⟨List.forall₂_eq_eq_eq ▸ hall, hs'⟩

end Repeats

/-- Hooks that are called again give the same expressions, and code with `C` if they are given such
code. -/
structure Emitter.Repeatable {σ ε κ : Type} (S : σ → σ → Prop) (C : κ → κ → Prop)
    (e : Emitter σ ε κ) : Prop where
  var : ∀ x, Repeats S Eq (e.var x) (e.var x)
  equalityTest : ∀ subject l eqv,
    Repeats S C (e.equalityTest subject l eqv) (e.equalityTest subject l eqv)
  membershipTest : ∀ subject set eqv,
    Repeats S C (e.membershipTest subject set eqv) (e.membershipTest subject set eqv)
  sameValueTest : ∀ subject other,
    Repeats S C (e.sameValueTest subject other) (e.sameValueTest subject other)
  predicateTest : ∀ func subject bindings,
    Repeats S C (e.predicateTest func subject bindings) (e.predicateTest func subject bindings)
  guardTest : ∀ expr bindings, Repeats S C (e.guardTest expr bindings) (e.guardTest expr bindings)
  apply : ∀ func subject bindings,
    Repeats S Eq (e.apply func subject bindings) (e.apply func subject bindings)
  cond : ∀ {test test' yes yes' no no'}, C test test' → C yes yes' → C no no' →
    Repeats S C (e.cond test yes no) (e.cond test' yes' no')
  letIn : ∀ bindings {body body'}, C body body' →
    Repeats S C (e.letIn bindings body) (e.letIn bindings body')
  noMatch : Repeats S C e.noMatch e.noMatch
  unboundValue : Repeats S Eq e.unboundValue e.unboundValue

/-- The same subjects and code with `C`. -/
structure Site.Repeated {κ : Type} (C : κ → κ → Prop) (site site' : Site κ) : Prop where
  code : C site.code site'.code
  subjects : site.subjects = site'.subjects

section

variable {σ ε κ : Type} {S : σ → σ → Prop} {C : κ → κ → Prop} {e : Emitter σ ε κ}
  (he : e.Repeatable S C)
include he

namespace Site

theorem variableOf_repeats (uses : List Environment) (x : Name) :
    Repeats S Eq (variableOf e uses x) (variableOf e uses x) := by
  simp only [variableOf]
  split <;> exact .bind_eq (he.var _) fun value => .pure rfl

theorem valueAt_repeats (use : Environment) (x : Name) :
    Repeats S Eq (valueAt e use x) (valueAt e use x) := by
  unfold valueAt
  split
  · exact he.var _
  · exact he.unboundValue

theorem ofUse_repeats (handed : List (Variable ε)) {body body' : κ} (hbody : C body body')
    (use : Environment) :
    Repeats S (Repeated C) (ofUse e handed body use) (ofUse e handed body' use) := by
  unfold ofUse
  refine Repeats.bind_eq (.mapM_eq _ fun v _ => ?_) fun bindings => ?_
  · exact .bind_eq (valueAt_repeats he use v.name) fun value => .pure rfl
  · split
    · exact .pure ⟨hbody, rfl⟩
    · exact (he.letIn bindings hbody).bind fun code code' hcode => .pure ⟨hcode, rfl⟩

end Site

end

/-! ## Decisions -/

theorem rel_getElem? {α β : Type} {R : α → β → Prop} {l : List α} {l' : List β}
    (h : List.Forall₂ R l l') (i : Nat) : Option.Rel R l[i]? l'[i]? := by
  induction h generalizing i with
  | nil => exact .none
  | cons hab _ ih =>
      cases i with
      | zero => exact .some hab
      | succ i => exact ih i

namespace LowerM

variable {σ : Type} {S : σ → σ → Prop}

/-- The two actions read the same subjects and give results with `post`. -/
def Repeats {α β : Type} (S : σ → σ → Prop) (post : α → β → Prop) (m : LowerM σ α)
    (m' : LowerM σ β) : Prop :=
  ∀ l, PatternCompiler.Repeats S (fun r r' => post r.1 r'.1 ∧ r.2 = r'.2) (m.run l) (m'.run l)

namespace Repeats

variable {α β γ δ : Type}

theorem pure {a : α} {b : β} {post : α → β → Prop} (h : post a b) :
    Repeats S post (Pure.pure a : LowerM σ α) (Pure.pure b) := fun _ => .pure ⟨h, rfl⟩

theorem bind {m : LowerM σ α} {m' : LowerM σ β} {f : α → LowerM σ γ} {f' : β → LowerM σ δ}
    {post : α → β → Prop} {post' : γ → δ → Prop} (hm : Repeats S post m m')
    (hf : ∀ a b, post a b → Repeats S post' (f a) (f' b)) :
    Repeats S post' (m >>= f) (m' >>= f') := by
  intro l
  rw [StateT.run_bind, StateT.run_bind]
  refine (hm l).bind fun r r' hr => ?_
  rw [hr.2]
  exact hf r.1 r'.1 hr.1 r'.2

theorem bind_eq {m : LowerM σ α} {f : α → LowerM σ γ} {f' : α → LowerM σ δ} {post : γ → δ → Prop}
    (hm : Repeats S Eq m m) (hf : ∀ a, Repeats S post (f a) (f' a)) :
    Repeats S post (m >>= f) (m >>= f') :=
  hm.bind fun a _ hab => hab ▸ hf a

theorem lift {m : StateM σ α} {m' : StateM σ β} {post : α → β → Prop}
    (h : PatternCompiler.Repeats S post m m') :
    Repeats S post (monadLift m : LowerM σ α) (monadLift m') :=
  fun _ s s' hs => ⟨⟨(h s s' hs).1, rfl⟩, (h s s' hs).2⟩

end Repeats

theorem repeats_get : Repeats S Eq (get : LowerM σ Lowering) get := fun _ => .pure ⟨rfl, rfl⟩

theorem repeats_modify (f : Lowering → Lowering) :
    Repeats S Eq (modify f : LowerM σ PUnit) (modify f) := fun _ => .pure ⟨rfl, rfl⟩

theorem repeats_reads (subjects : List Name) :
    Repeats S Eq (reads subjects : LowerM σ Unit) (reads subjects) := repeats_modify _

theorem bindings_repeats {ε κ : Type} {C : κ → κ → Prop} {e : Emitter σ ε κ}
    (he : e.Repeatable S C) (pairs : List (Name × Name)) :
    Repeats S Eq (bindings e pairs) (bindings e pairs) := by
  unfold bindings
  induction pairs with
  | nil =>
      rw [List.mapM_nil]
      exact .pure rfl
  | cons pair pairs ih =>
      rw [List.mapM_cons]
      refine Repeats.bind_eq ?_ fun first => ih.bind_eq fun rest => .pure rfl
      exact (repeats_reads [pair.2]).bind_eq fun _ =>
        (Repeats.lift (he.var pair.2)).bind_eq fun value => .pure rfl

end LowerM

section

variable {σ ε κ : Type} {S : σ → σ → Prop} {C : κ → κ → Prop} {e : Emitter σ ε κ}
  (he : e.Repeatable S C)
include he

open LowerM (repeats_reads bindings_repeats)

theorem Test.lower_repeats (test : Test ε) :
    LowerM.Repeats S C (test.lower e) (test.lower e) := by
  unfold Test.lower
  refine (repeats_reads test.subjects).bind_eq fun _ => ?_
  have hvar (x : Name) : LowerM.Repeats S Eq (monadLift (e.var x) : LowerM σ ε) (monadLift (e.var x)) :=
    .lift (he.var x)
  cases test with
  | equal subject literal eqv =>
      exact (hvar subject).bind_eq fun s => .lift (he.equalityTest s literal eqv)
  | member subject set eqv =>
      exact (hvar subject).bind_eq fun s => .lift (he.membershipTest s set eqv)
  | sameAs subject other =>
      exact (hvar subject).bind_eq fun s => (hvar other).bind_eq fun o => .lift (he.sameValueTest s o)
  | predicate subject func pairs =>
      exact (bindings_repeats he pairs).bind_eq fun bindings =>
        (hvar subject).bind_eq fun s => .lift (he.predicateTest func s bindings)
  | guard expr pairs =>
      exact (bindings_repeats he pairs).bind_eq fun bindings => .lift (he.guardTest expr bindings)

omit he in
theorem siteAt?_repeated {sites sites' : List (List (Site κ))}
    (h : List.Forall₂ (List.Forall₂ (Site.Repeated C)) sites sites') (case use : Nat) :
    Option.Rel (Site.Repeated C) (siteAt? sites case use) (siteAt? sites' case use) := by
  have hcase := rel_getElem? h case
  unfold siteAt?
  generalize sites[case]? = found, sites'[case]? = found' at hcase
  cases hcase with
  | none => exact .none
  | some hsites => exact rel_getElem? hsites use

theorem Decision.lower_repeats {sites sites' : List (List (Site κ))}
    (h : List.Forall₂ (List.Forall₂ (Site.Repeated C)) sites sites') (decision : Decision ε) :
    LowerM.Repeats S C (decision.lower e sites) (decision.lower e sites') := by
  induction decision with
  | fail => exact .lift he.noMatch
  | leaf case use =>
      have hsite := siteAt?_repeated h case use
      simp only [Decision.lower]
      generalize siteAt? sites case use = site, siteAt? sites' case use = site' at hsite
      cases hsite with
      | none => exact .lift he.noMatch
      | some hsite =>
          simp only [hsite.subjects]
          exact (repeats_reads _).bind_eq fun _ => .pure hsite.code
  | test asked yes no ihyes ihno =>
      simp only [Decision.lower]
      refine ihyes.bind fun y y' hy => ihno.bind fun n n' hn => ?_
      exact (asked.lower_repeats he).bind fun t t' ht => .lift (he.cond ht hy hn)
  | project fresh func subject pairs body ih =>
      simp only [Decision.lower]
      refine ih.bind fun b b' hb => LowerM.repeats_get.bind_eq fun l => ?_
      split
      · refine (repeats_reads [subject]).bind_eq fun _ => ?_
        refine (bindings_repeats he pairs).bind_eq fun bindings => ?_
        refine (LowerM.Repeats.lift (he.var subject)).bind_eq fun s => ?_
        refine (LowerM.Repeats.lift (he.apply func s bindings)).bind_eq fun value => ?_
        exact .lift (he.letIn [(fresh, value)] hb)
      · exact (LowerM.repeats_modify _).bind_eq fun _ => .pure hb

end

/-! ## Sessions -/

/-- The second action finds the names that the first one has added and adds none. Up to these, the two
go on from states with `S` to states with `S` and give results with `post`. -/
structure Session.Repeats {σ α β : Type} (S : σ → σ → Prop) (post : α → β → Prop)
    (m : StateM (Session σ) α) (m' : StateM (Session σ) β) : Prop where
  keeps : ∀ session : Session σ, session.names.symbols.KeptBy (m session).2.names.symbols
  again : ∀ {session session' : Session σ}, session'.names.next = session.names.next →
    (m session).2.names.symbols.KeptBy session'.names.symbols → S session.target session'.target →
    post (m session).1 (m' session').1 ∧
      (m' session').2.names = (m session).2.names.over session'.names.symbols ∧
      S (m session).2.target (m' session').2.target

namespace Session.Repeats

variable {σ α β γ δ : Type} {S : σ → σ → Prop}

theorem pure {a : α} {b : β} {post : α → β → Prop} (h : post a b) :
    Repeats S post (Pure.pure a) (Pure.pure b) where
  keeps _ := .refl _
  again hnext _ hs := ⟨h, congrArg (NameSupply.mk _) hnext, hs⟩

/-- What follows keeps its names whatever comes before it. -/
theorem bind {m : StateM (Session σ) α} {m' : StateM (Session σ) β} {f : α → StateM (Session σ) γ}
    {f' : β → StateM (Session σ) δ} {post : α → β → Prop} {post' : γ → δ → Prop}
    (hm : Repeats S post m m')
    (hkeeps : ∀ a (session : Session σ),
      session.names.symbols.KeptBy (f a session).2.names.symbols)
    (hf : ∀ a b, post a b → Repeats S post' (f a) (f' b)) :
    Repeats S post' (m >>= f) (m' >>= f') where
  keeps session := (hm.keeps session).trans (hkeeps _ _)
  again {session session'} hnext hkept hs := by
    obtain ⟨hpost, hnames, hs⟩ := hm.again hnext ((hkeeps _ _).trans hkept) hs
    have hnext' : (m' session').2.names.next = (m session).2.names.next := by rw [hnames]; rfl
    have hsame : (m' session').2.names.symbols = session'.names.symbols := by rw [hnames]; rfl
    rw [← hsame] at hkept ⊢
    exact (hf _ _ hpost).again hnext' hkept hs

theorem bind_refl {m : StateM (Session σ) α} {f : α → StateM (Session σ) γ} {post : α → α → Prop}
    {post' : γ → γ → Prop} (hm : Repeats S post m m) (hrefl : ∀ a, post a a)
    (hf : ∀ a b, post a b → Repeats S post' (f a) (f b)) : Repeats S post' (m >>= f) (m >>= f) :=
  hm.bind (fun a => (hf a a (hrefl a)).keeps) hf

theorem emit {m : StateM σ α} {m' : StateM σ β} {post : α → β → Prop}
    (h : PatternCompiler.Repeats S post m m') : Repeats S post (Session.emit m) (Session.emit m') where
  keeps _ := .refl _
  again hnext _ hs := ⟨(h _ _ hs).1, congrArg (NameSupply.mk _) hnext, (h _ _ hs).2⟩

theorem withNames {m : StateM NameSupply α} (h : NameSupply.Replays m) :
    Repeats S Eq (Session.withNames m) (Session.withNames m) where
  keeps session := h.keeps session.names
  again {session session'} hnext hkept hs := by
    have hsame : session'.names = session.names.over session'.names.symbols :=
      congrArg (NameSupply.mk _) hnext
    have hagain := h.again hkept
    rw [← hsame] at hagain
    simp only [Session.withNames, hagain]
    exact ⟨rfl, rfl, hs⟩

theorem get : Repeats S (fun session session' => session.names.next = session'.names.next)
    (MonadState.get : StateM (Session σ) (Session σ)) MonadState.get where
  keeps _ := .refl _
  again hnext _ hs := ⟨hnext.symm, congrArg (NameSupply.mk _) hnext, hs⟩

theorem release (base : Nat) : Repeats S Eq
    (modify fun session : Session σ => { session with names := session.names.release base })
    (modify fun session : Session σ => { session with names := session.names.release base }) where
  keeps _ := .refl _
  again _ _ hs := ⟨rfl, rfl, hs⟩

end Session.Repeats

section

variable {σ ε κ : Type} {S : σ → σ → Prop} {C : κ → κ → Prop} {e : Emitter σ ε κ}

/-- Given the same variables and uses again, the body has code with `C` again. -/
def Generator.Repeatable (S : σ → σ → Prop) (C : κ → κ → Prop) (g : Generator σ ε κ) : Prop :=
  ∀ handed uses, Session.Repeats S C (g handed uses) (g handed uses)

theorem Site.ofUses_repeats (he : e.Repeatable S C) {g : Generator σ ε κ} (hg : g.Repeatable S C)
    (uses : List Environment) :
    Session.Repeats S (List.Forall₂ (Repeated C)) (ofUses e g uses) (ofUses e g uses) := by
  unfold ofUses
  refine Session.Repeats.bind_refl
    (.emit (.mapM_eq _ fun x _ => variableOf_repeats he uses x)) (fun _ => rfl) ?_
  rintro handed _ rfl
  refine (hg handed uses.length).bind (fun _ _ => .refl _) fun body body' hbody => ?_
  exact .emit (.mapM uses fun use _ => ofUse_repeats he handed hbody use)

theorem Site.ofTable_repeats (he : e.Repeatable S C) (entries : List (List Environment))
    {generators : List (Generator σ ε κ)} (hg : ∀ g ∈ generators, g.Repeatable S C) :
    Session.Repeats S (List.Forall₂ (List.Forall₂ (Repeated C))) (ofTable e entries generators)
      (ofTable e entries generators) := by
  induction entries generalizing generators with
  | nil => exact .pure .nil
  | cons uses entries ih =>
      cases generators with
      | nil => exact .pure .nil
      | cons g generators =>
          obtain ⟨hg, hgs⟩ := List.forall_mem_cons.mp hg
          have hrest {sites sites' : List (Site κ)} (h : List.Forall₂ (Repeated C) sites sites') :
              Session.Repeats S (List.Forall₂ (List.Forall₂ (Repeated C)))
                (do return sites :: (← ofTable e entries generators))
                (do return sites' :: (← ofTable e entries generators)) :=
            (ih hgs).bind (fun _ _ => .refl _) fun _ _ hrest => .pure (.cons h hrest)
          unfold ofTable
          split
          · exact hrest .nil
          · exact (ofUses_repeats he hg uses).bind (fun _ => (ih hgs).keeps) fun _ _ => hrest

theorem Plan.emit_repeats (he : e.Repeatable S C) (subject : ε)
    {generators : List (Generator σ ε κ)} (hg : ∀ g ∈ generators, g.Repeatable S C)
    (plan : Plan ε) :
    Session.Repeats S (fun r r' => C r.1 r'.1 ∧ r.2 = r'.2) (plan.emit e subject generators)
      (plan.emit e subject generators) := by
  unfold Plan.emit
  refine (Site.ofTable_repeats he plan.uses.entries hg).bind (fun _ _ => .refl _)
    fun sites sites' hsites => ?_
  refine (Session.Repeats.emit (plan.decision.lower_repeats he hsites .empty)).bind
    (fun _ _ => .refl _) fun lowered lowered' hlowered => ?_
  refine (Session.Repeats.emit (he.letIn [(plan.root, subject)] hlowered.1)).bind
    (fun _ _ => .refl _) fun code code' hcode => ?_
  exact .pure ⟨hcode, hlowered.2⟩

/-- The same warnings, the same statistics, and code with `C`. -/
structure Compiled.Repeated (C : κ → κ → Prop) (compiled compiled' : Compiled ε κ) : Prop where
  code : C compiled.code compiled'.code
  warnings : compiled.warnings = compiled'.warnings
  stats : compiled.stats = compiled'.stats

/-- The same error, or the same results but for the code, where `C` holds. -/
inductive Compilation.Repeated (C : κ → κ → Prop) :
    Except (CompileError ε) (Compiled ε κ) → Except (CompileError ε) (Compiled ε κ) → Prop where
  | ok {compiled compiled' : Compiled ε κ} : compiled.Repeated C compiled' →
      Repeated C (.ok compiled) (.ok compiled')
  | error (e : CompileError ε) : Repeated C (.error e) (.error e)

theorem Compilation.Repeated.mono {C C' : κ → κ → Prop}
    {result result' : Except (CompileError ε) (Compiled ε κ)} (h : Repeated C result result')
    (hC : ∀ {code code' : κ}, C code code' → C' code code') : Repeated C' result result' := by
  cases h with
  | ok h => exact .ok { h with code := hC h.code }
  | error e => exact .error e

variable [BEq ε]

theorem compileWellFormed_repeats (he : e.Repeatable S C) (options : Options) (subject : ε)
    {cases : List (Case σ ε κ)} (hg : ∀ c ∈ cases, c.generator.Repeatable S C) :
    Session.Repeats S (Compiled.Repeated C) (compileWellFormed e options subject cases)
      (compileWellFormed e options subject cases) := by
  unfold compileWellFormed
  refine Session.Repeats.get.bind_refl (fun _ => rfl) fun session session' hnext => ?_
  simp only [hnext]
  have hplan := Plan.ofPatterns_replays options e.mentions (cases.map Case.pattern)
  refine (Session.Repeats.withNames hplan).bind_refl (fun _ => rfl) ?_
  rintro plan _ rfl
  refine (plan.emit_repeats he subject (List.forall_mem_map.mpr hg)).bind (fun _ _ => .refl _)
    fun emitted emitted' hemitted => ?_
  refine (Session.Repeats.release session'.names.next).bind (fun _ _ => .refl _) fun _ _ _ => ?_
  exact .pure ⟨hemitted.1, rfl, congrArg (plan.stats cases.length) hemitted.2⟩

theorem compile_repeats (he : e.Repeatable S C) (options : Options) (subject : ε)
    {cases : List (Case σ ε κ)} (hg : ∀ c ∈ cases, c.generator.Repeatable S C) :
    Session.Repeats S (Compilation.Repeated C) (compile e options subject cases)
      (compile e options subject cases) := by
  unfold compile
  split
  · exact .pure (.error _)
  · exact (compileWellFormed_repeats he options subject hg).bind (fun _ _ => .refl _)
      fun _ _ h => .pure (.ok h)

end

/-! ## Constants made anew -/

/-- The same object, or the objects that are made at the same point after the two supplies. -/
def Renewed (a b : ObjectSupply) (i j : Nat) : Prop :=
  i = j ∨ ∃ k, i = a.next + k ∧ j = b.next + k

/-- The supplies have gone on from `a` and `b` by the same number of objects. -/
def ObjectSupply.InStep (a b s s' : ObjectSupply) : Prop :=
  ∃ k, s.next = a.next + k ∧ s'.next = b.next + k

section

variable (a b : ObjectSupply)

theorem ObjectSupply.fresh_repeats : Repeats (InStep a b) (Renewed a b) fresh fresh := by
  rintro s s' ⟨k, hs, hs'⟩
  exact ⟨.inr ⟨k, hs, hs'⟩, k + 1, by simp only [fresh, hs, Nat.add_assoc],
    by simp only [fresh, hs', Nat.add_assoc]⟩

namespace Value

theorem corresponds_renewed (v : Value) : v.Corresponds (Renewed a b) v :=
  corresponds_refl (fun _ => .inl rfl) v

theorem newList_repeats {vs vs' : List Value}
    (h : List.Forall₂ (Corresponds (Renewed a b)) vs vs') :
    Repeats (ObjectSupply.InStep a b) (Corresponds (Renewed a b)) (newList vs) (newList vs') := by
  induction h with
  | nil => exact .pure (corresponds_renewed a b nil)
  | cons hv _ ih =>
      refine ih.bind fun rest rest' hrest => ?_
      exact (ObjectSupply.fresh_repeats a b).bind fun i j hij => .pure (.cons hij hv hrest)

mutual

theorem ofLiteral_repeats (l : Literal) :
    Repeats (ObjectSupply.InStep a b) (Corresponds (Renewed a b)) (ofLiteral l) (ofLiteral l) := by
  cases l with
  | symbol | int | float | char =>
      simp only [ofLiteral]
      exact .pure (corresponds_renewed a b _)
  | str s =>
      simp only [ofLiteral]
      exact (ObjectSupply.fresh_repeats a b).bind fun i j hij => .pure (.str s hij)
  | list items =>
      simp only [ofLiteral]
      exact (ofLiterals_repeats items).bind fun vs vs' hvs => newList_repeats a b hvs

theorem ofLiterals_repeats (ls : List Literal) :
    Repeats (ObjectSupply.InStep a b) (List.Forall₂ (Corresponds (Renewed a b))) (ofLiterals ls)
      (ofLiterals ls) := by
  cases ls with
  | nil => exact .pure .nil
  | cons l ls =>
      simp only [ofLiterals]
      refine (ofLiteral_repeats l).bind fun v v' hv => ?_
      exact (ofLiterals_repeats ls).bind fun vs vs' hvs => .pure (.cons hv hvs)

end

end Value

namespace Form

theorem corresponds_renewed (f : Form) : f.Corresponds (Renewed a b) f :=
  f.corresponds_self fun c _ => c.corresponds_renewed a b

theorem corresponds_bound (bindings : List (Name × Form)) {body body' : Form}
    (h : body.Corresponds (Renewed a b) body') :
    (bound bindings body).Corresponds (Renewed a b) (bound bindings body') := by
  unfold bound
  split
  · exact h
  · exact .letIn (boundCorresponds_self bindings fun c _ => c.corresponds_renewed a b) h

end Form

theorem formEmitter_repeatable (ops : Operators) (mentions : Form → Name → Bool) :
    Emitter.Repeatable (ObjectSupply.InStep a b) (Form.Corresponds (Renewed a b))
      { formEmitter ops with mentions := mentions } where
  var _ := .pure rfl
  equalityTest subject l _ := (Value.ofLiteral_repeats a b l).bind fun _ _ hc =>
    .pure (.call _ (.cons (subject.corresponds_renewed a b) (.cons (.quote hc) .nil)))
  membershipTest subject set _ := (Value.ofLiterals_repeats a b set).bind fun _ _ hvs =>
    (Value.newList_repeats a b hvs).bind fun _ _ hc =>
      .pure (.call _ (.cons (subject.corresponds_renewed a b) (.cons (.quote hc) .nil)))
  sameValueTest _ _ := .pure (Form.corresponds_renewed a b _)
  predicateTest _ _ _ := .pure (Form.corresponds_renewed a b _)
  guardTest _ _ := .pure (Form.corresponds_renewed a b _)
  apply _ _ _ := .pure rfl
  cond htest hyes hno := .pure (.cond htest hyes hno)
  letIn bindings _ _ hbody := .pure (Form.corresponds_bound a b bindings hbody)
  noMatch := .pure (Form.corresponds_renewed a b _)
  unboundValue := .pure rfl

end

/-! ## Journals -/

/-- The same match inside a body, compiled again. -/
structure NestedMatch.Repeated (C : Form → Form → Prop) (nested nested' : NestedMatch) : Prop where
  path : nested.path = nested'.path
  result : Compilation.Repeated C nested.result nested'.result

theorem NestedMatch.Repeated.code {C : Form → Form → Prop} (hnil : C .nil .nil)
    {nested nested' : NestedMatch} (h : nested.Repeated C nested') : C nested.code nested'.code := by
  have hresult := h.result
  unfold NestedMatch.code
  generalize nested.result = result, nested'.result = result' at hresult
  cases hresult with
  | ok hcompiled => exact hcompiled.code
  | error => exact hnil

/-- The arrays have grown from `a` and `b` by entries of which `R` holds. -/
def GrownAlike {α : Type} (R : α → α → Prop) (a b c d : Array α) : Prop :=
  ∃ xs ys, c.toList = a.toList ++ xs ∧ d.toList = b.toList ++ ys ∧ List.Forall₂ R xs ys

namespace GrownAlike

variable {α : Type} {R : α → α → Prop} {a b c d : Array α}

theorem start (R : α → α → Prop) (a b : Array α) : GrownAlike R a b a b :=
  ⟨[], [], (List.append_nil _).symm, (List.append_nil _).symm, .nil⟩

theorem push (h : GrownAlike R a b c d) {x y : α} (hxy : R x y) :
    GrownAlike R a b (c.push x) (d.push y) := by
  obtain ⟨xs, ys, hc, hd, hall⟩ := h
  refine ⟨xs ++ [x], ys ++ [y], ?_, ?_, List.rel_append hall (.cons hxy .nil)⟩
  · rw [Array.toList_push, hc, List.append_assoc]
  · rw [Array.toList_push, hd, List.append_assoc]

end GrownAlike

namespace Journal

/-- The journals have gone on from `first` and `second` in the same way, but for the constants made
on the way. -/
structure InStep (first second j j' : Journal) : Prop where
  objects : ObjectSupply.InStep first.objects second.objects j.objects j'.objects
  hooks : GrownAlike Eq first.hooks second.hooks j.hooks j'.hooks
  invocations : GrownAlike Eq first.invocations second.invocations j.invocations j'.invocations
  nested : GrownAlike
    (NestedMatch.Repeated (Form.Corresponds (Renewed first.objects second.objects)))
    first.nested second.nested j.nested j'.nested

theorem InStep.start (first second : Journal) : InStep first second first second where
  objects := ⟨0, rfl, rfl⟩
  hooks := .start _ _ _
  invocations := .start _ _ _
  nested := .start _ _ _

variable {first second : Journal}

theorem addInvocation_repeats (invocation : Invocation) :
    Repeats (InStep first second) Eq (addInvocation invocation) (addInvocation invocation) :=
  fun _ _ hj => ⟨rfl, { hj with invocations := hj.invocations.push rfl }⟩

theorem addNested_repeats {nested nested' : NestedMatch}
    (h : nested.Repeated (Form.Corresponds (Renewed first.objects second.objects)) nested') :
    Repeats (InStep first second) Eq (addNested nested) (addNested nested') :=
  fun _ _ hj => ⟨rfl, { hj with nested := hj.nested.push h }⟩

/-- Hooks are entered in a journal before their objects are made. -/
theorem repeats_hook {α : Type} {action action' : StateM ObjectSupply α} {post : α → α → Prop}
    (h : Repeats (ObjectSupply.InStep first.objects second.objects) post action action')
    (call : HookCall Form) :
    Repeats (InStep first second) post (do addHook call; withObjects action)
      (do addHook call; withObjects action') := by
  intro j j' hj
  obtain ⟨hpost, hobjects⟩ := h _ _ hj.objects
  exact ⟨hpost, { hj with objects := hobjects, hooks := hj.hooks.push rfl }⟩

theorem emitter_repeatable {e : Emitter ObjectSupply Form Form} {C : Form → Form → Prop}
    (h : e.Repeatable (ObjectSupply.InStep first.objects second.objects) C) :
    (emitter e).Repeatable (InStep first second) C where
  var x := repeats_hook (h.var x) _
  equalityTest subject l eqv := repeats_hook (h.equalityTest subject l eqv) _
  membershipTest subject set eqv := repeats_hook (h.membershipTest subject set eqv) _
  sameValueTest subject other := repeats_hook (h.sameValueTest subject other) _
  predicateTest func subject bindings := repeats_hook (h.predicateTest func subject bindings) _
  guardTest expr bindings := repeats_hook (h.guardTest expr bindings) _
  apply func subject bindings := repeats_hook (h.apply func subject bindings) _
  cond htest hyes hno := repeats_hook (h.cond htest hyes hno) _
  letIn bindings _ _ hbody := repeats_hook (h.letIn bindings hbody) _
  noMatch := repeats_hook h.noMatch _
  unboundValue := repeats_hook h.unboundValue _

end Journal

/-! ## Described bodies -/

section

variable {first second : Journal} {e : Emitter Journal Form Form}

mutual

theorem Body.generator_repeatable
    (he : e.Repeatable (Journal.InStep first second)
      (Form.Corresponds (Renewed first.objects second.objects)))
    (functions : FunctionTable) (body : Body) (path : Path) :
    (body.generator e functions path).Repeatable (Journal.InStep first second)
      (Form.Corresponds (Renewed first.objects second.objects)) := by
  intro handed uses
  match body with
  | .report =>
      simp only [Body.generator]
      exact (Session.Repeats.emit (Journal.addInvocation_repeats _)).bind (fun _ _ => .refl _)
        fun _ _ _ => .pure (Form.corresponds_renewed _ _ _)
  | .code form =>
      simp only [Body.generator]
      exact (Session.Repeats.emit (Journal.addInvocation_repeats _)).bind (fun _ _ => .refl _)
        fun _ _ _ => .pure (form.corresponds_renewed _ _)
  | .nested on clauses options =>
      simp only [Body.generator]
      have hcompile := compile_repeats he options (nestedSubject on handed)
        (Clause.casesFrom_repeatable he functions clauses path 0)
      refine (Session.Repeats.emit (Journal.addInvocation_repeats _)).bind_refl (fun _ => rfl)
        fun _ _ _ => ?_
      refine hcompile.bind (fun _ _ => .refl _) fun result result' hresult => ?_
      have hnested : NestedMatch.Repeated (Form.Corresponds (Renewed first.objects second.objects))
          ⟨path, result⟩ ⟨path, result'⟩ := ⟨rfl, hresult⟩
      exact (Session.Repeats.emit (Journal.addNested_repeats hnested)).bind (fun _ _ => .refl _)
        fun _ _ _ => .pure (hnested.code (Form.corresponds_renewed _ _ _))

theorem Clause.casesFrom_repeatable
    (he : e.Repeatable (Journal.InStep first second)
      (Form.Corresponds (Renewed first.objects second.objects)))
    (functions : FunctionTable) (clauses : List (Clause Body)) (path : Path) (index : Nat) :
    ∀ c ∈ Clause.casesFrom e functions path index clauses,
      c.generator.Repeatable (Journal.InStep first second)
        (Form.Corresponds (Renewed first.objects second.objects)) := by
  match clauses with
  | [] => simp [Clause.casesFrom]
  | ⟨pattern, body, allowUnreachable⟩ :: rest =>
      rw [Clause.casesFrom]
      exact List.forall_mem_cons.mpr ⟨Body.generator_repeatable he functions body (path ++ [index]),
        Clause.casesFrom_repeatable he functions rest path (index + 1)⟩

end

end

/-! ## The same text -/

namespace Value

variable {rel : Nat → Nat → Prop} {v v' : Value}

theorem Corresponds.texts_eq (h : v.Corresponds rel v') (symbols : SymbolTable) :
    v.text symbols = v'.text symbols ∧ v.tailText symbols = v'.tailText symbols := by
  induction h with
  | symbol | int | float => exact ⟨rfl, rfl⟩
  | str s _ => exact ⟨rfl, rfl⟩
  | cons _ _ _ iha ihb => simp only [text, tailText, iha.1, ihb.2, and_self]

end Value

namespace Form

variable {rel : Nat → Nat → Prop}

mutual

/-- The text of a form does not show the identities of its objects. -/
theorem Corresponds.text_eq {f g : Form} (h : f.Corresponds rel g) (symbols : SymbolTable) :
    f.text symbols = g.text symbols := by
  match h with
  | .var _ | .function _ => rfl
  | .quote (a := a) (b := b) hc =>
      have hself : selfEvaluating a = selfEvaluating b := by cases hc <;> rfl
      simp only [text, hself, (hc.texts_eq symbols).1]
  | .call func hargs => simp only [text, hargs.argsText_eq symbols]
  | .cond ha hb hc => simp only [text, ha.text_eq symbols, hb.text_eq symbols, hc.text_eq symbols]
  | .letIn hbound hbody => simp only [text, hbound.boundTexts_eq symbols, hbody.text_eq symbols]

theorem ListCorresponds.argsText_eq {fs gs : List Form} (h : ListCorresponds rel fs gs)
    (symbols : SymbolTable) : argsText symbols fs = argsText symbols gs := by
  match h with
  | .nil => rfl
  | .cons hf hfs => simp only [argsText, hf.text_eq symbols, hfs.argsText_eq symbols]

theorem BoundCorresponds.boundTexts_eq {fs gs : List (Name × Form)} (h : BoundCorresponds rel fs gs)
    (symbols : SymbolTable) : boundTexts symbols fs = boundTexts symbols gs := by
  match h with
  | .nil => rfl
  | .cons name hf hfs => simp only [boundTexts, hf.text_eq symbols, hfs.boundTexts_eq symbols]

end

end Form

/-! ## The second time -/

/-- Compiling a second time gives the same error, or the same warnings, the same statistics and the
same code but for the constants, which are made anew and are written alike. The second time finds
every name in the table and leaves the names as they are, and it does what the first time did in the
matches inside bodies. -/
theorem recompiling_repeats (vocabulary : Vocabulary) (mentions : Form → Name → Bool)
    (options : Options) (subject : Form) (clauses : List (Clause Body)) (session : Session Journal) :
    let compiling := compileReports vocabulary mentions options subject clauses
    let first := compiling session
    let second := compiling first.2
    Compilation.Repeated
        (fun code code' =>
          code.Corresponds (Renewed session.target.objects first.2.target.objects) code' ∧
            ∀ symbols, code.text symbols = code'.text symbols)
        first.1 second.1 ∧
      second.2.names = first.2.names ∧
      Journal.InStep session.target first.2.target first.2.target second.2.target := by
  intro compiling first second
  have he : (reportEmitter vocabulary mentions).Repeatable
      (Journal.InStep session.target first.2.target) _ :=
    Journal.emitter_repeatable (formEmitter_repeatable _ _ vocabulary.operators mentions)
  have hcompile : Session.Repeats (Journal.InStep session.target first.2.target) _ compiling
      compiling :=
    compile_repeats he options subject
      (Clause.casesFrom_repeatable he vocabulary.functions clauses [] 0)
  have hnext : first.2.names.next = session.names.next := next_compile _ _ _ _ _
  obtain ⟨hresult, hnames, htarget⟩ := hcompile.again hnext (.refl _) (.start _ _)
  exact ⟨hresult.mono fun hcode => ⟨hcode, hcode.text_eq⟩, hnames, htarget⟩

end PatternCompiler
