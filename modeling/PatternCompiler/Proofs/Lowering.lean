import PatternCompiler.Proofs.Decisions
import PatternCompiler.Proofs.Emission

/-!
# Code means what its decision means

Evaluating the code of a decision simulates running the decision. The code reads only the subjects
that the lowering has recorded, so a projection that was left out is not missed; but then an error
of its function is lost, which is why nothing may be left out where errors count.
-/

namespace PatternCompiler

set_option autoImplicit false

/-! ## What lowering records -/

/-- More subjects are read, and not fewer projections are left out. -/
structure Lowering.Grows (l l' : Lowering) : Prop where
  referenced : ∀ x ∈ l.referenced, x ∈ l'.referenced
  dropped : l.dropped ≤ l'.dropped

theorem Lowering.Grows.refl (l : Lowering) : l.Grows l := ⟨fun _ hx => hx, Nat.le_refl _⟩

theorem Lowering.Grows.trans {l l' l'' : Lowering} (h : l.Grows l') (h' : l'.Grows l'') :
    l.Grows l'' :=
  ⟨fun x hx => h'.referenced x (h.referenced x hx), Nat.le_trans h.dropped h'.dropped⟩

/-- More subjects are read, among them these, and no projection is left out. -/
structure Lowering.Reads (l : Lowering) (subjects : List Name) (l' : Lowering) : Prop where
  referenced : ∀ x ∈ l.referenced, x ∈ l'.referenced
  reads : ∀ x ∈ subjects, x ∈ l'.referenced
  dropped : l'.dropped = l.dropped

theorem Lowering.Reads.grows {l l' : Lowering} {subjects : List Name} (h : l.Reads subjects l') :
    l.Grows l' := ⟨h.referenced, Nat.le_of_eq h.dropped.symm⟩

theorem Lowering.Reads.trans {l l' l'' : Lowering} {xs ys : List Name} (h : l.Reads xs l')
    (h' : l'.Reads ys l'') : l.Reads (xs ++ ys) l'' where
  referenced x hx := h'.referenced x (h.referenced x hx)
  reads x hx := by
    rcases List.mem_append.mp hx with hx | hx
    · exact h'.referenced x (h.reads x hx)
    · exact h'.reads x hx
  dropped := h'.dropped.trans h.dropped

theorem Lowering.foldl_reference_reads (subjects : List Name) (l : Lowering) :
    l.Reads subjects (subjects.foldl reference l) := by
  induction subjects generalizing l with
  | nil => exact ⟨fun _ hx => hx, fun _ hx => (by cases hx), rfl⟩
  | cons subject subjects ih =>
      have hfirst : l.Reads [subject] (l.reference subject) :=
        ⟨fun _ hx => List.mem_insert_of_mem hx, fun _ hx =>
          List.mem_singleton.mp hx ▸ List.mem_insert_self, rfl⟩
      exact hfirst.trans (ih (l.reference subject))

namespace LowerM

variable {τ α β : Type} {I : τ → Prop} {l : Lowering}

/-- From `l` on the action gives something with `post`, and keeps `I` of the state below. -/
def Yields (I : τ → Prop) (l : Lowering) (action : LowerM τ α) (post : α → Lowering → Prop) :
    Prop :=
  PatternCompiler.Yields I (action.run l) fun r => post r.1 r.2

theorem Yields.pure {a : α} {post : α → Lowering → Prop} (h : post a l) :
    Yields I l (Pure.pure a) post := PatternCompiler.Yields.pure h

theorem Yields.bind {m : LowerM τ α} {f : α → LowerM τ β} {post : α → Lowering → Prop}
    {post' : β → Lowering → Prop} (hm : Yields I l m post)
    (hf : ∀ a l', post a l' → Yields I l' (f a) post') : Yields I l (m >>= f) post' := by
  unfold Yields
  rw [StateT.run_bind]
  exact PatternCompiler.Yields.bind hm fun r hr => hf r.1 r.2 hr

theorem Yields.lift {m : StateM τ α} {post : α → Prop} (h : PatternCompiler.Yields I m post) :
    Yields I l (monadLift m) fun a l' => post a ∧ l' = l :=
  fun j hj => ⟨⟨(h j hj).1, rfl⟩, (h j hj).2⟩

theorem yields_reads (subjects : List Name) :
    Yields I l (reads subjects) fun _ l' => l.Reads subjects l' :=
  PatternCompiler.Yields.pure (l.foldl_reference_reads subjects)

/-- Every pattern variable is bound to the variable of its subject. -/
def references (pairs : List (Name × Name)) : List (Name × Form) :=
  pairs.map fun p => (p.1, .var p.2)

/-- Such bindings hold the values of the subjects. -/
theorem evals_references {frozen : Bool} (functions : FunctionTable) {w : Pairing frozen}
    {σ : Valuation} {scope : Scope} {pairs : List (Name × Name)}
    (h : ∀ b ∈ pairs, ∃ v, scope.lookup b.2 = some v ∧ w.Relates (σ b.2) v) :
    ∃ values, w.RelatesScope (σ.bindings pairs) values ∧
      List.Forall₂ (fun b v => b.1 = v.1 ∧ b.2.eval functions scope = pure v.2)
        (references pairs) values := by
  induction pairs with
  | nil => exact ⟨[], .nil, .nil⟩
  | cons p pairs ih =>
      obtain ⟨⟨v, hv, hrel⟩, hpairs⟩ := List.forall_mem_cons.mp h
      obtain ⟨values, hvalues, hevals⟩ := ih hpairs
      exact ⟨(p.1, v) :: values, .cons ⟨rfl, hrel⟩ hvalues, .cons ⟨rfl, Form.eval_var hv⟩ hevals⟩

theorem names_of_relatesScope {frozen : Bool} {w : Pairing frozen} {σ : Valuation}
    {pairs : List (Name × Name)} {values : Bindings}
    (h : w.RelatesScope (σ.bindings pairs) values) :
    values.map Prod.fst = pairs.map Prod.fst := by
  unfold Pairing.RelatesScope at h
  generalize hbindings : σ.bindings pairs = bs at h
  have hnames : bs.map Prod.fst = pairs.map Prod.fst := by
    rw [← hbindings, Valuation.bindings, List.map_map]
    rfl
  rw [← hnames]
  clear hnames hbindings
  induction h with
  | nil => rfl
  | cons hab _ ih => rw [List.map_cons, List.map_cons, ih, hab.1]

/-- A call with such bindings around it is made on the value of its subject, if they do not hide the
subject. -/
theorem eval_application_references {frozen : Bool} (functions : FunctionTable) (ops : Operators)
    (func : Form) {w : Pairing frozen} {σ : Valuation} {scope : Scope}
    {pairs : List (Name × Name)} {subject : Name} {v : Value}
    (hsubject : scope.lookup subject = some v) (hhidden : ∀ b ∈ pairs, b.1 ≠ subject)
    (h : ∀ b ∈ pairs, ∃ v, scope.lookup b.2 = some v ∧ w.Relates (σ b.2) v) :
    ∃ values, w.RelatesScope (σ.bindings pairs) values ∧
      (Form.bound (references pairs) (func.application ops (.var subject))).eval functions scope =
        (func.application ops (.quote v)).eval functions (values.reverse ++ scope) := by
  obtain ⟨values, hvalues, hevals⟩ := evals_references functions h
  have hfree : values.reverse.lookup subject = none := by
    refine Form.lookup_eq_none_of_not_mem ?_
    rw [List.map_reverse, List.mem_reverse, names_of_relatesScope hvalues]
    intro hmem
    obtain ⟨b, hb, rfl⟩ := List.mem_map.mp hmem
    exact hhidden b hb rfl
  have hvar : (Form.var subject).eval functions (values.reverse ++ scope) =
      (Form.quote v).eval functions (values.reverse ++ scope) :=
    Form.eval_var (by rw [List.lookup_append, hfree, Option.none_or, hsubject])
  exact ⟨values, hvalues, by rw [Form.eval_bound hevals, Form.eval_application func hvar]⟩

theorem yields_get : Yields I l get fun a l' => a = l ∧ l' = l :=
  PatternCompiler.Yields.pure ⟨rfl, rfl⟩

theorem yields_binding {ops : Operators} {e : Emitter τ Form Form} (he : e.Writes I ops)
    (p : Name × Name) :
    Yields I l (do reads [p.2]; return (p.1, ← e.var p.2)) fun made l' =>
      made = (p.1, .var p.2) ∧ l.Reads [p.2] l' := by
  refine (yields_reads [p.2]).bind fun _ l₁ hl₁ => ?_
  refine (Yields.lift (he.var p.2)).bind fun f l₂ hf => ?_
  obtain ⟨rfl, rfl⟩ := hf
  exact .pure ⟨rfl, hl₁⟩

theorem yields_bindings {ops : Operators} {e : Emitter τ Form Form} (he : e.Writes I ops)
    (pairs : List (Name × Name)) :
    Yields I l (bindings e pairs) fun made l' =>
      made = references pairs ∧ l.Reads (pairs.map Prod.snd) l' := by
  unfold bindings
  induction pairs generalizing l with
  | nil =>
      rw [List.mapM_nil]
      exact .pure ⟨rfl, fun _ hx => hx, fun _ hx => (by cases hx), rfl⟩
  | cons p pairs ih =>
      rw [List.mapM_cons]
      refine (yields_binding he p).bind fun made l₁ hmade => ?_
      obtain ⟨rfl, hl₁⟩ := hmade
      refine ih.bind fun rest l₂ hrest => ?_
      obtain ⟨rfl, hl₂⟩ := hrest
      exact .pure ⟨rfl, hl₁.trans hl₂⟩

end LowerM

/-! ## Runs and evaluations side by side -/

/-- Pattern variables hold no subjects; if `strict`, expressions mention nothing but what patterns
may bind. -/
structure Signature.Separate (strict : Prop) (sig : Signature) : Prop where
  apart : ∀ x, sig.subject x → ¬ sig.binder x
  functions : strict → ∀ f, sig.function f → ∀ x, f.mentions x = true → sig.binder x
  guards : strict → ∀ f, sig.guard f → ∀ x, f.mentions x = true → sig.binder x

theorem Signature.Separate.extend {strict : Prop} {sig : Signature} (h : sig.Separate strict)
    {fresh : Name} (hfresh : ¬ sig.binder fresh) : (sig.extend fresh).Separate strict where
  apart x hx := by
    rcases hx with rfl | hx
    · exact hfresh
    · exact h.apart x hx
  functions := h.functions
  guards := h.guards

/-- A run with `σ` and an evaluation in `scope` can go on side by side: the scope has the subjects
that are read, and if `strict`, no variable that a pattern may bind. -/
structure Covers {frozen : Bool} (strict : Prop) (vocabulary : Vocabulary) (sig : Signature)
    (w : Pairing frozen) (σ : Valuation) (read : List Name) (scope : Scope) : Prop where
  situated : Situated frozen vocabulary.functions sig σ w.left
  subjects : ∀ x ∈ read, sig.subject x → ∃ v, scope.lookup x = some v ∧ w.Relates (σ x) v
  functions : ∀ f, sig.function f → w.AdmitsFunction vocabulary.functions f
  guards : ∀ f, sig.guard f → w.Admits vocabulary.functions f
  clear : strict → ∀ x, sig.binder x → scope.lookup x = none

/-- The second computation may run in place of one that gives the same. -/
theorem Simulates.of_right {frozen : Bool} {α β : Type} {strict : Prop} {w : Pairing frozen}
    {post : Pairing frozen → α → β → Prop} {m : EvalM α} {m₁ m' : EvalM β}
    (h : Simulates strict w post m m₁)
    (hok : ∀ b s, m₁ w.right = .ok (b, s) → m' w.right = .ok (b, s))
    (herror : strict → m₁ w.right = m' w.right) : Simulates strict w post m m' where
  ok ha := by
    obtain ⟨b, w', hb, hs, hw, hab⟩ := h.ok ha
    exact ⟨b, w', hok b _ hb, hs, hw, hab⟩
  error hs _ he := by
    obtain ⟨e', he', hsame⟩ := h.error hs he
    exact ⟨e', herror hs ▸ he', hsame⟩

section

variable {frozen : Bool} {strict : Prop} {vocabulary : Vocabulary} {sig : Signature}
  {w w' : Pairing frozen} {σ : Valuation} {read read' : List Name} {scope : Scope}

namespace Covers

theorem mono (h : Covers strict vocabulary sig w σ read scope) (hw : w.Extends w') :
    Covers strict vocabulary sig w' σ read scope where
  situated := h.situated.suits hw.left hw.left
  subjects x hx hs := by
    obtain ⟨v, hv, hrel⟩ := h.subjects x hx hs
    exact ⟨v, hv, hrel.mono hw⟩
  functions f hf := (h.functions f hf).mono hw
  guards f hf := (h.guards f hf).mono hw
  clear := h.clear

theorem of_read (h : Covers strict vocabulary sig w σ read scope) (hread : ∀ x ∈ read', x ∈ read) :
    Covers strict vocabulary sig w σ read' scope :=
  ⟨h.situated, fun x hx => h.subjects x (hread x hx), h.functions, h.guards, h.clear⟩

/-- Behind its own variables a form sees nothing new. -/
theorem behind (h : Covers strict vocabulary sig w σ read scope) {α : Type}
    {post : Pairing frozen → α → Value → Prop} {m : EvalM α} {form : Form} {inner : Scope}
    (hform : strict → ∀ x, form.mentions x = true → sig.binder x)
    (hm : Simulates strict w post m (form.eval vocabulary.functions inner)) :
    Simulates strict w post m (form.eval vocabulary.functions (inner ++ scope)) := by
  refine hm.of_right (fun v s hv => ?_) fun hs => ?_
  · exact Form.eval_widen (Form.widens_append inner scope) form hv
  · refine congrFun (Form.eval_congr vocabulary.functions form fun x hx => ?_) w.right
    rw [List.lookup_append, h.clear hs x (hform hs x hx), Option.or_none]

/-- The bindings around an expression hold what the run binds. -/
theorem bindings (h : Covers strict vocabulary sig w σ read scope) {pairs : List (Name × Name)}
    (hpairs : ∀ b ∈ pairs, sig.subject b.2) (hread : ∀ b ∈ pairs, b.2 ∈ read) :
    ∃ values, w.RelatesScope (σ.bindings pairs) values ∧
      List.Forall₂ (fun b v => b.1 = v.1 ∧ b.2.eval vocabulary.functions scope = pure v.2)
        (LowerM.references pairs) values :=
  LowerM.evals_references vocabulary.functions fun b hb =>
    h.subjects b.2 (hread b hb) (hpairs b hb)

variable {pairs : List (Name × Name)}

theorem guard_simulates (hsig : sig.Separate strict)
    (h : Covers strict vocabulary sig w σ read scope) {expr : Form} (hexpr : sig.guard expr)
    (hpairs : ∀ b ∈ pairs, sig.binder b.1 ∧ sig.subject b.2) (hread : ∀ b ∈ pairs, b.2 ∈ read) :
    Simulates strict w Pairing.Relates
      (expr.evalWith vocabulary.functions (σ.bindings pairs))
      ((Form.bound (LowerM.references pairs) expr).eval vocabulary.functions scope) := by
  obtain ⟨values, hvalues, hevals⟩ := h.bindings (fun b hb => (hpairs b hb).2) hread
  rw [Form.eval_bound hevals]
  exact h.behind (fun hs => hsig.guards hs expr hexpr)
    (Matcher.evalWith_simulates (h.guards expr hexpr) hvalues)

theorem apply_simulates (hsig : sig.Separate strict)
    (h : Covers strict vocabulary sig w σ read scope) {func : Form} (hfunc : sig.function func)
    {subject : Name} (hs : sig.subject subject) (hsread : subject ∈ read)
    (hpairs : ∀ b ∈ pairs, sig.binder b.1 ∧ sig.subject b.2) (hread : ∀ b ∈ pairs, b.2 ∈ read) :
    Simulates strict w Pairing.Relates
      (Matcher.applyFunction vocabulary func (σ subject) (σ.bindings pairs))
      ((Form.bound (LowerM.references pairs)
        (func.application vocabulary.operators (.var subject))).eval vocabulary.functions scope) := by
  obtain ⟨v, hv, hrel⟩ := h.subjects subject hsread hs
  obtain ⟨values, hvalues, heval⟩ := LowerM.eval_application_references vocabulary.functions
    vocabulary.operators func hv
    (fun b hb heq => hsig.apart b.1 (heq ▸ hs) (hpairs b hb).1)
    fun b hb => h.subjects b.2 (hread b hb) (hpairs b hb).2
  rw [heval]
  refine h.behind (fun hstrict x hx => ?_)
    (Matcher.applyFunction_simulates (h.functions func hfunc) hrel hvalues)
  rw [Form.mentions_application_quote] at hx
  exact hsig.functions hstrict func hfunc x hx

end Covers

/-! ## Tests -/

/-- The code finds out whether the test holds. -/
def Test.Codes (frozen : Bool) (strict : Prop) (vocabulary : Vocabulary) (sig : Signature)
    (test : Test Form) (read : List Name) (code : Form) : Prop :=
  ∀ (w : Pairing frozen) (σ : Valuation) (scope : Scope),
    Covers strict vocabulary sig w σ read scope →
    Simulates strict w (fun _ b v => v.isTruthy = b) (test.holds vocabulary σ)
      (code.eval vocabulary.functions scope)

theorem Simulates.pure_of_eq {α β : Type} {post : Pairing frozen → α → β → Prop} {a : α} {b : β}
    {m : EvalM β} (hm : m = Pure.pure b) (h : post w a b) :
    Simulates strict w post (Pure.pure a) m := hm ▸ .pure h

theorem Simulates.truth {m : EvalM Value} {m' : EvalM Value}
    (h : Simulates strict w Pairing.Relates m m') :
    Simulates strict w (fun _ b v => v.isTruthy = b) (do return (← m).isTruthy) m' := by
  rw [← bind_pure m']
  exact h.bind fun _ hv => .pure (Value.Corresponds.isTruthy_eq hv).symm

namespace Test

theorem equal_codes (hv : vocabulary.Standard) {subject : Name} {l : Literal} {eqv : Equivalence}
    (ht : (Test.equal subject l eqv).Over sig) (hread : subject ∈ read) {c : Value}
    (hc : l.denotes c = true) :
    (Test.equal subject l eqv).Codes frozen strict vocabulary sig read
      (.call (vocabulary.operators.comparator eqv) [.var subject, .quote c]) := by
  intro w σ scope h
  obtain ⟨v, hlookup, hrel⟩ := h.subjects subject hread ht.1
  refine .pure_of_eq (Form.eval_comparator hv eqv (Form.eval_var hlookup) rfl) ?_
  rw [Value.isTruthy_ofBool, Literal.equiv_of_denotes (ht.2 l List.mem_cons_self) hc]
  exact (l.denotes_eq_of_sameContent hrel.sameContent).symm

theorem member_codes (hv : vocabulary.Standard) {subject : Name} {set : List Literal}
    {eqv : Equivalence} (ht : (Test.member subject set eqv).Over sig) (hread : subject ∈ read)
    {vs : List Value} (hvs : List.Forall₂ (fun l c => l.denotes c = true) set vs)
    (supply : ObjectSupply) :
    (Test.member subject set eqv).Codes frozen strict vocabulary sig read
      (.call (vocabulary.operators.membership eqv)
        [.var subject, .quote (Value.newList vs supply).1]) := by
  intro w σ scope h
  obtain ⟨v, hlookup, hrel⟩ := h.subjects subject hread ht.1
  obtain ⟨r, hr, htruth⟩ := Builtin.tailFrom_newList (.membership eqv) ht.2 hvs v supply
  refine .pure_of_eq ((Form.eval_membership hv eqv (Form.eval_var hlookup) rfl).trans hr)
    (htruth.trans ?_)
  congr 1
  funext l
  exact (l.denotes_eq_of_sameContent hrel.sameContent).symm

theorem sameAs_codes (hv : vocabulary.Standard) {subject other : Name}
    (ht : (Test.sameAs subject other).Over sig) (hread : subject ∈ read) (hother : other ∈ read) :
    (Test.sameAs subject other).Codes frozen strict vocabulary sig read
      (.call vocabulary.operators.eql [.var subject, .var other]) := by
  intro w σ scope h
  obtain ⟨v, hlookup, hrel⟩ := h.subjects subject hread ht.1
  obtain ⟨u, hlookup', hrel'⟩ := h.subjects other hother ht.2
  have hcode := Form.eval_comparator hv .numericIdentity (Form.eval_var hlookup)
    (Form.eval_var hlookup')
  refine .pure_of_eq hcode ?_
  rw [Value.isTruthy_ofBool, Value.isEql_comm]
  exact (Value.Corresponds.isEql_eq w.oneToOne hrel hrel').symm

/-- The code that a test is lowered to reads the subjects of the test and makes the test. -/
theorem lower_codes (frozen : Bool) {τ : Type} {I : τ → Prop} {e : Emitter τ Form Form}
    (he : e.Writes I vocabulary.operators) (hv : vocabulary.Standard) (hsig : sig.Separate strict)
    {test : Test Form} (ht : test.Over sig) (l : Lowering) :
    LowerM.Yields I l (test.lower e) fun code l' =>
      l.Reads [] l' ∧ test.Codes frozen strict vocabulary sig l'.referenced code := by
  unfold lower
  refine (LowerM.yields_reads test.subjects).bind fun _ l₁ hl₁ => ?_
  have hreads : l.Reads [] l₁ := ⟨hl₁.referenced, fun _ hx => (by cases hx), hl₁.dropped⟩
  cases test with
  | equal subject literal eqv =>
      refine (LowerM.Yields.lift (he.var subject)).bind fun f l₂ hf => ?_
      obtain ⟨rfl, rfl⟩ := hf
      refine (LowerM.Yields.lift (he.equalityTest _ literal eqv)).mono fun r hr => ?_
      obtain ⟨⟨c, hcode, hc⟩, hl⟩ := hr
      rw [hcode, hl]
      exact ⟨hreads, equal_codes hv ht (hl₁.reads subject List.mem_cons_self) hc⟩
  | member subject set eqv =>
      refine (LowerM.Yields.lift (he.var subject)).bind fun f l₂ hf => ?_
      obtain ⟨rfl, rfl⟩ := hf
      refine (LowerM.Yields.lift (he.membershipTest _ set eqv)).mono fun r hr => ?_
      obtain ⟨⟨vs, supply, hcode, hvs⟩, hl⟩ := hr
      rw [hcode, hl]
      exact ⟨hreads, member_codes hv ht (hl₁.reads subject List.mem_cons_self) hvs supply⟩
  | sameAs subject other =>
      refine (LowerM.Yields.lift (he.var subject)).bind fun f l₂ hf => ?_
      obtain ⟨rfl, rfl⟩ := hf
      refine (LowerM.Yields.lift (he.var other)).bind fun f l₂ hf => ?_
      obtain ⟨rfl, rfl⟩ := hf
      refine (LowerM.Yields.lift (he.sameValueTest _ _)).mono fun r hr => ?_
      rw [hr.1, hr.2]
      exact ⟨hreads, sameAs_codes hv ht (hl₁.reads subject (by simp [subjects]))
        (hl₁.reads other (by simp [subjects]))⟩
  | predicate subject func pairs =>
      refine (LowerM.yields_bindings he pairs).bind fun made l₂ hmade => ?_
      obtain ⟨rfl, hl₂⟩ := hmade
      refine (LowerM.Yields.lift (he.var subject)).bind fun f l₃ hf => ?_
      obtain ⟨rfl, rfl⟩ := hf
      refine (LowerM.Yields.lift (he.predicateTest func _ _)).mono fun r hr => ?_
      rw [hr.1, hr.2]
      refine ⟨hreads.trans ⟨hl₂.referenced, fun _ hx => (by cases hx), hl₂.dropped⟩,
        fun w σ scope h => ?_⟩
      exact (h.apply_simulates hsig ht.2.1 ht.1
        (hl₂.referenced _ (hl₁.reads subject List.mem_cons_self)) ht.2.2
        fun b hb => hl₂.reads _ (List.mem_map_of_mem hb)).truth
  | guard expr pairs =>
      refine (LowerM.yields_bindings he pairs).bind fun made l₂ hmade => ?_
      obtain ⟨rfl, hl₂⟩ := hmade
      refine (LowerM.Yields.lift (he.guardTest expr _)).mono fun r hr => ?_
      rw [hr.1, hr.2]
      refine ⟨hreads.trans ⟨hl₂.referenced, fun _ hx => (by cases hx), hl₂.dropped⟩,
        fun w σ scope h => ?_⟩
      exact (h.guard_simulates hsig ht.1 ht.2
        fun b hb => hl₂.reads _ (List.mem_map_of_mem hb)).truth

end Test

/-! ## Decisions -/

/-- The code of a site gives what a leaf with the environment gives, wherever the subjects are. -/
structure Site.Codes (frozen : Bool) (strict : Prop) (vocabulary : Vocabulary)
    (binder : Name → Prop) (post : Outcome → Value → Prop) (case : Nat) (env : Environment)
    (site : Site Form) : Prop where
  subjects : site.subjects = env.subjects
  simulates : ∀ (w : Pairing frozen) (σ : Valuation) (scope : Scope),
    (∀ x ∈ env.subjects, ¬ binder x ∧ ∃ v, scope.lookup x = some v ∧ w.Relates (σ x) v) →
    Simulates strict w (fun _ => post) (pure (some (case, env.values σ)))
      (site.code.eval vocabulary.functions scope)

def Decision.Codes (frozen : Bool) (strict : Prop) (vocabulary : Vocabulary) (sig : Signature)
    (table : UseTable) (post : Outcome → Value → Prop) (decision : Decision Form)
    (read : List Name) (code : Form) : Prop :=
  ∀ (w : Pairing frozen) (σ : Valuation) (scope : Scope),
    Covers strict vocabulary sig w σ read scope →
    Simulates strict w (fun _ => post) (decision.run vocabulary table σ)
      (code.eval vocabulary.functions scope)

/-- The first computation may make a step by itself, if errors do not count. -/
theorem Simulates.skip {α β γ : Type} {post : Pairing frozen → β → γ → Prop} {m : EvalM α}
    {f : α → EvalM β} {m' : EvalM γ} (hlax : ¬ strict)
    (h : ∀ a s, m w.left = .ok (a, s) →
      ∃ hle : w.left.next ≤ s.next,
        Simulates strict (w.advance s w.right hle (Nat.le_refl _)) post (f a) m') :
    Simulates strict w post (m >>= f) m' where
  ok hb := by
    obtain ⟨a, s, ha, hb⟩ := EvalM.bind_eq_ok.mp hb
    obtain ⟨hle, hf⟩ := h a s ha
    obtain ⟨c, w', hc, hs, hw, hbc⟩ := hf.ok hb
    exact ⟨c, w', hc, hs, (w.extends_advance hle (Nat.le_refl _)).trans hw, hbc⟩
  error hs := absurd hs hlax

theorem Covers.project (h : Covers strict vocabulary sig w σ read scope) {fresh : Name}
    {v v' : Value} (hw : w.Extends w')
    (hsituated : Situated frozen vocabulary.functions (sig.extend fresh) (σ.set fresh v) w'.left)
    (hrel : w'.Relates v v') (hfresh : ¬ sig.subject fresh) (hbinder : ¬ sig.binder fresh) :
    Covers strict vocabulary (sig.extend fresh) w' (σ.set fresh v) read
      ((fresh, v') :: scope) where
  situated := hsituated
  subjects x hx hs := by
    rcases hs with rfl | hs
    · exact ⟨v', List.lookup_cons_self, by rwa [Valuation.set_self]⟩
    · have hne : x ≠ fresh := by
        rintro rfl
        exact hfresh hs
      obtain ⟨u, hu, hrel⟩ := h.subjects x hx hs
      refine ⟨u, ?_, ?_⟩
      · rw [List.lookup_cons, beq_false_of_ne hne]
        exact hu
      · rw [Valuation.set_of_ne σ v hne]
        exact hrel.mono hw
  functions f hf := (h.functions f hf).mono hw
  guards f hf := (h.guards f hf).mono hw
  clear hs x hx := by
    have hne : x ≠ fresh := by
      rintro rfl
      exact hbinder hx
    rw [List.lookup_cons, beq_false_of_ne hne]
    exact h.clear hs x hx

/-- A variable that is not read need not be there. -/
theorem Covers.drop (h : Covers strict vocabulary sig w σ read scope) {fresh : Name} {v : Value}
    (hw : w.Extends w')
    (hsituated : Situated frozen vocabulary.functions (sig.extend fresh) (σ.set fresh v) w'.left)
    (hread : fresh ∉ read) :
    Covers strict vocabulary (sig.extend fresh) w' (σ.set fresh v) read scope where
  situated := hsituated
  subjects x hx hs := by
    rcases hs with rfl | hs
    · exact absurd hx hread
    · have hne : x ≠ fresh := by
        rintro rfl
        exact hread hx
      obtain ⟨u, hu, hrel⟩ := h.subjects x hx hs
      exact ⟨u, hu, by rw [Valuation.set_of_ne σ v hne]; exact hrel.mono hw⟩
  functions f hf := (h.functions f hf).mono hw
  guards f hf := (h.guards f hf).mono hw
  clear := h.clear

namespace Decision

variable {table : UseTable} {post : Outcome → Value → Prop}

theorem leaf_codes {case use : Nat} {env : Environment} {site : Site Form}
    (hsig : sig.Separate strict) (huse : (table.uses case)[use]? = some env)
    (henv : env.Over sig)
    (hsite : site.Codes frozen strict vocabulary sig.binder post case env)
    (hread : ∀ x ∈ site.subjects, x ∈ read) :
    (leaf case use).Codes frozen strict vocabulary sig table post read site.code := by
  intro w σ scope h
  rw [run, huse]
  refine hsite.simulates w σ scope fun x hx => ?_
  have hs := henv.subjects x hx
  exact ⟨hsig.apart x hs, h.subjects x (hread x (hsite.subjects ▸ hx)) hs⟩

theorem test_codes {asked : Test Form} {yes no : Decision Form} {test yesCode noCode : Form}
    (htest : asked.Codes frozen strict vocabulary sig read test)
    (hyes : yes.Codes frozen strict vocabulary sig table post read yesCode)
    (hno : no.Codes frozen strict vocabulary sig table post read noCode) :
    (Decision.test asked yes no).Codes frozen strict vocabulary sig table post read
      (.cond test yesCode noCode) := by
  intro w σ scope h
  rw [run, Test.ask, Form.eval]
  refine (htest w σ scope h).bind fun {w' b v} hw hb => ?_
  rw [hb]
  cases b with
  | true => exact hyes w' σ scope (h.mono hw)
  | false => exact hno w' σ scope (h.mono hw)

theorem project_codes {fresh subject : Name} {func : Form} {pairs : List (Name × Name)}
    {body : Decision Form} {bodyCode : Form} (hsig : sig.Separate strict)
    (hs : sig.subject subject) (hf : sig.function func)
    (hpairs : ∀ b ∈ pairs, sig.binder b.1 ∧ sig.subject b.2) (hfresh : ¬ sig.subject fresh)
    (hbinder : ¬ sig.binder fresh) (hsread : subject ∈ read) (hread : ∀ b ∈ pairs, b.2 ∈ read)
    (hbody : body.Codes frozen strict vocabulary (sig.extend fresh) table post read bodyCode) :
    (project fresh func subject pairs body).Codes frozen strict vocabulary sig table post read
      (.bound [(fresh, .bound (LowerM.references pairs)
        (func.application vocabulary.operators (.var subject)))] bodyCode) := by
  intro w σ scope h
  have heval (f : Form) : (Form.bound [(fresh, f)] bodyCode).eval vocabulary.functions scope =
      f.eval vocabulary.functions scope >>= fun v =>
        bodyCode.eval vocabulary.functions ((fresh, v) :: scope) := by
    simp only [Form.bound, List.isEmpty_cons, Bool.false_eq_true, if_false, Form.eval,
      Form.evalBound, bind_assoc, pure_bind, List.reverse_singleton, List.singleton_append]
  rw [run, heval]
  refine (h.apply_simulates hsig hf hs hsread hpairs hread).bind_of_runs
    fun {w' v v'} hw hrel hv _ => ?_
  have hset := Queue.situated_set h.situated hs hf (fun b hb => (hpairs b hb).2) hv hfresh
  exact hbody w' _ _ (h.project hw hset.2 hrel hfresh hbinder)

theorem drop_codes {fresh subject : Name} {func : Form} {pairs : List (Name × Name)}
    {body : Decision Form} {code : Form} (hlax : ¬ strict) (hs : sig.subject subject)
    (hf : sig.function func) (hpairs : ∀ b ∈ pairs, sig.binder b.1 ∧ sig.subject b.2)
    (hfresh : ¬ sig.subject fresh) (hread : fresh ∉ read)
    (hbody : body.Codes frozen strict vocabulary (sig.extend fresh) table post read code) :
    (project fresh func subject pairs body).Codes frozen strict vocabulary sig table post read
      code := by
  intro w σ scope h
  rw [run]
  refine .skip hlax fun v s hv => ?_
  obtain ⟨hle, hset⟩ := Queue.situated_set h.situated hs hf (fun b hb => (hpairs b hb).2) hv hfresh
  exact ⟨hle, hbody _ _ _ (h.drop (w.extends_advance hle (Nat.le_refl _)) hset hread)⟩

theorem Codes.of_read {decision : Decision Form} {code : Form}
    (h : decision.Codes frozen strict vocabulary sig table post read' code)
    (hread : ∀ x ∈ read', x ∈ read) :
    decision.Codes frozen strict vocabulary sig table post read code :=
  fun w σ scope hcovers => h w σ scope (hcovers.of_read hread)

/-- The code that a decision is lowered to does what the decision does, if no projection is left out
where errors count. -/
theorem lower_codes {τ : Type} {I : τ → Prop} {e : Emitter τ Form Form}
    (he : e.Writes I vocabulary.operators) (hv : vocabulary.Standard)
    {sites : List (List (Site Form))} {binder : Name → Prop}
    (hsites : ∀ case use env, (table.uses case)[use]? = some env →
      ∃ site, siteAt? sites case use = some site ∧
        site.Codes frozen strict vocabulary binder post case env)
    (hpost : post none .nil) {decision : Decision Form} (hbinder : sig.binder = binder)
    (hsig : sig.Separate strict) (hd : decision.Over table sig) (l : Lowering) :
    LowerM.Yields I l (decision.lower e sites) fun code l' =>
      l.Grows l' ∧ ((strict → l'.dropped = l.dropped) →
        decision.Codes frozen strict vocabulary sig table post l'.referenced code) := by
  induction decision generalizing sig l with
  | fail =>
      refine (LowerM.Yields.lift he.noMatch).mono fun r hr => ?_
      rw [hr.1, hr.2]
      exact ⟨.refl l, fun _ w σ scope _ => .pure hpost⟩
  | leaf case use =>
      obtain ⟨env, huse, henv⟩ := hd
      obtain ⟨site, hsite, hcodes⟩ := hsites case use env huse
      rw [lower, hsite]
      refine (LowerM.yields_reads site.subjects).bind fun _ l' hl' => ?_
      exact .pure ⟨hl'.grows, fun _ => leaf_codes hsig huse henv (hbinder ▸ hcodes) hl'.reads⟩
  | test asked yes no ihyes ihno =>
      rw [lower]
      refine (ihyes hbinder hsig hd.2.1 l).bind fun yesCode l₁ h₁ => ?_
      refine (ihno hbinder hsig hd.2.2 l₁).bind fun noCode l₂ h₂ => ?_
      refine (Test.lower_codes frozen he hv hsig hd.1 l₂).bind fun testCode l₃ h₃ => ?_
      obtain ⟨hreads, htest⟩ := h₃
      refine (LowerM.Yields.lift (he.cond testCode yesCode noCode)).mono fun r hr => ?_
      rw [hr.1, hr.2]
      have hgrows : l₁.Grows l₃ := h₂.1.trans hreads.grows
      refine ⟨h₁.1.trans hgrows, fun hdropped => test_codes htest ?_ ?_⟩
      · refine (h₁.2 fun hs => ?_).of_read hgrows.referenced
        have hle := hgrows.dropped
        rw [hdropped hs] at hle
        exact Nat.le_antisymm hle h₁.1.dropped
      · refine (h₂.2 fun hs => ?_).of_read hreads.referenced
        have hle := h₁.1.dropped
        rw [← hdropped hs, hreads.dropped] at hle
        exact Nat.le_antisymm hle h₂.1.dropped
  | project fresh func subject pairs body ih =>
      obtain ⟨hs, hf, hpairs, hfresh, hunbound, hbody⟩ := hd
      rw [lower]
      refine (@ih (sig.extend fresh) hbinder (hsig.extend hunbound) hbody l).bind
        fun code l₁ h₁ => ?_
      refine LowerM.yields_get.bind fun _ _ hl => ?_
      obtain ⟨rfl, rfl⟩ := hl
      split
      · refine (LowerM.yields_reads [subject]).bind fun _ l₂ h₂ => ?_
        refine (LowerM.yields_bindings he pairs).bind fun made l₃ h₃ => ?_
        obtain ⟨rfl, h₃⟩ := h₃
        refine (LowerM.Yields.lift (he.var subject)).bind fun f l' hvar => ?_
        obtain ⟨rfl, rfl⟩ := hvar
        refine (LowerM.Yields.lift (he.apply func _ _)).bind fun value l' hvalue => ?_
        obtain ⟨rfl, rfl⟩ := hvalue
        refine (LowerM.Yields.lift (he.letIn _ code)).mono fun r hr => ?_
        rw [hr.1, hr.2]
        have hreads := h₂.trans h₃
        refine ⟨h₁.1.trans hreads.grows, fun hdropped => ?_⟩
        refine project_codes hsig hs hf hpairs hfresh hunbound
          (hreads.reads subject List.mem_cons_self)
          (fun b hb => h₃.reads _ (List.mem_map_of_mem hb)) ?_
        exact (h₁.2 fun hs => hreads.dropped.symm.trans (hdropped hs)).of_read hreads.referenced
      · rename_i hunread
        refine PatternCompiler.Yields.pure ⟨⟨h₁.1.referenced, Nat.le_succ_of_le h₁.1.dropped⟩,
          fun hdropped => ?_⟩
        have hlax : ¬ strict := fun hs => by
          have hle := h₁.1.dropped
          have heq : _ + 1 = l.dropped := hdropped hs
          omega
        exact drop_codes hlax hs hf hpairs hfresh (by simpa using hunread)
          (h₁.2 fun hs => absurd hs hlax)

end Decision

end

end PatternCompiler
