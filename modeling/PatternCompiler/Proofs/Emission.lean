import PatternCompiler.Clause
import PatternCompiler.Proofs.Constants
import PatternCompiler.Proofs.Evaluation
import PatternCompiler.Proofs.Naming

/-!
# What emitted forms evaluate to

The hooks of the emitter of forms, with or without a journal around them, write fixed forms. Their
tests find out what they are meant to find out, and expressions that are wrapped in bindings see the
bindings.
-/

namespace PatternCompiler

set_option autoImplicit false

/-! ## Actions -/

/-- In a state with `I` the action gives something with `post`, and `I` holds of the next state. -/
def Yields {τ α : Type} (I : τ → Prop) (action : StateM τ α) (post : α → Prop) : Prop :=
  ∀ j, I j → post (action j).1 ∧ I (action j).2

namespace Yields

variable {τ α β : Type} {I : τ → Prop}

theorem pure {a : α} {post : α → Prop} (h : post a) : Yields I (Pure.pure a) post :=
  fun _ hj => ⟨h, hj⟩

theorem bind {m : StateM τ α} {f : α → StateM τ β} {post : α → Prop} {post' : β → Prop}
    (hm : Yields I m post) (hf : ∀ a, post a → Yields I (f a) post') :
    Yields I (m >>= f) post' := by
  intro j hj
  obtain ⟨ha, hj'⟩ := hm j hj
  exact hf _ ha _ hj'

theorem mono {m : StateM τ α} {post post' : α → Prop} (hm : Yields I m post)
    (h : ∀ a, post a → post' a) : Yields I m post' :=
  fun j hj => ⟨h _ (hm j hj).1, (hm j hj).2⟩

theorem mapM {f : α → StateM τ β} {R : α → β → Prop} {l : List α}
    (h : ∀ a ∈ l, Yields I (f a) (R a)) : Yields I (l.mapM f) (List.Forall₂ R l) := by
  induction l with
  | nil =>
      rw [List.mapM_nil]
      exact pure .nil
  | cons a l ih =>
      obtain ⟨ha, hl⟩ := List.forall_mem_cons.mp h
      rw [List.mapM_cons]
      refine ha.bind fun b hb => ?_
      refine (ih hl).bind fun bs hbs => ?_
      exact pure (.cons hb hbs)

theorem mapM_eq {f : α → StateM τ β} {g : α → β} {l : List α}
    (h : ∀ a ∈ l, Yields I (f a) (· = g a)) : Yields I (l.mapM f) (· = l.map g) := by
  refine (mapM h).mono fun bs hbs => ?_
  induction hbs with
  | nil => rfl
  | cons hb _ ih => rw [hb, ih fun a ha => h a (List.mem_cons_of_mem _ ha), List.map_cons]

end Yields

/-! ## Hooks -/

/-- The hooks write the forms of the target language, in any state with `I`. -/
structure Emitter.Writes {τ : Type} (I : τ → Prop) (ops : Operators)
    (e : Emitter τ Form Form) : Prop where
  var : ∀ x, Yields I (e.var x) (· = .var x)
  equalityTest : ∀ subject l eqv, Yields I (e.equalityTest subject l eqv) fun code =>
    ∃ c, code = .call (ops.comparator eqv) [subject, .quote c] ∧ l.denotes c = true
  membershipTest : ∀ subject set eqv, Yields I (e.membershipTest subject set eqv) fun code =>
    ∃ vs supply,
      code = .call (ops.membership eqv) [subject, .quote (Value.newList vs supply).1] ∧
        List.Forall₂ (fun l v => l.denotes v = true) set vs
  sameValueTest : ∀ subject other, Yields I (e.sameValueTest subject other)
    (· = .call ops.eql [subject, other])
  predicateTest : ∀ func subject bindings, Yields I (e.predicateTest func subject bindings)
    (· = .bound bindings (func.application ops subject))
  guardTest : ∀ expr bindings, Yields I (e.guardTest expr bindings) (· = .bound bindings expr)
  apply : ∀ func subject bindings, Yields I (e.apply func subject bindings)
    (· = .bound bindings (func.application ops subject))
  cond : ∀ test yes no, Yields I (e.cond test yes no) (· = .cond test yes no)
  letIn : ∀ bindings body, Yields I (e.letIn bindings body) (· = .bound bindings body)
  noMatch : Yields I e.noMatch (· = .nil)
  unboundValue : Yields I e.unboundValue (· = .nil)

theorem formEmitter_writes (ops : Operators) (mentions : Form → Name → Bool) :
    Emitter.Writes (fun _ => True) ops { formEmitter ops with mentions := mentions } where
  var _ := .pure rfl
  equalityTest _ l _ j _ := ⟨⟨_, rfl, l.denotes_ofLiteral j⟩, trivial⟩
  membershipTest _ set _ j _ := ⟨⟨_, _, rfl, Literal.denotes_ofLiterals set j⟩, trivial⟩
  sameValueTest _ _ := .pure rfl
  predicateTest _ _ _ := .pure rfl
  guardTest _ _ := .pure rfl
  apply _ _ _ := .pure rfl
  cond _ _ _ := .pure rfl
  letIn _ _ := .pure rfl
  noMatch := .pure rfl
  unboundValue := .pure rfl

namespace Journal

/-- Hooks are entered in a journal before their objects are made; no body is generated then. -/
theorem yields_hook {α : Type} {action : StateM ObjectSupply α} {post : α → Prop}
    (h : Yields (fun _ => True) action post) (call : HookCall Form) (made : Array Invocation) :
    Yields (fun j : Journal => j.invocations = made)
      (do addHook call; withObjects action) post :=
  fun j hj => ⟨(h j.objects trivial).1, hj⟩

theorem emitter_writes {ops : Operators} {e : Emitter ObjectSupply Form Form}
    (h : e.Writes (fun _ => True) ops) (made : Array Invocation) :
    (emitter e).Writes (fun j => j.invocations = made) ops where
  var x := yields_hook (h.var x) _ made
  equalityTest subject l eqv := yields_hook (h.equalityTest subject l eqv) _ made
  membershipTest subject set eqv := yields_hook (h.membershipTest subject set eqv) _ made
  sameValueTest subject other := yields_hook (h.sameValueTest subject other) _ made
  predicateTest func subject bindings := yields_hook (h.predicateTest func subject bindings) _ made
  guardTest expr bindings := yields_hook (h.guardTest expr bindings) _ made
  apply func subject bindings := yields_hook (h.apply func subject bindings) _ made
  cond test yes no := yields_hook (h.cond test yes no) _ made
  letIn bindings body := yields_hook (h.letIn bindings body) _ made
  noMatch := yields_hook h.noMatch _ made
  unboundValue := yields_hook h.unboundValue _ made

end Journal

/-- Hooks that write their forms and keep a part of the state, whatever it is, always write them. -/
theorem Emitter.Writes.always {τ α : Type} {part : τ → α} {ops : Operators}
    {e : Emitter τ Form Form} (h : ∀ a, e.Writes (fun j => part j = a) ops) :
    e.Writes (fun _ => True) ops where
  var x j _ := ⟨((h _).var x j rfl).1, trivial⟩
  equalityTest subject l eqv j _ := ⟨((h _).equalityTest subject l eqv j rfl).1, trivial⟩
  membershipTest subject set eqv j _ := ⟨((h _).membershipTest subject set eqv j rfl).1, trivial⟩
  sameValueTest subject other j _ := ⟨((h _).sameValueTest subject other j rfl).1, trivial⟩
  predicateTest func subject bindings j _ :=
    ⟨((h _).predicateTest func subject bindings j rfl).1, trivial⟩
  guardTest expr bindings j _ := ⟨((h _).guardTest expr bindings j rfl).1, trivial⟩
  apply func subject bindings j _ := ⟨((h _).apply func subject bindings j rfl).1, trivial⟩
  cond test yes no j _ := ⟨((h _).cond test yes no j rfl).1, trivial⟩
  letIn bindings body j _ := ⟨((h _).letIn bindings body j rfl).1, trivial⟩
  noMatch j _ := ⟨((h _).noMatch j rfl).1, trivial⟩
  unboundValue j _ := ⟨((h _).unboundValue j rfl).1, trivial⟩

/-! ## Comparisons -/

@[simp] theorem Value.isTruthy_ofBool (b : Bool) : (ofBool b).isTruthy = b := by
  cases b <;> decide

namespace Builtin

theorem run_comparator (eqv : Equivalence) (v u : Value) :
    (comparator eqv).run [v, u] = pure (.ofBool (v.equiv eqv u)) := by
  cases eqv <;> rfl

theorem run_membership (eqv : Equivalence) (v u : Value) :
    (membership eqv).run [v, u] = tailFrom (membership eqv) eqv v u := by
  cases eqv <;> rfl

/-- Searching a list of constants finds out whether the value is equal to one of them. -/
theorem isTruthy_tailFrom_newList (b : Builtin) {eqv : Equivalence} {set : List Literal}
    {p : Literal → Bool} {vs : List Value} {v : Value}
    (hvs : List.Forall₂ (fun l c => v.equiv eqv c = p l) set vs) (supply : ObjectSupply) :
    ∃ r, tailFrom b eqv v (Value.newList vs supply).1 = pure r ∧ r.isTruthy = set.any p := by
  induction hvs with
  | nil => exact ⟨.nil, rfl, rfl⟩
  | @cons l c set vs hc _ ih =>
      rw [Literal.newList_cons_fst, tailFrom, hc, List.any_cons]
      cases p l with
      | true => exact ⟨_, rfl, rfl⟩
      | false => exact ih

/-- Searching a list of constants finds out whether one of the literals denotes the value. -/
theorem tailFrom_newList (b : Builtin) {eqv : Equivalence} {set : List Literal} {vs : List Value}
    (hset : ∀ l ∈ set, l.equivalence.implies eqv = true)
    (hvs : List.Forall₂ (fun l c => l.denotes c = true) set vs) (v : Value)
    (supply : ObjectSupply) :
    ∃ r, tailFrom b eqv v (Value.newList vs supply).1 = pure r ∧
      r.isTruthy = set.any fun l => l.denotes v := by
  refine isTruthy_tailFrom_newList b ?_ supply
  induction hvs with
  | nil => exact .nil
  | cons hc _ ih =>
      obtain ⟨hl, hset⟩ := List.forall_mem_cons.mp hset
      exact .cons (Literal.equiv_of_denotes hl hc v) (ih hset)

end Builtin

namespace Form

variable {functions : FunctionTable} {scope : Scope} {s : ObjectSupply}

theorem eval_var {x : Name} {v : Value} (h : scope.lookup x = some v) :
    (var x).eval functions scope = pure v := by
  rw [eval, lookupVariable, h]

theorem eval_call_two {name : Name} {b : Builtin} {f g : Form} {v u : Value}
    (hname : functions.lookup name = some b) (hb : b ≠ .funcall)
    (hf : f.eval functions scope = pure v) (hg : g.eval functions scope = pure u) :
    (call name [f, g]).eval functions scope = b.run [v, u] := by
  simp only [eval, FunctionTable.resolve, hname, evalList, hf, hg, pure_bind]
  exact FunctionTable.apply_eq_run functions hb _

/-- A call of a comparator compares the two values. -/
theorem eval_comparator {vocabulary : Vocabulary} (hv : vocabulary.Standard) (eqv : Equivalence)
    {f g : Form} {v u : Value} (hf : f.eval vocabulary.functions scope = pure v)
    (hg : g.eval vocabulary.functions scope = pure u) :
    (call (vocabulary.operators.comparator eqv) [f, g]).eval vocabulary.functions scope =
      pure (.ofBool (v.equiv eqv u)) := by
  have hne : Builtin.comparator eqv ≠ .funcall := by cases eqv <;> decide
  rw [eval_call_two (hv.comparator eqv) hne hf hg, Builtin.run_comparator]

/-- A call of a membership function searches the list for the value. -/
theorem eval_membership {vocabulary : Vocabulary} (hv : vocabulary.Standard) (eqv : Equivalence)
    {f g : Form} {v u : Value} (hf : f.eval vocabulary.functions scope = pure v)
    (hg : g.eval vocabulary.functions scope = pure u) :
    (call (vocabulary.operators.membership eqv) [f, g]).eval vocabulary.functions scope =
      Builtin.tailFrom (.membership eqv) eqv v u := by
  have hne : Builtin.membership eqv ≠ .funcall := by cases eqv <;> decide
  rw [eval_call_two (hv.membership eqv) hne hf hg, Builtin.run_membership]

/-! ## Bindings around a form -/

/-- Every variable is there with the value it has in `scope`. -/
def Widens (scope scope' : Scope) : Prop :=
  ∀ x v, scope.lookup x = some v → scope'.lookup x = some v

theorem Widens.append {scope scope' : Scope} (h : Widens scope scope') (inner : Scope) :
    Widens (inner ++ scope) (inner ++ scope') := by
  intro x v hv
  rw [List.lookup_append] at hv ⊢
  cases hx : inner.lookup x with
  | none =>
      rw [hx, Option.none_or] at hv
      rw [Option.none_or]
      exact h x v hv
  | some u =>
      rw [hx, Option.some_or] at hv
      rw [Option.some_or]
      exact hv

theorem widens_append (inner scope : Scope) : Widens inner (inner ++ scope) := by
  intro x v hv
  rw [List.lookup_append, hv, Option.some_or]

mutual

/-- More variables do no harm to a form that has a value. -/
theorem eval_widen {scope scope' : Scope} (h : Widens scope scope') (f : Form)
    {s s' : ObjectSupply} {v : Value} (hv : f.eval functions scope s = .ok (v, s')) :
    f.eval functions scope' s = .ok (v, s') := by
  cases f with
  | var x =>
      simp only [eval, lookupVariable] at hv ⊢
      cases hx : scope.lookup x with
      | none =>
          rw [hx] at hv
          cases hv
      | some u =>
          rw [hx] at hv
          rw [h x u hx]
          exact hv
  | quote value => exact hv
  | function name => exact hv
  | call func args =>
      simp only [eval] at hv ⊢
      obtain ⟨b, s₁, hb, hv⟩ := EvalM.bind_eq_ok.mp hv
      obtain ⟨values, s₂, hvalues, hv⟩ := EvalM.bind_eq_ok.mp hv
      rw [EvalM.bind_of_ok hb, EvalM.bind_of_ok (evalList_widen h args hvalues)]
      exact hv
  | cond test yes no =>
      simp only [eval] at hv ⊢
      obtain ⟨u, s₁, hu, hv⟩ := EvalM.bind_eq_ok.mp hv
      rw [EvalM.bind_of_ok (eval_widen h test hu)]
      split at hv
      · rename_i htrue
        rw [if_pos htrue]
        exact eval_widen h yes hv
      · rename_i hfalse
        rw [if_neg hfalse]
        exact eval_widen h no hv
  | letIn bindings body =>
      simp only [eval] at hv ⊢
      obtain ⟨inner, s₁, hinner, hv⟩ := EvalM.bind_eq_ok.mp hv
      rw [EvalM.bind_of_ok (evalBound_widen h bindings hinner)]
      exact eval_widen (h.append _) body hv

theorem evalList_widen {scope scope' : Scope} (h : Widens scope scope') (fs : List Form)
    {s s' : ObjectSupply} {vs : List Value} (hv : evalList functions fs scope s = .ok (vs, s')) :
    evalList functions fs scope' s = .ok (vs, s') := by
  cases fs with
  | nil => exact hv
  | cons f fs =>
      simp only [evalList] at hv ⊢
      obtain ⟨u, s₁, hu, hv⟩ := EvalM.bind_eq_ok.mp hv
      obtain ⟨us, s₂, hus, hv⟩ := EvalM.bind_eq_ok.mp hv
      rw [EvalM.bind_of_ok (eval_widen h f hu), EvalM.bind_of_ok (evalList_widen h fs hus)]
      exact hv

theorem evalBound_widen {scope scope' : Scope} (h : Widens scope scope')
    (bindings : List (Name × Form)) {s s' : ObjectSupply} {inner : Scope}
    (hv : evalBound functions bindings scope s = .ok (inner, s')) :
    evalBound functions bindings scope' s = .ok (inner, s') := by
  match bindings with
  | [] => exact hv
  | (name, f) :: rest =>
      simp only [evalBound] at hv ⊢
      obtain ⟨u, s₁, hu, hv⟩ := EvalM.bind_eq_ok.mp hv
      obtain ⟨us, s₂, hus, hv⟩ := EvalM.bind_eq_ok.mp hv
      rw [EvalM.bind_of_ok (eval_widen h f hu), EvalM.bind_of_ok (evalBound_widen h rest hus)]
      exact hv

end

theorem evalBound_pure {bindings : List (Name × Form)} {values : List (Name × Value)}
    (h : List.Forall₂ (fun b v => b.1 = v.1 ∧ b.2.eval functions scope = pure v.2)
      bindings values) :
    evalBound functions bindings scope = pure values := by
  induction h with
  | nil => rfl
  | @cons b v bindings values hb _ ih =>
      obtain ⟨name, f⟩ := b
      obtain ⟨rfl, hf⟩ := hb
      simp only [evalBound, hf, ih, pure_bind]

/-- Names that are bound to what is there already. -/
theorem eval_bound {bindings : List (Name × Form)} {values : List (Name × Value)}
    (h : List.Forall₂ (fun b v => b.1 = v.1 ∧ b.2.eval functions scope = pure v.2)
      bindings values) (body : Form) :
    (bound bindings body).eval functions scope =
      body.eval functions (values.reverse ++ scope) := by
  unfold bound
  split
  · rename_i hempty
    rw [List.isEmpty_iff.mp hempty] at h
    cases h
    rfl
  · rw [eval, evalBound_pure h, pure_bind]

end Form

end PatternCompiler
