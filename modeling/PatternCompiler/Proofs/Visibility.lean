import PatternCompiler.Proofs.Closure

/-!
# What a form can see

A form that does not mention a name cannot tell what the name stands for, or whether it stands for
anything. Wrapping a form in a binding of the pattern variables that it mentions is therefore as
good as putting all pattern variables of the path into its scope: this is what the hooks for guards,
predicates and projections do.
-/

namespace PatternCompiler

set_option autoImplicit false

/-! ## Scopes -/

/-- The scopes give every name but `x` the same value, or none. -/
def Scope.SameBut (x : Name) (scope scope' : Scope) : Prop :=
  ∀ y, y ≠ x → scope.lookup y = scope'.lookup y

namespace Form

variable {functions : FunctionTable} {f : Form} {scope scope' : Scope}

/-- Names that a form does not mention may come, go and change their value. -/
theorem eval_sameBut {x : Name} (hx : f.mentions x = false) (h : scope.SameBut x scope') :
    f.eval functions scope = f.eval functions scope' := by
  apply eval_congr
  intro y hy
  apply h
  rintro rfl
  rw [hx] at hy
  cases hy

/-! ## Pattern variables -/

/-- The subjects of the variables that an expression sees have their values in the scope. -/
def Sees (expr : Form) (env : Environment) (σ : Valuation) (scope : Scope) : Prop :=
  ∀ b ∈ env.bindings, expr.mentions b.name = true → scope.lookup b.subject = some (σ b.subject)

variable {expr : Form} {env : Environment} {σ : Valuation}

/-- The bindings around an expression give its variables the values of their subjects. -/
theorem Sees.references (h : expr.Sees env σ scope) (ops : Operators) :
    List.Forall₂ (fun b v => b.1 = v.1 ∧ b.2.eval functions scope = pure v.2)
      (LowerM.references (env.visible (formEmitter ops).mentions expr))
      (σ.bindings (env.visible (formEmitter ops).mentions expr)) := by
  refine List.forall₂_map_left_iff.mpr (List.forall₂_map_right_iff.mpr (List.forall₂_same.mpr ?_))
  intro pair hpair
  obtain ⟨b, hb, rfl⟩ := List.mem_map.mp hpair
  obtain ⟨hmem, hmentions⟩ := List.mem_filter.mp hb
  exact ⟨rfl, eval_var (h b hmem hmentions)⟩

theorem lookup_filter_values_of_not_mem {x : Name} (hx : x ∉ env.names) {q : Name × Value → Bool} :
    ((env.values σ).reverse.filter q).lookup x = none := by
  apply lookup_eq_none_of_not_mem
  intro hmem
  obtain ⟨b, hb, rfl⟩ := List.mem_map.mp hmem
  obtain ⟨bound, hbound, rfl⟩ := List.mem_map.mp (List.mem_reverse.mp (List.mem_of_mem_filter hb))
  exact hx (List.mem_map_of_mem hbound)

/-- A form under the variables that an expression mentions sees the whole path, provided that it
mentions no other variable of the path. -/
theorem eval_under_visible (ops : Operators) (hsees : expr.Sees env σ scope)
    (hf : ∀ x ∈ env.names, f.mentions x = true → expr.mentions x = true) :
    (bound (LowerM.references (env.visible (formEmitter ops).mentions expr)) f).eval functions
        scope =
      f.eval functions ((env.values σ).reverse ++ scope) := by
  rw [eval_bound (hsees.references ops), Environment.bindings_visible, ← List.filter_reverse]
  apply eval_congr
  intro x hx
  rw [List.lookup_append, List.lookup_append]
  by_cases hname : x ∈ env.names
  · rw [lookup_filter (q := (formEmitter ops).mentions expr) (hf x hname hx)]
  · rw [lookup_filter_values_of_not_mem hname, ← List.filter_true (env.values σ).reverse,
      lookup_filter_values_of_not_mem hname]

/-- Evaluation depends on no name that the form does not mention. Scopes that give every mentioned
name the same value, or none, are as good as each other, and so are scopes that differ at one name
which the form does not mention. Under a binding of the path's variables that it mentions a form sees the
whole path. What the hooks write for a guard, a predicate and a projection is therefore as good as
the guard or the application with the whole path in its scope, if the subject hides behind no
variable of the path but those that the function mentions. -/
theorem mentions_sound (functions : FunctionTable) (ops : Operators) :
    (∀ (f : Form) (scope scope' : Scope),
      (∀ x, f.mentions x = true → scope.lookup x = scope'.lookup x) →
      f.eval functions scope = f.eval functions scope') ∧
    (∀ (f : Form) (x : Name) (scope scope' : Scope), f.mentions x = false →
      scope.SameBut x scope' → f.eval functions scope = f.eval functions scope') ∧
    (∀ (f : Form) (env : Environment) (σ : Valuation) (scope : Scope), f.Sees env σ scope →
      let pairs := LowerM.references (env.visible (formEmitter ops).mentions f)
      (bound pairs f).eval functions scope =
        f.eval functions ((env.values σ).reverse ++ scope)) ∧
    (∀ (expr : Form) (env : Environment) (σ : Valuation) (scope : Scope), expr.Sees env σ scope →
      let pairs := LowerM.references (env.visible (formEmitter ops).mentions expr)
      (∀ s, ((formEmitter ops).guardTest expr pairs s).1.eval functions scope =
        expr.eval functions ((env.values σ).reverse ++ scope)) ∧
      ∀ subject : Form, (∀ x ∈ env.names, subject.mentions x = true → expr.mentions x = true) →
        (∀ s, ((formEmitter ops).predicateTest expr subject pairs s).1.eval functions scope =
          (expr.application ops subject).eval functions ((env.values σ).reverse ++ scope)) ∧
        ∀ s, ((formEmitter ops).apply expr subject pairs s).1.eval functions scope =
          (expr.application ops subject).eval functions ((env.values σ).reverse ++ scope)) := by
  refine ⟨fun f scope scope' h => eval_congr functions f h,
    fun f x scope scope' hx h => eval_sameBut hx h,
    fun f env σ scope h => eval_under_visible ops h fun x _ hx => hx,
    fun expr env σ scope h => ⟨fun s => ?_, fun subject hsubject => ?_⟩⟩
  · exact eval_under_visible ops h fun x _ hx => hx
  · have hf : ∀ x ∈ env.names, (expr.application ops subject).mentions x = true →
        expr.mentions x = true := by
      intro x hname hx
      rcases mentions_application_iff.mp hx with hx | hx
      · exact hx
      · exact hsubject x hname hx
    exact ⟨fun s => eval_under_visible ops h hf, fun s => eval_under_visible ops h hf⟩

/-- The form binds `x` itself, so its outer value does not count. The predicate sees the first of
two path variables; the second one has no value in the scope, and no harm is done. -/
theorem mentions_sound_of_shadowed :
    let vocabulary := (Vocabulary.intern .initial).1
    let ops := vocabulary.operators
    let functions := vocabulary.functions
    let x : Name := ⟨30⟩
    let y : Name := ⟨31⟩
    let shadowing : Form := .letIn [(x, .var y)] (.var x)
    let func : Form := .call ops.eql [.var x]
    shadowing.eval functions [(x, .int 1), (y, .int 3)] =
        shadowing.eval functions [(y, .int 3), (x, .int 2)] ∧
      shadowing.eval functions [(x, .int 1), (y, .int 3)] =
        shadowing.eval functions [(y, .int 3)] ∧
      (bound [(x, .var ⟨40⟩)] (.var x)).eval functions [(⟨40⟩, .int 5)] = pure (.int 5) ∧
      ((formEmitter ops).predicateTest func (.var ⟨40⟩) [(x, .var ⟨40⟩)] ⟨0⟩).1.eval functions
          [(⟨40⟩, .int 5)] =
        (func.application ops (.var ⟨40⟩)).eval functions
          [(y, .nil), (x, .int 5), (⟨40⟩, .int 5)] := by
  intro vocabulary ops functions x y shadowing func
  obtain ⟨hcongr, hother, hunder, hhooks⟩ := mentions_sound functions ops
  let env : Environment := ⟨[⟨x, ⟨40⟩, false⟩, ⟨y, ⟨41⟩, false⟩]⟩
  let σ : Valuation := fun s => if s = ⟨40⟩ then .int 5 else .nil
  have hmentions : ∀ z, shadowing.mentions z = true → z = y := by
    intro z hz
    simp only [shadowing, mentions, anyBoundMentions, Bool.or_false, Bool.or_eq_true,
      Bool.and_eq_true, List.all_eq_true, List.mem_singleton, forall_eq, decide_eq_true_eq] at hz
    rcases hz with hz | ⟨hne, heq⟩
    · exact hz.symm
    · exact absurd heq hne
  have hsees (f : Form) (hy : f.mentions y = false) : f.Sees env σ [(⟨40⟩, .int 5)] := by
    intro b hb hmentioned
    rcases List.mem_pair.mp hb with rfl | rfl
    · rfl
    · rw [hy] at hmentioned
      cases hmentioned
  have hsubject : ∀ z ∈ env.names, (Form.var ⟨40⟩).mentions z = true → func.mentions z = true := by
    intro z hname hz
    rcases List.mem_pair.mp hname with rfl | rfl
    · rfl
    · cases hz
  refine ⟨hcongr shadowing _ _ fun z hz => ?_, hother shadowing x _ _ rfl fun z hz => ?_, ?_, ?_⟩
  · rw [hmentions z hz]
    rfl
  · rw [List.lookup_cons, beq_eq_false_iff_ne.mpr hz]
  · exact (hunder (.var x) env σ _ (hsees _ rfl)).trans rfl
  · exact ((hhooks func env σ _ (hsees _ rfl)).2 (.var ⟨40⟩) hsubject).1 ⟨0⟩

end Form

end PatternCompiler
