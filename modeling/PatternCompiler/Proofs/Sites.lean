import PatternCompiler.Proofs.Lowering

/-!
# Sites of report bodies

A body that reports its case builds a list of the position of the case and a pair for every variable
that was handed over. At every site the code of such a body evaluates to the report on the bindings
of the use, where variables that the use does not bind are `nil`.
-/

namespace PatternCompiler

set_option autoImplicit false

/-! ## Reports -/

/-- A list of values, made of one object: lists are compared by content alone. -/
def Value.listOf : List Value → Value
  | [] => .nil
  | v :: vs => .cons 0 v (listOf vs)

/-- The position of a case, and a pair of name and value for every name, `nil` if it is not bound. -/
def reportValue (case : Nat) (names : List Name) (env : Bindings) : Value :=
  .listOf <| .int (.ofNat case) :: names.map fun x => .cons 0 (.symbol x) ((env.lookup x).getD .nil)

/-- The value tells what the outcome is, for cases that report on certain names, all that are bound
among them. -/
def Reports (names : Nat → List Name) : Outcome → Value → Prop
  | none, v => v = .nil
  | some (case, env), v => (∀ x ∈ env.map Prod.fst, x ∈ names case) ∧
      v.SameContent (reportValue case (names case) env)

theorem Value.newList_sameContent {vs us : List Value} (h : List.Forall₂ SameContent vs us)
    (s : ObjectSupply) : (newList vs s).1.SameContent (listOf us) := by
  induction h with
  | nil => exact .symbol _
  | cons hv _ ih =>
      rw [Literal.newList_cons_fst]
      exact .cons trivial hv ih

theorem Value.listOf_sameContent {vs us : List Value} (h : List.Forall₂ SameContent vs us) :
    (listOf vs).SameContent (listOf us) := by
  induction h with
  | nil => exact .symbol _
  | cons hv _ ih => exact .cons trivial hv ih

theorem Value.getD_nil_sameContent {a b : Option Value} (h : Option.Rel SameContent a b) :
    (a.getD .nil).SameContent (b.getD .nil) := by
  cases h with
  | none => exact .symbol _
  | some h => exact h

theorem Environment.map_fst_values (env : Environment) (σ : Valuation) :
    (env.values σ).map Prod.fst = env.names := by
  rw [values, List.map_map]
  rfl

/-- Reports on bindings of the same content have the same content. -/
theorem reportValue_sameContent (case : Nat) (names : List Name) {env env' : Bindings}
    (h : ∀ x, Option.Rel Value.SameContent (env.lookup x) (env'.lookup x)) :
    (reportValue case names env).SameContent (reportValue case names env') := by
  refine Value.listOf_sameContent (.cons (.int _) ?_)
  refine List.forall₂_map_left_iff.mpr (List.forall₂_map_right_iff.mpr ?_)
  exact List.forall₂_same.mpr fun x _ =>
    .cons trivial (.symbol x) (Value.getD_nil_sameContent (h x))

theorem Reports.of_sameOutcome {names : Nat → List Name} {a b : Outcome} {v : Value}
    (hab : SameOutcome a b) (h : Reports names b v) : Reports names a v := by
  cases hab with
  | none => exact h
  | some hab =>
      obtain ⟨hcase, hlookup⟩ := hab
      simp only [Reports] at h ⊢
      rw [hcase]
      refine ⟨fun x hx => ?_, h.2.trans (reportValue_sameContent _ _ hlookup).symm⟩
      by_contra hmissing
      have hnone := Form.lookup_eq_none_of_not_mem fun hx => hmissing (h.1 x hx)
      obtain ⟨v, hv⟩ := Form.lookup_isSome_of_mem hx
      have hrel := hlookup x
      rw [hv, hnone] at hrel
      cases hrel

section

variable {vocabulary : Vocabulary} {scope : Scope} {handed : List (Variable Form)}
  {value : Name → Value}

/-- The pair of a name and its value. -/
def reportCell (value : Name → Value) (x : Name) : Value := .cons 0 (.symbol x) (value x)

theorem evalList_cells (hv : vocabulary.Standard)
    (h : ∀ v ∈ handed, v.value.eval vocabulary.functions scope = pure (value v.name))
    (s : ObjectSupply) :
    ∃ cells s', Form.evalList vocabulary.functions
        (handed.map fun v => .call (vocabulary.functions.nameOf .cons) [.symbol v.name, v.value])
        scope s = .ok (cells, s') ∧ s.next ≤ s'.next ∧
      List.Forall₂ Value.SameContent cells (handed.map fun v => reportCell value v.name) := by
  induction handed generalizing s with
  | nil => exact ⟨[], s, rfl, Nat.le_refl _, .nil⟩
  | cons v handed ih =>
      obtain ⟨hfirst, hrest⟩ := List.forall_mem_cons.mp h
      obtain ⟨cells, s', hcells, hs', hsame⟩ := ih hrest ⟨s.next + 1⟩
      have hcall := Form.eval_call_two (hv.named .cons) (by decide) (f := .symbol v.name)
        (v := .symbol v.name) rfl hfirst
      have hcell : (Form.call (vocabulary.functions.nameOf .cons) [.symbol v.name, v.value]).eval
          vocabulary.functions scope s =
            .ok (.cons s.next (.symbol v.name) (value v.name), ⟨s.next + 1⟩) := by
        rw [hcall]
        rfl
      refine ⟨.cons s.next (.symbol v.name) (value v.name) :: cells, s', ?_, ?_, ?_⟩
      · rw [List.map_cons, Form.evalList, EvalM.bind_of_ok hcell, EvalM.bind_of_ok hcells]
        rfl
      · exact Nat.le_trans (Nat.le_succ _) hs'
      · exact .cons (.cons trivial (.symbol _) (Value.SameContent.refl _)) hsame

/-- A report form builds the report on the values of its variables. -/
theorem eval_reportForm (hv : vocabulary.Standard) (case : Nat)
    (h : ∀ v ∈ handed, v.value.eval vocabulary.functions scope = pure (value v.name))
    (s : ObjectSupply) :
    ∃ v s', (reportForm vocabulary.functions case handed).eval vocabulary.functions scope s =
        .ok (v, s') ∧ s.next ≤ s'.next ∧
      v.SameContent (.listOf (.int (.ofNat case) ::
        handed.map fun v => reportCell value v.name)) := by
  obtain ⟨cells, s', hcells, hs', hsame⟩ := evalList_cells hv h s
  refine ⟨(Value.newList (.int (.ofNat case) :: cells) s').1,
    (Value.newList (.int (.ofNat case) :: cells) s').2, ?_, ?_, ?_⟩
  · have hresolve : vocabulary.functions.resolve (vocabulary.functions.nameOf .list) s =
        .ok (.list, s) := by
      rw [FunctionTable.resolve, hv.named]
      rfl
    have hint : (Form.int (.ofNat case)).eval vocabulary.functions scope s =
        .ok (.int (.ofNat case), s) := rfl
    rw [reportForm, Form.eval, EvalM.bind_of_ok hresolve, Form.evalList, bind_assoc,
      EvalM.bind_of_ok hint, bind_assoc, EvalM.bind_of_ok hcells]
    rfl
  · exact Nat.le_trans hs' (Literal.newList_next_le _ s')
  · exact Value.newList_sameContent (.cons (.int _) hsame) s'

end

/-! ## Variables handed over -/

/-- The path of a body that was generated, with the names of its variables. -/
def Invocation.summary (invocation : Invocation) : Path × List Name :=
  (invocation.path, invocation.handed.map Variable.name)

namespace Site

variable {τ : Type} {I : τ → Prop} {ops : Operators} {e : Emitter τ Form Form}
  {uses : List Environment} {use : Environment} {x : Name}

theorem mem_variableNames : x ∈ variableNames uses ↔ ∃ use ∈ uses, x ∈ use.names := by
  rw [variableNames, List.mem_eraseDups, List.mem_flatMap]

/-- The expression that a body gets for a variable. -/
def handedValue (uses : List Environment) (x : Name) : Form :=
  match isShared uses x, firstSubject? uses x with
  | true, some subject => .var subject
  | _, _ => .var x

/-- The variables that a body gets, one for each name. -/
def Handed (uses : List Environment) (handed : List (Variable Form)) : Prop :=
  List.Forall₂ (fun x v => v.name = x ∧ v.shared = isShared uses x ∧ v.value = handedValue uses x)
    (variableNames uses) handed

theorem yields_variableOf (he : e.Writes I ops) (uses : List Environment) (x : Name) :
    Yields I (variableOf e uses x) fun v =>
      v.name = x ∧ v.shared = isShared uses x ∧ v.value = handedValue uses x := by
  unfold variableOf handedValue
  cases isShared uses x with
  | false => exact (he.var x).bind fun f hf => .pure ⟨rfl, rfl, hf⟩
  | true =>
      cases firstSubject? uses x with
      | none => exact (he.var x).bind fun f hf => .pure ⟨rfl, rfl, hf⟩
      | some subject => exact (he.var subject).bind fun f hf => .pure ⟨rfl, rfl, hf⟩

theorem yields_handed (he : e.Writes I ops) (uses : List Environment) :
    Yields I ((variableNames uses).mapM (variableOf e uses)) (Handed uses) :=
  .mapM fun x _ => yields_variableOf he uses x

theorem Handed.names {handed : List (Variable Form)} (h : Handed uses handed) :
    handed.map Variable.name = variableNames uses := by
  unfold Handed at h
  generalize variableNames uses = xs at h ⊢
  induction h with
  | nil => rfl
  | cons hv _ ih => rw [List.map_cons, ih, hv.1]

theorem Handed.spec {handed : List (Variable Form)} (h : Handed uses handed) {v : Variable Form}
    (hv : v ∈ handed) : v.name ∈ variableNames uses ∧ v.shared = isShared uses v.name ∧
      v.value = handedValue uses v.name := by
  refine ⟨h.names ▸ List.mem_map_of_mem hv, ?_⟩
  unfold Handed at h
  generalize variableNames uses = xs at h
  induction h with
  | nil => cases hv
  | cons hfirst _ ih =>
      rcases List.mem_cons.mp hv with rfl | hv
      · exact hfirst.1 ▸ hfirst.2
      · exact ih hv

/-- A shared variable has the same subject in every use. -/
theorem handedValue_of_shared (hx : x ∈ variableNames uses) (hshared : isShared uses x = true)
    (huse : use ∈ uses) :
    ∃ subject, use.subject? x = some subject ∧ handedValue uses x = .var subject := by
  obtain ⟨other, hother, hbound⟩ := mem_variableNames.mp hx
  have hall : ∀ use ∈ uses, use.subject? x = firstSubject? uses x := by
    simpa [isShared] using hshared
  obtain ⟨b, hb, rfl⟩ := List.mem_map.mp hbound
  cases hfirst : firstSubject? uses b.name with
  | none =>
      have hnone := (hall other hother).trans hfirst
      simp only [Environment.subject?, Environment.lookup?, Option.map_eq_none_iff,
        List.find?_eq_none, decide_eq_true_eq] at hnone
      exact absurd rfl (hnone b hb)
  | some subject =>
      refine ⟨subject, (hall use huse).trans hfirst, ?_⟩
      rw [handedValue, hshared, hfirst]

theorem handedValue_of_not_shared (hshared : isShared uses x = false) :
    handedValue uses x = .var x := by
  rw [handedValue, hshared]

/-! ## Code at a site -/

/-- The expression that a site binds a variable to. -/
def boundValue (use : Environment) (x : Name) : Form :=
  match use.subject? x with
  | some subject => .var subject
  | none => .nil

def bindingsAt (use : Environment) (handed : List (Variable Form)) : List (Name × Form) :=
  (handed.filter fun v => !v.shared).map fun v => (v.name, boundValue use v.name)

theorem yields_valueAt (he : e.Writes I ops) (use : Environment) (x : Name) :
    Yields I (valueAt e use x) (· = boundValue use x) := by
  unfold valueAt boundValue
  cases use.subject? x with
  | none => exact he.unboundValue
  | some subject => exact he.var subject

theorem yields_ofUse (he : e.Writes I ops) (handed : List (Variable Form)) (body : Form)
    (use : Environment) :
    Yields I (ofUse e handed body use)
      (· = ⟨.bound (bindingsAt use handed) body, use.subjects⟩) := by
  unfold ofUse
  have hbindings : Yields I
      ((handed.filter fun v => !v.shared).mapM fun v => do
        return (v.name, ← valueAt e use v.name)) (· = bindingsAt use handed) := by
    refine Yields.mapM_eq fun v _ => ?_
    exact (yields_valueAt he use v.name).bind fun f hf => .pure (hf ▸ rfl)
  refine hbindings.bind fun made hmade => ?_
  subst hmade
  split
  · rename_i hempty
    refine Yields.bind (.pure rfl) fun code hcode => ?_
    rw [hcode, Form.bound, if_pos hempty]
    exact .pure rfl
  · exact (he.letIn _ _).bind fun code hcode => .pure (hcode ▸ rfl)

section

variable {frozen : Bool} {strict : Prop} {vocabulary : Vocabulary} {w : Pairing frozen}
  {σ : Valuation} {scope : Scope} {binder : Name → Prop}

/-- What a site finds for a variable. -/
def found (use : Environment) (scope : Scope) (x : Name) : Value :=
  ((use.subject? x).bind fun s => scope.lookup s).getD .nil

theorem found_sameContent
    (h : ∀ s ∈ use.subjects, ∃ v, scope.lookup s = some v ∧ w.Relates (σ s) v) (x : Name) :
    (found use scope x).SameContent (((use.values σ).lookup x).getD .nil) := by
  rw [found, Environment.lookup_values]
  cases hx : use.subject? x with
  | none => exact .symbol _
  | some subject =>
      obtain ⟨b, hb, -, rfl⟩ := Environment.mem_of_subject? hx
      obtain ⟨v, hv, hrel⟩ := h b.subject (List.mem_map_of_mem hb)
      simp only [Option.bind_some, hv, Option.getD_some, Option.map_some]
      exact (Value.Corresponds.sameContent hrel).symm

theorem eval_subject (functions : FunctionTable) {subject : Name}
    (h : ∀ s ∈ use.subjects, ∃ v, scope.lookup s = some v) (hx : use.subject? x = some subject) :
    (Form.var subject).eval functions scope = pure (found use scope x) := by
  obtain ⟨b, hb, -, rfl⟩ := Environment.mem_of_subject? hx
  obtain ⟨v, hv⟩ := h b.subject (List.mem_map_of_mem hb)
  rw [Form.eval_var hv, found, hx, Option.bind_some, hv, Option.getD_some]

theorem eval_boundValue {functions : FunctionTable}
    (h : ∀ s ∈ use.subjects, ∃ v, scope.lookup s = some v) (x : Name) :
    (boundValue use x).eval functions scope = pure (found use scope x) := by
  unfold boundValue
  cases hx : use.subject? x with
  | none => simp only [Form.nil, Form.eval, found, hx, Option.bind_none, Option.getD_none]
  | some subject => exact eval_subject functions h hx

/-- A name among those that are bound to their values is bound to its value. -/
theorem lookup_map_of_mem {α : Type} {name : α → Name} {value : Name → Value} {l : List α} {a : α}
    (ha : a ∈ l) : (l.map fun a => (name a, value (name a))).lookup (name a) =
      some (value (name a)) := by
  induction l with
  | nil => cases ha
  | cons b l ih =>
      rw [List.map_cons, List.lookup_cons]
      by_cases hname : name a = name b
      · rw [hname, beq_self_eq_true]
      · rw [beq_false_of_ne hname]
        refine ih ((List.mem_cons.mp ha).resolve_left ?_)
        rintro rfl
        exact hname rfl

/-- The variables that a site binds, with their values. -/
def valuesAt (use : Environment) (scope : Scope) (handed : List (Variable Form)) : Bindings :=
  (handed.filter fun v => !v.shared).map fun v => (v.name, found use scope v.name)

/-- Inside a site every expression for a variable has the value that the site finds. -/
theorem eval_handed {functions : FunctionTable} {handed : List (Variable Form)}
    (hhanded : Handed uses handed) (huse : use ∈ uses)
    (hbinder : ∀ env ∈ uses, ∀ x ∈ env.names, binder x)
    (h : ∀ s ∈ use.subjects, ¬ binder s ∧ ∃ v, scope.lookup s = some v) {v : Variable Form}
    (hv : v ∈ handed) :
    v.value.eval functions ((valuesAt use scope handed).reverse ++ scope) =
      pure (found use scope v.name) := by
  obtain ⟨hname, hshared, hvalue⟩ := hhanded.spec hv
  rw [hvalue]
  cases hs : isShared uses v.name with
  | false =>
      have hkept : v ∈ handed.filter fun v => !v.shared := by
        rw [List.mem_filter, hshared, hs]
        exact ⟨hv, rfl⟩
      have hlookup : (valuesAt use scope handed).reverse.lookup v.name =
          some (found use scope v.name) := by
        rw [valuesAt, ← List.map_reverse]
        exact lookup_map_of_mem (List.mem_reverse.mpr hkept)
      rw [handedValue_of_not_shared hs]
      exact Form.eval_var (by rw [List.lookup_append, hlookup, Option.some_or])
  | true =>
      obtain ⟨subject, hsubject, hvar⟩ := handedValue_of_shared hname hs huse
      rw [hvar, ← eval_subject functions (fun s hs => (h s hs).2) hsubject]
      -- No variable that the site binds is the subject of another.
      have hfree : (valuesAt use scope handed).reverse.lookup subject = none := by
        refine Form.lookup_eq_none_of_not_mem ?_
        rw [List.map_reverse, List.mem_reverse, valuesAt, List.map_map]
        intro hmem
        obtain ⟨u, hu, rfl⟩ := List.mem_map.mp hmem
        obtain ⟨b, hb, -, hbs⟩ := Environment.mem_of_subject? hsubject
        obtain ⟨env, henv, hx⟩ := mem_variableNames.mp
          (hhanded.spec (List.mem_of_mem_filter hu)).1
        exact (h _ (List.mem_map.mpr ⟨b, hb, hbs⟩)).1 (hbinder env henv _ hx)
      simp only [Form.eval, Form.lookupVariable, List.lookup_append, hfree, Option.none_or]

end

/-- A computation that needs nothing may run beside the other one. -/
theorem simulates_of_run {frozen : Bool} {strict : Prop} {w : Pairing frozen} {α β : Type}
    {post : α → β → Prop} {a : α} {b : β} {m : EvalM β} {s : ObjectSupply}
    (hm : m w.right = .ok (b, s)) (hs : w.right.next ≤ s.next) (h : post a b) :
    Simulates strict w (fun _ => post) (pure a) m where
  ok ha := by
    cases ha
    exact ⟨b, w.advance w.left s (Nat.le_refl _) hs, hm, rfl,
      w.extends_advance (Nat.le_refl _) hs, h⟩
  error _ _ he := by cases he

/-- The code of a report body at a site of its case reports what the use binds. -/
theorem report_codes {frozen : Bool} {strict : Prop} {vocabulary : Vocabulary}
    {binder : Name → Prop} (hv : vocabulary.Standard) {case : Nat} {names : Nat → List Name}
    (hnames : names case = variableNames uses) {handed : List (Variable Form)}
    (hhanded : Handed uses handed) (hbinder : ∀ env ∈ uses, ∀ x ∈ env.names, binder x)
    (huse : use ∈ uses) :
    Site.Codes frozen strict vocabulary binder (Reports names) case use
      ⟨.bound (bindingsAt use handed) (reportForm vocabulary.functions case handed),
        use.subjects⟩ := by
  refine ⟨rfl, fun w σ scope h => ?_⟩
  have hthere : ∀ s ∈ use.subjects, ¬ binder s ∧ ∃ v, scope.lookup s = some v :=
    fun s hs => ⟨(h s hs).1, (h s hs).2.imp fun _ hv => hv.1⟩
  have hbound : List.Forall₂
      (fun b v => b.1 = v.1 ∧ b.2.eval vocabulary.functions scope = pure v.2)
      (bindingsAt use handed) (valuesAt use scope handed) :=
    List.forall₂_map_left_iff.mpr (List.forall₂_map_right_iff.mpr (List.forall₂_same.mpr
      fun v _ => ⟨rfl, eval_boundValue (fun s hs => (hthere s hs).2) v.name⟩))
  obtain ⟨u, s', hu, hs', hsame⟩ := eval_reportForm hv case
    (fun v hv => eval_handed hhanded huse hbinder hthere hv) w.right
  rw [← Form.eval_bound hbound] at hu
  refine simulates_of_run hu hs' ⟨fun x hx => ?_, ?_⟩
  · rw [Environment.map_fst_values] at hx
    rw [hnames]
    exact mem_variableNames.mpr ⟨use, huse, hx⟩
  refine hsame.trans (Value.listOf_sameContent (.cons (.int _) ?_))
  rw [hnames, ← hhanded.names, List.map_map]
  refine List.forall₂_map_left_iff.mpr (List.forall₂_map_right_iff.mpr (List.forall₂_same.mpr
    fun v _ => .cons trivial (.symbol _) ?_))
  exact found_sameContent (fun s hs => (h s hs).2) v.name

/-! ## Sites of all cases -/

/-- The bodies that are generated for a table of uses, from case `case` on, each with the names of
its variables. -/
def bodiesMade (case : Nat) : List (List Environment) → List (Path × List Name)
  | [] => []
  | uses :: entries =>
      (if uses.isEmpty then [] else [([case], variableNames uses)]) ++ bodiesMade (case + 1) entries

theorem mem_bodiesMade {case : Nat} {entries : List (List Environment)} {path : Path}
    {names : List Name} :
    (path, names) ∈ bodiesMade case entries ↔ ∃ i uses, entries[i]? = some uses ∧
      uses ≠ [] ∧ path = [case + i] ∧ names = variableNames uses := by
  induction entries generalizing case with
  | nil => simp [bodiesMade]
  | cons uses entries ih =>
      rw [bodiesMade, List.mem_append, ih]
      constructor
      · rintro (h | ⟨i, uses', hi, hne, hpath, hnames⟩)
        · split at h
          · cases h
          · rename_i hne
            obtain ⟨rfl, rfl⟩ := Prod.mk.inj (List.mem_singleton.mp h)
            exact ⟨0, uses, rfl, by simpa using hne, rfl, rfl⟩
        · refine ⟨i + 1, uses', hi, hne, ?_, hnames⟩
          rw [hpath, Nat.add_assoc, Nat.add_comm 1 i]
      · rintro ⟨i, uses', hi, hne, rfl, rfl⟩
        cases i with
        | zero =>
            cases hi
            exact .inl (by simp [hne])
        | succ i =>
            refine .inr ⟨i, uses', hi, hne, ?_, rfl⟩
            rw [Nat.add_assoc, Nat.add_comm 1 i]

section

variable {vocabulary : Vocabulary} {e : Emitter Journal Form Form}

/-- The sites of a report body, all with the same variables, and the entry in the journal. -/
theorem ofUses_report
    (he : ∀ made, e.Writes (fun j => j.invocations = made) vocabulary.operators) (case : Nat)
    (uses : List Environment) (session : Session Journal) :
    ∃ handed, Handed uses handed ∧
      (ofUses e (Body.report.generator e vocabulary.functions [case]) uses session).1 =
        uses.map (fun use => ⟨.bound (bindingsAt use handed)
          (reportForm vocabulary.functions case handed), use.subjects⟩) ∧
      (ofUses e (Body.report.generator e vocabulary.functions [case]) uses
          session).2.target.invocations =
        session.target.invocations.push ⟨[case], uses.length, handed⟩ := by
  have hgenerator : Body.report.generator e vocabulary.functions [case] = fun handed uses => do
      Session.emit (Journal.addInvocation ⟨[case], uses, handed⟩)
      return reportForm vocabulary.functions case handed := by
    rw [Body.generator]
    rfl
  rw [hgenerator]
  obtain ⟨hhanded, hmade⟩ := yields_handed (he _) uses session.target rfl
  refine ⟨_, hhanded, ?_⟩
  rw [← hmade]
  exact Yields.mapM_eq (fun use _ => yields_ofUse (he _) _ _ use) _ rfl

variable (frozen : Bool) (strict : Prop) {binder : Name → Prop}

/-- Every use of a case gets a site that reports it, and the case one body if it is reached. -/
theorem ofUses_codes
    (he : ∀ made, e.Writes (fun j => j.invocations = made) vocabulary.operators)
    (hv : vocabulary.Standard) {names : Nat → List Name} {case : Nat} {uses : List Environment}
    (hnames : names case = variableNames uses)
    (hbinder : ∀ env ∈ uses, ∀ x ∈ env.names, binder x) (session : Session Journal) :
    ∃ (sites : List (Site Form)) (session' : Session Journal),
      (if uses.isEmpty then pure []
        else ofUses e (Body.report.generator e vocabulary.functions [case]) uses) session =
          (sites, session') ∧
      (∀ (use : Nat) (env : Environment), uses[use]? = some env →
        ∃ site : Site Form, sites[use]? = some site ∧
          site.Codes frozen strict vocabulary binder (Reports names) case env) ∧
      session'.target.invocations.toList.map Invocation.summary =
        session.target.invocations.toList.map Invocation.summary ++
          if uses.isEmpty then [] else [([case], variableNames uses)] := by
  split
  · rename_i hempty
    rw [List.isEmpty_iff.mp hempty]
    exact ⟨[], session, rfl, fun use env h => (by cases h), (List.append_nil _).symm⟩
  · obtain ⟨handed, hhanded, hsites, hmade⟩ := ofUses_report he case uses session
    generalize ofUses e _ uses session = made at hsites hmade ⊢
    refine ⟨made.1, made.2, rfl, fun use env henv => ?_, ?_⟩
    · rw [hsites, List.getElem?_map, henv]
      exact ⟨_, rfl, report_codes hv hnames hhanded hbinder (List.mem_of_getElem? henv)⟩
    · rw [hmade, Array.toList_push, List.map_append, List.map_singleton, Invocation.summary,
        hhanded.names]

theorem ofTable_cons {σ ε κ : Type} {e : Emitter σ ε κ} {uses : List Environment}
    {generator : Generator σ ε κ} {session session' : Session σ} {sites : List (Site κ)}
    (h : (if uses.isEmpty then pure [] else ofUses e generator uses) session = (sites, session'))
    (entries : List (List Environment)) (generators : List (Generator σ ε κ)) :
    ofTable e (uses :: entries) (generator :: generators) session =
      (sites :: (ofTable e entries generators session').1,
        (ofTable e entries generators session').2) := by
  rw [ofTable]
  generalize ofTable e entries generators = rest
  split at h
  · rename_i hempty
    rw [if_pos hempty]
    exact congrArg (fun r => (r.1 :: (rest r.2).1, (rest r.2).2)) h
  · rename_i hempty
    rw [if_neg hempty]
    exact congrArg (fun r => (r.1 :: (rest r.2).1, (rest r.2).2)) h

/-- Every use gets a site that reports it, and every case that is reached one body. -/
theorem ofTable_report
    (he : ∀ made, e.Writes (fun j => j.invocations = made) vocabulary.operators)
    (hv : vocabulary.Standard) {names : Nat → List Name} {entries : List (List Environment)}
    {clauses : List (Clause Body)} (hlength : entries.length = clauses.length)
    (hreport : ∀ c ∈ clauses, c.body = .report) {case : Nat}
    (hnames : ∀ i uses, entries[i]? = some uses → names (case + i) = variableNames uses)
    (hbinder : ∀ uses ∈ entries, ∀ env ∈ uses, ∀ x ∈ env.names, binder x)
    (session : Session Journal) :
    (∀ (i use : Nat) uses env, entries[i]? = some uses → uses[use]? = some env →
      ∃ site, siteAt? (ofTable e entries
          ((Clause.casesFrom e vocabulary.functions [] case clauses).map Case.generator) session).1
          i use = some site ∧
        site.Codes frozen strict vocabulary binder (Reports names) (case + i) env) ∧
    (ofTable e entries
      ((Clause.casesFrom e vocabulary.functions [] case clauses).map Case.generator)
      session).2.target.invocations.toList.map Invocation.summary =
        session.target.invocations.toList.map Invocation.summary ++ bodiesMade case entries := by
  induction entries generalizing clauses case session with
  | nil =>
      refine ⟨fun i use uses env hi => ?_, ?_⟩
      · cases hi
      · simp only [ofTable, bodiesMade, List.append_nil]
        rfl
  | cons uses entries ih =>
      obtain _ | ⟨⟨pattern, body, allowed⟩, clauses⟩ := clauses
      · cases hlength
      obtain ⟨hbody, hclauses⟩ := List.forall_mem_cons.mp hreport
      obtain rfl : body = .report := hbody
      obtain ⟨hfirst, hbinder⟩ := List.forall_mem_cons.mp hbinder
      have hname : names case = variableNames uses := hnames 0 uses rfl
      obtain ⟨sites, session', hrun, hcodes, hmade⟩ := ofUses_codes frozen strict he hv hname hfirst
        session
      have hnames' : ∀ i uses, entries[i]? = some uses →
          names (case + 1 + i) = variableNames uses := by
        intro i uses hi
        rw [Nat.add_assoc, Nat.add_comm 1 i]
        exact hnames (i + 1) uses hi
      obtain ⟨hrest, hrestMade⟩ := ih (Nat.succ.inj hlength) hclauses hnames' hbinder session'
      simp only [Clause.casesFrom, List.map_cons, List.nil_append, ofTable_cons hrun]
      refine ⟨fun i use uses' env hi henv => ?_, ?_⟩
      · cases i with
        | zero =>
            cases hi
            exact hcodes use env henv
        | succ i =>
            have hcase : case + (i + 1) = case + 1 + i := by omega
            rw [hcase]
            exact hrest i use uses' env hi henv
      · rw [hrestMade, hmade, List.append_assoc]
        rfl

end

end Site

end PatternCompiler
