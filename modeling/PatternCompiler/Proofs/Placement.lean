import PatternCompiler.Proofs.Nesting

/-!
# Bodies at their sites

One body serves every path that reaches its case. It is a template that reads the variables of the
case through the expressions that were handed over for them. Evaluated at the site of a use, it
comes to what the template gives with the values that this use finds in the place of its variables.
-/

namespace PatternCompiler

set_option autoImplicit false

/-! ## Templates -/

namespace Form

mutual

/-- The form with another one in the place of every variable, bound or not. -/
def replace (ρ : Name → Form) : Form → Form
  | var x => ρ x
  | quote value => quote value
  | function name => function name
  | call func args => call func (replaceList ρ args)
  | cond test yes no => cond (replace ρ test) (replace ρ yes) (replace ρ no)
  | letIn bindings body => letIn (replaceBound ρ bindings) (replace ρ body)

def replaceList (ρ : Name → Form) : List Form → List Form
  | [] => []
  | f :: fs => replace ρ f :: replaceList ρ fs

def replaceBound (ρ : Name → Form) : List (Name × Form) → List (Name × Form)
  | [] => []
  | (name, f) :: rest => (name, replace ρ f) :: replaceBound ρ rest

end

theorem replaceList_eq (ρ : Name → Form) (fs : List Form) :
    replaceList ρ fs = fs.map (replace ρ) := by
  induction fs with
  | nil => rfl
  | cons f fs ih => rw [replaceList, ih, List.map_cons]

theorem replaceBound_eq (ρ : Name → Form) (bindings : List (Name × Form)) :
    replaceBound ρ bindings = bindings.map fun b => (b.1, b.2.replace ρ) := by
  induction bindings with
  | nil => rfl
  | cons b rest ih => rw [replaceBound, ih, List.map_cons]

theorem replaceBound_names (ρ : Name → Form) (bindings : List (Name × Form)) :
    (replaceBound ρ bindings).map Prod.fst = bindings.map Prod.fst := by
  rw [replaceBound_eq, List.map_map]
  rfl

/-- What the template binds on the way to its parts is still bound there. -/
theorem LetPath.replace (ρ : Name → Form) {f : Form} {path : List Name} (h : f.LetPath path) :
    (f.replace ρ).LetPath path := by
  induction h with
  | here f => exact .here _
  | @arg func args f path hf _ ih =>
      refine .arg ?_ ih
      rw [replaceList_eq]
      exact List.mem_map_of_mem hf
  | test _ ih => exact .test ih
  | yes _ ih => exact .yes ih
  | no _ ih => exact .no ih
  | @value bindings body b path hb _ ih =>
      rw [← replaceBound_names ρ]
      refine .value (b := (b.1, b.2.replace ρ)) ?_ ih
      rw [replaceBound_eq]
      exact List.mem_map_of_mem hb
  | @body bindings body path _ ih =>
      rw [← replaceBound_names ρ]
      exact .body ih

section

variable {kind : Name → Prop}

theorem BindsOnly.of_replace {ρ : Name → Form} {f : Form} (h : (f.replace ρ).BindsOnly kind) :
    f.BindsOnly kind :=
  fun path hpath => h path (hpath.replace ρ)

theorem BindsOnly.arg {func : Name} {args : List Form} (h : (call func args).BindsOnly kind)
    {f : Form} (hf : f ∈ args) : f.BindsOnly kind :=
  fun path hpath => h path (.arg hf hpath)

theorem bindsOnly_cond_iff {test yes no : Form} : (cond test yes no).BindsOnly kind ↔
    test.BindsOnly kind ∧ yes.BindsOnly kind ∧ no.BindsOnly kind := by
  constructor
  · intro h
    exact ⟨fun path hpath => h path (.test hpath), fun path hpath => h path (.yes hpath),
      fun path hpath => h path (.no hpath)⟩
  · rintro ⟨htest, hyes, hno⟩ path hpath
    cases hpath with
    | here => exact fun x hx => by cases hx
    | test hpath => exact htest path hpath
    | yes hpath => exact hyes path hpath
    | no hpath => exact hno path hpath

theorem BindsOnly.letIn {bindings : List (Name × Form)} {body : Form}
    (h : (Form.letIn bindings body).BindsOnly kind) :
    (∀ x ∈ bindings.map Prod.fst, kind x) ∧ (∀ b ∈ bindings, b.2.BindsOnly kind) ∧
      body.BindsOnly kind :=
  ⟨fun x hx => h _ (.body (.here body)) x (List.mem_append_left _ hx),
    fun _ hb _ hpath x hx => h _ (.value hb hpath) x (List.mem_append_right _ hx),
    fun _ hpath x hx => h _ (.body hpath) x (List.mem_append_right _ hx)⟩

end

section

variable {functions : FunctionTable} {kind : Name → Prop} {ρ ρ' : Name → Form}
  {scope scope' : Scope}

mutual

/-- Replacements that agree under all variables that the template may bind give forms that agree. -/
theorem eval_replace
    (hρ : ∀ inner : Scope, (∀ y ∈ inner.map Prod.fst, kind y) → ∀ x,
      (ρ x).eval functions (inner ++ scope) = (ρ' x).eval functions (inner ++ scope'))
    (f : Form) (hf : f.BindsOnly kind) {inner : Scope} (hinner : ∀ y ∈ inner.map Prod.fst, kind y) :
    (f.replace ρ).eval functions (inner ++ scope) =
      (f.replace ρ').eval functions (inner ++ scope') := by
  cases f with
  | var x => exact hρ inner hinner x
  | quote value => rfl
  | function name => rfl
  | call func args =>
      simp only [replace, eval, evalList_replace hρ args (fun f => hf.arg) hinner]
  | cond test yes no =>
      obtain ⟨htest, hyes, hno⟩ := bindsOnly_cond_iff.mp hf
      simp only [replace, eval, eval_replace hρ test htest hinner, eval_replace hρ yes hyes hinner,
        eval_replace hρ no hno hinner]
  | letIn bindings body =>
      obtain ⟨hnames, hvalues, hbody⟩ := hf.letIn
      simp only [replace, eval, evalBound_replace hρ bindings hvalues hinner]
      funext s
      cases hmade : evalBound functions (replaceBound ρ' bindings) (inner ++ scope') s with
      | error e => rw [EvalM.bind_of_error hmade, EvalM.bind_of_error hmade]
      | ok made =>
          obtain ⟨made, s'⟩ := made
          rw [EvalM.bind_of_ok hmade, EvalM.bind_of_ok hmade, ← List.append_assoc,
            ← List.append_assoc]
          refine congrFun (eval_replace hρ body hbody ?_) s'
          intro y hy
          rw [List.map_append, List.map_reverse, evalBound_names hmade, replaceBound_names,
            List.mem_append, List.mem_reverse] at hy
          exact hy.elim (hnames y) (hinner y)

theorem evalList_replace
    (hρ : ∀ inner : Scope, (∀ y ∈ inner.map Prod.fst, kind y) → ∀ x,
      (ρ x).eval functions (inner ++ scope) = (ρ' x).eval functions (inner ++ scope'))
    (fs : List Form) (hfs : ∀ f ∈ fs, f.BindsOnly kind) {inner : Scope}
    (hinner : ∀ y ∈ inner.map Prod.fst, kind y) :
    evalList functions (replaceList ρ fs) (inner ++ scope) =
      evalList functions (replaceList ρ' fs) (inner ++ scope') := by
  cases fs with
  | nil => rfl
  | cons f fs =>
      obtain ⟨hf, hfs⟩ := List.forall_mem_cons.mp hfs
      simp only [replaceList, evalList, eval_replace hρ f hf hinner,
        evalList_replace hρ fs hfs hinner]

theorem evalBound_replace
    (hρ : ∀ inner : Scope, (∀ y ∈ inner.map Prod.fst, kind y) → ∀ x,
      (ρ x).eval functions (inner ++ scope) = (ρ' x).eval functions (inner ++ scope'))
    (bindings : List (Name × Form)) (hbindings : ∀ b ∈ bindings, b.2.BindsOnly kind)
    {inner : Scope} (hinner : ∀ y ∈ inner.map Prod.fst, kind y) :
    evalBound functions (replaceBound ρ bindings) (inner ++ scope) =
      evalBound functions (replaceBound ρ' bindings) (inner ++ scope') := by
  match bindings with
  | [] => rfl
  | (name, f) :: rest =>
      obtain ⟨hf, hrest⟩ := List.forall_mem_cons.mp hbindings
      simp only [replaceBound, evalBound, eval_replace hρ f hf hinner,
        evalBound_replace hρ rest hrest hinner]

end

end

end Form

namespace Site

variable {ops : Operators} {uses : List Environment} {use : Environment}

/-! ## What is handed over -/

/-- The variables that the emitter of forms hands to a body. -/
def handed (uses : List Environment) : List (Variable Form) :=
  (variableNames uses).map fun x =>
    ⟨x, handedValue uses x, isShared uses x, uses.any fun use => use.isUsed x⟩

theorem mapM_variableOf (ops : Operators) (uses : List Environment) :
    (variableNames uses).mapM (variableOf (formEmitter ops) uses) = pure (handed uses) := by
  have hone : variableOf (formEmitter ops) uses = fun x =>
      pure ⟨x, handedValue uses x, isShared uses x, uses.any fun use => use.isUsed x⟩ := by
    funext x
    unfold variableOf handedValue
    cases isShared uses x with
    | false => rfl
    | true => cases firstSubject? uses x <;> rfl
  rw [hone, List.mapM_pure]
  rfl

theorem handed_handed (uses : List Environment) : Handed uses (handed uses) :=
  List.forall₂_map_right_iff.mpr (List.forall₂_same.mpr fun _ _ => ⟨rfl, rfl, rfl⟩)

/-- Only names of variables are handed over as anything but themselves. -/
theorem handedValue_of_not_mem {x : Name} (hx : x ∉ variableNames uses) :
    handedValue uses x = .var x := by
  have hnone : firstSubject? uses x = none := by
    cases uses with
    | nil => rfl
    | cons use uses =>
        cases hsubject : use.subject? x with
        | none => exact hsubject
        | some s =>
            obtain ⟨b, hb, hname, -⟩ := Environment.mem_of_subject? hsubject
            refine absurd (mem_variableNames.mpr ⟨use, List.mem_cons_self, ?_⟩) hx
            exact List.mem_map.mpr ⟨b, hb, hname⟩
  rw [handedValue, hnone]
  cases isShared uses x <;> rfl

/-- Every use gets the body inside bindings of the variables that are not shared. -/
theorem ofUses_formEmitter (g : Generator ObjectSupply Form Form) (session : Session ObjectSupply)
    {body : Form} (hbody : (g (handed uses) uses.length session).1 = body) :
    (ofUses (formEmitter ops) g uses session).1 =
      uses.map fun use => ⟨.bound (bindingsAt use (handed uses)) body, use.subjects⟩ := by
  subst hbody
  have hone : ∀ body, Yields (fun _ => True)
      (uses.mapM (ofUse (formEmitter ops) (handed uses) body))
      (· = uses.map fun use => ⟨.bound (bindingsAt use (handed uses)) body, use.subjects⟩) :=
    fun body => Yields.mapM_eq fun use _ =>
      yields_ofUse (formEmitter_writes ops (formEmitter ops).mentions) _ _ use
  rw [ofUses, mapM_variableOf]
  exact (hone _ _ trivial).1

/-! ## Reading the variables -/

/-- The body reads the variables of its case through what it was handed for them, which the
template shows, and binds neither such a variable nor a subject. -/
structure Reads (uses : List Environment) (body template : Form) : Prop where
  reads : body = template.replace (handedValue uses)
  binds : body.BindsOnly fun x => x ∉ variableNames uses ∧ ∀ use ∈ uses, x ∉ use.subjects

/-- No variable is a made-up name, and every subject is one. -/
structure Ordinary (table : SymbolTable) (uses : List Environment) : Prop where
  names : ∀ use ∈ uses, ∀ x ∈ use.names, table.isGenerated? x = some false
  subjects : ∀ use ∈ uses, ∀ s ∈ use.subjects, table.isGenerated? s = some true

/-- What a use has for a variable: for one that is handed over the value found, `nil` if the use
does not bind it. -/
def replacement (uses : List Environment) (use : Environment) (scope : Scope) (x : Name) : Form :=
  if x ∈ variableNames uses then .quote (found use scope x) else .var x

theorem Ordinary.not_variable {table : SymbolTable} (h : Ordinary table uses) (huse : use ∈ uses)
    {s : Name} (hs : s ∈ use.subjects) : s ∉ variableNames uses := by
  intro hvariable
  obtain ⟨other, hother, hname⟩ := mem_variableNames.mp hvariable
  have hmade := h.subjects use huse s hs
  rw [h.names other hother s hname] at hmade
  cases hmade

section

variable {functions : FunctionTable} {table : SymbolTable} {scope : Scope}

/-- Inside a site, under whatever else the body binds, an expression that was handed over has the
value that replaces it. -/
theorem eval_handedValue (hordinary : Ordinary table uses) (huse : use ∈ uses)
    (hbound : ∀ s ∈ use.subjects, ∃ v, scope.lookup s = some v) {inner : Scope}
    (hinner : ∀ y ∈ inner.map Prod.fst, y ∉ variableNames uses ∧ ∀ use ∈ uses, y ∉ use.subjects)
    (x : Name) :
    (handedValue uses x).eval functions
        (inner ++ ((valuesAt use scope (handed uses)).reverse ++ scope)) =
      (replacement uses use scope x).eval functions (inner ++ scope) := by
  have hhidden : ∀ y, (y ∈ variableNames uses ∨ y ∈ use.subjects) → inner.lookup y = none := by
    intro y hy
    apply Form.lookup_eq_none_of_not_mem
    intro hmem
    rcases hy with hy | hy
    · exact (hinner y hmem).1 hy
    · exact (hinner y hmem).2 use huse hy
  unfold replacement
  by_cases hx : x ∈ variableNames uses
  · rw [if_pos hx]
    obtain ⟨v, hv, rfl⟩ : ∃ v ∈ handed uses, v.name = x := by
      refine List.mem_map.mp ?_
      rw [(handed_handed uses).names]
      exact hx
    obtain ⟨-, -, hvalue⟩ := (handed_handed uses).spec hv
    have hread : v.value.eval functions ((valuesAt use scope (handed uses)).reverse ++ scope) =
        pure (found use scope v.name) :=
      eval_handed (handed_handed uses) huse
        (fun env henv y hy => mem_variableNames.mpr ⟨env, henv, hy⟩)
        (fun s hs => ⟨hordinary.not_variable huse hs, hbound s hs⟩) hv
    rw [← hvalue, Form.eval, ← hread, hvalue]
    -- The expression is a variable that the body does not bind anew.
    cases hshared : isShared uses v.name with
    | false =>
        rw [handedValue_of_not_shared hshared]
        simp only [Form.eval, Form.lookupVariable, List.lookup_append, hhidden _ (.inl hx),
          Option.none_or]
    | true =>
        obtain ⟨s, hs, hvar⟩ := handedValue_of_shared hx hshared huse
        obtain ⟨b, hb, -, rfl⟩ := Environment.mem_of_subject? hs
        rw [hvar]
        simp only [Form.eval, Form.lookupVariable, List.lookup_append,
          hhidden _ (.inr (List.mem_map_of_mem hb)), Option.none_or]
  · rw [if_neg hx, handedValue_of_not_mem hx]
    have hnone : (valuesAt use scope (handed uses)).reverse.lookup x = none := by
      apply Form.lookup_eq_none_of_not_mem
      rw [List.map_reverse, List.mem_reverse, valuesAt, List.map_map]
      intro hmem
      obtain ⟨v, hv, rfl⟩ := List.mem_map.mp hmem
      exact hx ((handed_handed uses).spec (List.mem_of_mem_filter hv)).1
    simp only [Form.eval, Form.lookupVariable, List.lookup_append, hnone, Option.none_or]

/-- A body at a site evaluates to what its template does with the values that the use finds. -/
theorem eval_site (hordinary : Ordinary table uses) {body template : Form}
    (hbody : Reads uses body template) (huse : use ∈ uses)
    (hbound : ∀ s ∈ use.subjects, ∃ v, scope.lookup s = some v) :
    (Form.bound (bindingsAt use (handed uses)) body).eval functions scope =
      (template.replace (replacement uses use scope)).eval functions scope := by
  have hvalues : List.Forall₂ (fun b v => b.1 = v.1 ∧ b.2.eval functions scope = pure v.2)
      (bindingsAt use (handed uses)) (valuesAt use scope (handed uses)) :=
    List.forall₂_map_left_iff.mpr (List.forall₂_map_right_iff.mpr (List.forall₂_same.mpr
      fun v _ => ⟨rfl, eval_boundValue hbound v.name⟩))
  obtain ⟨rfl, hbinds⟩ := hbody
  rw [Form.eval_bound hvalues]
  have hinner : ∀ y ∈ ([] : Scope).map Prod.fst,
      y ∉ variableNames uses ∧ ∀ use ∈ uses, y ∉ use.subjects := by simp
  exact Form.eval_replace
    (fun inner hinner x => eval_handedValue hordinary huse hbound hinner x) template
    hbinds.of_replace hinner

end

/-- Every use of a case has a site that lists its subjects, and its code evaluates as the body does
with the values of these subjects for the variables, wherever the subjects are bound. -/
theorem sites_read_their_use (ops : Operators) (functions : FunctionTable)
    (g : Generator ObjectSupply Form Form) (session : Session ObjectSupply)
    (uses : List Environment) (hordinary : Ordinary session.names.symbols uses) (template : Form)
    (hbody : Reads uses (g (handed uses) uses.length session).1 template) (u : Nat)
    (use : Environment) (huse : uses[u]? = some use) :
    ∃ site, (ofUses (formEmitter ops) g uses session).1[u]? = some site ∧
      site.subjects = use.subjects ∧
      ∀ scope : Scope, (∀ s ∈ use.subjects, ∃ v, scope.lookup s = some v) →
        site.code.eval functions scope =
          (template.replace (replacement uses use scope)).eval functions scope := by
  rw [ofUses_formEmitter g session rfl, List.getElem?_map, huse]
  refine ⟨_, rfl, rfl, fun scope hbound => ?_⟩
  exact eval_site hordinary hbody (List.mem_of_getElem? huse) hbound

/-- The first of two uses has nothing for the second of two variables, and the body falls back on
the first one. -/
theorem sites_read_their_use_of_missing :
    let vocabulary := (Vocabulary.intern .initial).1
    let a : Name := ⟨3⟩
    let b : Name := ⟨4⟩
    let first : Environment := ⟨[⟨a, ⟨5⟩, false⟩]⟩
    let second : Environment := ⟨[⟨a, ⟨5⟩, false⟩, ⟨b, ⟨6⟩, false⟩]⟩
    let symbols : SymbolTable := ⟨#["", "nil", "t", "a", "b", "#:val0", "#:val1"],
      .ofList [("", 0), ("nil", 1), ("t", 2), ("a", 3), ("b", 4), ("#:val0", 5), ("#:val1", 6)]⟩
    let body : Generator ObjectSupply Form Form := fun handed _ =>
      return (handed.map Variable.value).foldl (fun code f => .cond f f code) .nil
    ∃ site, (ofUses (formEmitter vocabulary.operators) body [first, second]
        ⟨⟨symbols, 2⟩, ⟨0⟩⟩).1[0]? = some site ∧
      site.code.eval vocabulary.functions [(⟨5⟩, .int 7)] = pure (.int 7) := by
  intro vocabulary a b first second symbols body
  have hbinds : (Form.cond (.var b) (.var b) (.cond (.var ⟨5⟩) (.var ⟨5⟩) .nil)).BindsOnly fun x =>
      x ∉ variableNames [first, second] ∧ ∀ use ∈ [first, second], x ∉ use.subjects := by
    refine Form.bindsOnly_cond_iff.mpr ⟨Form.bindsOnly_var _, Form.bindsOnly_var _, ?_⟩
    exact Form.bindsOnly_cond_iff.mpr
      ⟨Form.bindsOnly_var _, Form.bindsOnly_var _, Form.bindsOnly_nil⟩
  obtain ⟨site, hsite, -, hread⟩ := sites_read_their_use vocabulary.operators vocabulary.functions
    body ⟨⟨symbols, 2⟩, ⟨0⟩⟩ [first, second] ⟨by decide, by decide⟩
    (.cond (.var b) (.var b) (.cond (.var a) (.var a) .nil)) ⟨rfl, hbinds⟩ 0 first rfl
  refine ⟨site, hsite, ?_⟩
  rw [hread _ (List.forall_mem_singleton.mpr ⟨_, rfl⟩)]
  rfl

end Site

end PatternCompiler
