import PatternCompiler.Proofs.Shapes

/-!
# Matches inside matches

A body may compile matches of its own while the match around it is being compiled. The inner matches
take the numbers that the outer one has left over and hand them back when they are done, so sibling
bodies get the same numbers again, but on the way from the root of the code to any part of it no
made-up name is bound twice.
-/

namespace PatternCompiler

set_option autoImplicit false

open SymbolTable (generatedString)

/-! ## Names bound along paths -/

/-- The names that `let`s bind on a way from the root of a form down to some part of it. A `let` counts
on the ways into its values, too. -/
inductive Form.LetPath : Form → List Name → Prop where
  | here (f : Form) : LetPath f []
  | arg {func : Name} {args : List Form} {f : Form} {path : List Name} (hf : f ∈ args)
      (h : LetPath f path) : LetPath (.call func args) path
  | test {test yes no : Form} {path : List Name} (h : LetPath test path) :
      LetPath (.cond test yes no) path
  | yes {test yes no : Form} {path : List Name} (h : LetPath yes path) :
      LetPath (.cond test yes no) path
  | no {test yes no : Form} {path : List Name} (h : LetPath no path) :
      LetPath (.cond test yes no) path
  | value {bindings : List (Name × Form)} {body : Form} {b : Name × Form} {path : List Name}
      (hb : b ∈ bindings) (h : LetPath b.2 path) :
      LetPath (.letIn bindings body) (bindings.map Prod.fst ++ path)
  | body {bindings : List (Name × Form)} {body : Form} {path : List Name} (h : LetPath body path) :
      LetPath (.letIn bindings body) (bindings.map Prod.fst ++ path)

/-- The made-up names among names. -/
def SymbolTable.generatedAmong (table : SymbolTable) (path : List Name) : List Name :=
  path.filter fun x => table.isGenerated? x = some true

/-- A variable that some compilation made up with this number or a later one. -/
def SymbolTable.NumberedFrom (table : SymbolTable) (low : Nat) (x : Name) : Prop :=
  ∃ stem number, (stem = "val" ∨ stem = "x") ∧ low ≤ number ∧
    table.lookup? x = some (generatedString stem number)

namespace Form

/-- All names that the form binds are of a certain kind. -/
def BindsOnly (kind : Name → Prop) (f : Form) : Prop :=
  ∀ path, f.LetPath path → ∀ x ∈ path, kind x

/-- Along every path made-up names are bound once, and they have late numbers. -/
structure BindsFrom (table : SymbolTable) (low : Nat) (f : Form) : Prop where
  nodup : ∀ path, f.LetPath path → (table.generatedAmong path).Nodup
  names : f.BindsOnly fun x => table.isGenerated? x = some false ∨ table.NumberedFrom low x

end Form

namespace SymbolTable

variable {table table' : SymbolTable} {low low' : Nat} {x : Name}

theorem NumberedFrom.mono (h : table.NumberedFrom low x) (htable : table.Extends table')
    (hlow : low' ≤ low) : table'.NumberedFrom low' x := by
  obtain ⟨stem, number, hstem, hle, hx⟩ := h
  exact ⟨stem, number, hstem, Nat.le_trans hlow hle, htable x _ hx⟩

theorem NumberedFrom.isGenerated? (h : table.NumberedFrom low x) :
    table.isGenerated? x = some true := by
  obtain ⟨stem, number, -, -, hx⟩ := h
  rw [SymbolTable.isGenerated?, hx, Option.map_some, isGeneratedString_generatedString]

theorem generatedAmong_append (xs ys : List Name) :
    table.generatedAmong (xs ++ ys) = table.generatedAmong xs ++ table.generatedAmong ys :=
  List.filter_append ..

theorem generatedAmong_eq_nil {xs : List Name}
    (h : ∀ x ∈ xs, table.isGenerated? x = some false) : table.generatedAmong xs = [] := by
  refine List.filter_eq_nil_iff.mpr fun x hx => ?_
  rw [h x hx]
  decide

/-- A name that is made up or not stays so while the table grows. -/
theorem generatedAmong_eq (htable : table.Extends table') {xs : List Name}
    (h : ∀ x ∈ xs, table.isGenerated? x = some false ∨ table.isGenerated? x = some true) :
    table'.generatedAmong xs = table.generatedAmong xs := by
  refine List.filter_congr fun x hx => ?_
  rcases h x hx with hx | hx
  · rw [hx, htable.isGenerated? hx]
  · rw [hx, htable.isGenerated? hx]

/-- The number of a made-up name tells it from all names with later numbers. -/
theorem not_numberedFrom_succ {stem : String} {number : Nat} (hstem : stem = "val" ∨ stem = "x")
    (hx : table.lookup? x = some (generatedString stem number)) :
    ¬ table.NumberedFrom (number + 1) x := by
  rintro ⟨stem', number', hstem', hle, hx'⟩
  have hsame := Option.some.inj (hx.symm.trans hx')
  rcases hstem with rfl | rfl <;> rcases hstem' with rfl | rfl
  · exact absurd (generatedString_inj hsame) (by omega)
  · exact generatedString_stem_ne _ _ hsame
  · exact generatedString_stem_ne _ _ hsame.symm
  · exact absurd (generatedString_inj hsame) (by omega)

end SymbolTable

namespace Form

variable {table table' : SymbolTable} {low low' : Nat} {kind : Name → Prop}

theorem BindsOnly.bindsFrom {f : Form} (h : f.BindsOnly fun x => table.isGenerated? x = some false)
    (low : Nat) : f.BindsFrom table low where
  nodup path hpath := by
    rw [SymbolTable.generatedAmong_eq_nil (h path hpath)]
    exact List.nodup_nil
  names path hpath x hx := .inl (h path hpath x hx)

theorem BindsFrom.mono {f : Form} (h : f.BindsFrom table low) (htable : table.Extends table')
    (hlow : low' ≤ low) : f.BindsFrom table' low' where
  nodup path hpath := by
    rw [SymbolTable.generatedAmong_eq htable fun x hx =>
      (h.names path hpath x hx).imp id SymbolTable.NumberedFrom.isGenerated?]
    exact h.nodup path hpath
  names path hpath x hx :=
    (h.names path hpath x hx).imp htable.isGenerated? fun hx => hx.mono htable hlow

theorem bindsOnly_var (x : Name) : (var x).BindsOnly kind := by
  rintro path ⟨⟩ y hy
  cases hy

theorem bindsOnly_quote (value : Value) : (quote value).BindsOnly kind := by
  rintro path ⟨⟩ y hy
  cases hy

theorem bindsOnly_nil : nil.BindsOnly kind := bindsOnly_quote _

theorem bindsOnly_call {func : Name} {args : List Form} (h : ∀ f ∈ args, f.BindsOnly kind) :
    (call func args).BindsOnly kind := by
  intro path hpath x hx
  cases hpath with
  | here => cases hx
  | arg hf hpath => exact h _ hf path hpath x hx

theorem BindsFrom.call {func : Name} {args : List Form} (h : ∀ f ∈ args, f.BindsFrom table low) :
    (Form.call func args).BindsFrom table low where
  nodup path hpath := by
    cases hpath with
    | here => exact List.nodup_nil
    | arg hf hpath => exact (h _ hf).nodup path hpath
  names := bindsOnly_call fun f hf => (h f hf).names

theorem BindsFrom.cond {test yes no : Form} (htest : test.BindsFrom table low)
    (hyes : yes.BindsFrom table low) (hno : no.BindsFrom table low) :
    (Form.cond test yes no).BindsFrom table low := by
  constructor
  · intro path hpath
    cases hpath with
    | here => exact List.nodup_nil
    | test hpath => exact htest.nodup path hpath
    | yes hpath => exact hyes.nodup path hpath
    | no hpath => exact hno.nodup path hpath
  · intro path hpath
    cases hpath with
    | here => exact fun x hx => by cases hx
    | test hpath => exact htest.names path hpath
    | yes hpath => exact hyes.names path hpath
    | no hpath => exact hno.names path hpath

/-- A path into a `let` is the names of the `let` and then a path into one of its parts. -/
theorem LetPath.of_letIn {bindings : List (Name × Form)} {body : Form} {path : List Name}
    (h : (Form.letIn bindings body).LetPath path) :
    path = [] ∨ ∃ rest, path = bindings.map Prod.fst ++ rest ∧
      ((∃ b ∈ bindings, b.2.LetPath rest) ∨ body.LetPath rest) := by
  cases h with
  | here => exact .inl rfl
  | value hb h => exact .inr ⟨_, rfl, .inl ⟨_, hb, h⟩⟩
  | body h => exact .inr ⟨_, rfl, .inr h⟩

/-- Names that are not made up do no harm. -/
theorem BindsFrom.letIn {bindings : List (Name × Form)} {body : Form}
    (hnames : ∀ b ∈ bindings, table.isGenerated? b.1 = some false)
    (hvalues : ∀ b ∈ bindings, b.2.BindsFrom table low) (hbody : body.BindsFrom table low) :
    (Form.letIn bindings body).BindsFrom table low := by
  have hordinary : ∀ x ∈ bindings.map Prod.fst, table.isGenerated? x = some false :=
    List.forall_mem_map.mpr hnames
  constructor
  · intro path hpath
    rcases hpath.of_letIn with rfl | ⟨rest, rfl, hrest⟩
    · exact List.nodup_nil
    · rw [SymbolTable.generatedAmong_append, SymbolTable.generatedAmong_eq_nil hordinary,
        List.nil_append]
      rcases hrest with ⟨b, hb, hrest⟩ | hrest
      · exact (hvalues b hb).nodup rest hrest
      · exact hbody.nodup rest hrest
  · intro path hpath x hx
    rcases hpath.of_letIn with rfl | ⟨rest, rfl, hrest⟩
    · cases hx
    · rcases List.mem_append.mp hx with hx | hx
      · exact .inl (hordinary x hx)
      · rcases hrest with ⟨b, hb, hrest⟩ | hrest
        · exact (hvalues b hb).names rest hrest x hx
        · exact hbody.names rest hrest x hx

theorem BindsFrom.bound {bindings : List (Name × Form)} {body : Form}
    (hnames : ∀ b ∈ bindings, table.isGenerated? b.1 = some false)
    (hvalues : ∀ b ∈ bindings, b.2.BindsFrom table low) (hbody : body.BindsFrom table low) :
    (Form.bound bindings body).BindsFrom table low := by
  unfold Form.bound
  split
  · exact hbody
  · exact .letIn hnames hvalues hbody

/-- A made-up name goes around code with later numbers. -/
theorem BindsFrom.bound_fresh {stem : String} (hstem : stem = "val" ∨ stem = "x") {fresh : Name}
    (hfresh : table.lookup? fresh = some (generatedString stem low)) {value body : Form}
    (hvalue : value.BindsFrom table (low + 1)) (hbody : body.BindsFrom table (low + 1)) :
    (Form.bound [(fresh, value)] body).BindsFrom table low := by
  have hgenerated : table.NumberedFrom low fresh := ⟨stem, low, hstem, Nat.le_refl _, hfresh⟩
  have hrest {path : List Name} (hpath : (Form.letIn [(fresh, value)] body).LetPath path) :
      path = [] ∨ ∃ rest, path = fresh :: rest ∧ (table.generatedAmong rest).Nodup ∧
        ∀ x ∈ rest, table.isGenerated? x = some false ∨ table.NumberedFrom (low + 1) x := by
    rcases hpath.of_letIn with rfl | ⟨rest, rfl, ⟨b, hb, hrest⟩ | hrest⟩
    · exact .inl rfl
    · obtain rfl := List.mem_singleton.mp hb
      exact .inr ⟨rest, rfl, hvalue.nodup rest hrest, hvalue.names rest hrest⟩
    · exact .inr ⟨rest, rfl, hbody.nodup rest hrest, hbody.names rest hrest⟩
  rw [Form.bound, if_neg (by simp)]
  constructor
  · intro path hpath
    rcases hrest hpath with rfl | ⟨rest, rfl, hnodup, hnames⟩
    · exact List.nodup_nil
    · rw [SymbolTable.generatedAmong, List.filter_cons_of_pos (by simp [hgenerated.isGenerated?]),
        List.nodup_cons]
      refine ⟨fun hmem => ?_, hnodup⟩
      rcases hnames fresh (List.mem_of_mem_filter hmem) with hordinary | hlater
      · rw [hgenerated.isGenerated?] at hordinary
        cases hordinary
      · exact SymbolTable.not_numberedFrom_succ hstem hfresh hlater
  · intro path hpath x hx
    rcases hrest hpath with rfl | ⟨rest, rfl, -, hnames⟩
    · cases hx
    · rcases List.mem_cons.mp hx with rfl | hx
      · exact .inr hgenerated
      · exact (hnames x hx).imp id fun hx => hx.mono (.refl _) (Nat.le_succ _)

end Form

/-! ## Code around bodies -/

/-- A pattern binds ordinary names only, and so do its expressions. -/
structure Pattern.Ordinary (table : SymbolTable) (p : Pattern Form) : Prop where
  binders : ∀ x ∈ p.binders, table.isGenerated? x = some false
  functions : ∀ f ∈ p.functions, f.BindsOnly fun x => table.isGenerated? x = some false
  guards : ∀ f ∈ p.guards, f.BindsOnly fun x => table.isGenerated? x = some false

/-- The table may grow, all numbers are handed back, and a body binds made-up names with numbers that
were free when it was made. -/
def nestedBodies : Discipline where
  changes a b :=
    a.symbols.Extends b.symbols ∧ (a.symbols.Coherent → b.symbols.Coherent) ∧ b.next = a.next
  holds names _ body := body.BindsFrom names.symbols names.next
  refl _ := ⟨.refl _, id, rfl⟩
  trans h h' := ⟨h.1.trans h'.1, fun hc => h'.2.1 (h.2.1 hc), h'.2.2.trans h.2.2⟩
  stable h hbody := hbody.mono h.1 (Nat.le_of_eq h.2.2)

section

variable {names : NameSupply} {low : Nat} {sig : Signature} {ops : Operators}

theorem Form.bindsOnly_application {kind : Name → Prop} {func : Form} (h : func.BindsOnly kind)
    (subject : Name) : (func.application ops (.var subject)).BindsOnly kind := by
  unfold Form.application
  split
  · exact bindsOnly_call (List.forall_mem_singleton.mpr (bindsOnly_var subject))
  · refine bindsOnly_call fun f hf => ?_
    rcases List.mem_append.mp hf with hf | hf
    · exact fun path hpath => h path (.arg hf hpath)
    · exact List.mem_singleton.mp hf ▸ bindsOnly_var subject
  · refine bindsOnly_call fun f hf => ?_
    rcases List.mem_pair.mp hf with rfl | rfl
    · exact h
    · exact bindsOnly_var subject

variable {table : SymbolTable} (hbinder : ∀ x, sig.binder x → table.isGenerated? x = some false)

include hbinder

theorem Form.BindsFrom.references {pairs : List (Name × Name)}
    (hpairs : ∀ b ∈ pairs, sig.binder b.1 ∧ sig.subject b.2) {body : Form}
    (hbody : body.BindsFrom table low) :
    (Form.bound (LowerM.references pairs) body).BindsFrom table low := by
  refine .bound (fun b hb => ?_) (fun b hb => ?_) hbody
  · obtain ⟨pair, hpair, rfl⟩ := List.mem_map.mp hb
    exact hbinder _ (hpairs pair hpair).1
  · obtain ⟨pair, hpair, rfl⟩ := List.mem_map.mp hb
    exact (bindsOnly_var _).bindsFrom low

theorem Test.Shape.bindsFrom {test : Test Form} {code : Form} (h : test.Shape ops code)
    (hfunctions : ∀ f, sig.function f → f.BindsOnly fun x => table.isGenerated? x = some false)
    (hguards : ∀ f, sig.guard f → f.BindsOnly fun x => table.isGenerated? x = some false)
    (ht : test.Over sig) : code.BindsFrom table low := by
  have hvar (x : Name) : (Form.var x).BindsFrom table low := (Form.bindsOnly_var x).bindsFrom low
  have hquote (c : Value) : (Form.quote c).BindsFrom table low :=
    (Form.bindsOnly_quote c).bindsFrom low
  cases test with
  | equal subject literal eqv =>
      obtain ⟨c, rfl⟩ := h
      exact .call (by simp [hvar, hquote])
  | member subject set eqv =>
      obtain ⟨c, rfl⟩ := h
      exact .call (by simp [hvar, hquote])
  | sameAs subject other =>
      obtain rfl := h
      exact .call (by simp [hvar])
  | predicate subject func pairs =>
      obtain rfl := h
      refine .references hbinder ht.2.2 (Form.BindsOnly.bindsFrom ?_ low)
      exact Form.bindsOnly_application (hfunctions func ht.2.1) subject
  | guard expr pairs =>
      obtain rfl := h
      exact .references hbinder ht.2 ((hguards expr ht.1).bindsFrom low)

end

/-- Around a body a site binds the variables of its case. -/
theorem Site.bindsFrom_site {table : SymbolTable} {low : Nat} {uses : List Environment}
    {env : Environment} {handed : List (Variable Form)} (hhanded : Handed uses handed) {body : Form}
    (huses : ∀ env ∈ uses, ∀ x ∈ env.names, table.isGenerated? x = some false)
    (hbody : body.BindsFrom table low) :
    (Form.bound (bindingsAt env handed) body).BindsFrom table low := by
  refine .bound (fun b hb => ?_) (fun b hb => ?_) hbody
  · obtain ⟨v, hv, rfl⟩ := List.mem_map.mp hb
    obtain ⟨use, huse, hx⟩ := mem_variableNames.mp (hhanded.spec (List.mem_of_mem_filter hv)).1
    exact huses use huse _ hx
  · obtain ⟨v, hv, rfl⟩ := List.mem_map.mp hb
    refine Form.BindsOnly.bindsFrom ?_ low
    simp only [boundValue]
    split
    · exact Form.bindsOnly_var _
    · exact Form.bindsOnly_nil

/-- The projections of a tree take increasing numbers, and its bodies take later ones. -/
theorem Decision.Shape.bindsFrom {ops : Operators} {sites : List (List (Site Form))}
    {decision : Decision Form} {l l' : Lowering} {code : Form} {names : NameSupply}
    {table : UseTable} {sig : Signature} {low : Nat}
    (hsites : List.Forall₂ (Site.Sited nestedBodies names) table.entries sites)
    (hbinder : ∀ x, sig.binder x → names.symbols.isGenerated? x = some false)
    (hbinds : table.Binds sig.binder)
    (hfunctions : ∀ f, sig.function f →
      f.BindsOnly fun x => names.symbols.isGenerated? x = some false)
    (hguards : ∀ f, sig.guard f → f.BindsOnly fun x => names.symbols.isGenerated? x = some false)
    (hd : decision.Over table sig) (hlow : low ≤ names.next)
    (hnumbered : decision.Numbered names.symbols low names.next)
    (h : decision.Shape ops sites l code l') : code.BindsFrom names.symbols low := by
  induction h generalizing sig low with
  | fail l => exact Form.bindsOnly_nil.bindsFrom low
  | missing hsite l => exact Form.bindsOnly_nil.bindsFrom low
  | @leaf case use site l l' hsite hreads =>
      obtain ⟨env, handed, body, huse, hhanded, hbody, rfl⟩ :=
        Site.exists_of_siteAt? hsites hsite
      refine Site.bindsFrom_site hhanded (fun env henv x hx => ?_)
        (Form.BindsFrom.mono hbody (.refl _) hlow)
      exact hbinder x ((hbinds case env henv).2 x hx)
  | @test asked yes no test yesCode noCode l l₁ l₂ l₃ hyes hno htest hreads ihyes ihno =>
      refine .cond (htest.bindsFrom hbinder hfunctions hguards hd.1) ?_ ?_
      · exact ihyes hbinder hbinds hfunctions hguards hd.2.1 hlow hnumbered.1
      · exact ihno hbinder hbinds hfunctions hguards hd.2.2 hlow hnumbered.2
  | @keep fresh subject func pairs body code l l₁ l₂ hbody hreads ih =>
      obtain ⟨hs, hf, hpairs, hfresh, hunbound, hover⟩ := hd
      obtain ⟨number, hle, hlt, hname, hlater⟩ := hnumbered
      have hcode := @ih (sig.extend fresh) (number + 1) hbinder hbinds hfunctions hguards hover hlt
        hlater
      have hvalue : (func.application ops (.var subject)).BindsFrom names.symbols (number + 1) :=
        (Form.bindsOnly_application (hfunctions func hf) subject).bindsFrom _
      have hkept := Form.BindsFrom.bound_fresh (.inr rfl) hname (hvalue.references hbinder hpairs)
        hcode
      exact hkept.mono (.refl _) hle
  | @drop fresh subject func pairs body code l l₁ hbody hunread ih =>
      obtain ⟨-, -, -, -, -, hover⟩ := hd
      obtain ⟨number, hle, hlt, -, hlater⟩ := hnumbered
      have hcode := @ih (sig.extend fresh) (number + 1) hbinder hbinds hfunctions hguards hover hlt
        hlater
      exact hcode.mono (.refl _) (by omega)

/-! ## Compilations -/

theorem Form.BindsOnly.mono {kind kind' : Name → Prop} {f : Form} (h : f.BindsOnly kind)
    (hkind : ∀ x, kind x → kind' x) : f.BindsOnly kind' :=
  fun path hpath x hx => hkind x (h path hpath x hx)

section

variable {τ : Type} {ops : Operators} {e : Emitter τ Form Form}

/-- Whatever happens, a compilation hands back the numbers that it took. -/
theorem next_compile {ε κ : Type} [BEq ε] (e : Emitter τ ε κ) (options : Options) (subject : ε)
    (cases : List (Case τ ε κ)) (session : Session τ) :
    (compile e options subject cases session).2.names.next = session.names.next := by
  cases hmalformed : firstMalformed? 0 (cases.map Case.pattern) with
  | none =>
      rw [compile_of_firstMalformed? hmalformed]
      rfl
  | some error =>
      rw [compile, hmalformed]
      rfl

/-- If bodies bind made-up names from some number on, then so does the code around them. -/
theorem compileWellFormed_bindsFrom (he : e.Writes (fun _ => True) ops) (options : Options)
    {subject : Form} {cases : List (Case τ Form Form)} {session : Session τ}
    (hnames : session.names.symbols.Coherent)
    (hsubject : subject.BindsOnly fun x => session.names.symbols.isGenerated? x = some false)
    (hpatterns : ∀ c ∈ cases, c.pattern.Ordinary session.names.symbols)
    (hgenerators : ∀ c ∈ cases, ∀ names, session.names.Grows names →
      Generator.Obeys nestedBodies names c.generator) :
    nestedBodies.changes session.names
        (compileWellFormed e options subject cases session).2.names ∧
      (compileWellFormed e options subject cases session).1.code.BindsFrom
        (compileWellFormed e options subject cases session).2.names.symbols session.names.next := by
  have hformed := Plan.ofPatterns_formed hnames (fun _ hx => hx)
    (List.forall_mem_map.mpr fun c hc => (hpatterns c hc).binders) options e.mentions
  have hgrows := Plan.ofPatterns_grows options e.mentions (cases.map Case.pattern) session.names
  have hnumbered := Plan.ofPatterns_numbered options e.mentions (cases.map Case.pattern) hnames
  have hlength := hformed.length.trans (List.length_map Case.pattern)
  generalize hplanned : Plan.ofPatterns options e.mentions (cases.map Case.pattern) session.names =
    planned at hformed hgrows hnumbered hlength
  obtain ⟨names, hchanges, hafter, sites, body, lowering, hsites, hshape, hcode⟩ :=
    compileWellFormed_shape he nestedBodies subject hplanned hlength fun c hc =>
      hgenerators c hc planned.2 hgrows
  have hextends := hgrows.symbols.trans hchanges.1
  have hlater {f : Form}
      (hf : f.BindsOnly fun x => session.names.symbols.isGenerated? x = some false) :
      f.BindsOnly fun x => names.symbols.isGenerated? x = some false :=
    hf.mono fun _ => hextends.isGenerated?
  have hdecision : body.BindsFrom names.symbols (session.names.next + 1) := by
    refine hshape.bindsFrom hsites (fun x hx => hextends.isGenerated? hx) hformed.binds ?_ ?_
      hformed.within ?_ ?_
    · rintro f ⟨p, hp, hf⟩
      obtain ⟨c, hc, rfl⟩ := List.mem_map.mp hp
      exact hlater ((hpatterns c hc).functions f hf)
    · rintro f ⟨p, hp, hf⟩
      obtain ⟨c, hc, rfl⟩ := List.mem_map.mp hp
      exact hlater ((hpatterns c hc).guards f hf)
    · exact hchanges.2.2 ▸ hnumbered.bound
    · exact hnumbered.decision.mono hchanges.1 (Nat.le_refl _) (Nat.le_of_eq hchanges.2.2.symm)
  rw [hcode, hafter]
  refine ⟨⟨hextends, fun hc => hchanges.2.1 (hgrows.coherent hc), rfl⟩, ?_⟩
  exact .bound_fresh (.inl rfl) (hchanges.1 _ _ hnumbered.root) ((hlater hsubject).bindsFrom _)
    hdecision

end

/-! ## Trees of matches -/

/-- The form is put together from pieces, and binds nothing but ordinary names around them. -/
inductive Form.Assembled (table : SymbolTable) (pieces : List Form) : Form → Prop where
  | piece {f : Form} (h : f ∈ pieces) : Assembled table pieces f
  | plain {f : Form} (h : f.BindsOnly fun x => table.isGenerated? x = some false) :
      Assembled table pieces f
  | call {func : Name} {args : List Form} (h : ∀ f ∈ args, Assembled table pieces f) :
      Assembled table pieces (.call func args)
  | cond {test yes no : Form} (htest : Assembled table pieces test)
      (hyes : Assembled table pieces yes) (hno : Assembled table pieces no) :
      Assembled table pieces (.cond test yes no)
  | letIn {bindings : List (Name × Form)} {body : Form}
      (hnames : ∀ b ∈ bindings, table.isGenerated? b.1 = some false)
      (hvalues : ∀ b ∈ bindings, Assembled table pieces b.2)
      (hbody : Assembled table pieces body) : Assembled table pieces (.letIn bindings body)

/-- Intern a string of the source. -/
def Session.intern {σ : Type} (s : String) : StateM (Session σ) Name :=
  Session.withNames fun names =>
    let (name, symbols) := names.symbols.intern s
    (name, { names with symbols := symbols })

/-- Names keep their strings until the later session. -/
structure Session.Precedes {σ : Type} (session later : Session σ) : Prop where
  symbols : session.names.symbols.Extends later.names.symbols
  coherent : later.names.symbols.Coherent

/-- The code that a compilation has given, if it was finished. -/
def writtenCode : Except (CompileError Form) (Compiled Form Form) → List Form
  | .ok compiled => [compiled.code]
  | .error _ => []

/-- How the body of a case comes about in a session: effects on the target, strings interned, and
matches that are compiled with bodies of the same kind and that may turn out malformed, until the
body is put together from the code of these matches. What is written on the way binds names that are
ordinary in the table of that moment; the bodies of an inner match come about at some time later. -/
inductive Nests {τ : Type} (e : Emitter τ Form Form) :
    Session τ → List Form → StateM (Session τ) Form → Prop where
  | done {session : Session τ} {pieces : List Form} {f : Form}
      (h : f.Assembled session.names.symbols pieces) : Nests e session pieces (pure f)
  | emit {α : Type} {session : Session τ} {pieces : List Form} (action : StateM τ α)
      {next : α → StateM (Session τ) Form}
      (h : Nests e (Session.emit action session).2 pieces (next (Session.emit action session).1)) :
      Nests e session pieces (Session.emit action >>= next)
  | intern {session : Session τ} {pieces : List Form} (s : String)
      {next : Name → StateM (Session τ) Form}
      (h : Nests e (Session.intern s session).2 pieces (next (Session.intern s session).1)) :
      Nests e session pieces (Session.intern s >>= next)
  | nested {session : Session τ} {pieces : List Form} (options : Options) {subject : Form}
      {cases : List (Case τ Form Form)}
      {next : Except (CompileError Form) (Compiled Form Form) → StateM (Session τ) Form}
      (hsubject : subject.BindsOnly fun x => session.names.symbols.isGenerated? x = some false)
      (hpatterns : ∀ c ∈ cases, c.pattern.Ordinary session.names.symbols)
      (hbodies : ∀ c ∈ cases, ∀ later, session.Precedes later → ∀ handed uses,
        (∀ v ∈ handed, v.IsVar) → Nests e later [] (c.generator handed uses))
      (hnext : Nests e (compile e options subject cases session).2
        (writtenCode (compile e options subject cases session).1 ++ pieces)
        (next (compile e options subject cases session).1)) :
      Nests e session pieces (compile e options subject cases >>= next)

theorem Form.Assembled.bindsFrom {table : SymbolTable} {pieces : List Form} {low : Nat}
    (hpieces : ∀ f ∈ pieces, f.BindsFrom table low) {f : Form} (h : f.Assembled table pieces) :
    f.BindsFrom table low := by
  induction h with
  | piece hf => exact hpieces _ hf
  | plain hf => exact hf.bindsFrom low
  | call _ ih => exact .call ih
  | cond _ _ _ ihtest ihyes ihno => exact .cond ihtest ihyes ihno
  | letIn hnames _ _ ihvalues ihbody => exact .letIn hnames ihvalues ihbody

theorem Pattern.Ordinary.mono {table table' : SymbolTable} {p : Pattern Form} (h : p.Ordinary table)
    (htable : table.Extends table') : p.Ordinary table' where
  binders x hx := htable.isGenerated? (h.binders x hx)
  functions f hf := (h.functions f hf).mono fun _ => htable.isGenerated?
  guards f hf := (h.guards f hf).mono fun _ => htable.isGenerated?

section

variable {τ : Type} {ops : Operators} {e : Emitter τ Form Form} {session : Session τ}

/-- Interning takes no number. -/
theorem Session.changes_intern (s : String) (session : Session τ) :
    nestedBodies.changes session.names (Session.intern s session).2.names :=
  ⟨SymbolTable.extends_intern _ s, fun hc => hc.intern s, rfl⟩

/-- The bodies of a match bind made-up names with numbers that are free when they are made. -/
theorem Generator.Obeys.of_nests {g : Generator τ Form Form} {names : NameSupply}
    (hgrows : session.names.Grows names) (hnames : session.names.symbols.Coherent)
    (h : ∀ later, session.Precedes later → ∀ handed uses, (∀ v ∈ handed, v.IsVar) →
      nestedBodies.changes later.names (g handed uses later).2.names ∧
        (g handed uses later).1.BindsFrom (g handed uses later).2.names.symbols later.names.next) :
    g.Obeys nestedBodies names := by
  intro handed uses later hchanges hvars
  have hprecedes : session.Precedes later :=
    ⟨hgrows.symbols.trans hchanges.1, hchanges.2.1 (hgrows.coherent hnames)⟩
  obtain ⟨hafter, hbody⟩ := h later hprecedes handed uses hvars
  exact ⟨hafter, hbody.mono (.refl _) (Nat.le_of_eq hafter.2.2)⟩

/-- However matches are nested in a body, the body binds made-up names with numbers that were
free. -/
theorem Nests.bindsFrom (he : e.Writes (fun _ => True) ops) {pieces : List Form}
    {action : StateM (Session τ) Form} (h : Nests e session pieces action)
    (hnames : session.names.symbols.Coherent)
    (hpieces : ∀ f ∈ pieces, f.BindsFrom session.names.symbols session.names.next) :
    nestedBodies.changes session.names (action session).2.names ∧
      (action session).1.BindsFrom (action session).2.names.symbols session.names.next := by
  induction h with
  | done hf => exact ⟨nestedBodies.refl _, hf.bindsFrom hpieces⟩
  | emit action _ ih => exact ih hnames hpieces
  | @intern session pieces s next _ ih =>
      have hchanges := Session.changes_intern s session
      obtain ⟨hafter, hbody⟩ := ih (hchanges.2.1 hnames) fun f hf =>
        (hpieces f hf).mono hchanges.1 (Nat.le_refl _)
      exact ⟨nestedBodies.trans hchanges hafter, hbody⟩
  | @nested session pieces options subject cases next hsubject hpatterns _ _ ihbodies ihnext =>
      have hrun : (compile e options subject cases >>= next) session =
          next (compile e options subject cases session).1
            (compile e options subject cases session).2 := rfl
      rw [hrun]
      cases hmalformed : firstMalformed? 0 (cases.map Case.pattern) with
      | some error =>
          have herror : compile e options subject cases session = (.error error, session) := by
            rw [compile, hmalformed]
            rfl
          rw [herror] at ihnext ⊢
          exact ihnext hnames hpieces
      | none =>
          rw [compile_of_firstMalformed? hmalformed] at ihnext ⊢
          -- A body of the inner match starts without pieces: the code of earlier matches is no
          -- part of it, so its numbers need not lie above theirs.
          have hgenerators : ∀ c ∈ cases, ∀ names, session.names.Grows names →
              Generator.Obeys nestedBodies names c.generator := fun c hc names hgrows =>
            .of_nests hgrows hnames fun later hlater handed uses hvars =>
              ihbodies c hc later hlater handed uses hvars hlater.coherent fun f hf => by cases hf
          obtain ⟨hchanges, hcode⟩ := compileWellFormed_bindsFrom he options hnames hsubject
            hpatterns hgenerators
          have hpieces' := List.forall_mem_cons.mpr ⟨hcode, fun f hf =>
            (hpieces f hf).mono hchanges.1 (Nat.le_refl _)⟩
          rw [← hchanges.2.2] at hpieces' ⊢
          obtain ⟨hafter, hbody⟩ := ihnext (hchanges.2.1 hnames) hpieces'
          exact ⟨nestedBodies.trans hchanges hafter, hbody⟩

/-- However deep matches are nested, no made-up name is bound twice on the way from the root of the
final code to any part of it; and every compilation, finished or not, hands back its numbers. -/
theorem nested_matches_never_capture (he : e.Writes (fun _ => True) ops) (options : Options)
    {subject : Form} {cases : List (Case τ Form Form)} {session : Session τ}
    (hnames : session.names.symbols.Coherent)
    (hsubject : subject.BindsOnly fun x => session.names.symbols.isGenerated? x = some false)
    (hpatterns : ∀ c ∈ cases, c.pattern.Ordinary session.names.symbols)
    (hbodies : ∀ c ∈ cases, ∀ later, session.Precedes later → ∀ handed uses,
      (∀ v ∈ handed, v.IsVar) → Nests e later [] (c.generator handed uses)) :
    (∀ compiled session', compile e options subject cases session = (.ok compiled, session') →
      ∀ path, compiled.code.LetPath path →
        (session'.names.symbols.generatedAmong path).Nodup) ∧
    ∀ options subject cases session,
      (compile e options subject cases session).2.names.next = session.names.next := by
  refine ⟨fun compiled session' hcompile path hpath => ?_, next_compile e⟩
  cases hmalformed : firstMalformed? 0 (cases.map Case.pattern) with
  | some error =>
      rw [compile, hmalformed] at hcompile
      cases hcompile
  | none =>
      rw [compile_of_firstMalformed? hmalformed] at hcompile
      cases hcompile
      have hgenerators : ∀ c ∈ cases, ∀ names, session.names.Grows names →
          Generator.Obeys nestedBodies names c.generator :=
        fun c hc names hgrows => .of_nests hgrows hnames fun later hlater handed uses hvars =>
          (hbodies c hc later hlater handed uses hvars).bindsFrom he hlater.coherent
            fun f hf => by cases hf
      exact (compileWellFormed_bindsFrom he options hnames hsubject hpatterns
        hgenerators).2.nodup path hpath

end

/-! ## Trees of clauses -/

mutual

/-- What is written in the tree binds ordinary names only. -/
def Body.Ordinary (table : SymbolTable) : Body → Prop
  | .report => True
  | .code form => form.BindsOnly fun x => table.isGenerated? x = some false
  | .nested _ clauses _ => Clause.AllOrdinary table clauses

def Clause.AllOrdinary (table : SymbolTable) : List (Clause Body) → Prop
  | [] => True
  | ⟨pattern, body, _⟩ :: rest =>
      pattern.Ordinary table ∧ body.Ordinary table ∧ Clause.AllOrdinary table rest

end

theorem Variable.IsVar.bindsOnly {kind : Name → Prop} {v : Variable Form} (h : v.IsVar) :
    v.value.BindsOnly kind := by
  obtain ⟨x, hx⟩ := h
  rw [hx]
  exact Form.bindsOnly_var x

theorem reportForm_bindsOnly {kind : Name → Prop} (functions : FunctionTable) (index : Nat)
    {handed : List (Variable Form)} (h : ∀ v ∈ handed, v.IsVar) :
    (reportForm functions index handed).BindsOnly kind := by
  refine Form.bindsOnly_call (List.forall_mem_cons.mpr ⟨Form.bindsOnly_quote _, fun f hf => ?_⟩)
  obtain ⟨v, hv, rfl⟩ := List.mem_map.mp hf
  refine Form.bindsOnly_call fun f hf => ?_
  rcases List.mem_pair.mp hf with rfl | rfl
  · exact Form.bindsOnly_quote _
  · exact (h v hv).bindsOnly

theorem nestedSubject_bindsOnly {kind : Name → Prop} (on : Name) {handed : List (Variable Form)}
    (h : ∀ v ∈ handed, v.IsVar) : (nestedSubject on handed).BindsOnly kind := by
  unfold nestedSubject
  cases hfound : handed.find? fun v => v.name = on with
  | none => exact Form.bindsOnly_var on
  | some v => exact (h v (List.mem_of_find?_eq_some hfound)).bindsOnly

mutual

/-- A body that is given as a tree comes about as bodies may, whenever its names are known. -/
theorem Body.generator_nests (e : Emitter Journal Form Form) (functions : FunctionTable)
    {table : SymbolTable} {body : Body} (h : body.Ordinary table) (path : Path)
    {session : Session Journal} (htable : table.Extends session.names.symbols)
    (handed : List (Variable Form)) (uses : Nat) (hvars : ∀ v ∈ handed, v.IsVar) :
    Nests e session [] (body.generator e functions path handed uses) := by
  match body with
  | .report =>
      rw [Body.generator]
      exact .emit _ (.done (.plain (reportForm_bindsOnly functions _ hvars)))
  | .code form =>
      rw [Body.generator]
      exact .emit _ (.done (.plain (Form.BindsOnly.mono h fun _ => htable.isGenerated?)))
  | .nested on clauses options =>
      rw [Body.generator]
      have hcases := Clause.casesFrom_nests e functions h path 0
      refine .emit _ (.nested options (nestedSubject_bindsOnly on hvars) (fun c hc => ?_)
        (fun c hc later hlater => ?_) (.emit _ (.done ?_)))
      · exact (hcases c hc).1.mono htable
      · exact (hcases c hc).2 later (htable.trans hlater.symbols)
      · cases (compile e options (nestedSubject on handed)
          (Clause.casesFrom e functions path 0 clauses) _).1 with
        | ok compiled => exact .piece List.mem_cons_self
        | error error => exact .plain Form.bindsOnly_nil

theorem Clause.casesFrom_nests (e : Emitter Journal Form Form) (functions : FunctionTable)
    {table : SymbolTable} {clauses : List (Clause Body)} (h : Clause.AllOrdinary table clauses)
    (path : Path) (index : Nat) :
    ∀ c ∈ Clause.casesFrom e functions path index clauses, c.pattern.Ordinary table ∧
      ∀ session : Session Journal, table.Extends session.names.symbols → ∀ handed uses,
        (∀ v ∈ handed, v.IsVar) → Nests e session [] (c.generator handed uses) := by
  match clauses with
  | [] =>
      rw [Clause.casesFrom]
      exact fun c hc => by cases hc
  | ⟨pattern, body, allowUnreachable⟩ :: rest =>
      rw [Clause.casesFrom]
      rw [Clause.AllOrdinary] at h
      refine List.forall_mem_cons.mpr ⟨⟨h.1, ?_⟩, Clause.casesFrom_nests e functions h.2.2 path _⟩
      exact fun session htable => Body.generator_nests e functions h.2.1 _ htable

end

theorem reportEmitter_writes (vocabulary : Vocabulary) (mentions : Form → Name → Bool) :
    (reportEmitter vocabulary mentions).Writes (fun _ => True) vocabulary.operators :=
  .always fun made => Journal.emitter_writes (formEmitter_writes vocabulary.operators mentions) made

/-- The match inside the first case goes on with the numbers of the match around it, and the one inside
the second case is malformed. -/
def nestedClauses (x : Name) : List (Clause Body) :=
  [⟨.app (.function .t) (.bind x),
    .nested x [⟨.app (.function .t) .wildcard, .report, false⟩] {}, false⟩,
   ⟨.wildcard, .nested x [⟨.or [], .report, false⟩] {}, false⟩]

/-- A body that interns a name and binds it in a match of its own. -/
def interningBody (e : Emitter Journal Form Form) : Generator Journal Form Form := fun _ _ => do
  let y ← Session.intern "y"
  let result ← compile e {} (.int 4)
    [⟨.app (.function .t) (.bind y), fun _ _ => return .var y, false⟩]
  return (writtenCode result).headD .nil

/-- The name is unknown before the body runs, and ordinary when the match is compiled. -/
theorem interningBody_nests (e : Emitter Journal Form Form) {session : Session Journal}
    (hnames : session.names.symbols.Coherent) (handed : List (Variable Form)) (uses : Nat) :
    Nests e session [] (interningBody e handed uses) := by
  have hordinary : (session.names.symbols.intern "y").2.isGenerated?
      (session.names.symbols.intern "y").1 = some false := by
    rw [SymbolTable.isGenerated?, hnames.lookup?_intern "y"]
    rfl
  refine .intern "y" (.nested {} (Form.bindsOnly_quote _) ?_ ?_ (.done ?_))
  · refine List.forall_mem_singleton.mpr ⟨?_, ?_, ?_⟩
    · exact List.forall_mem_singleton.mpr hordinary
    · simp only [Pattern.functions, List.forall_mem_singleton]
      rintro path ⟨⟩ x hx
      cases hx
    · exact fun f hf => by cases hf
  · exact List.forall_mem_singleton.mpr fun later _ _ _ _ => .done (.plain (Form.bindsOnly_var _))
  · cases (compile e {} (.int 4) _ _).1 with
    | ok compiled => exact .piece List.mem_cons_self
    | error error => exact .plain Form.bindsOnly_nil

/-- Two matches are nested as clauses, and one in a body that interns a name. -/
def nestedCases (e : Emitter Journal Form Form) (functions : FunctionTable) (x : Name) :
    List (Case Journal Form Form) :=
  ⟨.app (.function .t) (.literal (.int 5)), interningBody e, false⟩ ::
    Clause.cases e functions (nestedClauses x)

theorem nested_matches_never_capture_of_cases :
    let vocabulary := (Vocabulary.intern .initial).1
    let e := reportEmitter vocabulary fun f x => f.mentions x
    let (x, table) := SymbolTable.initial.intern "x"
    ∃ compiled session', compile e {} (.int 3) (nestedCases e vocabulary.functions x)
        ⟨⟨table, 0⟩, .start ⟨0⟩⟩ = (.ok compiled, session') ∧
      (∀ path, compiled.code.LetPath path → (session'.names.symbols.generatedAmong path).Nodup) ∧
      session'.names.next = 0 := by
  intro vocabulary e
  have hx := SymbolTable.initial_coherent.lookup?_intern "x"
  have hc := SymbolTable.initial_coherent.intern "x"
  generalize SymbolTable.initial.intern "x" = interned at hx hc ⊢
  obtain ⟨x, table⟩ := interned
  have hordinary : table.isGenerated? x = some false := by
    rw [SymbolTable.isGenerated?, hx]
    rfl
  have hfunction : (Form.function .t).BindsOnly fun y => table.isGenerated? y = some false := by
    rintro path ⟨⟩ y hy
    cases hy
  have hpattern : (Pattern.app (.function .t) (.literal (.int 5))).Ordinary table :=
    ⟨List.forall_mem_nil _, List.forall_mem_singleton.mpr hfunction, List.forall_mem_nil _⟩
  have htree : Clause.AllOrdinary table (nestedClauses x) := by
    simp only [nestedClauses, Clause.AllOrdinary, Body.Ordinary, and_true]
    refine ⟨⟨?_, ?_, ?_⟩, ⟨?_, ?_, ?_⟩, ⟨?_, ?_, ?_⟩, ⟨?_, ?_, ?_⟩⟩ <;>
      simp [Pattern.binders, Pattern.bindersOfList, Pattern.functions, Pattern.listFunctions,
        Pattern.guards, Pattern.listGuards, hordinary, hfunction]
  have hnests := Clause.casesFrom_nests e vocabulary.functions htree [] 0
  obtain ⟨hpaths, hnext⟩ := @nested_matches_never_capture Journal vocabulary.operators e
    (reportEmitter_writes vocabulary _) {} (.int 3) (nestedCases e vocabulary.functions x)
    ⟨⟨table, 0⟩, .start ⟨0⟩⟩ hc (Form.bindsOnly_quote _)
    (List.forall_mem_cons.mpr ⟨hpattern, fun c hc => (hnests c hc).1⟩)
    (List.forall_mem_cons.mpr ⟨fun later hlater handed uses _ =>
      interningBody_nests e hlater.coherent handed uses,
      fun c hc later hlater => (hnests c hc).2 later hlater.symbols⟩)
  have hwell : ∀ c ∈ nestedCases e vocabulary.functions x, c.pattern.isWellFormed = true := by
    refine List.forall_mem_cons.mpr ⟨rfl, fun c hc => ?_⟩
    have hpattern : c.pattern ∈ (nestedClauses x).map Clause.pattern :=
      Clause.map_pattern_casesFrom _ vocabulary.functions [] 0 _ ▸ List.mem_map_of_mem hc
    rcases List.mem_pair.mp hpattern with heq | heq
    · rw [heq]
      rfl
    · rw [heq]
      rfl
  obtain ⟨compiled, session', hcompile⟩ : ∃ compiled session',
      compile e {} (.int 3) (nestedCases e vocabulary.functions x) ⟨⟨table, 0⟩, .start ⟨0⟩⟩ =
        (.ok compiled, session') := ⟨_, _, compile_of_wellFormed hwell⟩
  have hafter : (compile e {} (.int 3) (nestedCases e vocabulary.functions x)
      ⟨⟨table, 0⟩, .start ⟨0⟩⟩).2.names.next = 0 := hnext ..
  rw [hcompile] at hafter
  exact ⟨compiled, session', hcompile, hpaths compiled session' hcompile, hafter⟩

end PatternCompiler
