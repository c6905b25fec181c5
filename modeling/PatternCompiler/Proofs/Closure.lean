import PatternCompiler.Proofs.Shapes

/-!
# Made-up names are bound

Whatever variable a compilation makes up, the code reads it only where the code binds it: a subject
that a test, a projection or a body reads is recorded while code is lowered from the leaves up, and
a projection is left out only if its variable has not been recorded by then.
-/

namespace PatternCompiler

set_option autoImplicit false

/-! ## Names that occur free -/

namespace Form

variable {x : Name}

theorem anyMentions_iff {fs : List Form} :
    anyMentions x fs = true ↔ ∃ f ∈ fs, f.mentions x = true := by
  induction fs with
  | nil => simp [anyMentions]
  | cons f fs ih => rw [anyMentions, Bool.or_eq_true, ih, List.exists_mem_cons_iff]

theorem anyBoundMentions_iff {bindings : List (Name × Form)} :
    anyBoundMentions x bindings = true ↔ ∃ b ∈ bindings, b.2.mentions x = true := by
  induction bindings with
  | nil => simp [anyBoundMentions]
  | cons b bindings ih =>
      rw [anyBoundMentions, Bool.or_eq_true, ih, List.exists_mem_cons_iff]

theorem mentions_bound_iff {bindings : List (Name × Form)} {body : Form} :
    (bound bindings body).mentions x = true ↔
      (∃ b ∈ bindings, b.2.mentions x = true) ∨
        (∀ b ∈ bindings, b.1 ≠ x) ∧ body.mentions x = true := by
  unfold bound
  split
  · rename_i hempty
    simp [List.isEmpty_iff.mp hempty]
  · simp only [mentions, Bool.or_eq_true, Bool.and_eq_true, List.all_eq_true, decide_eq_true_eq,
      anyBoundMentions_iff]

theorem mentions_application_iff {ops : Operators} {func subject : Form} :
    (func.application ops subject).mentions x = true ↔
      func.mentions x = true ∨ subject.mentions x = true := by
  unfold application
  split
  · simp [mentions, anyMentions]
  · simp [mentions, anyMentions_iff, or_and_right, exists_or]
  · simp [mentions, anyMentions]

end Form

/-! ## Code that reads what is recorded -/

/-- Every name that occurs free is known, or it is a subject that is read. -/
def Form.Closes (known subject : Name → Prop) (read : List Name) (code : Form) : Prop :=
  ∀ x, code.mentions x = true → known x ∨ (x ∈ read ∧ subject x)

section

variable {known : Name → Prop} {sig : Signature} {read read' : List Name} {ops : Operators}

theorem Form.Closes.of_read {subject : Name → Prop} {code : Form}
    (h : code.Closes known subject read) (hread : ∀ x ∈ read, x ∈ read') :
    code.Closes known subject read' :=
  fun x hx => (h x hx).imp id fun hx => ⟨hread x hx.1, hx.2⟩

theorem Form.closes_var {subject : Name → Prop} {x : Name} (hread : x ∈ read) (hx : subject x) :
    (Form.var x).Closes known subject read := by
  intro y hy
  rw [Form.mentions, decide_eq_true_eq] at hy
  subst hy
  exact .inr ⟨hread, hx⟩

/-- The variables that an expression sees are bound to subjects. -/
theorem Form.closes_references {pairs : List (Name × Name)} {code : Form}
    (hpairs : ∀ b ∈ pairs, sig.binder b.1 ∧ sig.subject b.2) (hread : ∀ b ∈ pairs, b.2 ∈ read)
    (hcode : code.Closes known sig.subject read) :
    (Form.bound (LowerM.references pairs) code).Closes known sig.subject read := by
  intro x hx
  rcases Form.mentions_bound_iff.mp hx with ⟨b, hb, hx⟩ | ⟨-, hx⟩
  · obtain ⟨pair, hpair, rfl⟩ := List.mem_map.mp hb
    exact Form.closes_var (hread pair hpair) (hpairs pair hpair).2 x hx
  · exact hcode x hx

theorem Form.closes_application {func : Form} {subject : Name}
    (hfunc : ∀ x, func.mentions x = true → known x) (hread : subject ∈ read)
    (hs : sig.subject subject) :
    (func.application ops (.var subject)).Closes known sig.subject read := by
  intro x hx
  rcases Form.mentions_application_iff.mp hx with hx | hx
  · exact .inl (hfunc x hx)
  · exact Form.closes_var hread hs x hx

variable (hsig : sig.Separate True) (hknown : ∀ x, sig.binder x → known x)

include hsig hknown

theorem Test.Shape.closes {test : Test Form} {code : Form} (h : test.Shape ops code)
    (ht : test.Over sig) (hread : ∀ x ∈ test.subjects, x ∈ read) :
    code.Closes known sig.subject read := by
  cases test with
  | equal subject literal eqv =>
      obtain ⟨c, rfl⟩ := h
      intro x hx
      simp only [Form.mentions, Form.anyMentions, Bool.or_false] at hx
      exact Form.closes_var (hread subject (by simp [subjects])) ht.1 x hx
  | member subject set eqv =>
      obtain ⟨c, rfl⟩ := h
      intro x hx
      simp only [Form.mentions, Form.anyMentions, Bool.or_false] at hx
      exact Form.closes_var (hread subject (by simp [subjects])) ht.1 x hx
  | sameAs subject other =>
      obtain rfl := h
      intro x hx
      simp only [Form.mentions, Form.anyMentions, Bool.or_false, Bool.or_eq_true] at hx
      rcases hx with hx | hx
      · exact Form.closes_var (hread subject (by simp [subjects])) ht.1 x hx
      · exact Form.closes_var (hread other (by simp [subjects])) ht.2 x hx
  | predicate subject func pairs =>
      obtain rfl := h
      refine Form.closes_references ht.2.2 (fun b hb => hread _ ?_) ?_
      · exact List.mem_cons_of_mem _ (List.mem_map_of_mem hb)
      · refine Form.closes_application (fun x hx => ?_) (hread subject (by simp [subjects])) ht.1
        exact hknown x (hsig.functions trivial func ht.2.1 x hx)
  | guard expr pairs =>
      obtain rfl := h
      refine Form.closes_references ht.2 (fun b hb => hread _ (List.mem_map_of_mem hb)) ?_
      exact fun x hx => .inl (hknown x (hsig.guards trivial expr ht.1 x hx))

end

/-! ## Bodies -/

/-- The table may grow, and a made-up name in a body comes from a variable that was handed over. -/
def closedBodies : Discipline where
  changes a b := a.symbols.Extends b.symbols ∧ (a.symbols.Coherent → b.symbols.Coherent)
  holds names handed body := ∀ x, body.mentions x = true →
    names.symbols.isGenerated? x = some false ∨ ∃ v ∈ handed, v.value.mentions x = true
  refl _ := ⟨.refl _, id⟩
  trans h h' := ⟨h.1.trans h'.1, fun hc => h'.2 (h.2 hc)⟩
  stable h hbody x hx := (hbody x hx).imp h.1.isGenerated? id

/-- The code of a site reads nothing but the subjects of its use, and what is known. -/
theorem Site.mentions_site {names : NameSupply} {uses : List Environment} {env : Environment}
    (henv : env ∈ uses) {handed : List (Variable Form)} (hhanded : Handed uses handed) {body : Form}
    (hbody : closedBodies.holds names handed body) {x : Name}
    (hx : (Form.bound (bindingsAt env handed) body).mentions x = true) :
    names.symbols.isGenerated? x = some false ∨ x ∈ env.subjects := by
  have subject_mem {y s : Name} (hy : env.subject? y = some s)
      (hx : (Form.var s).mentions x = true) : x ∈ env.subjects := by
    obtain ⟨b, hb, -, rfl⟩ := Environment.mem_of_subject? hy
    rw [Form.mentions, decide_eq_true_eq] at hx
    exact hx ▸ List.mem_map_of_mem hb
  rcases Form.mentions_bound_iff.mp hx with ⟨b, hb, hx⟩ | ⟨hunbound, hx⟩
  · obtain ⟨v, hv, rfl⟩ := List.mem_map.mp hb
    simp only [boundValue] at hx
    cases hsubject : env.subject? v.name with
    | none =>
        rw [hsubject] at hx
        cases hx
    | some subject =>
        rw [hsubject] at hx
        exact .inr (subject_mem hsubject hx)
  · rcases hbody x hx with hordinary | ⟨v, hv, hx⟩
    · exact .inl hordinary
    · obtain ⟨hname, hshared, hvalue⟩ := hhanded.spec hv
      rw [hvalue] at hx
      cases hs : isShared uses v.name with
      | true =>
          obtain ⟨subject, hsubject, hvar⟩ := handedValue_of_shared hname hs henv
          rw [hvar] at hx
          exact .inr (subject_mem hsubject hx)
      | false =>
          -- The site binds the variable around the body.
          rw [handedValue_of_not_shared hs, Form.mentions, decide_eq_true_eq] at hx
          have hkept : v ∈ handed.filter fun v => !v.shared := by
            rw [List.mem_filter, hshared, hs]
            exact ⟨hv, rfl⟩
          exact absurd hx (hunbound _ (List.mem_map_of_mem hkept))

/-! ## Decisions -/

/-- A subject that the code of a decision reads has been recorded. -/
theorem Decision.Shape.closes {ops : Operators} {sites : List (List (Site Form))}
    {decision : Decision Form} {l l' : Lowering} {code : Form} {names : NameSupply}
    {table : UseTable} {sig : Signature}
    (hsites : List.Forall₂ (Site.Sited closedBodies names) table.entries sites)
    (hknown : ∀ x, sig.binder x → names.symbols.isGenerated? x = some false)
    (hsig : sig.Separate True) (hd : decision.Over table sig)
    (h : decision.Shape ops sites l code l') :
    (∀ x ∈ l.referenced, x ∈ l'.referenced) ∧
      code.Closes (fun x => names.symbols.isGenerated? x = some false) sig.subject
        l'.referenced := by
  induction h generalizing sig with
  | fail l => exact ⟨fun _ hx => hx, fun x hx => by cases hx⟩
  | missing hsite l => exact ⟨fun _ hx => hx, fun x hx => by cases hx⟩
  | @leaf case use site l l' hsite hreads =>
      obtain ⟨env, handed, body, huse, hhanded, hbody, rfl⟩ :=
        Site.exists_of_siteAt? hsites hsite
      obtain ⟨env', huse', henv⟩ := hd
      obtain rfl : env = env' := Option.some.inj (huse.symm.trans huse')
      refine ⟨hreads.referenced, fun x hx => ?_⟩
      rcases Site.mentions_site (List.mem_of_getElem? huse) hhanded hbody hx with hx | hx
      · exact .inl hx
      · exact .inr ⟨hreads.reads x hx, henv.subjects x hx⟩
  | @test asked yes no test yesCode noCode l l₁ l₂ l₃ hyes hno htest hreads ihyes ihno =>
      obtain ⟨hfirst, hyesCloses⟩ := ihyes hknown hsig hd.2.1
      obtain ⟨hsecond, hnoCloses⟩ := ihno hknown hsig hd.2.2
      refine ⟨fun x hx => hreads.referenced x (hsecond x (hfirst x hx)), fun x hx => ?_⟩
      simp only [Form.mentions, Bool.or_eq_true, or_assoc] at hx
      rcases hx with hx | hx | hx
      · exact htest.closes hsig hknown hd.1 hreads.reads x hx
      · exact hyesCloses.of_read (fun y hy => hreads.referenced y (hsecond y hy)) x hx
      · exact hnoCloses.of_read hreads.referenced x hx
  | @keep fresh subject func pairs body code l l₁ l₂ hbody hreads ih =>
      obtain ⟨hs, hf, hpairs, hfresh, hunbound, hover⟩ := hd
      obtain ⟨hgrows, hcloses⟩ := @ih (sig.extend fresh) hknown (hsig.extend hunbound) hover
      refine ⟨fun x hx => hreads.referenced x (hgrows x hx), fun x hx => ?_⟩
      have hvalue : (Form.bound (LowerM.references pairs)
          (func.application ops (.var subject))).Closes
            (fun x => names.symbols.isGenerated? x = some false) sig.subject l₂.referenced := by
        refine Form.closes_references hpairs (fun b hb => ?_) ?_
        · exact hreads.reads _ (List.mem_cons_of_mem _ (List.mem_map_of_mem hb))
        · refine Form.closes_application (fun y hy => ?_) (hreads.reads _ List.mem_cons_self) hs
          exact hknown y (hsig.functions trivial func hf y hy)
      rcases Form.mentions_bound_iff.mp hx with ⟨b, hb, hx⟩ | ⟨hne, hx⟩
      · rw [List.mem_singleton] at hb
        subst hb
        exact hvalue x hx
      · rcases hcloses x hx with hordinary | ⟨hread, rfl | hsubject⟩
        · exact .inl hordinary
        · exact absurd rfl (hne _ List.mem_cons_self)
        · exact .inr ⟨hreads.referenced x hread, hsubject⟩
  | @drop fresh subject func pairs body code l l₁ hbody hunread ih =>
      obtain ⟨-, -, -, -, hunbound, hover⟩ := hd
      obtain ⟨hgrows, hcloses⟩ := @ih (sig.extend fresh) hknown (hsig.extend hunbound) hover
      refine ⟨hgrows, fun x hx => ?_⟩
      rcases hcloses x hx with hordinary | ⟨hread, rfl | hsubject⟩
      · exact .inl hordinary
      · exact absurd hread hunread
      · exact .inr ⟨hread, hsubject⟩

/-! ## Compilations -/

/-- From any names that were added to the table, the generator only adds names, and its body mentions
made-up names only through the variables that it was handed. -/
def Generator.Closed {τ : Type} (table : SymbolTable) (g : Generator τ Form Form) : Prop :=
  ∀ (handed : List (Variable Form)) (uses : Nat) (session : Session τ),
    table.Extends session.names.symbols → session.names.symbols.Coherent →
    session.names.symbols.Extends (g handed uses session).2.names.symbols ∧
      (g handed uses session).2.names.symbols.Coherent ∧
      ∀ x, (g handed uses session).1.mentions x = true →
        (g handed uses session).2.names.symbols.isGenerated? x = some false ∨
          ∃ v ∈ handed, v.value.mentions x = true

section

variable {τ : Type} {ops : Operators} {e : Emitter τ Form Form}

/-- The code of a plan mentions no made-up name that it does not bind. -/
theorem Plan.Shape.closed {names : NameSupply} {ordinary : Name → Prop}
    (hordinary : ∀ x, ordinary x → names.symbols.isGenerated? x = some false) {subject : Form}
    {plan : Plan Form} {code : Form} (h : plan.Shape ops closedBodies names subject code)
    {patterns : List (Pattern Form)} (hformed : plan.Formed ordinary patterns)
    (hclosed : ∀ p ∈ patterns, p.Closed ordinary)
    (hsubject : ∀ x, subject.mentions x = true → ordinary x) {x : Name}
    (hx : code.mentions x = true) : names.symbols.isGenerated? x = some false := by
  obtain ⟨sites, body, lowering, hsites, hshape, rfl⟩ := h
  have hseparate : (Signature.ofPatterns plan.root ordinary patterns).Separate True :=
    Signature.ofPatterns_separate hformed.root fun _ => hclosed
  have hcloses := (hshape.closes hsites hordinary hseparate hformed.within).2
  rw [Form.mentions_bound_iff] at hx
  rcases hx with ⟨b, hb, hx⟩ | ⟨hne, hx⟩
  · obtain rfl := List.mem_singleton.mp hb
    exact hordinary x (hsubject x hx)
  · rcases hcloses x hx with hx | ⟨-, hroot⟩
    · exact hx
    · exact absurd hroot.symm (hne _ List.mem_cons_self)

/-- No made-up name occurs free in compiled code. -/
theorem compiled_binds_generated_names (he : e.Writes (fun _ => True) ops) (options : Options)
    {subject : Form} {cases : List (Case τ Form Form)} {session : Session τ}
    (hnames : session.names.symbols.Coherent)
    (hwell : ∀ c ∈ cases, c.pattern.isWellFormed = true)
    (hbinders : ∀ c ∈ cases, ∀ x ∈ c.pattern.binders,
      session.names.symbols.isGenerated? x = some false)
    (hclosed : ∀ c ∈ cases, c.pattern.Closed fun x =>
      session.names.symbols.isGenerated? x = some false)
    (hsubject : ∀ x, subject.mentions x = true → session.names.symbols.isGenerated? x = some false)
    (hgenerators : ∀ c ∈ cases, Generator.Closed session.names.symbols c.generator) :
    ∃ compiled session',
      compile e options subject cases session = (.ok compiled, session') ∧
      ∀ x, session'.names.symbols.isGenerated? x = some true →
        compiled.code.mentions x = false := by
  rw [compile_of_wellFormed hwell]
  refine ⟨_, _, rfl, fun x hx => ?_⟩
  have hformed := Plan.ofPatterns_formed hnames (fun _ hx => hx)
    (List.forall_mem_map.mpr hbinders) options e.mentions
  have hgrows := Plan.ofPatterns_grows options e.mentions (cases.map Case.pattern) session.names
  have hobeys : ∀ c ∈ cases, Generator.Obeys closedBodies
      (Plan.ofPatterns options e.mentions (cases.map Case.pattern) session.names).2
      c.generator := by
    intro c hc handed uses session' hchanges _
    obtain ⟨hadded, hcoherent, hbody⟩ := hgenerators c hc handed uses session'
      (hgrows.symbols.trans hchanges.1) (hchanges.2 (hgrows.coherent hnames))
    exact ⟨⟨hadded, fun _ => hcoherent⟩, hbody⟩
  have hlength := hformed.length.trans (List.length_map Case.pattern)
  generalize hplanned : Plan.ofPatterns options e.mentions (cases.map Case.pattern) session.names =
    planned at hformed hgrows hobeys hlength
  obtain ⟨names, hchanges, hafter, hshape⟩ :=
    compileWellFormed_shape he closedBodies subject hplanned hlength hobeys
  have hlater (y : Name) (hy : session.names.symbols.isGenerated? y = some false) :
      names.symbols.isGenerated? y = some false :=
    (hgrows.symbols.trans hchanges.1).isGenerated? hy
  by_contra hfree
  have hordinary := hshape.closed hlater hformed (List.forall_mem_map.mpr hclosed) hsubject
    (Bool.not_eq_false _ ▸ hfree)
  rw [hafter, NameSupply.release, hordinary] at hx
  cases hx

end

/-- A call of what was handed over. -/
theorem Generator.closed_call {τ : Type} (table : SymbolTable) (func : Name) :
    Generator.Closed (τ := τ) table fun handed _ =>
      return .call func (handed.map Variable.value) := by
  intro handed uses session _ hcoherent
  refine ⟨.refl _, hcoherent, fun x hx => .inr ?_⟩
  obtain ⟨f, hf, hx⟩ := Form.anyMentions_iff.mp hx
  obtain ⟨v, hv, rfl⟩ := List.mem_map.mp hf
  exact ⟨v, hv, hx⟩

theorem compiled_binds_generated_names_of_projection :
    ∃ compiled session',
      compile (formEmitter (Vocabulary.intern .initial).1.operators) {} (.int 3)
        [⟨.app (.function Name.t) (.bind (SymbolTable.initial.intern "x").1),
          fun handed _ => return .call .t (handed.map Variable.value), false⟩]
        ⟨⟨(SymbolTable.initial.intern "x").2, 0⟩, ⟨0⟩⟩ = (.ok compiled, session') ∧
      ∀ x, session'.names.symbols.isGenerated? x = some true →
        compiled.code.mentions x = false := by
  have hx := SymbolTable.initial_coherent.lookup?_intern "x"
  have hc := SymbolTable.initial_coherent.intern "x"
  generalize SymbolTable.initial.intern "x" = interned at hx hc ⊢
  obtain ⟨x, table⟩ := interned
  have hordinary : table.isGenerated? x = some false := by
    rw [SymbolTable.isGenerated?, hx]
    rfl
  refine compiled_binds_generated_names (formEmitter_writes _ _) {} hc ?_ ?_ ?_
    (fun y hy => by cases hy) ?_
  · simp [Pattern.isWellFormed]
  · simp [Pattern.binders, hordinary]
  · refine List.forall_mem_singleton.mpr ⟨?_, by simp [Pattern.guards]⟩
    simp [Pattern.functions, Form.mentions]
  · exact List.forall_mem_singleton.mpr (Generator.closed_call table .t)

end PatternCompiler
