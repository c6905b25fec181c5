import PatternCompiler.Proofs.Compilation
import PatternCompiler.Proofs.Numbering

/-!
# The shape of compiled code

Lowering gives code of a fixed shape, whatever constants are made on the way and whatever the bodies
are. What is true of all bodies, and stays true while names are added, can therefore be carried over
to the code of a whole compilation without another look at how the code was emitted.
-/

namespace PatternCompiler

set_option autoImplicit false

/-! ## Decisions -/

/-- The code of a test, up to its constants. -/
def Test.Shape (ops : Operators) : Test Form → Form → Prop
  | .equal subject _ eqv, code => ∃ c, code = .call (ops.comparator eqv) [.var subject, .quote c]
  | .member subject _ eqv, code => ∃ c, code = .call (ops.membership eqv) [.var subject, .quote c]
  | .sameAs subject other, code => code = .call ops.eql [.var subject, .var other]
  | .predicate subject func pairs, code =>
      code = .bound (LowerM.references pairs) (func.application ops (.var subject))
  | .guard expr pairs, code => code = .bound (LowerM.references pairs) expr

/-- The code of a decision whose leaves stand for these sites, and what lowering it records. -/
inductive Decision.Shape (ops : Operators) (sites : List (List (Site Form))) :
    Decision Form → Lowering → Form → Lowering → Prop where
  | fail (l : Lowering) : Shape ops sites .fail l .nil l
  | leaf {case use : Nat} {site : Site Form} {l l' : Lowering}
      (hsite : siteAt? sites case use = some site) (hreads : l.Reads site.subjects l') :
      Shape ops sites (.leaf case use) l site.code l'
  | missing {case use : Nat} (hsite : siteAt? sites case use = none) (l : Lowering) :
      Shape ops sites (.leaf case use) l .nil l
  | test {asked : Test Form} {yes no : Decision Form} {test yesCode noCode : Form}
      {l l₁ l₂ l₃ : Lowering} (hyes : Shape ops sites yes l yesCode l₁)
      (hno : Shape ops sites no l₁ noCode l₂) (htest : asked.Shape ops test)
      (hreads : l₂.Reads asked.subjects l₃) :
      Shape ops sites (.test asked yes no) l (.cond test yesCode noCode) l₃
  | keep {fresh subject : Name} {func : Form} {pairs : List (Name × Name)} {body : Decision Form}
      {code : Form} {l l₁ l₂ : Lowering} (hbody : Shape ops sites body l code l₁)
      (hreads : l₁.Reads (subject :: pairs.map Prod.snd) l₂) :
      Shape ops sites (.project fresh func subject pairs body) l
        (.bound [(fresh, .bound (LowerM.references pairs)
          (func.application ops (.var subject)))] code) l₂
  | drop {fresh subject : Name} {func : Form} {pairs : List (Name × Name)} {body : Decision Form}
      {code : Form} {l l₁ : Lowering} (hbody : Shape ops sites body l code l₁)
      (hunread : fresh ∉ l₁.referenced) :
      Shape ops sites (.project fresh func subject pairs body) l code
        { l₁ with dropped := l₁.dropped + 1 }

section

variable {τ : Type} {I : τ → Prop} {ops : Operators} {e : Emitter τ Form Form}

theorem Test.lower_shape (he : e.Writes I ops) (test : Test Form) (l : Lowering) :
    LowerM.Yields I l (test.lower e) fun code l' =>
      l.Reads test.subjects l' ∧ test.Shape ops code := by
  unfold lower
  refine (LowerM.yields_reads test.subjects).bind fun _ l₁ hl₁ => ?_
  cases test with
  | equal subject literal eqv =>
      refine (LowerM.Yields.lift (he.var subject)).bind fun f l₂ hf => ?_
      obtain ⟨rfl, rfl⟩ := hf
      refine (LowerM.Yields.lift (he.equalityTest _ literal eqv)).mono fun r hr => ?_
      obtain ⟨⟨c, hcode, -⟩, hl⟩ := hr
      exact ⟨hl ▸ hl₁, c, hcode⟩
  | member subject set eqv =>
      refine (LowerM.Yields.lift (he.var subject)).bind fun f l₂ hf => ?_
      obtain ⟨rfl, rfl⟩ := hf
      refine (LowerM.Yields.lift (he.membershipTest _ set eqv)).mono fun r hr => ?_
      obtain ⟨⟨vs, supply, hcode, -⟩, hl⟩ := hr
      exact ⟨hl ▸ hl₁, _, hcode⟩
  | sameAs subject other =>
      refine (LowerM.Yields.lift (he.var subject)).bind fun f l₂ hf => ?_
      obtain ⟨rfl, rfl⟩ := hf
      refine (LowerM.Yields.lift (he.var other)).bind fun f l₂ hf => ?_
      obtain ⟨rfl, rfl⟩ := hf
      refine (LowerM.Yields.lift (he.sameValueTest _ _)).mono fun r hr => ?_
      exact ⟨hr.2 ▸ hl₁, hr.1⟩
  | predicate subject func pairs =>
      refine (LowerM.yields_bindings he pairs).bind fun made l₂ hmade => ?_
      obtain ⟨rfl, hl₂⟩ := hmade
      refine (LowerM.Yields.lift (he.var subject)).bind fun f l₃ hf => ?_
      obtain ⟨rfl, rfl⟩ := hf
      refine (LowerM.Yields.lift (he.predicateTest func _ _)).mono fun r hr => ?_
      have hreads := hl₁.trans hl₂
      refine ⟨hr.2 ▸ ⟨hreads.referenced, fun x hx => ?_, hreads.dropped⟩, hr.1⟩
      exact hreads.reads x (List.mem_append_left _ hx)
  | guard expr pairs =>
      refine (LowerM.yields_bindings he pairs).bind fun made l₂ hmade => ?_
      obtain ⟨rfl, hl₂⟩ := hmade
      refine (LowerM.Yields.lift (he.guardTest expr _)).mono fun r hr => ?_
      have hreads := hl₁.trans hl₂
      refine ⟨hr.2 ▸ ⟨hreads.referenced, fun x hx => ?_, hreads.dropped⟩, hr.1⟩
      exact hreads.reads x (List.mem_append_left _ hx)

theorem Decision.lower_shape (he : e.Writes I ops) (sites : List (List (Site Form)))
    (decision : Decision Form) (l : Lowering) :
    LowerM.Yields I l (decision.lower e sites) (decision.Shape ops sites l) := by
  induction decision generalizing l with
  | fail =>
      refine (LowerM.Yields.lift he.noMatch).mono fun r hr => ?_
      rw [hr.1, hr.2]
      exact .fail l
  | leaf case use =>
      rw [lower]
      cases hsite : siteAt? sites case use with
      | some site =>
          refine (LowerM.yields_reads site.subjects).bind fun _ l' hl' => ?_
          exact .pure (.leaf hsite hl')
      | none =>
          refine (LowerM.Yields.lift he.noMatch).mono fun r hr => ?_
          rw [hr.1, hr.2]
          exact .missing hsite l
  | test asked yes no ihyes ihno =>
      rw [lower]
      refine (ihyes l).bind fun yesCode l₁ hyes => ?_
      refine (ihno l₁).bind fun noCode l₂ hno => ?_
      refine (asked.lower_shape he l₂).bind fun testCode l₃ htest => ?_
      refine (LowerM.Yields.lift (he.cond testCode yesCode noCode)).mono fun r hr => ?_
      rw [hr.1, hr.2]
      exact .test hyes hno htest.2 htest.1
  | project fresh func subject pairs body ih =>
      rw [lower]
      refine (ih l).bind fun code l₁ hbody => ?_
      refine LowerM.yields_get.bind fun _ _ hl => ?_
      obtain ⟨rfl, rfl⟩ := hl
      split
      · refine (LowerM.yields_reads [subject]).bind fun _ l₂ h₂ => ?_
        refine (LowerM.yields_bindings he pairs).bind fun made l₃ h₃ => ?_
        obtain ⟨rfl, h₃⟩ := h₃
        refine (LowerM.Yields.lift (he.var subject)).bind fun f l' hvar => ?_
        obtain ⟨rfl, rfl⟩ := hvar
        refine (LowerM.Yields.lift (he.apply func _ _)).bind fun value l' hvalue => ?_
        obtain ⟨rfl, rfl⟩ := hvalue
        refine (LowerM.Yields.lift (he.letIn _ code)).mono fun r hr => ?_
        rw [hr.1, hr.2]
        exact .keep hbody (h₂.trans h₃)
      · rename_i hunread
        exact PatternCompiler.Yields.pure (.drop hbody (by simpa using hunread))

end

/-! ## Bodies -/

/-- What a body is made of when it is placed: the variables are variables. -/
def Variable.IsVar (v : Variable Form) : Prop := ∃ x, v.value = .var x

/-- Something that is said of bodies, and of how names may change while they are made. Names that
change further do not make it false. -/
structure Discipline where
  changes : NameSupply → NameSupply → Prop
  holds : NameSupply → List (Variable Form) → Form → Prop
  refl : ∀ names, changes names names
  trans : ∀ {a b c}, changes a b → changes b c → changes a c
  stable : ∀ {a b handed body}, changes a b → holds a handed body → holds b handed body

/-- From names that changed as they may, the generator makes bodies as they should be. -/
def Generator.Obeys {τ : Type} (d : Discipline) (names : NameSupply) (g : Generator τ Form Form) :
    Prop :=
  ∀ (handed : List (Variable Form)) (uses : Nat) (session : Session τ),
    d.changes names session.names → (∀ v ∈ handed, v.IsVar) →
    d.changes session.names (g handed uses session).2.names ∧
      d.holds (g handed uses session).2.names handed (g handed uses session).1

namespace Site

variable {τ : Type} {ops : Operators} {e : Emitter τ Form Form} {d : Discipline}
  {names : NameSupply}

theorem Handed.isVar {uses : List Environment} {handed : List (Variable Form)}
    (h : Handed uses handed) : ∀ v ∈ handed, v.IsVar := by
  intro v hv
  have hvalue := (h.spec hv).2.2
  unfold handedValue at hvalue
  split at hvalue
  · exact ⟨_, hvalue⟩
  · exact ⟨_, hvalue⟩

/-- A body that is as it should be was placed at every use of a case. -/
def Placed (d : Discipline) (names : NameSupply) (uses : List Environment)
    (sites : List (Site Form)) : Prop :=
  ∃ handed body, Handed uses handed ∧ d.holds names handed body ∧
    sites = uses.map fun use => ⟨.bound (bindingsAt use handed) body, use.subjects⟩

theorem Placed.stable {names' : NameSupply} {uses : List Environment} {sites : List (Site Form)}
    (h : Placed d names uses sites) (hchanges : d.changes names names') :
    Placed d names' uses sites := by
  obtain ⟨handed, body, hhanded, hbody, hsites⟩ := h
  exact ⟨handed, body, hhanded, d.stable hchanges hbody, hsites⟩

theorem ofUses_eq (e : Emitter τ Form Form) (g : Generator τ Form Form) (uses : List Environment)
    (session : Session τ) :
    ofUses e g uses session =
      let made := (variableNames uses).mapM (variableOf e uses) session.target
      let run := g made.1 uses.length { session with target := made.2 }
      let placed := uses.mapM (ofUse e made.1 run.1) run.2.target
      (placed.1, { run.2 with target := placed.2 }) := rfl

theorem yields_ofUses (he : e.Writes (fun _ => True) ops) (handed : List (Variable Form))
    (body : Form) (uses : List Environment) :
    Yields (fun _ => True) (uses.mapM (ofUse e handed body))
      (· = uses.map fun use => ⟨.bound (bindingsAt use handed) body, use.subjects⟩) :=
  Yields.mapM_eq fun use _ => yields_ofUse he handed body use

theorem ofUses_placed (he : e.Writes (fun _ => True) ops) {g : Generator τ Form Form}
    (hg : g.Obeys d names) (uses : List Environment) {session : Session τ}
    (hsession : d.changes names session.names) :
    d.changes session.names (ofUses e g uses session).2.names ∧
      Placed d (ofUses e g uses session).2.names uses (ofUses e g uses session).1 := by
  obtain ⟨hhanded, -⟩ := yields_handed he uses session.target trivial
  rw [ofUses_eq]
  dsimp only
  generalize (variableNames uses).mapM (variableOf e uses) session.target = made at hhanded ⊢
  obtain ⟨hchanges, hbody⟩ := hg made.1 uses.length { session with target := made.2 } hsession
    hhanded.isVar
  generalize g made.1 uses.length { session with target := made.2 } = run at hchanges hbody ⊢
  obtain ⟨hsites, -⟩ := yields_ofUses he made.1 run.1 uses run.2.target trivial
  exact ⟨hchanges, made.1, run.1, hhanded, hbody, hsites⟩

/-- The sites of a case with these uses, which are none if there are no uses. -/
def Sited (d : Discipline) (names : NameSupply) (uses : List Environment)
    (sites : List (Site Form)) : Prop :=
  (uses = [] ∧ sites = []) ∨ Placed d names uses sites

theorem Sited.stable {names' : NameSupply} {uses : List Environment} {sites : List (Site Form)}
    (h : Sited d names uses sites) (hchanges : d.changes names names') :
    Sited d names' uses sites := by
  rcases h with hempty | hplaced
  · exact .inl hempty
  · exact .inr (hplaced.stable hchanges)

theorem ofTable_sited (he : e.Writes (fun _ => True) ops) {entries : List (List Environment)}
    {generators : List (Generator τ Form Form)} (hlength : entries.length = generators.length)
    (hg : ∀ g ∈ generators, Generator.Obeys d names g) {session : Session τ}
    (hsession : d.changes names session.names) :
    d.changes session.names (ofTable e entries generators session).2.names ∧
      List.Forall₂ (Sited d (ofTable e entries generators session).2.names)
        entries (ofTable e entries generators session).1 := by
  induction entries generalizing generators session with
  | nil => exact ⟨d.refl _, .nil⟩
  | cons uses entries ih =>
      cases generators with
      | nil => cases hlength
      | cons g generators =>
          obtain ⟨hfirst, hrest⟩ := List.forall_mem_cons.mp hg
          obtain ⟨sites, session', hrun, hchanges, hsited⟩ : ∃ sites session',
              (if uses.isEmpty then pure [] else ofUses e g uses) session = (sites, session') ∧
              d.changes session.names session'.names ∧ Sited d session'.names uses sites := by
            split
            · rename_i hempty
              exact ⟨[], session, rfl, d.refl _, .inl ⟨List.isEmpty_iff.mp hempty, rfl⟩⟩
            · obtain ⟨hchanges, hplaced⟩ := ofUses_placed he hfirst uses hsession
              exact ⟨_, _, rfl, hchanges, .inr hplaced⟩
          obtain ⟨hlater, hothers⟩ := ih (Nat.succ.inj hlength) hrest (d.trans hsession hchanges)
          rw [ofTable_cons hrun]
          exact ⟨d.trans hchanges hlater, .cons (hsited.stable hlater) hothers⟩

/-- What stands at a leaf is the body of its case, placed for its use. -/
theorem exists_of_siteAt? {table : UseTable} {sites : List (List (Site Form))}
    (h : List.Forall₂ (Sited d names) table.entries sites) {case use : Nat} {site : Site Form}
    (hsite : siteAt? sites case use = some site) :
    ∃ env handed body, (table.uses case)[use]? = some env ∧ Handed (table.uses case) handed ∧
      d.holds names handed body ∧ site = ⟨.bound (bindingsAt env handed) body, env.subjects⟩ := by
  obtain ⟨placed, hplaced, huse⟩ := Option.bind_eq_some_iff.mp hsite
  obtain ⟨uses, huses, hsited⟩ : ∃ uses, table.entries[case]? = some uses ∧
      Sited d names uses placed := by
    rw [List.forall₂_iff_get] at h
    obtain ⟨hlt, rfl⟩ := List.getElem?_eq_some_iff.mp hplaced
    have hlt' : case < table.entries.length := h.1 ▸ hlt
    exact ⟨_, List.getElem?_eq_getElem hlt', h.2 case hlt' hlt⟩
  rw [UseTable.uses_of_getElem? huses]
  rcases hsited with ⟨-, rfl⟩ | ⟨handed, body, hhanded, hbody, rfl⟩
  · cases huse
  · rw [List.getElem?_map] at huse
    obtain ⟨env, henv, rfl⟩ := Option.map_eq_some_iff.mp huse
    exact ⟨env, handed, body, henv, hhanded, hbody, rfl⟩

end Site

/-! ## Compilations -/

/-- The code of a plan: the subject's variable around the code of the tree. -/
def Plan.Shape (ops : Operators) (d : Discipline) (names : NameSupply) (subject : Form)
    (plan : Plan Form) (code : Form) : Prop :=
  ∃ sites body lowering, List.Forall₂ (Site.Sited d names) plan.uses.entries sites ∧
    plan.decision.Shape ops sites .empty body lowering ∧ code = .bound [(plan.root, subject)] body

theorem compileWellFormed_shape {τ : Type} {ops : Operators} {e : Emitter τ Form Form}
    (he : e.Writes (fun _ => True) ops) (d : Discipline) {options : Options} (subject : Form)
    {cases : List (Case τ Form Form)} {session : Session τ} {planned : Plan Form × NameSupply}
    (hplanned : Plan.ofPatterns options e.mentions (cases.map Case.pattern) session.names = planned)
    (hlength : planned.1.uses.entries.length = cases.length)
    (hg : ∀ c ∈ cases, Generator.Obeys d planned.2 c.generator) :
    ∃ names, d.changes planned.2 names ∧
      (compileWellFormed e options subject cases session).2.names =
        names.release session.names.next ∧
      planned.1.Shape ops d names subject
        (compileWellFormed e options subject cases session).1.code := by
  subst hplanned
  rw [compileWellFormed_eq]
  dsimp only
  generalize Plan.ofPatterns options e.mentions (cases.map Case.pattern) session.names =
    planned at hlength hg ⊢
  have hgenerators : planned.1.uses.entries.length = (cases.map Case.generator).length := by
    rw [hlength, List.length_map]
  have hsession : d.changes planned.2 (Session.mk planned.2 session.target).names := d.refl _
  obtain ⟨hchanges, hsited⟩ := Site.ofTable_sited he hgenerators (List.forall_mem_map.mpr hg)
    hsession
  rw [Plan.emit_eq]
  dsimp only
  generalize Site.ofTable e planned.1.uses.entries (cases.map Case.generator)
    { session with names := planned.2 } = placed at hchanges hsited ⊢
  obtain ⟨hshape, -⟩ := planned.1.decision.lower_shape he placed.1 .empty placed.2.target trivial
  generalize (planned.1.decision.lower e placed.1).run .empty placed.2.target = lowered at hshape ⊢
  obtain ⟨hcode, -⟩ := he.letIn [(planned.1.root, subject)] lowered.1.1 lowered.2 trivial
  exact ⟨placed.2.names, hchanges, rfl, placed.1, lowered.1.1, lowered.1.2, hsited, hshape, hcode⟩

end PatternCompiler
