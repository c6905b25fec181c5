import PatternCompiler.Proofs.Sites

/-!
# Compilations mean what their patterns mean

A compilation makes a plan that does what the patterns do, places its report bodies and lowers the
decisions of the plan. What the code evaluates to therefore tells what direct matching finds, and the
cases that no path reaches are never found.
-/

namespace PatternCompiler

set_option autoImplicit false

/-! ## Compilations step by step -/

theorem firstMalformed?_eq_none {ε : Type} {patterns : List (Pattern ε)}
    (h : ∀ p ∈ patterns, p.isWellFormed = true) (case : Nat) :
    firstMalformed? case patterns = none := by
  induction patterns generalizing case with
  | nil => rfl
  | cons p ps ih =>
      obtain ⟨hp, hps⟩ := List.forall_mem_cons.mp h
      rw [firstMalformed?, if_pos hp, ih hps]

section

variable {τ ε κ : Type} [BEq ε] {e : Emitter τ ε κ} {options : Options} {subject : ε}
  {cases : List (Case τ ε κ)} {session : Session τ}

theorem compile_of_firstMalformed? (h : firstMalformed? 0 (cases.map Case.pattern) = none) :
    compile e options subject cases session =
      (.ok (compileWellFormed e options subject cases session).1,
        (compileWellFormed e options subject cases session).2) := by
  rw [compile, h]
  rfl

theorem warnings_of_compile {compiled : Compiled ε κ} {session' : Session τ}
    (h : compile e options subject cases session = (.ok compiled, session')) :
    compiled.warnings = if options.warnUnreachable then
      unreachableCases (Plan.ofPatterns options e.mentions (cases.map Case.pattern)
        session.names).1.uses 0 cases else [] := by
  cases hmalformed : firstMalformed? 0 (cases.map Case.pattern) with
  | some error =>
      rw [compile, hmalformed] at h
      cases h
  | none =>
      rw [compile, hmalformed] at h
      cases h
      rfl

omit [BEq ε] in
theorem not_reached_of_mem {uses : UseTable} {case : Nat} {warning : Unreachable ε}
    (h : warning ∈ unreachableCases uses case cases) : uses.isReached warning.case = false := by
  induction cases generalizing case with
  | nil => cases h
  | cons c cs ih =>
      rw [unreachableCases] at h
      split at h
      · exact ih h
      · rename_i hreached
        rcases List.mem_cons.mp h with rfl | h
        · rw [Bool.not_eq_true, Bool.or_eq_false_iff] at hreached
          exact hreached.1
        · exact ih h

omit [BEq ε] in
theorem Plan.emit_eq (e : Emitter τ ε κ) (subject : ε) (generators : List (Generator τ ε κ))
    (plan : Plan ε) (session : Session τ) :
    plan.emit e subject generators session =
      let placed := Site.ofTable e plan.uses.entries generators session
      let lowered := (plan.decision.lower e placed.1).run .empty placed.2.target
      let code := e.letIn [(plan.root, subject)] lowered.1.1 lowered.2
      ((code.1, lowered.1.2), { placed.2 with target := code.2 }) := rfl

theorem compileWellFormed_eq (e : Emitter τ ε κ) (options : Options) (subject : ε)
    (cases : List (Case τ ε κ)) (session : Session τ) :
    compileWellFormed e options subject cases session =
      let planned := Plan.ofPatterns options e.mentions (cases.map Case.pattern) session.names
      let emitted := planned.1.emit e subject (cases.map Case.generator)
        { session with names := planned.2 }
      ({ code := emitted.1.1
         warnings := if options.warnUnreachable then unreachableCases planned.1.uses 0 cases else []
         stats := planned.1.stats cases.length emitted.1.2 },
        { emitted.2 with names := emitted.2.names.release session.names.next }) := rfl

end

theorem compile_of_wellFormed {τ κ : Type} {e : Emitter τ Form κ} {options : Options}
    {subject : Form} {cases : List (Case τ Form κ)} {session : Session τ}
    (h : ∀ c ∈ cases, c.pattern.isWellFormed = true) :
    compile e options subject cases session =
      (.ok (compileWellFormed e options subject cases session).1,
        (compileWellFormed e options subject cases session).2) :=
  compile_of_firstMalformed? (firstMalformed?_eq_none (List.forall_mem_map.mpr h) 0)

/-! ## What a compilation gives -/

section

variable {frozen : Bool} {strict : Prop} {vocabulary : Vocabulary} {binder : Name → Prop}
  {patterns : List (Pattern Form)} {subject : Form} {plan : Plan Form}

/-- The names that the body of a case gets. -/
def Plan.handed (plan : Plan Form) (case : Nat) : List Name :=
  Site.variableNames (plan.uses.uses case)

/-- The code evaluates the subject into its variable and then does what the plan says, if no
projection is left out where errors count. -/
structure Compiled.Realizes (frozen : Bool) (strict : Prop) (vocabulary : Vocabulary)
    (binder : Name → Prop) (patterns : List (Pattern Form)) (subject : Form) (plan : Plan Form)
    (compiled : Compiled Form Form) : Prop where
  formed : plan.Formed binder patterns
  code : (strict → compiled.stats.droppedProjections = 0) →
    ∃ body read, compiled.code = .bound [(plan.root, subject)] body ∧
      plan.decision.Codes frozen strict vocabulary (.ofPatterns plan.root binder patterns) plan.uses
        (Reports plan.handed) read body

theorem Clause.map_pattern_casesFrom (e : Emitter Journal Form Form) (functions : FunctionTable)
    (path : Path) (case : Nat) (clauses : List (Clause Body)) :
    (Clause.casesFrom e functions path case clauses).map Case.pattern =
      clauses.map Clause.pattern := by
  induction clauses generalizing case with
  | nil => rw [Clause.casesFrom]; rfl
  | cons c clauses ih => rw [Clause.casesFrom, List.map_cons, List.map_cons, ih]

/-- Expressions mention nothing but what patterns may bind. -/
structure Pattern.Closed (binder : Name → Prop) (p : Pattern Form) : Prop where
  functions : ∀ f ∈ p.functions, ∀ x, f.mentions x = true → binder x
  guards : ∀ f ∈ p.guards, ∀ x, f.mentions x = true → binder x

theorem Signature.ofPatterns_separate {root : Name} (hroot : ¬ binder root)
    (hclosed : strict → ∀ p ∈ patterns, p.Closed binder) :
    (Signature.ofPatterns root binder patterns).Separate strict where
  apart x hx := hx ▸ hroot
  functions hs := by
    rintro f ⟨p, hp, hf⟩
    exact (hclosed hs p hp).functions f hf
  guards hs := by
    rintro f ⟨p, hp, hf⟩
    exact (hclosed hs p hp).guards f hf

theorem UseTable.uses_of_getElem? {table : UseTable} {case : Nat} {uses : List Environment}
    (h : table.entries[case]? = some uses) : table.uses case = uses := by
  rw [UseTable.uses, h, Option.getD_some]

variable {e : Emitter Journal Form Form} {clauses : List (Clause Body)}

/-- The code of a plan, and the bodies that were generated for it. -/
theorem Plan.emit_codes (subject : Form)
    (he : ∀ made, e.Writes (fun j => j.invocations = made) vocabulary.operators)
    (hv : vocabulary.Standard)
    (hplan : plan.Formed binder (clauses.map Clause.pattern))
    (hclosed : strict → ∀ c ∈ clauses, c.pattern.Closed binder)
    (hreport : ∀ c ∈ clauses, c.body = .report) (session : Session Journal) :
    ∃ code lowering session', plan.emit e subject
        ((Clause.cases e vocabulary.functions clauses).map Case.generator) session =
          ((code, lowering), session') ∧
      (∃ body read, code = .bound [(plan.root, subject)] body ∧
        ((strict → lowering.dropped = 0) → plan.decision.Codes frozen strict vocabulary
          (.ofPatterns plan.root binder (clauses.map Clause.pattern)) plan.uses
          (Reports plan.handed) read body)) ∧
      session'.target.invocations.toList.map Invocation.summary =
        session.target.invocations.toList.map Invocation.summary ++
          Site.bodiesMade 0 plan.uses.entries := by
  have hlength : plan.uses.entries.length = clauses.length := by
    rw [hplan.length, List.length_map]
  have hnames : ∀ i uses, plan.uses.entries[i]? = some uses →
      plan.handed (0 + i) = Site.variableNames uses := by
    intro i uses hi
    rw [Nat.zero_add, Plan.handed, UseTable.uses_of_getElem? hi]
  have hbinder : ∀ uses ∈ plan.uses.entries, ∀ env ∈ uses, ∀ x ∈ env.names, binder x := by
    intro uses huses env henv
    obtain ⟨i, hi⟩ := List.mem_iff_getElem?.mp huses
    exact (hplan.binds i env (UseTable.uses_of_getElem? hi ▸ henv)).2
  obtain ⟨hsites, hmade⟩ := Site.ofTable_report frozen strict he hv hlength hreport hnames hbinder
    session
  rw [Plan.emit_eq, Clause.cases]
  dsimp only
  generalize Site.ofTable e plan.uses.entries _ session = placed at hsites hmade ⊢
  have hplaced : ∀ case use env, (plan.uses.uses case)[use]? = some env →
      ∃ site, siteAt? placed.1 case use = some site ∧
        site.Codes frozen strict vocabulary binder (Reports plan.handed) case env := by
    intro case use env henv
    cases hcase : plan.uses.entries[case]? with
    | none =>
        rw [UseTable.uses, hcase] at henv
        cases henv
    | some uses =>
        rw [UseTable.uses_of_getElem? hcase] at henv
        obtain ⟨site, hsite, hcodes⟩ := hsites case use uses env hcase henv
        exact ⟨site, hsite, Nat.zero_add case ▸ hcodes⟩
  have hseparate :
      (Signature.ofPatterns plan.root binder (clauses.map Clause.pattern)).Separate strict := by
    refine Signature.ofPatterns_separate hplan.root fun hs p hp => ?_
    obtain ⟨c, hc, rfl⟩ := List.mem_map.mp hp
    exact hclosed hs c hc
  obtain ⟨⟨-, hcodes⟩, hlowered⟩ := Decision.lower_codes (he _) hv hplaced rfl rfl hseparate
    hplan.within .empty placed.2.target rfl
  generalize (plan.decision.lower e placed.1).run .empty placed.2.target = lowered at *
  obtain ⟨hcode, hemitted⟩ := (he _).letIn [(plan.root, subject)] lowered.1.1 lowered.2 hlowered
  refine ⟨_, _, _, rfl, ⟨_, _, hcode, hcodes⟩, ?_⟩
  rw [← hmade, ← hemitted]

variable {options : Options} {session : Session Journal}

/-- A compilation with report bodies gives code that realizes its plan. -/
theorem compile_realizes (frozen : Bool) (strict : Prop)
    (he : ∀ made, e.Writes (fun j => j.invocations = made) vocabulary.operators)
    (hv : vocabulary.Standard) (hreport : ∀ c ∈ clauses, c.body = .report)
    (hwell : ∀ c ∈ clauses, c.pattern.isWellFormed = true)
    (hplan : plan = (Plan.ofPatterns options e.mentions (clauses.map Clause.pattern)
      session.names).1)
    (hformed : plan.Formed binder (clauses.map Clause.pattern))
    (hclosed : strict → ∀ c ∈ clauses, c.pattern.Closed binder) :
    ∃ compiled session',
      compile e options subject (Clause.cases e vocabulary.functions clauses) session =
        (.ok compiled, session') ∧
      compiled.Realizes frozen strict vocabulary binder (clauses.map Clause.pattern) subject plan ∧
      session'.target.invocations.toList.map Invocation.summary =
        session.target.invocations.toList.map Invocation.summary ++
          Site.bodiesMade 0 plan.uses.entries := by
  have hpatterns : (Clause.cases e vocabulary.functions clauses).map Case.pattern =
      clauses.map Clause.pattern := Clause.map_pattern_casesFrom ..
  have hcases : ∀ c ∈ Clause.cases e vocabulary.functions clauses,
      c.pattern.isWellFormed = true := by
    intro c hc
    have hmem : c.pattern ∈ clauses.map Clause.pattern := hpatterns ▸ List.mem_map_of_mem hc
    obtain ⟨clause, hclause, heq⟩ := List.mem_map.mp hmem
    exact heq ▸ hwell clause hclause
  rw [compile_of_wellFormed hcases, compileWellFormed_eq, hpatterns]
  dsimp only
  generalize Plan.ofPatterns options e.mentions (clauses.map Clause.pattern) session.names =
    planned at hplan ⊢
  subst hplan
  obtain ⟨code, lowering, session', hemit, ⟨body, read, hcode, hcodes⟩, hmade⟩ :=
    Plan.emit_codes subject he hv hformed hclosed hreport { session with names := planned.2 }
  rw [hemit]
  exact ⟨_, _, rfl, ⟨hformed, fun hdropped => ⟨body, read, hcode, hcodes hdropped⟩⟩, hmade⟩

/-! ## What the code evaluates to -/

/-- Direct matching finds only cases that the plan reaches. -/
theorem Plan.Implements.reached (h : plan.Implements frozen strict vocabulary binder patterns)
    {v : Value} {s s' : ObjectSupply}
    (hs : Situated frozen vocabulary.functions (.ofPatterns plan.root binder patterns)
      (fun _ => v) s)
    {case : Nat} {env : Bindings}
    (hmatch : Matcher.firstMatch vocabulary patterns v s = .ok (some (case, env), s')) :
    plan.uses.isReached case = true := by
  obtain ⟨chosen, s₁, hrun, hsame⟩ := (h (fun _ => v) s hs).ok hmatch
  cases hsame with
  | @some _ chosen hsame =>
      obtain ⟨case', env'⟩ := chosen
      obtain rfl : case = case' := hsame.1
      exact Decision.run_reached hrun

section

variable {compiled : Compiled Form Form}
  (h : compiled.Realizes frozen strict vocabulary binder patterns subject plan)
  (hdropped : strict → compiled.stats.droppedProjections = 0)
  {scope : Scope} {v : Value} {s t t' : ObjectSupply}
  (hsubject : subject.eval vocabulary.functions scope t = .ok (v, t'))
  (hclear : strict → ∀ x, binder x → scope.lookup x = none)
  (hleft : Situated frozen vocabulary.functions (.ofPatterns plan.root binder patterns)
    (fun _ => v) s)
  (hsuits : (Pairing.same frozen s t').Suits vocabulary.functions
    (.ofPatterns plan.root binder patterns) (fun _ => v) fun _ => v)

include h hdropped hsubject hclear hleft hsuits

/-- Evaluating the code tells what the plan gives, if both can start. -/
theorem Compiled.Realizes.runs :
    Agrees strict (Reports plan.handed) (plan.decision.run vocabulary plan.uses (fun _ => v) s)
      (compiled.code.eval vocabulary.functions scope t) := by
  obtain ⟨body, read, hcode, hcodes⟩ := h.code hdropped
  have heval : compiled.code.eval vocabulary.functions scope t =
      body.eval vocabulary.functions ((plan.root, v) :: scope) t' := by
    rw [hcode]
    simp only [Form.bound, List.isEmpty_cons, Bool.false_eq_true, if_false, Form.eval,
      Form.evalBound, bind_assoc, pure_bind, List.reverse_singleton, List.singleton_append]
    exact EvalM.bind_of_ok hsubject
  have hcovers : Covers strict vocabulary (.ofPatterns plan.root binder patterns)
      (Pairing.same frozen s t') (fun _ => v) read ((plan.root, v) :: scope) := {
    situated := hleft
    subjects := by
      rintro x - rfl
      exact ⟨v, List.lookup_cons_self, hsuits.subjects _ rfl⟩
    functions := hsuits.functions
    guards := hsuits.guards
    clear := by
      intro hs x hx
      have hne : x ≠ plan.root := by
        rintro rfl
        exact h.formed.root hx
      rw [List.lookup_cons, beq_false_of_ne hne]
      exact hclear hs x hx }
  rw [heval]
  exact (hcodes _ _ _ hcovers).agrees fun hreports => hreports

/-- Evaluating the code tells what direct matching finds. -/
theorem Compiled.Realizes.agrees
    (himplements : plan.Implements frozen strict vocabulary binder patterns) :
    Agrees strict (fun found result => Reports plan.handed found result ∧
        ∀ case env, found = some (case, env) → plan.uses.isReached case = true)
      (Matcher.firstMatch vocabulary patterns v s)
      (compiled.code.eval vocabulary.functions scope t) := by
  have hruns := h.runs hdropped hsubject hclear hleft hsuits
  have hfound := himplements (fun _ => v) s hleft
  constructor
  · intro found s₁ hmatch
    obtain ⟨chosen, s₂, hrun, hsame⟩ := hfound.ok hmatch
    obtain ⟨result, t'', hresult, hreports⟩ := hruns.ok hrun
    refine ⟨result, t'', hresult, hreports.of_sameOutcome hsame, ?_⟩
    rintro case env rfl
    exact himplements.reached hleft hmatch
  · intro hs err herr
    obtain ⟨err₁, herr₁, hsame⟩ := hfound.error hs herr
    obtain ⟨err₂, herr₂, hsame'⟩ := hruns.error hs herr₁
    exact ⟨err₂, herr₂, hsame.trans hsame'⟩

end

end

/-! ## What a journal tells about the code -/

/-- The body of the case was generated, and only for variables of these names. -/
def Journal.Handed (journal : Journal) (case : Nat) (names : List Name) : Prop :=
  (∃ invocation ∈ journal.invocations.toList, invocation.path = [case]) ∧
    ∀ invocation ∈ journal.invocations.toList, invocation.path = [case] →
      invocation.handed.map Variable.name = names

/-- The code of a compilation with this journal has given `result`, which is `nil` if no case was
found; else it is the report of the case on all variables that its body was handed, those found among
them. -/
def Journal.Tells (journal : Journal) : Outcome → Value → Prop
  | none, result => result = .nil
  | some (case, env), result => ∃ names, journal.Handed case names ∧
      (∀ x ∈ env.map Prod.fst, x ∈ names) ∧ result.isEqual (reportValue case names env) = true

theorem Plan.handed_of_reached {plan : Plan Form} {journal : Journal}
    (h : journal.invocations.toList.map Invocation.summary =
      Site.bodiesMade 0 plan.uses.entries)
    {case : Nat} (hreached : plan.uses.isReached case = true) :
    journal.Handed case (plan.handed case) := by
  constructor
  · have hentry : ([case], plan.handed case) ∈ Site.bodiesMade 0 plan.uses.entries := by
      rw [Site.mem_bodiesMade]
      cases huses : plan.uses.entries[case]? with
      | none => simp [UseTable.isReached, UseTable.uses, huses] at hreached
      | some uses =>
          have hcase := UseTable.uses_of_getElem? huses
          refine ⟨case, uses, huses, ?_, by rw [Nat.zero_add], by rw [Plan.handed, hcase]⟩
          rintro rfl
          simp [UseTable.isReached, hcase] at hreached
    rw [← h] at hentry
    obtain ⟨invocation, hmem, hsummary⟩ := List.mem_map.mp hentry
    exact ⟨invocation, hmem, congrArg Prod.fst hsummary⟩
  · intro invocation hmem hpath
    have hentry : (invocation.path, invocation.handed.map Variable.name) ∈
        Site.bodiesMade 0 plan.uses.entries := h ▸ List.mem_map_of_mem hmem
    obtain ⟨i, uses, hi, -, hi', hnames⟩ := Site.mem_bodiesMade.mp hentry
    rw [hpath, Nat.zero_add] at hi'
    obtain rfl : case = i := List.head_eq_of_cons_eq hi'
    rw [hnames, Plan.handed, UseTable.uses_of_getElem? hi]

theorem Journal.tells_of_reports {plan : Plan Form} {journal : Journal}
    (h : journal.invocations.toList.map Invocation.summary =
      Site.bodiesMade 0 plan.uses.entries)
    {found : Outcome} {result : Value} (hreports : Reports plan.handed found result)
    (hreached : ∀ case env, found = some (case, env) → plan.uses.isReached case = true) :
    journal.Tells found result := by
  match found with
  | none => exact hreports
  | some (case, env) =>
      exact ⟨plan.handed case, Plan.handed_of_reached h (hreached case env rfl), hreports.1,
        hreports.2.isEqual⟩

/-! ## Patterns that may be compiled -/

/-- Functions are called by their names and quote nothing but symbols and integers, and no expression
makes objects. -/
structure Pattern.Still (table : FunctionTable) (p : Pattern Form) : Prop where
  isDirect : ∀ f ∈ p.functions, f.isDirect = true
  plain : ∀ f ∈ p.functions, f.QuotesPlainly
  functions : ∀ f ∈ p.functions, f.allocates table = false
  guards : ∀ f ∈ p.guards, f.allocates table = false

/-- Every object in a constant was made before. -/
structure Pattern.MadeBefore (supply : ObjectSupply) (p : Pattern Form) : Prop where
  functions : ∀ f ∈ p.functions, ∀ c ∈ f.constants, c.MadeBefore supply
  guards : ∀ f ∈ p.guards, ∀ c ∈ f.constants, c.MadeBefore supply

section

variable {functions : FunctionTable} {patterns : List (Pattern Form)} {root : Name}
  {binder : Name → Prop} {v : Value} {s t : ObjectSupply}

/-- Runs that make no objects can start at any time. -/
theorem Signature.ofPatterns_suits_of_still (h : ∀ p ∈ patterns, p.Still functions) :
    (Pairing.same true s t).Suits functions (.ofPatterns root binder patterns) (fun _ => v)
      fun _ => v where
  subjects _ _ := Pairing.same_relates fun hf => by cases hf
  functions := by
    rintro f ⟨p, hp, hf⟩
    exact ⟨⟨fun c _ => Pairing.same_relates fun hf => (by cases hf),
      fun _ => (h p hp).functions f hf⟩, fun _ => (h p hp).isDirect f hf⟩
  guards := by
    rintro f ⟨p, hp, hf⟩
    exact ⟨fun c _ => Pairing.same_relates fun hf => (by cases hf),
      fun _ => (h p hp).guards f hf⟩

theorem Signature.ofPatterns_suits_of_madeBefore (hv : v.MadeBefore s ∧ v.MadeBefore t)
    (h : ∀ p ∈ patterns, p.MadeBefore s ∧ p.MadeBefore t) :
    (Pairing.same false s t).Suits functions (.ofPatterns root binder patterns) (fun _ => v)
      fun _ => v where
  subjects _ _ := Pairing.same_relates fun _ => hv
  functions := by
    rintro f ⟨p, hp, hf⟩
    refine ⟨⟨fun c hc => Pairing.same_relates fun _ => ?_, fun hfrozen => by cases hfrozen⟩,
      fun hfrozen => by cases hfrozen⟩
    exact ⟨(h p hp).1.functions f hf c hc, (h p hp).2.functions f hf c hc⟩
  guards := by
    rintro f ⟨p, hp, hf⟩
    refine ⟨fun c hc => Pairing.same_relates fun _ => ?_, fun hfrozen => by cases hfrozen⟩
    exact ⟨(h p hp).1.guards f hf c hc, (h p hp).2.guards f hf c hc⟩

theorem splittable_of_still (h : ∀ p ∈ patterns, p.Still functions) :
    Splittable False functions patterns where
  lax := id
  plain p hp := (h p hp).plain
  isDirect p hp := (h p hp).isDirect
  once p hp := Pattern.appliesOnce_of_still (h p hp).functions

end

/-! ## Compilations with a journal -/

/-- The emitter of forms with a journal, which may take an expression to mention more names than it
does. -/
def reportEmitter (vocabulary : Vocabulary) (mentions : Form → Name → Bool) :
    Emitter Journal Form Form :=
  Journal.emitter { formEmitter vocabulary.operators with mentions := mentions }

/-- Compile clauses whose bodies are described. -/
def compileReports (vocabulary : Vocabulary) (mentions : Form → Name → Bool) (options : Options)
    (subject : Form) (clauses : List (Clause Body)) :
    StateM (Session Journal) (Except (CompileError Form) (Compiled Form Form)) :=
  compile (reportEmitter vocabulary mentions) options subject
    (Clause.cases (reportEmitter vocabulary mentions) vocabulary.functions clauses)

section

variable (frozen : Bool) (strict : Prop) {vocabulary : Vocabulary} {mentions : Form → Name → Bool}
  {binder : Name → Prop} {clauses : List (Clause Body)} {options : Options}
  {session : Session Journal} (hv : vocabulary.Standard)
  (hreport : ∀ c ∈ clauses, c.body = .report)
  (hwell : ∀ c ∈ clauses, c.pattern.isWellFormed = true)
  (hnames : session.names.symbols.Coherent) (hjournal : session.target.invocations = #[])
  (hordinary : ∀ x, binder x → session.names.symbols.isGenerated? x = some false)
  (hbinder : ∀ c ∈ clauses, ∀ x ∈ c.pattern.binders, binder x)
  (hclosed : strict → ∀ c ∈ clauses, c.pattern.Closed binder)

include hv hreport hwell hnames hjournal hordinary hbinder hclosed

theorem compileReports_realizes (options : Options) (mentions : Form → Name → Bool)
    (subject : Form) :
    ∃ compiled session',
      compileReports vocabulary mentions options subject clauses session =
        (.ok compiled, session') ∧
      compiled.Realizes frozen strict vocabulary binder (clauses.map Clause.pattern) subject
        (Plan.ofPatterns options mentions (clauses.map Clause.pattern) session.names).1 ∧
      session'.target.invocations.toList.map Invocation.summary =
        Site.bodiesMade 0 (Plan.ofPatterns options mentions (clauses.map Clause.pattern)
          session.names).1.uses.entries := by
  obtain ⟨compiled, session', hcompile, hrealizes, hmade⟩ :=
    compile_realizes frozen strict
      (fun made => Journal.emitter_writes (formEmitter_writes _ mentions) made) hv hreport hwell rfl
      (Plan.ofPatterns_formed hnames hordinary (List.forall_mem_map.mpr hbinder) options mentions)
      hclosed
  rw [hjournal] at hmade
  exact ⟨compiled, session', hcompile, hrealizes, hmade⟩

/-- The code of report bodies tells what direct matching finds. -/
theorem compileReports_agrees
    (hmentions : ∀ f x, f.mentions x = true → mentions f x = true)
    (hsplit : options.splitBranches = true →
      Splittable strict vocabulary.functions (clauses.map Clause.pattern)) (subject : Form) :
    ∃ compiled session',
      compileReports vocabulary mentions options subject clauses session =
        (.ok compiled, session') ∧
      ((strict → compiled.stats.droppedProjections = 0) → ∀ scope v s t t',
        subject.eval vocabulary.functions scope t = .ok (v, t') →
        (strict → ∀ x, binder x → scope.lookup x = none) →
        (∀ root, Situated frozen vocabulary.functions
          (.ofPatterns root binder (clauses.map Clause.pattern)) (fun _ => v) s) →
        (∀ root, (Pairing.same frozen s t').Suits vocabulary.functions
          (.ofPatterns root binder (clauses.map Clause.pattern)) (fun _ => v) fun _ => v) →
        Agrees strict session'.target.Tells
          (Matcher.firstMatch vocabulary (clauses.map Clause.pattern) v s)
          (compiled.code.eval vocabulary.functions scope t)) := by
  obtain ⟨compiled, session', hcompile, hrealizes, hmade⟩ :=
    compileReports_realizes frozen strict hv hreport hwell hnames hjournal hordinary hbinder hclosed
      options mentions subject
  refine ⟨compiled, session', hcompile, fun hdropped scope v s t t' hsubject hclear hs hst => ?_⟩
  have hagrees := hrealizes.agrees hdropped hsubject hclear (hs _) (hst _)
    (Plan.ofPatterns_implements hnames hordinary (List.forall_mem_map.mpr hbinder) frozen hmentions
      hsplit)
  refine ⟨fun hmatch => ?_, hagrees.error⟩
  obtain ⟨result, t'', hresult, hreports, hreached⟩ := hagrees.ok hmatch
  exact ⟨result, t'', hresult, Journal.tells_of_reports hmade hreports hreached⟩

end

end PatternCompiler
