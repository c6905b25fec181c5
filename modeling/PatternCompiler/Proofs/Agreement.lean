import PatternCompiler.Proofs.Compilation

/-!
# Compiled code and direct matching

What compiled code is promised to do, in terms of direct matching: to find the same case and the same
bindings, to fail where matching fails if branches are not split, and to report as unreachable only
cases that are never found.
-/

namespace PatternCompiler

set_option autoImplicit false

section

variable {symbols : SymbolTable} {clauses : List (Clause Body)} {session : Session Journal}

/-- Where no expression makes objects, compiled code tells what direct matching finds: `nil` if no
case matches, and else the report of the first case that matches. -/
theorem compiled_tells_first_match (hsymbols : symbols.Coherent)
    {mentions : Form → Name → Bool}
    (hmentions : ∀ f x, f.mentions x = true → mentions f x = true)
    (hreport : ∀ c ∈ clauses, c.body = .report)
    (hwell : ∀ c ∈ clauses, c.pattern.isWellFormed = true)
    (hstill : ∀ c ∈ clauses, c.pattern.Still (Vocabulary.intern symbols).1.functions)
    (hnames : session.names.symbols.Coherent) (hjournal : session.target.invocations = #[])
    (hordinary : ∀ c ∈ clauses, ∀ x ∈ c.pattern.binders,
      session.names.symbols.isGenerated? x = some false)
    (options : Options) {subject : Form} {scope : Scope} {v : Value} {t t' : ObjectSupply}
    (hsubject : subject.eval (Vocabulary.intern symbols).1.functions scope t = .ok (v, t')) :
    ∃ compiled session',
      compileReports (Vocabulary.intern symbols).1 mentions options subject clauses session =
        (.ok compiled, session') ∧
      ∀ s found s', Matcher.firstMatch (Vocabulary.intern symbols).1
          (clauses.map Clause.pattern) v s = .ok (found, s') →
        ∃ result t'', compiled.code.eval (Vocabulary.intern symbols).1.functions scope t =
            .ok (result, t'') ∧
          session'.target.Tells found result := by
  have hstill' : ∀ p ∈ clauses.map Clause.pattern,
      p.Still (Vocabulary.intern symbols).1.functions := List.forall_mem_map.mpr hstill
  obtain ⟨compiled, session', hcompile, hagrees⟩ :=
    compileReports_agrees true False (Vocabulary.intern_standard hsymbols) hreport hwell hnames
      hjournal (fun _ hx => hx) hordinary (fun hs => hs.elim) hmentions
      (fun _ => splittable_of_still hstill') subject
  refine ⟨compiled, session', hcompile, fun s found s' hmatch => ?_⟩
  exact (hagrees (fun hs => hs.elim) scope v s t t' hsubject (fun hs => hs.elim)
    (fun _ => Signature.ofPatterns_suits_of_still hstill')
    (fun _ => Signature.ofPatterns_suits_of_still hstill')).ok hmatch

/-- All cases look at the head of the list: one value stands for the three applications, and when it
is not 5, the second case is left out with the first. -/
def headClauses (car x : Name) : List (Clause Body) :=
  [⟨.app (.function car) (.literal (.int 5)), .report, false⟩,
    ⟨.and [.bind x, .app (.function car) (.literal (.int 5))], .report, false⟩,
    ⟨.app (.function car) (.bind x), .report, false⟩]

theorem compiled_tells_first_match_of_heads :
    let car := (Vocabulary.intern .initial).1.functions.nameOf .car
    let (x, table) := SymbolTable.initial.intern "x"
    ∃ compiled session' result t,
      compileReports (Vocabulary.intern .initial).1 (fun f x => f.mentions x) {}
        (.quote (.cons 0 (.int 7) .nil)) (headClauses car x) ⟨⟨table, 0⟩, .start ⟨1⟩⟩ =
          (.ok compiled, session') ∧
      compiled.code.eval (Vocabulary.intern .initial).1.functions [] ⟨1⟩ = .ok (result, t) ∧
      session'.target.Tells (some (2, [(x, .int 7)])) result := by
  intro car
  have hx := SymbolTable.initial_coherent.lookup?_intern "x"
  have hc := SymbolTable.initial_coherent.intern "x"
  have hcar : (Vocabulary.intern .initial).1.functions.lookup car = some .car :=
    (Vocabulary.intern_standard SymbolTable.initial_coherent).named .car
  generalize SymbolTable.initial.intern "x" = interned at hx hc ⊢
  obtain ⟨x, table⟩ := interned
  have hordinary : table.isGenerated? x = some false := by
    rw [SymbolTable.isGenerated?, hx]
    rfl
  have hstill (p : Pattern Form) (hfunctions : ∀ f ∈ p.functions, f = .function car)
      (hguards : p.guards = []) : p.Still (Vocabulary.intern .initial).1.functions := {
    isDirect := fun f hf => by rw [hfunctions f hf]; rfl
    plain := fun f hf => by rw [hfunctions f hf]; exact fun c hc => by cases hc
    functions := fun f hf => by
      rw [hfunctions f hf]
      simp [Form.allocates, FunctionTable.allocates, hcar, Builtin.allocates]
    guards := fun f hf => by rw [hguards] at hf; cases hf }
  obtain ⟨compiled, session', hcompile, htells⟩ :=
    @compiled_tells_first_match .initial (headClauses car x) ⟨⟨table, 0⟩, .start ⟨1⟩⟩
      SymbolTable.initial_coherent (fun f x => f.mentions x) (fun _ _ h => h)
      (by simp [headClauses])
      (by simp [headClauses, Pattern.isWellFormed, Pattern.allWellFormed])
      (by
        simp only [headClauses, List.forall_mem_cons]
        exact ⟨hstill _ (by simp [Pattern.functions]) rfl,
          hstill _ (by simp [Pattern.functions, Pattern.listFunctions]) rfl,
          hstill _ (by simp [Pattern.functions]) rfl, List.forall_mem_nil _⟩)
      hc rfl (by simp [headClauses, Pattern.binders, Pattern.bindersOfList, hordinary])
      {} (.quote (.cons 0 (.int 7) .nil)) [] (.cons 0 (.int 7) .nil) ⟨1⟩ ⟨1⟩ rfl
  obtain ⟨result, t, hresult, htell⟩ := htells ⟨1⟩ (some (2, [(x, .int 7)])) ⟨1⟩ (by
    generalize (Vocabulary.intern .initial).1 = vocabulary at hcar
    simp only [headClauses, List.map_cons, List.map_nil, Matcher.firstMatch,
      Matcher.firstMatchFrom, Matcher.attempt, Matcher.attemptAll, Matcher.applyFunction,
      Form.application, Form.evalWith, Form.eval, Form.evalList, FunctionTable.resolve, hcar]
    rfl)
  exact ⟨compiled, session', result, t, hcompile, hresult, htell⟩

/-! ## Errors -/

/-- Either both runs fail with the same error, or the second one tells what the first one found. -/
def Journal.Mirrors (journal : Journal) :
    Except EvalError (Outcome × ObjectSupply) → Except EvalError (Value × ObjectSupply) → Prop
  | .ok (found, _), .ok (result, _) => journal.Tells found result
  | .error e, .error e' => e.SameContent e'
  | .ok _, .error _ | .error _, .ok _ => False

theorem Journal.mirrors_of_agrees {journal : Journal}
    {r : Except EvalError (Outcome × ObjectSupply)} {r' : Except EvalError (Value × ObjectSupply)}
    (h : Agrees True journal.Tells r r') : journal.Mirrors r r' := by
  match r with
  | .ok (found, s) =>
      obtain ⟨result, t, rfl, htells⟩ := h.ok rfl
      exact htells
  | .error e =>
      obtain ⟨e', rfl, hsame⟩ := h.error trivial rfl
      exact hsame

/-- Without splitting, compiled code that leaves no projection out fails exactly where direct matching
fails, and tells what it finds otherwise. -/
theorem unsplit_compiled_mirrors_first_match (hsymbols : symbols.Coherent)
    (hreport : ∀ c ∈ clauses, c.body = .report)
    (hwell : ∀ c ∈ clauses, c.pattern.isWellFormed = true)
    (hnames : session.names.symbols.Coherent) (hjournal : session.target.invocations = #[])
    {subject : Name}
    (hbinders : ∀ c ∈ clauses, ∀ x ∈ c.pattern.binders,
      x ≠ subject ∧ session.names.symbols.isGenerated? x = some false)
    (hclosed : ∀ c ∈ clauses, c.pattern.Closed fun x =>
      x ≠ subject ∧ session.names.symbols.isGenerated? x = some false)
    {options : Options} (hoptions : options.splitBranches = false) :
    ∃ compiled session',
      compileReports (Vocabulary.intern symbols).1 (fun f x => f.mentions x) options (.var subject)
        clauses session = (.ok compiled, session') ∧
      (compiled.stats.droppedProjections = 0 → ∀ v s t, v.MadeBefore s → v.MadeBefore t →
        (∀ c ∈ clauses, c.pattern.MadeBefore s ∧ c.pattern.MadeBefore t) →
        session'.target.Mirrors
          (Matcher.firstMatch (Vocabulary.intern symbols).1 (clauses.map Clause.pattern) v s)
          (compiled.code.eval (Vocabulary.intern symbols).1.functions [(subject, v)] t)) := by
  obtain ⟨compiled, session', hcompile, hagrees⟩ :=
    compileReports_agrees false True (Vocabulary.intern_standard hsymbols) hreport hwell hnames
      hjournal (fun _ hx => hx.2) hbinders (fun _ => hclosed) (fun _ _ h => h)
      (fun hsplit => by rw [hoptions] at hsplit; cases hsplit) (.var subject)
  refine ⟨compiled, session', hcompile, fun hdropped v s t hs ht hmade => ?_⟩
  have hmade' : ∀ p ∈ clauses.map Clause.pattern, p.MadeBefore s ∧ p.MadeBefore t :=
    List.forall_mem_map.mpr hmade
  refine Journal.mirrors_of_agrees (hagrees (fun _ => hdropped) [(subject, v)] v s t t
    (by rw [Form.eval_var List.lookup_cons_self]; rfl) (fun _ x hx => ?_)
    (fun _ => ?_) fun _ => Signature.ofPatterns_suits_of_madeBefore ⟨hs, ht⟩ hmade')
  · rw [List.lookup_cons, beq_false_of_ne hx.1]
    rfl
  · exact Signature.ofPatterns_suits_of_madeBefore ⟨hs, hs⟩
      fun p hp => ⟨(hmade' p hp).1, (hmade' p hp).1⟩

theorem build_guard (mentions : Form → Name → Bool) (root : Name) (expr : Form) :
    Queue.build .unoptimized mentions (Queue.ofPatterns root [.guard expr]) = (do
      let use ← Builder.reach 0 .empty
      return .test (.guard expr []) (.leaf 0 use) .fail) := by
  have hyes : Queue.build .unoptimized mentions [⟨[], .empty, .select 0⟩] =
      (do return .leaf 0 (← Builder.reach 0 .empty)) := Queue.build_eq ..
  have hno : Queue.build .unoptimized mentions [] = (do return .fail) := Queue.build_eq ..
  calc Queue.build .unoptimized mentions (Queue.ofPatterns root [.guard expr])
    _ = (do
          let yes ← Queue.build .unoptimized mentions [⟨[], .empty, .select 0⟩]
          let no ← Queue.build .unoptimized mentions []
          return .test (.guard expr []) yes no) := Queue.build_eq ..
    _ = _ := by rw [hyes, hno]; rfl

theorem unsplit_compiled_mirrors_unbound_variable :
    ∃ compiled session',
      compileReports (Vocabulary.intern .initial).1 (fun f x => f.mentions x) .unoptimized
        (.var ((SymbolTable.initial.intern "x").2.intern "subject").1)
        [⟨.guard (.var (SymbolTable.initial.intern "x").1), .report, false⟩]
        ⟨⟨((SymbolTable.initial.intern "x").2.intern "subject").2, 0⟩, .start ⟨0⟩⟩ =
          (.ok compiled, session') ∧
      compiled.stats.droppedProjections = 0 ∧
      session'.target.Mirrors (.error (.unboundVariable (SymbolTable.initial.intern "x").1))
        (compiled.code.eval (Vocabulary.intern .initial).1.functions
          [(((SymbolTable.initial.intern "x").2.intern "subject").1, .int 3)] ⟨0⟩) := by
  have hc := SymbolTable.initial_coherent.intern "x"
  have hx := SymbolTable.initial_coherent.lookup?_intern "x"
  generalize SymbolTable.initial.intern "x" = interned at hc hx ⊢
  obtain ⟨x, table⟩ := interned
  have hc' := hc.intern "subject"
  have hy := hc.lookup?_intern "subject"
  have hx' := SymbolTable.extends_intern table "subject" x "x" hx
  generalize table.intern "subject" = interned at hc' hx' hy ⊢
  obtain ⟨y, table'⟩ := interned
  have hne : x ≠ y := by
    rintro rfl
    rw [hx'] at hy
    simp at hy
  have hordinary : table'.isGenerated? x = some false := by
    rw [SymbolTable.isGenerated?, hx']
    rfl
  obtain ⟨compiled, session', hcompile, hmirrors⟩ :=
    @unsplit_compiled_mirrors_first_match .initial [⟨.guard (.var x), .report, false⟩]
      ⟨⟨table', 0⟩, .start ⟨0⟩⟩ SymbolTable.initial_coherent (by simp)
      (by simp [Pattern.isWellFormed]) hc' rfl y (by simp [Pattern.binders])
      (List.forall_mem_singleton.mpr ⟨by simp [Pattern.functions],
        by simp [Pattern.guards, Form.mentions, hne, hordinary]⟩) .unoptimized rfl
  have hdropped : compiled.stats.droppedProjections = 0 := by
    rw [compileReports, compile_of_wellFormed (by
      simp [Clause.cases, Clause.casesFrom, Pattern.isWellFormed])] at hcompile
    cases hcompile
    rw [compileWellFormed_eq, Clause.cases, Clause.map_pattern_casesFrom, Plan.ofPatterns]
    simp only [List.map_cons, List.map_nil, build_guard]
    rfl
  refine ⟨compiled, session', hcompile, hdropped, ?_⟩
  exact hmirrors hdropped (.int 3) ⟨0⟩ ⟨0⟩ trivial trivial (List.forall_mem_singleton.mpr
    ⟨⟨by simp [Pattern.functions], by simp [Pattern.guards, Form.constants]⟩,
      ⟨by simp [Pattern.functions], by simp [Pattern.guards, Form.constants]⟩⟩)

/-! ## Options -/

/-- The case that a report is of. -/
def Value.reportedCase? : Value → Option Int64
  | .cons _ (.int case) _ => some case
  | _ => none

theorem Value.reportedCase?_of_isEqual {result : Value} {case : Nat} {names : List Name}
    {env : Bindings} (h : result.isEqual (reportValue case names env) = true) :
    result.reportedCase? = some (Int64.ofNat case) := by
  match result with
  | .cons i (.int n) rest =>
      simp only [reportValue, Value.listOf, Value.isEqual, Value.isEql, Value.isEq,
        Bool.and_eq_true, decide_eq_true_eq] at h
      rw [Value.reportedCase?, h.1]
  | .cons i (.symbol _) _ | .cons i (.float _) _ | .cons i (.str ..) _ | .cons i (.cons ..) _
  | .symbol _ | .int _ | .float _ | .str .. =>
      simp [reportValue, Value.listOf, Value.isEqual, Value.isEql, Value.isEq] at h

theorem Journal.Tells.reportedCase?_eq {journal : Journal} {found : Outcome} {result : Value}
    (h : journal.Tells found result) :
    result.reportedCase? = found.map fun m => Int64.ofNat m.1 := by
  match found with
  | none =>
      obtain rfl : result = .nil := h
      rfl
  | some (case, env) =>
      obtain ⟨names, -, -, hequal⟩ := h
      exact Value.reportedCase?_of_isEqual hequal

/-- Compiled code reports the case that direct matching finds, also where functions make objects, if
splitting never has one application stand for two of them. -/
theorem compileReports_selects (hsymbols : symbols.Coherent)
    (hreport : ∀ c ∈ clauses, c.body = .report)
    (hwell : ∀ c ∈ clauses, c.pattern.isWellFormed = true)
    (hdirect : ∀ c ∈ clauses, ∀ f ∈ c.pattern.functions, f.isDirect = true)
    (hplain : ∀ c ∈ clauses, ∀ f ∈ c.pattern.functions, f.QuotesPlainly)
    (hnames : session.names.symbols.Coherent) (hjournal : session.target.invocations = #[])
    (hordinary : ∀ c ∈ clauses, ∀ x ∈ c.pattern.binders,
      session.names.symbols.isGenerated? x = some false)
    {options : Options}
    (honce : options.splitBranches = true →
      ∀ c ∈ clauses, c.pattern.AppliesOnce (Vocabulary.intern symbols).1.functions)
    {subject : Form} {scope : Scope} {v : Value} {s s' t t' : ObjectSupply}
    (hsubject : subject.eval (Vocabulary.intern symbols).1.functions scope t = .ok (v, t'))
    (hv : v.MadeBefore s ∧ v.MadeBefore t')
    (hmade : ∀ c ∈ clauses, c.pattern.MadeBefore s ∧ c.pattern.MadeBefore t') {found : Outcome}
    (hmatch : Matcher.firstMatch (Vocabulary.intern symbols).1 (clauses.map Clause.pattern) v s =
      .ok (found, s')) :
    ∃ compiled session' result t'',
      compileReports (Vocabulary.intern symbols).1 (fun f x => f.mentions x) options subject clauses
        session = (.ok compiled, session') ∧
      compiled.code.eval (Vocabulary.intern symbols).1.functions scope t = .ok (result, t'') ∧
      result.reportedCase? = found.map fun m => Int64.ofNat m.1 := by
  have hmade' : ∀ p ∈ clauses.map Clause.pattern, p.MadeBefore s ∧ p.MadeBefore t' :=
    List.forall_mem_map.mpr hmade
  obtain ⟨compiled, session', hcompile, hagrees⟩ :=
    compileReports_agrees false False (Vocabulary.intern_standard hsymbols) hreport hwell hnames
      hjournal (fun _ hx => hx) hordinary (fun hs => hs.elim) (fun _ _ h => h)
      (fun hsplit => {
        lax := id
        plain := List.forall_mem_map.mpr hplain
        isDirect := List.forall_mem_map.mpr hdirect
        once := List.forall_mem_map.mpr (honce hsplit) }) subject
  obtain ⟨result, t'', hresult, htells⟩ :=
    (hagrees (fun hs => hs.elim) scope v s t t' hsubject (fun hs => hs.elim)
      (fun _ => Signature.ofPatterns_suits_of_madeBefore ⟨hv.1, hv.1⟩
        fun p hp => ⟨(hmade' p hp).1, (hmade' p hp).1⟩)
      (fun _ => Signature.ofPatterns_suits_of_madeBefore hv hmade')).ok hmatch
  exact ⟨compiled, session', result, t'', hcompile, hresult, htells.reportedCase?_eq⟩

/-- No two options select different cases, if one application never has to stand for two that make
objects. -/
theorem options_select_same_case (hsymbols : symbols.Coherent)
    (hreport : ∀ c ∈ clauses, c.body = .report)
    (hwell : ∀ c ∈ clauses, c.pattern.isWellFormed = true)
    (hdirect : ∀ c ∈ clauses, ∀ f ∈ c.pattern.functions, f.isDirect = true)
    (hplain : ∀ c ∈ clauses, ∀ f ∈ c.pattern.functions, f.QuotesPlainly)
    (hnames : session.names.symbols.Coherent) (hjournal : session.target.invocations = #[])
    (hordinary : ∀ c ∈ clauses, ∀ x ∈ c.pattern.binders,
      session.names.symbols.isGenerated? x = some false)
    {options options' : Options}
    (honce : options.splitBranches = true ∨ options'.splitBranches = true →
      ∀ c ∈ clauses, c.pattern.AppliesOnce (Vocabulary.intern symbols).1.functions)
    {subject : Form} {scope : Scope} {v : Value} {s s' t t' : ObjectSupply}
    (hsubject : subject.eval (Vocabulary.intern symbols).1.functions scope t = .ok (v, t'))
    (hv : v.MadeBefore s ∧ v.MadeBefore t')
    (hmade : ∀ c ∈ clauses, c.pattern.MadeBefore s ∧ c.pattern.MadeBefore t') {found : Outcome}
    (hmatch : Matcher.firstMatch (Vocabulary.intern symbols).1 (clauses.map Clause.pattern) v s =
      .ok (found, s')) :
    ∃ compiled session₁ compiled' session₂ result t₁ result' t₂,
      compileReports (Vocabulary.intern symbols).1 (fun f x => f.mentions x) options subject clauses
        session = (.ok compiled, session₁) ∧
      compileReports (Vocabulary.intern symbols).1 (fun f x => f.mentions x) options' subject
        clauses session = (.ok compiled', session₂) ∧
      compiled.code.eval (Vocabulary.intern symbols).1.functions scope t = .ok (result, t₁) ∧
      compiled'.code.eval (Vocabulary.intern symbols).1.functions scope t = .ok (result', t₂) ∧
      result.reportedCase? = result'.reportedCase? := by
  obtain ⟨compiled, session₁, result, t₁, hcompile, hresult, hcase⟩ :=
    compileReports_selects hsymbols hreport hwell hdirect hplain hnames hjournal hordinary
      (fun hsplit => honce (.inl hsplit)) hsubject hv hmade hmatch
  obtain ⟨compiled', session₂, result', t₂, hcompile', hresult', hcase'⟩ :=
    compileReports_selects hsymbols hreport hwell hdirect hplain hnames hjournal hordinary
      (fun hsplit => honce (.inr hsplit)) hsubject hv hmade hmatch
  exact ⟨compiled, session₁, compiled', session₂, result, t₁, result', t₂, hcompile, hcompile',
    hresult, hresult', hcase.trans hcase'.symm⟩

/-- With splitting both cases look at one new list, without it each looks at its own. -/
def listClauses (list x : Name) : List (Clause Body) :=
  [⟨.app (.function list) (.literal (.int 5)), .report, false⟩,
    ⟨.app (.function list) (.bind x), .report, false⟩,
    ⟨.wildcard, .report, false⟩]

theorem options_select_same_case_of_lists :
    let list := (Vocabulary.intern .initial).1.functions.nameOf .list
    let (x, table) := SymbolTable.initial.intern "x"
    ∃ compiled session₁ compiled' session₂ result t₁ result' t₂,
      compileReports (Vocabulary.intern .initial).1 (fun f x => f.mentions x) {} (.int 3)
        (listClauses list x) ⟨⟨table, 0⟩, .start ⟨0⟩⟩ = (.ok compiled, session₁) ∧
      compileReports (Vocabulary.intern .initial).1 (fun f x => f.mentions x) .unoptimized (.int 3)
        (listClauses list x) ⟨⟨table, 0⟩, .start ⟨0⟩⟩ = (.ok compiled', session₂) ∧
      compiled.code.eval (Vocabulary.intern .initial).1.functions [] ⟨0⟩ = .ok (result, t₁) ∧
      compiled'.code.eval (Vocabulary.intern .initial).1.functions [] ⟨0⟩ = .ok (result', t₂) ∧
      result.reportedCase? = result'.reportedCase? := by
  intro list
  have hc := SymbolTable.initial_coherent.intern "x"
  have hx := SymbolTable.initial_coherent.lookup?_intern "x"
  have hlist : (Vocabulary.intern .initial).1.functions.lookup list = some .list :=
    (Vocabulary.intern_standard SymbolTable.initial_coherent).named .list
  generalize SymbolTable.initial.intern "x" = interned at hx hc ⊢
  obtain ⟨x, table⟩ := interned
  have hordinary : table.isGenerated? x = some false := by
    rw [SymbolTable.isGenerated?, hx]
    rfl
  have hmade : ∀ c ∈ listClauses list x, ∀ s, c.pattern.MadeBefore s := by
    simp only [listClauses, List.forall_mem_cons]
    refine ⟨fun s => ⟨?_, ?_⟩, fun s => ⟨?_, ?_⟩, fun s => ⟨?_, ?_⟩, nofun⟩ <;>
      simp [Pattern.functions, Pattern.guards, Form.constants]
  exact @options_select_same_case .initial (listClauses list x) _ SymbolTable.initial_coherent
    (by simp [listClauses]) (by simp [listClauses, Pattern.isWellFormed])
    (by simp [listClauses, Pattern.functions, Form.isDirect])
    (by simp [listClauses, Pattern.functions, Form.QuotesPlainly, Form.constants]) hc rfl
    (by simp [listClauses, Pattern.binders, hordinary]) _ _
    (fun _ => by simp [listClauses, Pattern.AppliesOnce])
    _ _ (.int 3) ⟨0⟩ ⟨2⟩ ⟨0⟩ ⟨0⟩ rfl ⟨trivial, trivial⟩
    (fun c hc => ⟨hmade c hc ⟨0⟩, hmade c hc ⟨0⟩⟩)
    (some (1, [(x, .cons 1 (.int 3) .nil)])) (by
      generalize (Vocabulary.intern .initial).1 = vocabulary at hlist
      simp only [listClauses, List.map_cons, List.map_nil, Matcher.firstMatch,
        Matcher.firstMatchFrom, Matcher.attempt, Matcher.applyFunction, Form.application,
        Form.evalWith, Form.eval, Form.evalList, FunctionTable.resolve, hlist]
      rfl)

end

/-! ## Lists that splitting shares -/

section

variable (mentions : Form → Name → Bool) (root list a fresh : Name)

/-- The second case compares two lists, unless splitting has the list of the first case stand for
both. -/
def sharedLists (list a : Name) : List (Clause Body) :=
  [⟨.app (.function list) (.literal (.int 5)), .report, false⟩,
    ⟨.and [.app (.function list) (.bind a), .app (.function list) (.bind a)], .report, false⟩,
    ⟨.wildcard, .report, false⟩]

theorem step_sharedLists :
    Queue.step {} (fun f x => f.mentions x)
        (Queue.ofPatterns root ((sharedLists list a).map Clause.pattern)) =
      .project (.function list) root [] fun fresh =>
        [⟨[.pattern fresh (.literal (.int 5))], .empty, .select 0⟩,
          ⟨[.pattern fresh (.bind a), .pattern fresh (.bind a)], .empty, .select 1⟩,
          ⟨[.pattern root .wildcard], .empty, .select 2⟩] := by
  have hsame : (Form.function list == Form.function list) = true := by
    simp [BEq.beq, Form.alike]
  simp [sharedLists, Queue.ofPatterns, Branch.ofCase, Queue.step, Queue.pendingStep,
    Queue.patternStep, Queue.projectStep, Environment.visible, Environment.empty, Queue.share,
    Projection.shareBranch, Projection.isCandidate, Projection.projects, Projection.anyProjects,
    Projection.redirectPending, Projection.redirectPattern, Projection.redirectItems,
    Branch.isIndependentOf, Branch.boundNames, Pending.binders, Pattern.binders,
    Pattern.bindersOfList, Form.mentions, Branch.read, Branch.push, Environment.markAllUsed,
    Environment.names, hsame]

theorem build_select (case : Nat) (env : Environment) (queue : Queue Form) :
    Queue.build {} mentions (⟨[], env, .select case⟩ :: queue) =
      (do return .leaf case (← Builder.reach case env)) :=
  Queue.build_eq ..

theorem build_bind_twice (queue : Queue Form) :
    Queue.build {} mentions
        (⟨[.pattern fresh (.bind a), .pattern fresh (.bind a)], .empty, .select 1⟩ :: queue) =
      (do return .leaf 1 (← Builder.reach 1 ⟨[⟨a, fresh, false⟩]⟩)) := by
  have hbind : (Branch.bind ⟨[], ⟨[⟨a, fresh, false⟩]⟩, .select 1⟩ a fresh : Branch Form) =
      ⟨[], ⟨[⟨a, fresh, false⟩]⟩, .select 1⟩ := by
    simp [Branch.bind, Environment.extend, Environment.lookup?]
  calc Queue.build {} mentions _
    _ = Queue.build {} mentions
          (⟨[.pattern fresh (.bind a)], ⟨[⟨a, fresh, false⟩]⟩, .select 1⟩ :: queue) :=
        Queue.build_eq ..
    _ = Queue.build {} mentions
          (Branch.bind ⟨[], ⟨[⟨a, fresh, false⟩]⟩, .select 1⟩ a fresh :: queue) :=
        Queue.build_eq ..
    _ = _ := by rw [hbind, build_select]

/-- Neither outcome of the first case's test says anything about the others. -/
theorem refine_sharedLists (eqv : Equivalence) (outcome : Bool) :
    Queue.refine mentions (.equal fresh (.int 5) eqv) outcome
        [⟨[.pattern fresh (.bind a), .pattern fresh (.bind a)], .empty, .select 1⟩,
          ⟨[.pattern root .wildcard], .empty, .select 2⟩] =
      [⟨[.pattern fresh (.bind a), .pattern fresh (.bind a)], .empty, .select 1⟩,
        ⟨[.pattern root .wildcard], .empty, .select 2⟩] := by
  have hkept (branch : Branch Form)
      (hbranch : ∀ free, Knowledge.residueAll ⟨.member fresh [.int 5] eqv, outcome⟩ free
        branch.pending = some branch.pending) :
      Knowledge.refineBranch ⟨.member fresh [.int 5] eqv, outcome⟩ mentions branch =
        some branch := by
    obtain ⟨free, -, heq⟩ := Knowledge.exists_refineBranch_eq _ mentions branch
    rw [heq, hbranch]
    cases branch
    rfl
  simp only [Queue.refine, Fact.ofTest?, List.filterMap_cons, List.filterMap_nil]
  rw [hkept, hkept]
  · intro free
    simp [Knowledge.residueAll, Knowledge.residuePending, Knowledge.residue, Knowledge.verdict,
      Knowledge.remainder]
  · intro free
    simp [Knowledge.residueAll, Knowledge.residuePending, Knowledge.residue, Knowledge.verdict,
      Knowledge.remainder]

theorem build_sharedLists :
    Queue.build {} (fun f x => f.mentions x)
        (Queue.ofPatterns root ((sharedLists list a).map Clause.pattern)) = (do
      let fresh ← Builder.projection
      let yes ← Builder.reach 0 .empty
      let no ← Builder.reach 1 ⟨[⟨a, fresh, false⟩]⟩
      return .project fresh (.function list) root []
        (.test (.equal fresh (.int 5) (Literal.int 5).equivalence) (.leaf 0 yes) (.leaf 1 no))) := by
  rw [Queue.build_eq, step_sharedLists]
  refine bind_congr fun fresh => ?_
  rw [Queue.build_eq]
  simp only [Queue.step, Queue.pendingStep, Queue.patternStep, Queue.testStep, if_true,
    refine_sharedLists, build_select]
  simp [build_bind_twice]

theorem plan_sharedLists (names : NameSupply) :
    ∃ root fresh, (Plan.ofPatterns {} (fun f x => f.mentions x)
        ((sharedLists list a).map Clause.pattern) names).1 =
      ⟨root, .project fresh (.function list) root []
        (.test (.equal fresh (.int 5) (Literal.int 5).equivalence) (.leaf 0 0) (.leaf 1 0)),
        ⟨[[.empty], [⟨[⟨a, fresh, false⟩]⟩], []]⟩, 1⟩ := by
  rw [Plan.ofPatterns]
  simp only [build_sharedLists]
  exact ⟨_, _, rfl⟩

theorem run_sharedLists {vocabulary : Vocabulary}
    (hlist : vocabulary.functions.lookup list = some .list) {plan : Plan Form} {names : NameSupply}
    (hplan : plan = (Plan.ofPatterns {} (fun f x => f.mentions x)
      ((sharedLists list a).map Clause.pattern) names).1) :
    plan.decision.run vocabulary plan.uses (fun _ => .int 1) ⟨0⟩ =
      .ok (some (1, [(a, .cons 0 (.int 1) .nil)]), ⟨1⟩) := by
  obtain ⟨root, fresh, hshared⟩ := plan_sharedLists list a names
  rw [hplan, hshared]
  have happly : Matcher.applyFunction vocabulary (.function list) (.int 1) [] ⟨0⟩ =
      .ok (.cons 0 (.int 1) .nil, ⟨1⟩) := by
    simp only [Matcher.applyFunction, Form.application, Form.evalWith, Form.eval, Form.evalList,
      FunctionTable.resolve, hlist]
    rfl
  refine (EvalM.bind_of_ok happly).trans ?_
  have hset := Valuation.set_self (fun _ => .int 1) fresh (.cons 0 (.int 1) .nil)
  generalize Valuation.set _ fresh _ = σ at hset
  simp only [Decision.run, Test.ask, Test.holds, hset]
  refine (EvalM.bind_of_ok rfl).trans ?_
  change Except.ok (some (1, [(a, σ fresh)]), _) = _
  rw [hset]

theorem firstMatch_sharedLists {vocabulary : Vocabulary}
    (hlist : vocabulary.functions.lookup list = some .list) :
    Matcher.firstMatch vocabulary ((sharedLists list a).map Clause.pattern) (.int 1) ⟨0⟩ =
      .ok (some (2, []), ⟨3⟩) := by
  simp only [sharedLists, List.map_cons, List.map_nil, Matcher.firstMatch, Matcher.firstMatchFrom,
    Matcher.attempt, Matcher.attemptAll, Matcher.applyFunction, Form.application, Form.evalWith,
    Form.eval, Form.evalList, FunctionTable.resolve, hlist, Matcher.bindName, List.nil_append,
    List.lookup_nil, List.lookup_cons_self]
  rfl

theorem sharedLists_functions :
    ∀ c ∈ sharedLists list a, ∀ f ∈ c.pattern.functions, f = .function list := by
  simp [sharedLists, Pattern.functions, Pattern.listFunctions]

theorem sharedLists_madeBefore (s : ObjectSupply) :
    ∀ c ∈ sharedLists list a, c.pattern.MadeBefore s := by
  intro c hc
  constructor
  · intro f hf
    rw [sharedLists_functions list a c hc f hf]
    simp [Form.constants]
  · revert c
    simp [sharedLists, Pattern.guards, Pattern.listGuards]

theorem sharedLists_isWellFormed : ∀ c ∈ sharedLists list a, c.pattern.isWellFormed = true := by
  simp [sharedLists, Pattern.isWellFormed, Pattern.allWellFormed]

theorem sharedLists_binders : ∀ c ∈ sharedLists list a, ∀ x ∈ c.pattern.binders, x = a := by
  simp [sharedLists, Pattern.binders, Pattern.bindersOfList]

theorem sharedLists_body : ∀ c ∈ sharedLists list a, c.body = .report := by
  simp [sharedLists]

end

/-- Options may select different cases otherwise: splitting compares one list with itself here. -/
theorem options_select_different_cases :
    ∃ list a table compiled session₁ compiled' session₂ result t₁ result' t₂,
      (∀ c ∈ sharedLists list a, c.pattern.isWellFormed = true ∧
        (∀ f ∈ c.pattern.functions, f.isDirect = true ∧ f.QuotesPlainly) ∧
        ∀ x ∈ c.pattern.binders, table.isGenerated? x = some false) ∧
      Matcher.firstMatch (Vocabulary.intern .initial).1
        ((sharedLists list a).map Clause.pattern) (.int 1) ⟨0⟩ = .ok (some (2, []), ⟨3⟩) ∧
      compileReports (Vocabulary.intern .initial).1 (fun f x => f.mentions x) {} (.int 1)
        (sharedLists list a) ⟨⟨table, 0⟩, .start ⟨0⟩⟩ = (.ok compiled, session₁) ∧
      compileReports (Vocabulary.intern .initial).1 (fun f x => f.mentions x) .unoptimized (.int 1)
        (sharedLists list a) ⟨⟨table, 0⟩, .start ⟨0⟩⟩ = (.ok compiled', session₂) ∧
      compiled.code.eval (Vocabulary.intern .initial).1.functions [] ⟨0⟩ = .ok (result, t₁) ∧
      compiled'.code.eval (Vocabulary.intern .initial).1.functions [] ⟨0⟩ = .ok (result', t₂) ∧
      result.reportedCase? = some 1 ∧ result'.reportedCase? = some 2 := by
  have hv := Vocabulary.intern_standard SymbolTable.initial_coherent
  have hlist := hv.named .list
  generalize (Vocabulary.intern .initial).1.functions.nameOf .list = list at hlist
  have hc := SymbolTable.initial_coherent.intern "a"
  have ha := SymbolTable.initial_coherent.lookup?_intern "a"
  generalize SymbolTable.initial.intern "a" = interned at ha hc
  obtain ⟨a, table⟩ := interned
  have hwell := sharedLists_isWellFormed list a
  have hfunctions : ∀ c ∈ sharedLists list a, ∀ f ∈ c.pattern.functions,
      f.isDirect = true ∧ f.QuotesPlainly := by
    intro c hc f hf
    rw [sharedLists_functions list a c hc f hf]
    simp [Form.isDirect, Form.QuotesPlainly, Form.constants]
  have hordinary : ∀ c ∈ sharedLists list a, ∀ x ∈ c.pattern.binders,
      table.isGenerated? x = some false := by
    intro c hc x hx
    rw [sharedLists_binders list a c hc x hx, SymbolTable.isGenerated?, ha]
    rfl
  have hmatch := firstMatch_sharedLists list a hlist
  have hsubject : (Form.int 1).eval (Vocabulary.intern .initial).1.functions [] ⟨0⟩ =
      .ok (.int 1, ⟨0⟩) := rfl
  have hone : (Value.int 1).MadeBefore ⟨0⟩ ∧ (Value.int 1).MadeBefore ⟨0⟩ := ⟨trivial, trivial⟩
  have hmade : ∀ c ∈ sharedLists list a, c.pattern.MadeBefore ⟨0⟩ ∧ c.pattern.MadeBefore ⟨0⟩ :=
    fun c hc => ⟨sharedLists_madeBefore list a ⟨0⟩ c hc, sharedLists_madeBefore list a ⟨0⟩ c hc⟩
  -- With splitting, the code does what the plan does.
  obtain ⟨compiled, session₁, hcompile, hrealizes, -⟩ :=
    @compileReports_realizes false False (Vocabulary.intern .initial).1
      (fun x => table.isGenerated? x = some false) _ ⟨⟨table, 0⟩, .start ⟨0⟩⟩ hv
      (sharedLists_body list a) hwell hc rfl (fun _ hx => hx) hordinary (fun hs => hs.elim) {}
      (fun f x => f.mentions x) (.int 1)
  obtain ⟨result, t₁, hresult, hreports⟩ :=
    (hrealizes.runs (fun h => h.elim) hsubject (fun h => h.elim)
      (Signature.ofPatterns_suits_of_madeBefore hone (List.forall_mem_map.mpr hmade))
      (Signature.ofPatterns_suits_of_madeBefore hone (List.forall_mem_map.mpr hmade))).ok
      (run_sharedLists list a hlist rfl)
  -- Without splitting, it does what direct matching does.
  obtain ⟨compiled', session₂, result', t₂, hcompile', hresult', hcase'⟩ :=
    @compileReports_selects .initial _ ⟨⟨table, 0⟩, .start ⟨0⟩⟩ SymbolTable.initial_coherent
      (sharedLists_body list a) hwell (fun c hc f hf => (hfunctions c hc f hf).1)
      (fun c hc f hf => (hfunctions c hc f hf).2) hc rfl hordinary .unoptimized
      (fun hsplit => by cases hsplit) _ _ _ _ _ _ _ hsubject hone hmade _ hmatch
  exact ⟨list, a, table, compiled, session₁, compiled', session₂, result, t₁, result', t₂,
    fun c hc => ⟨hwell c hc, hfunctions c hc, hordinary c hc⟩, hmatch, hcompile, hcompile', hresult,
    hresult', Value.reportedCase?_of_isEqual hreports.2.isEqual, hcase'⟩

/-! ## Warnings -/

/-- No value is matched first by a case that was reported as unreachable. -/
theorem unreachable_warning_sound {τ κ : Type} {e : Emitter τ Form κ} {vocabulary : Vocabulary}
    {options : Options} {subject : Form} {cases : List (Case τ Form κ)} {session session' : Session τ}
    {compiled : Compiled Form κ} {warning : Unreachable Form}
    (hmentions : ∀ f x, f.mentions x = true → e.mentions f x = true)
    (hstill : ∀ c ∈ cases, c.pattern.Still vocabulary.functions)
    (hnames : session.names.symbols.Coherent)
    (hordinary : ∀ c ∈ cases, ∀ x ∈ c.pattern.binders,
      session.names.symbols.isGenerated? x = some false)
    (hcompile : compile e options subject cases session = (.ok compiled, session'))
    (hwarning : warning ∈ compiled.warnings) (v : Value) (env : Bindings) (s s' : ObjectSupply) :
    Matcher.firstMatch vocabulary (cases.map Case.pattern) v s ≠
      .ok (some (warning.case, env), s') := by
  intro hmatch
  have hstill' : ∀ p ∈ cases.map Case.pattern, p.Still vocabulary.functions :=
    List.forall_mem_map.mpr hstill
  have hplan : (Plan.ofPatterns options e.mentions (cases.map Case.pattern)
      session.names).1.Implements true False vocabulary
        (fun x => session.names.symbols.isGenerated? x = some false) (cases.map Case.pattern) :=
    Plan.ofPatterns_implements hnames (fun _ hx => hx) (List.forall_mem_map.mpr hordinary) true
      hmentions fun _ => splittable_of_still hstill'
  have hreached := hplan.reached (Signature.ofPatterns_suits_of_still hstill') hmatch
  rw [warnings_of_compile hcompile] at hwarning
  split at hwarning
  · rw [not_reached_of_mem hwarning] at hreached
    cases hreached
  · cases hwarning

theorem unreachable_warning_sound_after_wildcard :
    ∃ compiled session' warning,
      compile (formEmitter (Vocabulary.intern .initial).1.operators) {} (.int 3)
        [⟨.wildcard, fun _ _ => return .nil, false⟩,
          ⟨.literal (.int 3), fun _ _ => return .nil, false⟩]
        ⟨⟨.initial, 0⟩, ⟨0⟩⟩ = (.ok compiled, session') ∧
      warning ∈ compiled.warnings ∧ warning.case = 1 ∧
      ∀ v env s s', Matcher.firstMatch (Vocabulary.intern .initial).1
        [.wildcard, .literal (.int 3)] v s ≠ .ok (some (warning.case, env), s') := by
  generalize (Vocabulary.intern .initial).1 = vocabulary
  have hcompile := @compile_of_wellFormed ObjectSupply Form (formEmitter vocabulary.operators) {}
    (.int 3) [⟨.wildcard, fun _ _ => return .nil, false⟩,
      ⟨.literal (.int 3), fun _ _ => return .nil, false⟩] ⟨⟨.initial, 0⟩, ⟨0⟩⟩
    (by simp [Pattern.isWellFormed])
  have hwarnings := warnings_of_compile hcompile
  -- The wildcard is dropped, and then the first case is selected.
  have hbuild (root : Name) : Queue.build {} (formEmitter vocabulary.operators).mentions
      (Queue.ofPatterns root [.wildcard, .literal (.int 3)]) =
        (do return .leaf 0 (← Builder.reach 0 .empty)) :=
    (Queue.build_eq ..).trans (Queue.build_eq ..)
  rw [Plan.ofPatterns] at hwarnings
  generalize NameSupply.fresh "val" _ = named at hwarnings
  obtain ⟨root, names⟩ := named
  simp only [List.map_cons, List.map_nil, hbuild] at hwarnings
  generalize compileWellFormed (formEmitter vocabulary.operators) _ _ _ _ = made at hcompile hwarnings
  have hmem : ⟨1, .literal (.int 3)⟩ ∈ made.1.warnings := by
    rw [hwarnings]
    exact List.mem_cons_self
  refine ⟨made.1, made.2, ⟨1, .literal (.int 3)⟩, hcompile, hmem, rfl, ?_⟩
  refine unreachable_warning_sound (fun _ _ h => h) (fun c hc => ?_) SymbolTable.initial_coherent
    (by simp [Pattern.binders]) hcompile hmem
  rcases List.mem_pair.mp hc with rfl | rfl
  · constructor <;> simp [Pattern.functions, Pattern.guards]
  · constructor <;> simp [Pattern.functions, Pattern.guards]

end PatternCompiler
