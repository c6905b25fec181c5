import PatternCompiler.Proofs.Invocations

/-!
# Trees without bindings

Where no pattern binds a variable, a case has at most one use, and the size of a compilation comes
down to two things about the tree of its queue: how many tests it has, and at which cases it
arrives. Neither depends on the names that are made up on the way, so both can be read off the steps.
-/

namespace PatternCompiler

set_option autoImplicit false

variable {ε : Type} [BEq ε] {options : Options} {mentions : ε → Name → Bool}

/-! ## Queues -/

namespace Queue

/-- The tree built from the queue has so many tests and arrives at these cases, always without
bindings. -/
structure Sized (options : Options) (mentions : ε → Name → Bool) (queue : Queue ε) (tests : Nat)
    (cases : Set Nat) : Prop where
  testCount : ∀ b, (build options mentions queue b).1.testCount = tests
  contexts : ∀ b case, contexts options mentions queue (build options mentions queue b).1 case =
    {context | case ∈ cases ∧ Environment.empty.subject? = context}

variable {queue yes no next : Queue ε} {tests tests' : Nat} {cases cases' : Set Nat}

theorem sized_nil : Sized options mentions [] 0 ∅ where
  testCount b := by
    rw [build_of_fail rfl]
    rfl
  contexts b case := by
    rw [contexts_fail rfl]
    simp

theorem sized_select {case : Nat} (hstep : step options mentions queue = .select case .empty) :
    Sized options mentions queue 0 {case} where
  testCount b := by
    rw [build_of_select hstep]
    rfl
  contexts b other := by
    rw [build_of_select hstep, contexts_select hstep]
    rfl

theorem Sized.advance (h : Sized options mentions next tests cases)
    (hstep : step options mentions queue = .advance next) :
    Sized options mentions queue tests cases where
  testCount b := by
    rw [build_of_advance hstep]
    exact h.testCount b
  contexts b case := by
    rw [build_of_advance hstep, contexts_advance hstep]
    exact h.contexts b case

theorem Sized.test (hyes : Sized options mentions yes tests cases)
    (hno : Sized options mentions no tests' cases') {asked : Test ε}
    (hstep : step options mentions queue = .test asked yes no) :
    Sized options mentions queue (1 + tests + tests') (cases ∪ cases') where
  testCount b := by
    rw [build_of_test hstep]
    simp only [Decision.testCount, hyes.testCount, hno.testCount]
  contexts b case := by
    rw [build_of_test hstep, contexts_test hstep, hyes.contexts, hno.contexts]
    ext context
    simp only [Set.mem_union, Set.mem_ofPred_eq, or_and_right]

end Queue

/-! ## Plans -/

namespace Plan

variable {patterns : List (Pattern ε)} {plan : Plan ε} {cases : Set Nat}

theorem ofPatterns_sized {tests : Nat}
    (h : ∀ root, Queue.Sized options mentions (Queue.ofPatterns root patterns) tests cases)
    (names : NameSupply) :
    let plan := (Plan.ofPatterns options mentions patterns names).1
    plan.decision.testCount = tests ∧
      ∀ case, plan.contexts options mentions patterns case =
        {context | case ∈ cases ∧ Environment.empty.subject? = context} :=
  ⟨(h _).testCount _, (h _).contexts _⟩

variable (hrecorded : plan.Recorded options mentions patterns)
  (hcontexts : ∀ case, plan.contexts options mentions patterns case =
    {context | case ∈ cases ∧ Environment.empty.subject? = context})

include hrecorded hcontexts

theorem isReached_of_contexts (case : Nat) : plan.uses.isReached case = true ↔ case ∈ cases := by
  rw [UseTable.isReached_iff, hrecorded.contexts, hcontexts]
  constructor
  · rintro ⟨context, hcase, -⟩
    exact hcase
  · intro hcase
    exact ⟨_, hcase, rfl⟩

/-- A case that is reached without bindings has one use. -/
theorem length_uses_of_contexts {case : Nat} (hcase : case ∈ cases) :
    (plan.uses.uses case).length = 1 := by
  have hlength := hrecorded.distinct.length_eq_encard case
  have hone : {context | case ∈ cases ∧ Environment.empty.subject? = context} =
      {Environment.empty.subject?} := by
    ext context
    simp only [Set.mem_ofPred_eq, hcase, true_and, Set.mem_singleton_iff, eq_comm]
  rw [hrecorded.contexts, hcontexts, hone, Set.encard_singleton] at hlength
  exact_mod_cast hlength

/-- If all cases are reached, there are as many uses as cases. -/
theorem useCount_of_contexts (hall : ∀ case < patterns.length, case ∈ cases) :
    plan.uses.useCount = patterns.length := by
  rw [UseTable.useCount, List.length_flatten, ← hrecorded.length]
  have hones : plan.uses.entries.map List.length = List.replicate plan.uses.entries.length 1 := by
    rw [List.eq_replicate_iff]
    refine ⟨List.length_map _, fun n hn => ?_⟩
    obtain ⟨uses, huses, rfl⟩ := List.mem_map.mp hn
    obtain ⟨case, hcase, rfl⟩ := List.getElem_of_mem huses
    have hlength := length_uses_of_contexts hrecorded hcontexts
      (hall case (hrecorded.length ▸ hcase))
    rwa [UseTable.uses_of_getElem? (List.getElem?_eq_getElem hcase)] at hlength
  rw [hones, List.sum_replicate_nat, Nat.mul_one]

end Plan

/-! ## Compilations -/

omit [BEq ε] in
/-- The warnings are for the cases that are not reached and not exempt. -/
theorem mem_unreachableCases {σ κ : Type} {uses : UseTable} {cases : List (Case σ ε κ)} {case : Nat}
    {p : Pattern ε} :
    ⟨case, p⟩ ∈ unreachableCases uses 0 cases ↔
      (∃ c, cases[case]? = some c ∧ c.allowUnreachable = false ∧ c.pattern = p) ∧
        ¬ uses.isReached case = true := by
  rw [unreachableCases_eq]
  simp only [List.mem_map, List.mem_filter, Bool.and_eq_true, Bool.not_eq_true', Prod.exists,
    Unreachable.mk.injEq, List.mk_mem_zipIdx_iff_getElem?, Bool.not_eq_true]
  constructor
  · rintro ⟨c, i, ⟨hc, hunreached, hallow⟩, rfl, rfl⟩
    exact ⟨⟨c, hc, hallow, rfl⟩, hunreached⟩
  · rintro ⟨⟨c, hc, hallow, rfl⟩, hunreached⟩
    exact ⟨c, case, ⟨hc, hunreached, hallow⟩, rfl, rfl⟩

omit [BEq ε] in
theorem isWellFormed_of_map {σ κ : Type} {cases : List (Case σ ε κ)} {patterns : List (Pattern ε)}
    (hcases : cases.map Case.pattern = patterns) (h : ∀ p ∈ patterns, p.isWellFormed = true) :
    ∀ c ∈ cases, c.pattern.isWellFormed = true := by
  intro c hc
  exact h c.pattern (hcases ▸ List.mem_map_of_mem hc)

/-- What is reported about a compilation that arrives at these cases without bindings. -/
theorem compile_sized {σ κ : Type} (e : Emitter σ ε κ) (subject : ε) {cases : List (Case σ ε κ)}
    (hwell : ∀ c ∈ cases, c.pattern.isWellFormed = true) {tests : Nat} {reached : Set Nat}
    (h : ∀ root, Queue.Sized options e.mentions (Queue.ofPatterns root (cases.map Case.pattern))
      tests reached) (session : Session σ) :
    ∃ compiled session', compile e options subject cases session = (.ok compiled, session') ∧
      compiled.stats.tests = tests ∧
      ((∀ case < cases.length, case ∈ reached) → compiled.stats.uses = cases.length) ∧
      ∀ case p, ⟨case, p⟩ ∈ compiled.warnings ↔ options.warnUnreachable = true ∧
        (∃ c, cases[case]? = some c ∧ c.allowUnreachable = false ∧ c.pattern = p) ∧
        case ∉ reached := by
  have hnone : firstMalformed? 0 (cases.map Case.pattern) = none :=
    firstMalformed?_eq_none (List.forall_mem_map.mpr hwell) 0
  refine ⟨_, _, compile_of_firstMalformed? hnone, ?_⟩
  have hrecorded := Plan.ofPatterns_recorded options e.mentions (cases.map Case.pattern)
    session.names
  obtain ⟨htests, hcontexts⟩ := Plan.ofPatterns_sized h session.names
  rw [compileWellFormed_eq]
  dsimp only
  generalize Plan.ofPatterns options e.mentions (cases.map Case.pattern) session.names =
    planned at hrecorded htests hcontexts ⊢
  refine ⟨htests, fun hall => ?_, fun case p => ?_⟩
  · have huses := Plan.useCount_of_contexts hrecorded hcontexts (by rwa [List.length_map])
    rwa [List.length_map] at huses
  · rw [← Plan.isReached_of_contexts hrecorded hcontexts]
    split
    · rename_i hwarn
      rw [mem_unreachableCases]
      simp only [hwarn, true_and]
    · rename_i hwarn
      exact iff_of_false List.not_mem_nil fun h => hwarn h.1

end PatternCompiler
