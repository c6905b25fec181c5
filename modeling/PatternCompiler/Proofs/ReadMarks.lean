import PatternCompiler.Proofs.OpenReadings
import PatternCompiler.Proofs.Readings

/-!
# Readings and marks

A variable is handed to a generator as read if something on a way to the case has read it. A reading
made for a negation leaves no mark there, and neither does one on a way that a negation cut off.
Every other reading does: if all readings are open, whoever reads the variable goes on to the case;
and if no way leaves the variable bound but unread, every way to the case has read it.
-/

namespace PatternCompiler

set_option autoImplicit false

open LowerM (Reveals)

variable {σ ε κ : Type}

/-! ## Sure readings -/

/-- No way binds the variable and leaves it unread. -/
def Demand.sureReading : Demand where
  goal s := s ≠ .bound
  probe _ := true
  goal_unbound := rfl
  probe_unbound := rfl

theorem Queue.Arrives.used_of_sureReading [BEq ε] {options : Options} {mentions : ε → Name → Bool}
    {x : Name} (hlike : ∀ func func', (func == func') = true → mentions func x = mentions func' x)
    {queue : Queue ε} {decision : Decision ε} {case : Nat} {env : Environment}
    (harrives : Queue.Arrives options mentions queue decision case env)
    (h : Queue.Meets mentions x .sureReading queue) (hx : x ∈ env.names) :
    env.isUsed x = true := by
  obtain ⟨s, hs, hgoal⟩ := harrives.meets (.inl hlike) h
  cases s with
  | unbound => exact absurd hx hs
  | bound => cases hgoal
  | read => exact hs

/-! ## Plans -/

namespace Plan

variable [BEq ε] {options : Options} {mentions : ε → Name → Bool} {patterns : List (Pattern ε)}
  {names : NameSupply} {x : Name}

/-- The uses of a plan carry the marks of all arrivals. -/
theorem ofPatterns_marks (options : Options) (mentions : ε → Name → Bool)
    (patterns : List (Pattern ε)) (names : NameSupply) :
    Queue.Marks options mentions
      (Queue.ofPatterns (Plan.ofPatterns options mentions patterns names).1.root patterns)
      (Plan.ofPatterns options mentions patterns names).1.decision (.empty patterns.length)
      (Plan.ofPatterns options mentions patterns names).1.uses := by
  have hlength : (UseTable.empty patterns.length).entries.length = patterns.length :=
    List.length_replicate
  exact @Queue.build_marks ε _ (Queue.ofPatterns (NameSupply.fresh "val" names).1 patterns) options
    mentions ⟨(NameSupply.fresh "val" names).2, .empty patterns.length, 0⟩ (.empty _)
    (Queue.ofPatterns_linear _ fun case hcase => hlength.symm ▸ hcase)

theorem marked_of_openReading (hwell : ∀ p ∈ patterns, ¬ p.Malformed)
    (h : ∀ p ∈ patterns, p.Meets mentions x .openReading)
    (hx : x ∈ (Plan.ofPatterns options mentions patterns names).1.decision.binders) :
    ∃ case, x ∈ (Plan.ofPatterns options mentions patterns names).1.uses.marked case := by
  obtain ⟨case, env, harrives, hused⟩ := Queue.build_readsOpenly (Queue.ofPatterns_meets _ h)
    (Queue.within_ofPatterns trivial hwell) _ hx
  exact ⟨case, (ofPatterns_marks options mentions patterns names).arrivals harrives hused⟩

theorem marked_of_sureReading
    (hlike : ∀ func func', (func == func') = true → mentions func x = mentions func' x)
    (h : ∀ p ∈ patterns, p.Meets mentions x .sureReading) {case : Nat} {use : Environment}
    (huse : use ∈ (Plan.ofPatterns options mentions patterns names).1.uses.uses case)
    (hx : x ∈ use.names) :
    x ∈ (Plan.ofPatterns options mentions patterns names).1.uses.marked case := by
  have hrecorded := Plan.ofPatterns_recorded options mentions patterns names
  obtain ⟨env, harrives, hcontext⟩ := hrecorded.mem_contexts.mpr ⟨use, huse, rfl⟩
  have hmem : x ∈ env.names := by
    rwa [Environment.mem_names_iff, hcontext, ← Environment.mem_names_iff]
  exact (ofPatterns_marks options mentions patterns names).arrivals harrives
    (harrives.used_of_sureReading hlike (Queue.ofPatterns_meets _ h) hmem)

/-- The only case is the first. -/
theorem Recorded.eq_zero {p : Pattern ε} {plan : Plan ε} (h : plan.Recorded options mentions [p])
    {case : Nat} {use : Environment} (huse : use ∈ plan.uses.uses case) : case = 0 := by
  by_contra hcase
  have hlength : plan.uses.entries.length ≤ case := by
    rw [h.length, List.length_singleton]
    omega
  rw [UseTable.uses, List.getElem?_eq_none hlength] at huse
  cases huse

end Plan

/-! ## Compilations -/

theorem Site.used_of_mem {e : Emitter σ ε κ} {calls : List (Call ε)} {table : UseTable}
    (hcalls : List.Forall₂ (Call.Alike e.Reads) (Site.outlines 0 table.entries) calls)
    {call : Call ε} (hcall : call ∈ calls) {v : Variable ε} (hv : v ∈ call.handed) :
    v.used = true ↔ v.name ∈ table.marked call.case := by
  obtain ⟨outline, houtline, halike⟩ :=
    exists_of_mem_of_forall₂ (callOf_alike hcalls hcall).handed hv
  obtain ⟨x, -, rfl⟩ := List.mem_map.mp houtline
  rw [← halike.used, ← halike.name]
  exact List.any_eq_true

/-- A compilation with watched generators and logged hooks does what it does without, and what is
read in it is read in the code of the tree of its plan. -/
theorem compile_observed [BEq ε] (e : Emitter σ ε κ) (options : Options) (subject : ε)
    {cases : List (Case σ ε κ)} (hwell : ∀ c ∈ cases, c.pattern.isWellFormed = true)
    (session : Session σ) {made : List (Name × ε) → Prop}
    (hlower : ∀ sites, Reveals
      ((Plan.ofPatterns options e.mentions (cases.map Case.pattern) session.names).1.decision.lower
        e.watched sites)
      ((Plan.ofPatterns options e.mentions (cases.map Case.pattern) session.names).1.decision.lower
        e.watched.logged sites) fun _ => made) :
    ∃ compiled session' calls log,
      compile e options subject cases session = (.ok compiled, session') ∧
      compile e.watched.logged options subject ((Case.watchedFrom 0 cases).map Case.logged)
          ((session.watched []).logged []) =
        (.ok compiled, (session'.watched calls).logged log) ∧
      List.Forall₂ (Call.Alike e.Reads) (Site.outlines 0 (Plan.ofPatterns options e.mentions
        (cases.map Case.pattern) session.names).1.uses.entries) calls ∧
      made (log.flatMap HookCall.readings) := by
  have hnone : firstMalformed? 0 (cases.map Case.pattern) = none :=
    firstMalformed?_eq_none (List.forall_mem_map.mpr hwell) 0
  have hpatterns := Case.map_pattern_watchedFrom 0 cases
  have hnone' : firstMalformed? 0 (((Case.watchedFrom 0 cases).map Case.logged).map Case.pattern) =
      none := by
    rwa [Case.map_pattern_logged, hpatterns]
  have hlength : (Plan.ofPatterns options e.watched.mentions
      ((Case.watchedFrom 0 cases).map Case.pattern)
      (session.watched ([] : List (Call ε))).names).1.uses.entries.length =
        ((Case.watchedFrom 0 cases).map Case.generator).length := by
    rw [(Plan.ofPatterns_recorded ..).length, List.length_map, List.length_map]
  obtain ⟨calls, hwatched, hcalls⟩ := compileWellFormed_watched e options subject cases session
  obtain ⟨result, log, hlogged, -, hlog⟩ := compileWellFormed_logs e.watched options subject
    (Case.watchedFrom 0 cases) (session.watched [])
    (Plan.emit_reveals e.watched subject hlength (by rw [hpatterns]; exact hlower))
  rw [hwatched] at hlogged
  refine ⟨_, _, calls, log, compile_of_firstMalformed? hnone, ?_, hcalls, hlog⟩
  rw [compile_of_firstMalformed? hnone', hlogged]

/-! ## A guard that reads the subject -/

section

variable {ops : Operators} {names : NameSupply} {x root : Name} {expr : Form} {used : Bool}

theorem plan_guard : (Plan.ofPatterns {} (formEmitter ops).mentions
      [.and [.bind ⟨7⟩, .guard (.var ⟨7⟩)]] names).1 =
    ⟨(NameSupply.fresh "val" names).1,
      .test (.guard (.var ⟨7⟩) [(⟨7⟩, (NameSupply.fresh "val" names).1)]) (.leaf 0 0) .fail,
      ⟨[[⟨[⟨⟨7⟩, (NameSupply.fresh "val" names).1, true⟩]⟩]]⟩, 0⟩ := by
  unfold Plan.ofPatterns
  obtain ⟨root, rest⟩ := NameSupply.fresh "val" names
  dsimp only
  rw [Queue.build_of_advance rfl, Queue.build_of_advance rfl, Queue.build_of_test rfl]
  dsimp only
  rw [Queue.build_of_select rfl, Queue.build_of_fail rfl]
  rfl

theorem plan_negated_guard : (Plan.ofPatterns {} (formEmitter ops).mentions
      [.and [.bind ⟨7⟩, .not (.guard (.var ⟨7⟩))]] names).1 =
    ⟨(NameSupply.fresh "val" names).1,
      .test (.guard (.var ⟨7⟩) [(⟨7⟩, (NameSupply.fresh "val" names).1)]) .fail (.leaf 0 0),
      ⟨[[⟨[⟨⟨7⟩, (NameSupply.fresh "val" names).1, false⟩]⟩]]⟩, 0⟩ := by
  unfold Plan.ofPatterns
  obtain ⟨root, rest⟩ := NameSupply.fresh "val" names
  dsimp only
  rw [Queue.build_of_advance rfl, Queue.build_of_advance rfl, Queue.build_of_advance rfl,
    Queue.build_of_test rfl]
  dsimp only
  rw [Queue.build_of_advance rfl, Queue.build_of_fail rfl, Queue.build_of_select rfl]
  rfl

/-- The guard is handed the subject's variable, and the generator what its mark is. -/
theorem compile_guard {p : Pattern Form} (hwell : p.isWellFormed = true)
    (g : Generator ObjectSupply Form Form) {session : Session ObjectSupply}
    {yes no : Decision Form} {projections : Nat}
    (hplan : (Plan.ofPatterns {} (formEmitter ops).mentions [p] session.names).1 =
      ⟨root, .test (.guard expr [(x, root)]) yes no, ⟨[[⟨[⟨x, root, used⟩]⟩]]⟩, projections⟩) :
    ∃ compiled session' calls log,
      compile (formEmitter ops) {} .nil [⟨p, g, false⟩] session = (.ok compiled, session') ∧
      compile (formEmitter ops).watched.logged {} .nil
          ((Case.watchedFrom 0 [⟨p, g, false⟩]).map Case.logged) ((session.watched []).logged []) =
        (.ok compiled, (session'.watched calls).logged log) ∧
      (x, .var root) ∈ log.flatMap HookCall.readings ∧
      ∃ call ∈ calls, ∃ v ∈ call.handed, v.name = x ∧ v.used = used := by
  have hlower (sites : List (List (Site Form))) : Reveals
      ((Plan.ofPatterns {} (formEmitter ops).mentions [p] session.names).1.decision.lower
        (formEmitter ops).watched sites)
      ((Plan.ofPatterns {} (formEmitter ops).mentions [p] session.names).1.decision.lower
        (formEmitter ops).watched.logged sites)
      fun _ seen => ∃ r ∈ seen, (formEmitter ops).watched.Hands (x, root) r := by
    rw [hplan]
    exact (Decision.lower_test_reveals _ _ _ _ _).mono fun _ _ h => h _ List.mem_cons_self
  have hcase : ∀ c ∈ [(⟨p, g, false⟩ : Case ObjectSupply Form Form)],
      c.pattern.isWellFormed = true := List.forall_mem_singleton.mpr hwell
  obtain ⟨compiled, session', calls, log, hcompile, hobserved, hcalls, r, hr, hname, _, hvalue⟩ :=
    compile_observed (formEmitter ops) {} .nil hcase session hlower
  refine ⟨compiled, session', calls, log, hcompile, hobserved, ?_, ?_⟩
  · have hr' : r = (x, .var root) := Prod.ext hname.symm hvalue
    exact hr' ▸ hr
  · change List.Forall₂ _ (Site.outlines 0 (Plan.ofPatterns {} (formEmitter ops).mentions [p]
      session.names).1.uses.entries) _ at hcalls
    rw [hplan] at hcalls
    obtain ⟨call, hcall, halike⟩ := exists_of_mem_of_forall₂ hcalls.flip
      (List.mem_singleton_self _)
    have hx : x ∈ Site.variableNames [⟨[⟨x, root, used⟩]⟩] :=
      Site.mem_variableNames.mpr ⟨_, List.mem_singleton_self _, List.mem_singleton_self _⟩
    obtain ⟨v, hv, hvalike⟩ := exists_of_mem_of_forall₂ halike.handed.flip
      (List.mem_map_of_mem hx)
    refine ⟨call, hcall, v, hv, hvalike.name.symm, hvalike.used.symm.trans ?_⟩
    simp [Site.outlineOf, Environment.isUsed]

end

/-! ## Marked readings -/

/-- A variable that some hook has read for an expression is handed to the generator as read, if all
its readings are open or no way leaves it bound but unread. -/
theorem readings_marked [BEq ε] (e : Emitter σ ε κ) (options : Options) (subject : ε)
    {c : Case σ ε κ} (hwell : c.pattern.isWellFormed = true) {x : Name}
    (hreads : c.pattern.Meets e.mentions x .openReading ∨
      c.pattern.Meets e.mentions x .sureReading ∧
        ∀ func func', (func == func') = true → e.mentions func x = e.mentions func' x)
    (session : Session σ) :
    ∃ compiled session' calls log,
      compile e options subject [c] session = (.ok compiled, session') ∧
      compile e.watched.logged options subject ((Case.watchedFrom 0 [c]).map Case.logged)
          ((session.watched []).logged []) =
        (.ok compiled, (session'.watched calls).logged log) ∧
      ((∃ expr, (x, expr) ∈ log.flatMap HookCall.readings) →
        ∀ call ∈ calls, ∀ v ∈ call.handed, v.name = x → v.used = true) := by
  have hrecorded := Plan.ofPatterns_recorded options e.mentions ([c].map Case.pattern)
    session.names
  obtain ⟨compiled, session', calls, log, hcompile, hobserved, hcalls, hlog⟩ :=
    compile_observed e options subject (List.forall_mem_singleton.mpr hwell) session
      fun sites => Decision.lower_reveals e.watched sites _
  refine ⟨compiled, session', calls, log, hcompile, hobserved, ?_⟩
  rintro ⟨expr, hexpr⟩ call hcall v hv rfl
  rw [Site.used_of_mem hcalls hcall hv]
  obtain ⟨use, huse, hx⟩ := Site.mem_variableNames.mp
    (Site.names_of_mem hcalls hcall ▸ List.mem_map_of_mem hv)
  rcases hreads with hopen | ⟨hsure, hlike⟩
  · obtain ⟨case, use', huse', hused⟩ := Plan.marked_of_openReading
      (List.forall_mem_singleton.mpr ((Pattern.isWellFormed_iff _).mp hwell))
      (List.forall_mem_singleton.mpr hopen) (hlog _ hexpr)
    have hcase : case = call.case :=
      (hrecorded.eq_zero huse').trans (hrecorded.eq_zero huse).symm
    exact hcase ▸ ⟨use', huse', hused⟩
  · exact Plan.marked_of_sureReading hlike (List.forall_mem_singleton.mpr hsure) huse hx

/-- A guard outside negations reads the variable, and the mark is there. -/
theorem readings_marked_of_guard :
    let e := formEmitter (Vocabulary.intern .initial).1.operators
    let c : Case ObjectSupply Form Form :=
      ⟨.and [.bind ⟨7⟩, .guard (.var ⟨7⟩)], fun _ _ => return .nil, false⟩
    ∃ compiled session' calls log,
      compile e {} .nil [c] ⟨⟨.initial, 0⟩, ⟨0⟩⟩ = (.ok compiled, session') ∧
      compile e.watched.logged {} .nil ((Case.watchedFrom 0 [c]).map Case.logged)
          ((Session.watched ⟨⟨.initial, 0⟩, ⟨0⟩⟩ []).logged []) =
        (.ok compiled, (session'.watched calls).logged log) ∧
      (∃ expr, (⟨7⟩, expr) ∈ log.flatMap HookCall.readings) ∧
      ∃ call ∈ calls, ∃ v ∈ call.handed, v.name = ⟨7⟩ ∧ v.used = true := by
  intro e c
  obtain ⟨compiled, session', calls, log, hcompile, hobserved, hmarked⟩ :=
    readings_marked e {} .nil (c := c) rfl (.inl rfl) ⟨⟨.initial, 0⟩, ⟨0⟩⟩
  obtain ⟨_, _, calls', log', -, hobserved', hread, call, hcall, v, hv, hname, -⟩ :=
    compile_guard rfl c.generator plan_guard
  have hsame := hobserved.symm.trans hobserved'
  obtain rfl : calls = calls' := congrArg (fun r => r.2.target.target.calls) hsame
  obtain rfl : log = log' := congrArg (fun r => r.2.target.log) hsame
  exact ⟨compiled, session', calls, log, hcompile, hobserved, ⟨_, hread⟩, call, hcall, v, hv, hname,
    hmarked ⟨_, hread⟩ call hcall v hv hname⟩

/-- A guard in a negation is handed the variable that the generator is told nothing has read. -/
theorem negated_reading_unmarked :
    let e := formEmitter (Vocabulary.intern .initial).1.operators
    let c : Case ObjectSupply Form Form :=
      ⟨.and [.bind ⟨7⟩, .not (.guard (.var ⟨7⟩))], fun _ _ => return .nil, false⟩
    ∃ compiled session' calls log subject,
      compile e {} .nil [c] ⟨⟨.initial, 0⟩, ⟨0⟩⟩ = (.ok compiled, session') ∧
      compile e.watched.logged {} .nil ((Case.watchedFrom 0 [c]).map Case.logged)
          ((Session.watched ⟨⟨.initial, 0⟩, ⟨0⟩⟩ []).logged []) =
        (.ok compiled, (session'.watched calls).logged log) ∧
      (⟨7⟩, .var subject) ∈ log.flatMap HookCall.readings ∧
      (∃ use ∈ (Plan.ofPatterns {} e.mentions [c.pattern] ⟨.initial, 0⟩).1.uses.uses 0,
        use.subject? ⟨7⟩ = some subject) ∧
      ∃ call ∈ calls, ∃ v ∈ call.handed, v.name = ⟨7⟩ ∧ v.used = false := by
  intro e c
  obtain ⟨compiled, session', calls, log, hcompile, hobserved, hread, hcall⟩ :=
    compile_guard rfl c.generator plan_negated_guard
  refine ⟨compiled, session', calls, log, _, hcompile, hobserved, hread, ?_, hcall⟩
  have hplan := @plan_negated_guard (Vocabulary.intern .initial).1.operators ⟨.initial, 0⟩
  change ∃ use ∈ (Plan.ofPatterns {} e.mentions [.and [.bind ⟨7⟩, .not (.guard (.var ⟨7⟩))]]
    ⟨.initial, 0⟩).1.uses.uses 0, _
  rw [hplan]
  exact ⟨_, List.mem_singleton_self _, rfl⟩

end PatternCompiler
