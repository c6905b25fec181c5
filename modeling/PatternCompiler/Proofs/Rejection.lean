import PatternCompiler.Proofs.Contents
import PatternCompiler.Proofs.Invocations

/-!
# Rejected cases

Cases are rejected for the first pattern with an empty disjunction anywhere in it, and clauses for
two lists of different lengths. Nothing has been named, emitted or generated then. No other cases
are rejected: no queue that arises from well-formed patterns ever has an empty disjunction, so that
looking for one again before every step finds none.
-/

namespace PatternCompiler

set_option autoImplicit false

variable {ε : Type}

/-! ## Malformed patterns -/

namespace Pattern

/-- A pattern is a part of itself and of the patterns it occurs in, at any depth. -/
inductive PartOf (q : Pattern ε) : Pattern ε → Prop where
  | self : PartOf q q
  | app {func : ε} {inner : Pattern ε} (h : PartOf q inner) : PartOf q (.app func inner)
  | not {inner : Pattern ε} (h : PartOf q inner) : PartOf q (.not inner)
  | item {items : List (Pattern ε)} {p : Pattern ε} (hp : p ∈ items) (h : PartOf q p) :
      PartOf q (.and items)
  | alternative {alternatives : List (Pattern ε)} {p : Pattern ε} (hp : p ∈ alternatives)
      (h : PartOf q p) : PartOf q (.or alternatives)

/-- There is a disjunction without alternatives in the pattern. -/
def Malformed (p : Pattern ε) : Prop := (Pattern.or []).PartOf p

mutual

theorem isWellFormed_iff (p : Pattern ε) : p.isWellFormed = true ↔ ¬ p.Malformed := by
  cases p with
  | wildcard | bind | literal | predicate | guard =>
      exact iff_of_true rfl fun h => by cases h
  | app func inner =>
      rw [isWellFormed, isWellFormed_iff inner]
      refine not_congr ⟨.app, fun h => ?_⟩
      cases h with
      | app h => exact h
  | not inner =>
      rw [isWellFormed, isWellFormed_iff inner]
      refine not_congr ⟨.not, fun h => ?_⟩
      cases h with
      | not h => exact h
  | and items =>
      rw [isWellFormed, allWellFormed_iff items]
      constructor
      · intro hall h
        cases h with
        | item hp h => exact hall _ hp h
      · intro hnone p hp h
        exact hnone (.item hp h)
  | or alternatives =>
      rw [isWellFormed, Bool.and_eq_true, Bool.not_eq_true', List.isEmpty_eq_false_iff,
        allWellFormed_iff alternatives]
      constructor
      · rintro ⟨hsome, hall⟩ h
        cases h with
        | self => exact hsome rfl
        | alternative hp h => exact hall _ hp h
      · intro hnone
        refine ⟨?_, fun p hp h => hnone (.alternative hp h)⟩
        rintro rfl
        exact hnone .self

theorem allWellFormed_iff (ps : List (Pattern ε)) :
    allWellFormed ps = true ↔ ∀ p ∈ ps, ¬ p.Malformed := by
  cases ps with
  | nil => exact iff_of_true rfl fun p hp => by cases hp
  | cons p ps =>
      rw [allWellFormed, Bool.and_eq_true, isWellFormed_iff p, allWellFormed_iff ps,
        List.forall_mem_cons]

end

end Pattern

/-! ## Building with a check before every step -/

/-- Patterns without an empty disjunction, wherever their subjects come from. -/
def Contents.wellFormed : Contents ε where
  subject _ := True
  pattern p := ¬ p.Malformed
  inner_app h hinner := h (.app hinner)
  inner_not h hinner := h (.not hinner)
  item h _ hp hitem := h (.item hp hitem)
  alternative h _ hp halternative := h (.alternative hp halternative)

namespace Queue

/-- The next match of the first branch is a disjunction without alternatives. -/
def malformation? : Queue ε → Option Malformation
  | ⟨.pattern _ (.or []) :: _, _, _⟩ :: _ => some .emptyDisjunction
  | _ => none

theorem malformation?_eq_none {queue : Queue ε} (h : Queue.Within .wellFormed queue) :
    queue.malformation? = none := by
  unfold malformation?
  split
  · obtain ⟨hpending, -⟩ := Branch.within_iff.mp (within_cons.mp h).1
    exact absurd .self (hpending _ List.mem_cons_self).2
  · rfl

/-- The decision tree of a queue, with a look at the next match before every step. -/
def buildChecked [BEq ε] (options : Options) (mentions : ε → Name → Bool) (queue : Queue ε) :
    ExceptT Malformation (StateM Builder) (Decision ε) :=
  match queue.malformation? with
  | some malformation => throw malformation
  | none =>
    match _h : Queue.step options mentions queue with
    | .fail => return .fail
    | .select case env => return .leaf case (← Builder.reach case env)
    | .advance next => buildChecked options mentions next
    | .test test yes no => do
        let yes ← buildChecked options mentions yes
        let no ← buildChecked options mentions no
        return .test test yes no
    | .project func subject bindings body => do
        let fresh ← Builder.projection
        let body ← buildChecked options mentions (body fresh)
        return .project fresh func subject bindings body
termination_by Queue.cost queue
decreasing_by
  all_goals
    have descends := Queue.step_descends options mentions queue
    rw [_h] at descends
  · exact descends
  · exact descends.1
  · exact descends.2
  · exact descends _

/-- The recursion without the proof that it ends. -/
theorem buildChecked_of_step [BEq ε] (options : Options) (mentions : ε → Name → Bool)
    {queue : Queue ε} (h : queue.malformation? = none) :
    buildChecked options mentions queue =
      match Queue.step options mentions queue with
      | .fail => return .fail
      | .select case env => return .leaf case (← Builder.reach case env)
      | .advance next => buildChecked options mentions next
      | .test test yes no => do
          let yes ← buildChecked options mentions yes
          let no ← buildChecked options mentions no
          return .test test yes no
      | .project func subject bindings body => do
          let fresh ← Builder.projection
          let body ← buildChecked options mentions (body fresh)
          return .project fresh func subject bindings body := by
  rw [buildChecked, h]
  dsimp only
  split <;> simp_all

/-- Well-formed patterns pass every check, and the tree is the one built without checks. -/
theorem buildChecked_eq [BEq ε] (options : Options) (mentions : ε → Name → Bool)
    {queue : Queue ε} (hq : Queue.Within .wellFormed queue) :
    buildChecked options mentions queue = ExceptT.lift (build options mentions queue) := by
  induction queue using Queue.build.induct options mentions with
  | case1 queue hstep =>
      rw [buildChecked_of_step options mentions (malformation?_eq_none hq), build_eq, hstep]
      rfl
  | case2 queue case env hstep =>
      rw [buildChecked_of_step options mentions (malformation?_eq_none hq), build_eq, hstep]
      rfl
  | case3 queue next hstep ih =>
      have hnext := step_within options mentions hq
      rw [hstep] at hnext
      rw [buildChecked_of_step options mentions (malformation?_eq_none hq), build_eq, hstep]
      exact ih hnext
  | case4 queue asked yes no hstep ihyes ihno =>
      have hnext := step_within options mentions hq
      rw [hstep] at hnext
      rw [buildChecked_of_step options mentions (malformation?_eq_none hq), build_eq, hstep]
      simp only [ihyes hnext.1, ihno hnext.2]
      rfl
  | case5 queue func subject pairs body hstep ih =>
      have hnext := step_within options mentions hq
      rw [hstep] at hnext
      rw [buildChecked_of_step options mentions (malformation?_eq_none hq), build_eq, hstep]
      simp only [fun fresh => ih fresh (hnext fresh trivial)]
      rfl

end Queue

/-! ## Rejections -/

/-- Case `case` has the first malformed pattern, which is `p`. -/
structure FirstMalformed (patterns : List (Pattern ε)) (case : Nat) (p : Pattern ε) : Prop where
  pattern : patterns[case]? = some p
  malformed : p.Malformed
  earlier : ∀ i q, i < case → patterns[i]? = some q → ¬ q.Malformed

theorem firstMalformed?_eq_some {start : Nat} {patterns : List (Pattern ε)}
    {err : CompileError ε} :
    firstMalformed? start patterns = some err ↔ ∃ case p, FirstMalformed patterns case p ∧
      err = .malformedPattern (start + case) p .emptyDisjunction := by
  induction patterns generalizing start with
  | nil =>
      refine iff_of_false (by simp [firstMalformed?]) ?_
      rintro ⟨case, p, h, -⟩
      cases h.pattern
  | cons q qs ih =>
      rw [firstMalformed?]
      split
      · rename_i hq
        rw [Pattern.isWellFormed_iff] at hq
        rw [ih]
        constructor
        · rintro ⟨case, p, h, rfl⟩
          refine ⟨case + 1, p, ⟨h.pattern, h.malformed, fun i r hi hr => ?_⟩, ?_⟩
          · cases i with
            | zero => exact Option.some.inj hr ▸ hq
            | succ i => exact h.earlier i r (Nat.lt_of_succ_lt_succ hi) hr
          · rw [Nat.add_right_comm, Nat.add_assoc]
        · rintro ⟨case, p, h, rfl⟩
          cases case with
          | zero => exact absurd (Option.some.inj h.pattern ▸ h.malformed) hq
          | succ case =>
              refine ⟨case, p, ⟨h.pattern, h.malformed, fun i r hi hr => ?_⟩, ?_⟩
              · exact h.earlier (i + 1) r (Nat.succ_lt_succ hi) hr
              · rw [Nat.add_right_comm, Nat.add_assoc]
      · rename_i hq
        rw [Pattern.isWellFormed_iff, not_not] at hq
        constructor
        · intro h
          refine ⟨0, q, ⟨rfl, hq, fun i r hi => absurd hi (Nat.not_lt_zero i)⟩, ?_⟩
          exact (Option.some.inj h).symm
        · rintro ⟨case, p, h, rfl⟩
          cases case with
          | zero => rw [Option.some.inj h.pattern]; rfl
          | succ case => exact absurd hq (h.earlier 0 q (Nat.succ_pos case) rfl)

section

variable {σ κ : Type} [BEq ε] (e : Emitter σ ε κ) (options : Options) (subject : ε)

theorem compile_of_malformed {cases : List (Case σ ε κ)} {err : CompileError ε}
    (h : firstMalformed? 0 (cases.map Case.pattern) = some err) (session : Session σ) :
    compile e options subject cases session = (.error err, session) := by
  rw [compile, h]
  rfl

/-- The only error of cases is that of the first malformed one, and the session stays as it was. -/
theorem compile_eq_error {cases : List (Case σ ε κ)} {session session' : Session σ}
    {err : CompileError ε} :
    compile e options subject cases session = (.error err, session') ↔
      session' = session ∧ ∃ case p, FirstMalformed (cases.map Case.pattern) case p ∧
        err = .malformedPattern case p .emptyDisjunction := by
  have hfirst : firstMalformed? 0 (cases.map Case.pattern) = some err ↔
      ∃ case p, FirstMalformed (cases.map Case.pattern) case p ∧
        err = .malformedPattern case p .emptyDisjunction := by
    simp only [firstMalformed?_eq_some, Nat.zero_add]
  rw [← hfirst]
  cases hmalformed : firstMalformed? 0 (cases.map Case.pattern) with
  | none =>
      rw [compile_of_firstMalformed? hmalformed]
      exact iff_of_false (fun h => by cases h) (fun h => by cases h.2)
  | some due =>
      rw [compile_of_malformed e options subject hmalformed]
      constructor
      · intro h
        cases h
        exact ⟨rfl, rfl⟩
      · rintro ⟨rfl, h⟩
        cases h
        rfl

theorem exists_compile_eq_ok {cases : List (Case σ ε κ)}
    (h : ∀ c ∈ cases, ¬ c.pattern.Malformed) (session : Session σ) :
    ∃ compiled session', compile e options subject cases session = (.ok compiled, session') := by
  have hwell : ∀ p ∈ cases.map Case.pattern, p.isWellFormed = true :=
    List.forall_mem_map.mpr fun c hc => c.pattern.isWellFormed_iff.mpr (h c hc)
  exact ⟨_, _, compile_of_firstMalformed? (firstMalformed?_eq_none hwell 0)⟩

/-- If cases are rejected, then also if all calls of hooks and of generators are recorded, and the
record does not change. -/
theorem compile_watched_eq_error {cases : List (Case σ ε κ)} {session session' : Session σ}
    {err : CompileError ε} (h : compile e options subject cases session = (.error err, session'))
    (record : HookCall ε → StateM (Watched σ ε) Unit) (calls : List (Call ε)) :
    compile (e.watched.traced record) options subject (Case.watchedFrom 0 cases)
      (session.watched calls) = (.error err, session.watched calls) := by
  rw [compile_eq_error] at h ⊢
  rw [Case.map_pattern_watchedFrom]
  exact ⟨rfl, h.2⟩

theorem compileClauses_of_length_ne {patterns : List (Pattern ε)}
    {generators : List (Generator σ ε κ)} (h : patterns.length ≠ generators.length)
    (session : Session σ) :
    compileClauses e options subject patterns generators session =
      (.error (.arityMismatch patterns.length generators.length), session) := by
  rw [compileClauses, if_neg h]
  rfl

theorem compileClauses_of_length_eq {patterns : List (Pattern ε)}
    {generators : List (Generator σ ε κ)} (h : patterns.length = generators.length) :
    compileClauses e options subject patterns generators =
      compile e options subject (List.zipWith (fun p g => ⟨p, g, false⟩) patterns generators) := by
  rw [compileClauses, if_pos h]

theorem compileClauses_eq_arityMismatch {patterns : List (Pattern ε)}
    {generators : List (Generator σ ε κ)} {session session' : Session σ} {m n : Nat} :
    compileClauses e options subject patterns generators session =
        (.error (.arityMismatch m n), session') ↔
      patterns.length ≠ generators.length ∧ m = patterns.length ∧ n = generators.length ∧
        session' = session := by
  by_cases hlength : patterns.length = generators.length
  · rw [compileClauses_of_length_eq e options subject hlength, compile_eq_error]
    refine iff_of_false ?_ fun h => h.1 hlength
    rintro ⟨-, case, p, -, h⟩
    cases h
  · rw [compileClauses_of_length_ne e options subject hlength]
    constructor
    · intro h
      cases h
      exact ⟨hlength, rfl, rfl, rfl⟩
    · rintro ⟨-, rfl, rfl, rfl⟩
      rfl

end

/-- Cases are rejected exactly for the first malformed pattern among them, and clauses exactly for
two lists of different lengths, whatever is in these. All other cases are compiled, and no check on
the way would find anything, under any options. What is rejected leaves no trace: the names and the
target are as before, and so is any record of the calls of hooks and generators. -/
theorem rejections_are_exact {σ κ : Type} [BEq ε] (e : Emitter σ ε κ) (options : Options)
    (subject : ε) :
    (∀ (cases : List (Case σ ε κ)) (session session' : Session σ) (err : CompileError ε),
      compile e options subject cases session = (.error err, session') ↔
        session' = session ∧ ∃ case p, FirstMalformed (cases.map Case.pattern) case p ∧
          err = .malformedPattern case p .emptyDisjunction) ∧
    (∀ (cases : List (Case σ ε κ)) (session : Session σ), (∀ c ∈ cases, ¬ c.pattern.Malformed) →
      (∃ compiled session', compile e options subject cases session = (.ok compiled, session')) ∧
      ∀ (anyOptions : Options) (mentions : ε → Name → Bool) (root : Name),
        Queue.buildChecked anyOptions mentions (Queue.ofPatterns root (cases.map Case.pattern)) =
          ExceptT.lift
            (Queue.build anyOptions mentions (Queue.ofPatterns root (cases.map Case.pattern)))) ∧
    (∀ (cases : List (Case σ ε κ)) (session session' : Session σ) (err : CompileError ε),
      compile e options subject cases session = (.error err, session') →
      ∀ (record : HookCall ε → StateM (Watched σ ε) Unit) (calls : List (Call ε)),
        compile (e.watched.traced record) options subject (Case.watchedFrom 0 cases)
          (session.watched calls) = (.error err, session.watched calls)) ∧
    ∀ (patterns : List (Pattern ε)) (generators : List (Generator σ ε κ)),
      (∀ (session session' : Session σ) (m n : Nat),
        compileClauses e options subject patterns generators session =
            (.error (.arityMismatch m n), session') ↔
          patterns.length ≠ generators.length ∧ m = patterns.length ∧ n = generators.length ∧
            session' = session) ∧
      (patterns.length = generators.length →
        compileClauses e options subject patterns generators =
          compile e options subject
            (List.zipWith (fun p g => ⟨p, g, false⟩) patterns generators)) := by
  refine ⟨fun cases session session' err => compile_eq_error e options subject,
    fun cases session hcases => ⟨exists_compile_eq_ok e options subject hcases session, ?_⟩,
    fun cases session session' err herr => compile_watched_eq_error e options subject herr,
    fun patterns generators => ⟨fun session session' m n => ?_, ?_⟩⟩
  · intro anyOptions mentions root
    refine Queue.buildChecked_eq anyOptions mentions (Queue.within_ofPatterns trivial ?_)
    exact List.forall_mem_map.mpr hcases
  · exact compileClauses_eq_arityMismatch e options subject
  · exact compileClauses_of_length_eq e options subject

/-- The empty disjunction is in a negation in a conjunction, behind a case that shadows it. -/
theorem rejections_are_exact_of_shadowed :
    let shadowing : Case ObjectSupply Form Form := ⟨.wildcard, fun _ _ => return .nil, false⟩
    let malformed : Case ObjectSupply Form Form :=
      ⟨.and [.bind .t, .not (.or [])], fun _ _ => return .nil, false⟩
    let e := formEmitter (Vocabulary.intern .initial).1.operators
    let session : Session ObjectSupply := ⟨⟨.initial, 0⟩, ⟨0⟩⟩
    compile e {} (.int 3) [shadowing, malformed] session =
        (.error (.malformedPattern 1 malformed.pattern .emptyDisjunction), session) ∧
      compile (e.watched.traced fun _ => modify fun w => { w with target := ⟨w.target.next + 1⟩ })
          {} (.int 3) (Case.watchedFrom 0 [shadowing, malformed]) (session.watched []) =
        (.error (.malformedPattern 1 malformed.pattern .emptyDisjunction), session.watched []) ∧
      (∃ compiled session',
        compile e {} (.int 3) [shadowing] session = (.ok compiled, session')) ∧
      compileClauses e {} (.int 3) [malformed.pattern] [] session =
        (.error (.arityMismatch 1 0), session) ∧
      compileClauses e {} (.int 3) [malformed.pattern] [malformed.generator] =
        compile e {} (.int 3) [malformed] := by
  intro shadowing malformed e session
  obtain ⟨herror, hok, hwatched, hclauses⟩ := rejections_are_exact e {} (.int 3)
  have hshadowing : ¬ shadowing.pattern.Malformed := fun h => by cases h
  have hfirst : FirstMalformed [shadowing.pattern, malformed.pattern] 1 malformed.pattern := by
    refine ⟨rfl, .item (List.mem_cons_of_mem _ List.mem_cons_self) (.not .self), ?_⟩
    intro i q hi hq
    obtain rfl := Nat.lt_one_iff.mp hi
    exact Option.some.inj hq ▸ hshadowing
  have hrejected := (herror [shadowing, malformed] session session _).mpr ⟨rfl, 1, _, hfirst, rfl⟩
  refine ⟨hrejected, hwatched _ _ _ _ hrejected _ [], ?_, ?_, ?_⟩
  · exact (hok [shadowing] session fun c hc => List.mem_singleton.mp hc ▸ hshadowing).1
  · exact ((hclauses [malformed.pattern] []).1 session session 1 0).mpr
      ⟨by decide, rfl, rfl, rfl⟩
  · exact (hclauses [malformed.pattern] [malformed.generator]).2 rfl

end PatternCompiler
