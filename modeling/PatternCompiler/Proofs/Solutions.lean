import PatternCompiler.Proofs.Interpretation
import PatternCompiler.Proofs.Steadiness

/-!
# Solutions

The solutions of a pattern on a value are the bindings with which it matches, in the order in which
alternatives are written. Direct matching passes them on to its continuation one after the other
until one is accepted, and evaluates nothing that comes later. The first match therefore is the
first case that has a solution, with its first solution.
-/

namespace PatternCompiler

set_option autoImplicit false

/-! ## Searches -/

/-- What happens on the way through the solutions of a pattern, in order: constants are made, a
solution is there, or an evaluation fails, which ends the search. -/
inductive Search where
  | finished
  | failed (e : EvalError)
  | making (objects : Nat) (rest : Search)
  | solved (env : Bindings) (rest : Search)

namespace Search

/-- One solution if the condition holds, and none otherwise. -/
def keep (condition : Bool) (env : Bindings) : Search :=
  if condition then solved env finished else finished

/-- Go on with the value of an evaluation. -/
def given (r : Except EvalError Value) (next : Value → Search) : Search :=
  match r with
  | .ok v => next v
  | .error e => failed e

/-- The solutions of the first search and then those of the second one. -/
def append : Search → Search → Search
  | finished, b => b
  | failed e, _ => failed e
  | making n rest, b => making n (rest.append b)
  | solved env rest, b => solved env (rest.append b)

/-- The solutions that the second search has for each solution of the first one. -/
def bind : Search → (Bindings → Search) → Search
  | finished, _ => finished
  | failed e, _ => failed e
  | making n rest, f => making n (rest.bind f)
  | solved env rest, f => (f env).append (rest.bind f)

/-- The environment alone if the search has no solution; the first one ends it. -/
def refuted (env : Bindings) : Search → Search
  | finished => solved env finished
  | failed e => failed e
  | making n rest => making n (rest.refuted env)
  | solved _ _ => finished

/-- The solutions up to the first evaluation that fails. -/
def solutions : Search → List Bindings
  | finished | failed _ => []
  | making _ rest => rest.solutions
  | solved env rest => env :: rest.solutions

/-- The failure of an evaluation, if one fails. -/
def failure : Search → Option EvalError
  | finished => none
  | failed e => some e
  | making _ rest | solved _ rest => rest.failure

end Search

mutual

/-- The number of objects that a constant is made of. -/
def Literal.objects : Literal → Nat
  | .symbol _ | .int _ | .float _ | .char _ => 0
  | .str _ => 1
  | .list items => objectsAll items + items.length

def Literal.objectsAll : List Literal → Nat
  | [] => 0
  | l :: ls => l.objects + objectsAll ls

end

mutual

/-- The solutions of a pattern on a value under bindings. -/
def Pattern.search (vocabulary : Vocabulary) : Pattern Form → Value → Bindings → Search
  | .wildcard, _, env => .keep true env
  | .bind name, v, env =>
      match env.lookup name with
      | some bound => .keep (bound.isEql v) env
      | none => .keep true (env ++ [(name, v)])
  | .literal l, v, env => .making l.objects (.keep (v.equals l.equivalence l) env)
  | .predicate func, v, env =>
      .given (EvalM.result (Matcher.applyFunction vocabulary func v env)) fun r =>
        .keep r.isTruthy env
  | .guard expr, _, env =>
      .given (EvalM.result (expr.evalWith vocabulary.functions env)) fun r => .keep r.isTruthy env
  | .app func inner, v, env =>
      .given (EvalM.result (Matcher.applyFunction vocabulary func v env)) fun projected =>
        Pattern.search vocabulary inner projected env
  | .not inner, v, env => (Pattern.search vocabulary inner v env).refuted env
  | .and items, v, env => Pattern.searchAll vocabulary items v env
  | .or alternatives, v, env => Pattern.searchAny vocabulary alternatives v env

/-- The solutions of a conjunction, each under what the patterns before have bound. -/
def Pattern.searchAll (vocabulary : Vocabulary) : List (Pattern Form) → Value → Bindings → Search
  | [], _, env => .keep true env
  | p :: ps, v, env =>
      (Pattern.search vocabulary p v env).bind fun env => Pattern.searchAll vocabulary ps v env

/-- The solutions of the alternatives, one alternative after the other. -/
def Pattern.searchAny (vocabulary : Vocabulary) : List (Pattern Form) → Value → Bindings → Search
  | [], _, _ => .finished
  | p :: ps, v, env =>
      (Pattern.search vocabulary p v env).append (Pattern.searchAny vocabulary ps v env)

end

/-! ## Searches as lists

Where no evaluation fails, the solutions of a compound pattern are the lists that one expects.
-/

namespace Search

theorem solutions_append {a : Search} (ha : a.failure = none) (b : Search) :
    (a.append b).solutions = a.solutions ++ b.solutions := by
  induction a with
  | finished => rfl
  | failed e => cases ha
  | making n rest ih => exact ih ha
  | solved env rest ih => exact congrArg (env :: ·) (ih ha)

theorem solutions_bind {a : Search} {f : Bindings → Search} (ha : a.failure = none)
    (hf : ∀ env ∈ a.solutions, (f env).failure = none) :
    (a.bind f).solutions = a.solutions.flatMap fun env => (f env).solutions := by
  induction a with
  | finished => rfl
  | failed e => cases ha
  | making n rest ih => exact ih ha hf
  | solved env rest ih =>
      obtain ⟨henv, hrest⟩ := List.forall_mem_cons.mp hf
      rw [bind, solutions_append henv, ih ha hrest, solutions, List.flatMap_cons]

theorem solutions_refuted {a : Search} (ha : a.failure = none) (env : Bindings) :
    (a.refuted env).solutions = if a.solutions = [] then [env] else [] := by
  induction a with
  | finished => rfl
  | failed e => cases ha
  | making n rest ih => exact ih ha
  | solved env' rest _ => rfl

end Search

/-! ## Exploring a search -/

namespace Search

open Matcher (Continuation accept continueIf)

/-- Hand the solutions to a continuation until it accepts one. -/
def explore (k : Continuation) : Search → EvalM (Option Bindings)
  | finished => return none
  | failed e => throw e
  | making n rest => do
      EvalM.allocate fun supply => ((), ⟨supply.next + n⟩)
      explore k rest
  | solved env rest => do
      match ← k env with
      | some found => return some found
      | none => explore k rest

variable {k : Continuation}

theorem explore_keep (condition : Bool) (env : Bindings) :
    (keep condition env).explore k = continueIf condition env k := by
  cases condition with
  | false => rfl
  | true =>
      simp only [keep, explore, continueIf, if_true]
      refine (bind_congr fun found => ?_).trans (bind_pure (k env))
      cases found <;> rfl

theorem explore_given {m : EvalM Value} (h : m.Steady) (next : Value → Search) :
    (given (EvalM.result m) next).explore k = m >>= fun v => (next v).explore k := by
  funext s
  have hm := h.run_eq s
  cases hr : EvalM.result m with
  | ok v =>
      rw [hr] at hm
      rw [EvalM.bind_of_ok hm]
      rfl
  | error e =>
      rw [hr] at hm
      rw [EvalM.bind_of_error hm]
      rfl

theorem explore_append (a b : Search) :
    (a.append b).explore k = (do
      match ← a.explore k with
      | some found => return some found
      | none => b.explore k) := by
  induction a with
  | finished => rfl
  | failed e => rfl
  | making n rest ih => simp only [append, explore, ih, bind_assoc]
  | solved env rest ih =>
      simp only [append, explore, ih, bind_assoc]
      refine bind_congr fun found => ?_
      cases found <;> rfl

theorem explore_bind (a : Search) (f : Bindings → Search) :
    (a.bind f).explore k = a.explore fun env => (f env).explore k := by
  induction a with
  | finished => rfl
  | failed e => rfl
  | making n rest ih => simp only [bind, explore, ih]
  | solved env rest ih => simp only [bind, explore, explore_append, ih]

theorem explore_refuted (a : Search) (env : Bindings) :
    (a.refuted env).explore k = (do
      let matched ← a.explore accept
      continueIf matched.isNone env k) := by
  induction a with
  | finished => exact explore_keep true env
  | failed e => rfl
  | making n rest ih => simp only [refuted, explore, ih, bind_assoc]
  | solved env rest _ => rfl

section

variable {g : Bindings → Option Bindings} {a : Search} {s s' : ObjectSupply}

/-- A result is what the continuation answers to the first solution that it accepts. -/
theorem findSome?_of_explore_eq_ok
    (hk : ∀ env ∈ a.solutions, ∀ s, ∃ s', k env s = .ok (g env, s')) {r : Option Bindings}
    (h : a.explore k s = .ok (r, s')) : a.solutions.findSome? g = r := by
  induction a generalizing s with
  | finished => cases h; rfl
  | failed e => cases h
  | making n rest ih => exact ih hk h
  | solved env rest ih =>
      obtain ⟨henv, hrest⟩ := List.forall_mem_cons.mp hk
      obtain ⟨s₁, hs₁⟩ := henv s
      rw [explore, EvalM.bind_of_ok hs₁] at h
      rw [solutions, List.findSome?_cons]
      cases hg : g env with
      | some found =>
          rw [hg] at h
          cases h
          rfl
      | none =>
          rw [hg] at h
          exact ih hrest h

/-- There is no result only if an evaluation fails and no solution before is accepted. -/
theorem failure_of_explore_eq_error
    (hk : ∀ env ∈ a.solutions, ∀ s, ∃ s', k env s = .ok (g env, s')) {e : EvalError}
    (h : a.explore k s = .error e) : a.failure = some e ∧ a.solutions.findSome? g = none := by
  induction a generalizing s with
  | finished => cases h
  | failed e => cases h; exact ⟨rfl, rfl⟩
  | making n rest ih => exact ih hk h
  | solved env rest ih =>
      obtain ⟨henv, hrest⟩ := List.forall_mem_cons.mp hk
      obtain ⟨s₁, hs₁⟩ := henv s
      rw [explore, EvalM.bind_of_ok hs₁] at h
      rw [solutions, List.findSome?_cons]
      cases hg : g env with
      | some found =>
          rw [hg] at h
          cases h
      | none =>
          rw [hg] at h
          exact ih hrest h

end

end Search

/-! ## Constants -/

namespace Literal

theorem newList_snd (vs : List Value) (s : ObjectSupply) :
    (Value.newList vs s).2 = ⟨s.next + vs.length⟩ := by
  induction vs with
  | nil => rfl
  | cons v vs ih =>
      change (⟨(Value.newList vs s).2.next + 1⟩ : ObjectSupply) = _
      rw [ih]
      rfl

theorem ofLiterals_length (ls : List Literal) (s : ObjectSupply) :
    (Value.ofLiterals ls s).1.length = ls.length := (denotes_ofLiterals ls s).length_eq.symm

mutual

theorem ofLiteral_snd (l : Literal) (s : ObjectSupply) :
    (Value.ofLiteral l s).2 = ⟨s.next + l.objects⟩ := by
  cases l with
  | symbol | int | float | char => rfl
  | str text => rfl
  | list items =>
      change (Value.newList (Value.ofLiterals items s).1 (Value.ofLiterals items s).2).2 = _
      rw [newList_snd, ofLiterals_snd items s, ofLiterals_length, objects, Nat.add_assoc]

theorem ofLiterals_snd (ls : List Literal) (s : ObjectSupply) :
    (Value.ofLiterals ls s).2 = ⟨s.next + objectsAll ls⟩ := by
  cases ls with
  | nil => rfl
  | cons l ls =>
      change (Value.ofLiterals ls (Value.ofLiteral l s).2).2 = _
      rw [ofLiterals_snd ls, ofLiteral_snd l, objectsAll, Nat.add_assoc]

end

/-- Comparison with a constant made for the purpose under the literal's own equivalence. -/
theorem explore_literal (l : Literal) (v : Value) (env : Bindings) (k : Matcher.Continuation) :
    (Search.making l.objects (.keep (v.equals l.equivalence l) env)).explore k = (do
      let constant ← EvalM.allocate (Value.ofLiteral l)
      Matcher.continueIf (v.equiv l.equivalence constant) env k) := by
  have hself := l.equivalence.implies_refl
  funext s
  rw [Search.explore, Search.explore_keep]
  change Matcher.continueIf _ env k ⟨s.next + l.objects⟩ =
    Matcher.continueIf (v.equiv l.equivalence (Value.ofLiteral l s).1) env k (Value.ofLiteral l s).2
  rw [Value.equals, equiv_ofLiteral hself, equiv_ofLiteral hself, ofLiteral_snd]

end Literal

/-! ## Matching -/

/-- Nothing that is evaluated for the pattern calls a function that makes objects: no guard does,
and no application of its functions. -/
structure Pattern.MakesNothing (vocabulary : Vocabulary) (p : Pattern Form) : Prop where
  functions : ∀ f ∈ p.functions, ∀ v,
    (f.application vocabulary.operators (.quote v)).makes vocabulary.functions = false
  guards : ∀ f ∈ p.guards, f.makes vocabulary.functions = false

namespace Matcher

variable {vocabulary : Vocabulary}

theorem applyFunction_steady {f : Form} {v : Value}
    (h : (f.application vocabulary.operators (.quote v)).makes vocabulary.functions = false)
    (env : Bindings) : (applyFunction vocabulary f v env).Steady :=
  Form.eval_steady _ _ h _

mutual

/-- Direct matching explores the solutions. -/
theorem attempt_eq_explore (p : Pattern Form)
    (hf : ∀ f ∈ p.functions, ∀ v,
      (f.application vocabulary.operators (.quote v)).makes vocabulary.functions = false)
    (hg : ∀ f ∈ p.guards, f.makes vocabulary.functions = false) (v : Value) (env : Bindings)
    (k : Continuation) :
    attempt vocabulary p v env k = (p.search vocabulary v env).explore k := by
  cases p with
  | wildcard =>
      rw [attempt, Pattern.search, Search.explore_keep]
      rfl
  | bind name =>
      rw [attempt, bindName, Pattern.search]
      cases env.lookup name with
      | some bound => exact (Search.explore_keep _ env).symm
      | none => exact (Search.explore_keep true _).symm
  | literal l =>
      rw [attempt, Pattern.search]
      exact (l.explore_literal v env k).symm
  | predicate func =>
      rw [attempt, Pattern.search,
        Search.explore_given (applyFunction_steady (hf func List.mem_cons_self v) env)]
      exact bind_congr fun r => (Search.explore_keep _ env).symm
  | guard expr =>
      have hsteady : (expr.evalWith vocabulary.functions env).Steady :=
        Form.eval_steady _ expr (hg expr List.mem_cons_self) _
      rw [attempt, Pattern.search, Search.explore_given hsteady]
      exact bind_congr fun r => (Search.explore_keep _ env).symm
  | app func inner =>
      obtain ⟨hfunc, hf⟩ := List.forall_mem_cons.mp hf
      rw [attempt, Pattern.search, Search.explore_given (applyFunction_steady (hfunc v) env)]
      exact bind_congr fun projected => attempt_eq_explore inner hf hg projected env k
  | not inner =>
      rw [attempt, Pattern.search, Search.explore_refuted,
        attempt_eq_explore inner hf hg v env accept]
  | and items =>
      rw [attempt, Pattern.search]
      exact attemptAll_eq_explore items hf hg v env k
  | or alternatives =>
      rw [attempt, Pattern.search]
      exact attemptAny_eq_explore alternatives hf hg v env k

theorem attemptAll_eq_explore (ps : List (Pattern Form))
    (hf : ∀ f ∈ Pattern.listFunctions ps, ∀ v,
      (f.application vocabulary.operators (.quote v)).makes vocabulary.functions = false)
    (hg : ∀ f ∈ Pattern.listGuards ps, f.makes vocabulary.functions = false) (v : Value)
    (env : Bindings) (k : Continuation) :
    attemptAll vocabulary ps v env k = (Pattern.searchAll vocabulary ps v env).explore k := by
  cases ps with
  | nil =>
      rw [attemptAll, Pattern.searchAll, Search.explore_keep]
      rfl
  | cons p ps =>
      obtain ⟨hp, hps⟩ := List.forall_mem_append.mp hf
      obtain ⟨hgp, hgps⟩ := List.forall_mem_append.mp hg
      rw [attemptAll, Pattern.searchAll, Search.explore_bind, attempt_eq_explore p hp hgp]
      exact congrArg (Search.explore · _)
        (funext fun env => attemptAll_eq_explore ps hps hgps v env k)

theorem attemptAny_eq_explore (ps : List (Pattern Form))
    (hf : ∀ f ∈ Pattern.listFunctions ps, ∀ v,
      (f.application vocabulary.operators (.quote v)).makes vocabulary.functions = false)
    (hg : ∀ f ∈ Pattern.listGuards ps, f.makes vocabulary.functions = false) (v : Value)
    (env : Bindings) (k : Continuation) :
    attemptAny vocabulary ps v env k = (Pattern.searchAny vocabulary ps v env).explore k := by
  cases ps with
  | nil => rfl
  | cons p ps =>
      obtain ⟨hp, hps⟩ := List.forall_mem_append.mp hf
      obtain ⟨hgp, hgps⟩ := List.forall_mem_append.mp hg
      rw [attemptAny, Pattern.searchAny, Search.explore_append, attempt_eq_explore p hp hgp]
      refine bind_congr fun found => ?_
      cases found with
      | some found => rfl
      | none => exact attemptAny_eq_explore ps hps hgps v env k

end

/-- The outcome is the first case with a solution, with its first one; without such a case there is
none. -/
def Selects (vocabulary : Vocabulary) (v : Value) (patterns : List (Pattern Form)) :
    Option (Nat × Bindings) → Prop
  | none => ∀ p ∈ patterns, (p.search vocabulary v []).solutions = []
  | some (case, env) =>
      (∃ p, patterns[case]? = some p ∧ (p.search vocabulary v []).solutions.head? = some env) ∧
      ∀ earlier < case, ∀ p, patterns[earlier]? = some p →
        (p.search vocabulary v []).solutions = []

/-- A case without a solution goes before. -/
theorem Selects.later {v : Value} {p : Pattern Form} {patterns : List (Pattern Form)}
    (hp : (p.search vocabulary v []).solutions = []) {found : Option (Nat × Bindings)}
    (h : Selects vocabulary v patterns found) :
    Selects vocabulary v (p :: patterns) (found.map fun m => (m.1 + 1, m.2)) := by
  cases found with
  | none => exact List.forall_mem_cons.mpr ⟨hp, h⟩
  | some m =>
      obtain ⟨hfirst, hbefore⟩ := h
      refine ⟨hfirst, fun earlier hearlier q hq => ?_⟩
      cases earlier with
      | zero =>
          cases hq
          exact hp
      | succ earlier => exact hbefore earlier (Nat.lt_of_succ_lt_succ hearlier) q hq

section

variable {p : Pattern Form} {v : Value} {env : Bindings} {s s' : ObjectSupply}

theorem head?_of_attempt_eq_ok (hp : p.MakesNothing vocabulary) {found : Option Bindings}
    (h : attempt vocabulary p v env accept s = .ok (found, s')) :
    (p.search vocabulary v env).solutions.head? = found := by
  rw [attempt_eq_explore p hp.functions hp.guards] at h
  rw [← Search.findSome?_of_explore_eq_ok (g := some) (fun env _ s => ⟨s, rfl⟩) h]
  cases (p.search vocabulary v env).solutions <;> rfl

theorem failure_of_attempt_eq_error (hp : p.MakesNothing vocabulary) {e : EvalError}
    (h : attempt vocabulary p v env accept s = .error e) :
    (p.search vocabulary v env).failure = some e := by
  rw [attempt_eq_explore p hp.functions hp.guards] at h
  exact (Search.failure_of_explore_eq_error (g := some) (fun env _ s => ⟨s, rfl⟩) h).1

end

variable {patterns : List (Pattern Form)} {v : Value} {index : Nat} {s s' : ObjectSupply}

/-- Cases are tried in order, and the first solution of one ends the match. -/
theorem selects_of_firstMatchFrom (hp : ∀ p ∈ patterns, p.MakesNothing vocabulary)
    {outcome : Option (Nat × Bindings)}
    (h : firstMatchFrom vocabulary v index patterns s = .ok (outcome, s')) :
    ∃ found, outcome = found.map (fun m => (index + m.1, m.2)) ∧
      Selects vocabulary v patterns found := by
  induction patterns generalizing index s with
  | nil =>
      cases h
      exact ⟨none, rfl, fun p hp => by cases hp⟩
  | cons p patterns ih =>
      obtain ⟨hfirst, hp⟩ := List.forall_mem_cons.mp hp
      rw [firstMatchFrom] at h
      obtain ⟨found, s₁, hfound, h⟩ := EvalM.bind_eq_ok.mp h
      have hhead := head?_of_attempt_eq_ok hfirst hfound
      cases found with
      | some env =>
          cases h
          exact ⟨some (0, env), rfl, ⟨p, rfl, hhead⟩, fun earlier hearlier => by omega⟩
      | none =>
          obtain ⟨found, rfl, hfound⟩ := ih hp h
          refine ⟨_, ?_, hfound.later (List.head?_eq_none_iff.mp hhead)⟩
          cases found with
          | none => rfl
          | some m =>
              have hcase : index + 1 + m.1 = index + (m.1 + 1) := by omega
              simp only [Option.map_some, hcase]

theorem failure_of_firstMatchFrom (hp : ∀ p ∈ patterns, p.MakesNothing vocabulary) {e : EvalError}
    (h : firstMatchFrom vocabulary v index patterns s = .error e) :
    ∃ p ∈ patterns, (p.search vocabulary v []).failure = some e := by
  induction patterns generalizing index s with
  | nil => cases h
  | cons p patterns ih =>
      obtain ⟨hfirst, hp⟩ := List.forall_mem_cons.mp hp
      rw [firstMatchFrom] at h
      rcases EvalM.bind_eq_error.mp h with h | ⟨found, s₁, -, h⟩
      · exact ⟨p, List.mem_cons_self, failure_of_attempt_eq_error hfirst h⟩
      · cases found with
        | some env => cases h
        | none =>
            obtain ⟨q, hq, hfailure⟩ := ih hp h
            exact ⟨q, List.mem_cons_of_mem p hq, hfailure⟩

/-- Direct matching hands a continuation the solutions in order until one is accepted. What the
continuation answers to that one is the result, unless an evaluation fails before. The first match
is the first case with a solution, with its first solution, unless an evaluation fails. -/
theorem matching_explores_solutions (vocabulary : Vocabulary) (patterns : List (Pattern Form))
    (hp : ∀ p ∈ patterns, p.MakesNothing vocabulary) (v : Value) :
    (∀ p ∈ patterns, ∀ (env : Bindings) (k : Continuation),
      attempt vocabulary p v env k = (p.search vocabulary v env).explore k ∧
      ∀ g : Bindings → Option Bindings,
        (∀ env' ∈ (p.search vocabulary v env).solutions, ∀ s, ∃ s', k env' s = .ok (g env', s')) →
        ∀ s,
          (∃ s', attempt vocabulary p v env k s =
            .ok ((p.search vocabulary v env).solutions.findSome? g, s')) ∨
          ∃ e, (p.search vocabulary v env).failure = some e ∧
            (p.search vocabulary v env).solutions.findSome? g = none ∧
            attempt vocabulary p v env k s = .error e) ∧
    ∀ s,
      (∃ found s', firstMatch vocabulary patterns v s = .ok (found, s') ∧
        Selects vocabulary v patterns found) ∨
      ∃ e, (∃ p ∈ patterns, (p.search vocabulary v []).failure = some e) ∧
        firstMatch vocabulary patterns v s = .error e := by
  constructor
  · intro p hmem env k
    have heq := attempt_eq_explore p (hp p hmem).functions (hp p hmem).guards v env k
    refine ⟨heq, fun g hk s => ?_⟩
    rw [heq]
    cases hrun : (p.search vocabulary v env).explore k s with
    | ok r =>
        rw [Search.findSome?_of_explore_eq_ok hk hrun]
        exact .inl ⟨r.2, rfl⟩
    | error e =>
        obtain ⟨hfailure, hnone⟩ := Search.failure_of_explore_eq_error hk hrun
        exact .inr ⟨e, hfailure, hnone, rfl⟩
  · intro s
    rw [firstMatch]
    cases hrun : firstMatchFrom vocabulary v 0 patterns s with
    | ok r =>
        obtain ⟨found, houtcome, hselects⟩ := selects_of_firstMatchFrom hp hrun
        have hfound : r.1 = found := by
          rw [houtcome]
          cases found with
          | none => rfl
          | some m => simp only [Option.map_some, Nat.zero_add]
        exact .inl ⟨r.1, r.2, rfl, hfound ▸ hselects⟩
    | error e => exact .inr ⟨e, failure_of_firstMatchFrom hp hrun, rfl⟩

/-- The guard rejects the first alternative's binding and accepts the second one's. -/
theorem matching_explores_solutions_of_alternatives :
    let vocabulary : Vocabulary :=
      ⟨⟨⟨3⟩, ⟨4⟩, ⟨5⟩, ⟨6⟩, ⟨7⟩, ⟨8⟩, ⟨9⟩⟩, [(⟨10⟩, .car), (⟨11⟩, .integerp)]⟩
    let a : Name := ⟨12⟩
    let p : Pattern Form :=
      .and [.or [.bind a, .app (.function ⟨10⟩) (.bind a)], .guard (.call ⟨11⟩ [.var a])]
    ∃ s', firstMatch vocabulary [p] (.cons 0 (.int 7) .nil) ⟨1⟩ =
      .ok (some (0, [(a, .int 7)]), s') := by
  intro vocabulary a p
  have hp : ∀ q ∈ [p], q.MakesNothing vocabulary := by
    refine List.forall_mem_singleton.mpr ⟨List.forall_mem_singleton.mpr fun v => rfl, ?_⟩
    exact List.forall_mem_singleton.mpr rfl
  have hsearch : p.search vocabulary (.cons 0 (.int 7) .nil) [] = .solved [(a, .int 7)] .finished :=
    rfl
  rcases (matching_explores_solutions vocabulary [p] hp (.cons 0 (.int 7) .nil)).2 ⟨1⟩ with
    ⟨found, s', hrun, hselects⟩ | ⟨e, hfailure, -⟩
  · cases found with
    | none =>
        have hnone := hselects p List.mem_cons_self
        rw [hsearch] at hnone
        cases hnone
    | some m =>
        obtain ⟨⟨q, hq, hhead⟩, -⟩ := hselects
        obtain ⟨case, env⟩ := m
        cases case with
        | zero =>
            cases hq
            rw [hsearch] at hhead
            cases hhead
            exact ⟨s', hrun⟩
        | succ case => cases hq
  · obtain ⟨q, hq, hfailure⟩ := hfailure
    rw [List.mem_singleton.mp hq, hsearch] at hfailure
    cases hfailure

end Matcher

end PatternCompiler
