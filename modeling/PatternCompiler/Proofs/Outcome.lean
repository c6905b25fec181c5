import PatternCompiler.Proofs.Signature

/-!
# What a queue means

A queue, like a list of cases, has an outcome: its branches are tried in order, each by matching
what it has pending directly on the values of its subjects. The queue of a case list has the outcome
of the case list. Steps that only rearrange a queue keep its outcome, folded alternatives included,
although matching them one by one would make more objects.
-/

namespace PatternCompiler

set_option autoImplicit false

namespace Pending

variable (vocabulary : Vocabulary) (σ : Valuation)

def attempt : Pending Form → Bindings → Matcher.Continuation → EvalM (Option Bindings)
  | .pattern subject p, env, k => Matcher.attempt vocabulary p (σ subject) env k
  | .member subject set _, env, k =>
      Matcher.continueIf (set.any fun l => l.denotes (σ subject)) env k
  | .sameAs subject other, env, k => Matcher.continueIf ((σ other).isEql (σ subject)) env k

def attemptAll : List (Pending Form) → Bindings → Matcher.Continuation → EvalM (Option Bindings)
  | [], env, k => k env
  | m :: ms, env, k => attempt vocabulary σ m env fun env => attemptAll ms env k

theorem attemptAll_append (ms ns : List (Pending Form)) (env : Bindings)
    (k : Matcher.Continuation) :
    attemptAll vocabulary σ (ms ++ ns) env k =
      attemptAll vocabulary σ ms env fun env => attemptAll vocabulary σ ns env k := by
  induction ms generalizing env with
  | nil => rfl
  | cons m ms ih => simp only [List.cons_append, attemptAll, ih]

theorem attemptAll_map_pattern (subject : Name) (ps : List (Pattern Form)) (env : Bindings)
    (k : Matcher.Continuation) :
    attemptAll vocabulary σ (ps.map (.pattern subject)) env k =
      Matcher.attemptAll vocabulary ps (σ subject) env k := by
  induction ps generalizing env with
  | nil => rfl
  | cons p ps ih => simp only [List.map_cons, attemptAll, attempt, Matcher.attemptAll, ih]

end Pending

section

variable (vocabulary : Vocabulary) (σ : Valuation)

mutual

def Branch.outcome : Branch Form → EvalM Outcome → EvalM Outcome
  | ⟨pending, env, goal⟩, rest =>
      Pending.attemptAll vocabulary σ pending (env.values σ) Matcher.accept
        >>= concludeWith (Goal.outcome goal) rest

def Goal.outcome : Goal (List (Branch Form)) → Bindings → EvalM Outcome
  | .select case, found => return some (case, found)
  | .resume queue, _ => Queue.outcome queue

def Queue.outcome : List (Branch Form) → EvalM Outcome
  | [] => return none
  | branch :: queue => branch.outcome (Queue.outcome queue)

end

end

variable {vocabulary : Vocabulary} {σ : Valuation}

/-- The matches left in a branch, as a continuation. -/
def Branch.continuation (vocabulary : Vocabulary) (σ : Valuation) (branch : Branch Form) :
    Matcher.Continuation :=
  fun env => Pending.attemptAll vocabulary σ branch.pending env Matcher.accept

theorem Branch.outcome_eq (branch : Branch Form) (rest : EvalM Outcome) :
    branch.outcome vocabulary σ rest =
      Pending.attemptAll vocabulary σ branch.pending (branch.env.values σ) Matcher.accept
        >>= concludeWith (branch.goal.outcome vocabulary σ) rest := by
  obtain ⟨pending, env, goal⟩ := branch
  rw [Branch.outcome]

namespace Queue

theorem outcome_cons (branch : Branch Form) (queue : Queue Form) :
    outcome vocabulary σ (branch :: queue) =
      branch.continuation vocabulary σ (branch.env.values σ)
        >>= concludeWith (branch.goal.outcome vocabulary σ) (outcome vocabulary σ queue) := by
  rw [outcome, Branch.outcome_eq]
  rfl

theorem outcome_push (branch : Branch Form) (m : Pending Form) (queue : Queue Form) :
    outcome vocabulary σ (branch.push m :: queue) =
      m.attempt vocabulary σ (branch.env.values σ) (branch.continuation vocabulary σ)
        >>= concludeWith (branch.goal.outcome vocabulary σ) (outcome vocabulary σ queue) := by
  rw [outcome_cons]
  rfl

theorem firstMatchFrom_eq_outcome (root : Name) (index : Nat) (patterns : List (Pattern Form)) :
    Matcher.firstMatchFrom vocabulary (σ root) index patterns =
      outcome vocabulary σ (patterns.mapIdx fun i => Branch.ofCase root (i + index)) := by
  induction patterns generalizing index with
  | nil => simp only [List.mapIdx_nil, outcome, Matcher.firstMatchFrom]
  | cons p ps ih =>
      rw [List.mapIdx_cons, outcome_cons, Matcher.firstMatchFrom, ih (index + 1)]
      refine bind_congr fun found => ?_
      cases found with
      | some env => simp only [concludeWith, Branch.ofCase, Goal.outcome, Nat.zero_add]
      | none => simp only [concludeWith, Nat.add_assoc, Nat.add_comm 1 index]

/-- The queue of a case list means what the case list means. -/
theorem outcome_ofPatterns (root : Name) (patterns : List (Pattern Form)) :
    outcome vocabulary σ (ofPatterns root patterns) =
      Matcher.firstMatch vocabulary patterns (σ root) :=
  (firstMatchFrom_eq_outcome root 0 patterns).symm

end Queue

/-! ## Rearrangements -/

namespace Environment

theorem lookup_values (env : Environment) (x : Name) :
    (env.values σ).lookup x = (env.subject? x).map σ := by
  obtain ⟨bindings⟩ := env
  simp only [values, subject?, lookup?]
  induction bindings with
  | nil => rfl
  | cons b bs ih =>
      rw [List.map_cons, List.lookup_cons, List.find?_cons]
      by_cases hx : b.name = x
      · simp [hx]
      · have hne : (x == b.name) = false := by simp [Ne.symm hx]
        simp [hx, hne, ih]

theorem values_eq (env : Environment) (σ : Valuation) :
    env.values σ = env.pairs.map fun p => (p.1, σ p.2) := by
  simp only [values, pairs, List.map_map, Function.comp_def]

theorem values_eq_of_pairs {env env' : Environment} (h : env.pairs = env'.pairs) :
    env.values σ = env'.values σ := by rw [values_eq, values_eq, h]

end Environment

namespace Queue

theorem outcome_bind (branch : Branch Form) (subject x : Name) (queue : Queue Form) :
    outcome vocabulary σ (branch.push (.pattern subject (.bind x)) :: queue) =
      outcome vocabulary σ (branch.bind x subject :: queue) := by
  have hlookup := branch.env.lookup_values (σ := σ) x
  rw [outcome_push]
  simp only [Pending.attempt, Matcher.attempt, Matcher.bindName, hlookup, Branch.bind,
    Environment.extend, Environment.subject?]
  cases hbound : branch.env.lookup? x with
  | none =>
      simp only [Option.map_none]
      rw [outcome_cons]
      simp [Branch.continuation, Environment.values]
  | some bound =>
      simp only [Option.map_some]
      split
      · rename_i hsame
        rw [outcome_cons, hsame, Value.isEql_refl]
        rfl
      · rw [outcome_push, Environment.values_eq_of_pairs (Environment.pairs_markUsed _ _)]
        rfl

theorem outcome_and (branch : Branch Form) (subject : Name) (items : List (Pattern Form))
    (queue : Queue Form) :
    outcome vocabulary σ (branch.push (.pattern subject (.and items)) :: queue) =
      outcome vocabulary σ
        ({ branch with pending := items.map (.pattern subject) ++ branch.pending } :: queue) := by
  rw [outcome_push, outcome_cons]
  simp only [Pending.attempt, Matcher.attempt, Branch.continuation, Pending.attemptAll_append,
    Pending.attemptAll_map_pattern]
  rfl

theorem outcome_not (branch : Branch Form) (subject : Name) (inner : Pattern Form)
    (queue : Queue Form) :
    outcome vocabulary σ (branch.push (.pattern subject (.not inner)) :: queue) =
      outcome vocabulary σ (branch.probe subject inner queue :: branch :: queue) := by
  rw [outcome_push, outcome_cons]
  simp only [Pending.attempt, Matcher.attempt, bind_assoc]
  refine bind_congr fun matched => ?_
  cases matched with
  | some found => simp only [Branch.probe, concludeWith, Goal.outcome]; rfl
  | none => simp only [concludeWith, outcome_cons branch]; rfl

/-- The branches that alternatives fan out to, in front of a queue. -/
theorem outcome_or (branch : Branch Form) (subject : Name) (alternatives : List (Pattern Form))
    (queue : Queue Form) :
    outcome vocabulary σ (branch.push (.pattern subject (.or alternatives)) :: queue) =
      outcome vocabulary σ ((alternatives.map (.pattern subject)).map branch.push ++ queue) := by
  rw [outcome_push]
  simp only [Pending.attempt, Matcher.attempt]
  induction alternatives with
  | nil => rfl
  | cons p ps ih =>
      rw [List.map_cons, List.map_cons, List.cons_append, outcome_push, ← ih]
      simp only [Matcher.attemptAny, Pending.attempt, bind_assoc]
      refine bind_congr fun found => ?_
      cases found with
      | some found => rfl
      | none => rfl

end Queue

/-! ## Meaning

Under a signature comparators suit their literals, and a queue has the outcome that it means. -/

/-- What the signature lists, names of pattern variables apart. -/
def Signature.repertoire (sig : Signature) : Repertoire Form :=
  ⟨sig.subject, sig.function, sig.guard⟩

section

variable {sig : Signature}

theorem Equivalence.Suits.any_equals {eqv : Equivalence} {set : List Literal} (h : eqv.Suits set)
    (v : Value) : set.any (v.equals eqv) = set.any fun l => l.denotes v := by
  induction set with
  | nil => rfl
  | cons l ls ih =>
      obtain ⟨hl, hls⟩ := List.forall_mem_cons.mp h
      rw [List.any_cons, List.any_cons, ih hls, Literal.equals_eq,
        Literal.comparable_of_equivalence hl, Bool.true_and]

theorem Pattern.Over.from {p : Pattern Form} (h : p.Over sig) : p.From sig.repertoire :=
  ⟨h.functions, h.guards⟩

theorem Pending.Over.from {m : Pending Form} (h : m.Over sig) : m.From sig.repertoire := by
  cases m with
  | pattern subject p => exact ⟨h.1, h.2.from⟩
  | member subject set eqv => exact h.1
  | sameAs subject other => exact h

namespace Pending

theorem attempt_eq {m : Pending Form} (hm : m.Over sig) (env : Bindings)
    (k : Matcher.Continuation) :
    m.attempt vocabulary σ env k = (Interpretation.within vocabulary []).attemptPending σ m env k := by
  cases m with
  | pattern subject p => exact (Interpretation.within_nil_attempt vocabulary p _ env k).symm
  | member subject set eqv => rw [attempt, Interpretation.attemptPending, hm.2.any_equals]
  | sameAs subject other => rfl

theorem attemptAll_eq {ms : List (Pending Form)} (hms : ∀ m ∈ ms, m.Over sig) (env : Bindings)
    (k : Matcher.Continuation) :
    attemptAll vocabulary σ ms env k =
      (Interpretation.within vocabulary []).attemptPendings σ ms env k := by
  induction ms generalizing env with
  | nil => rfl
  | cons m ms ih =>
      obtain ⟨hm, hms⟩ := List.forall_mem_cons.mp hms
      rw [attemptAll, Interpretation.attemptPendings, attempt_eq hm]
      simp only [ih hms]

end Pending

mutual

theorem Branch.Over.from {branch : Branch Form} (h : branch.Over sig) :
    branch.From sig.repertoire := by
  match branch with
  | ⟨pending, env, goal⟩ =>
      rw [Branch.Over] at h
      rw [Branch.From]
      exact ⟨fun m hm => (h.1 m hm).from, h.2.1.subjects, Goal.Over.from h.2.2⟩

theorem Goal.Over.from {goal : Goal (List (Branch Form))} (h : goal.Over sig) :
    goal.From sig.repertoire := by
  match goal with
  | .select case =>
      rw [Goal.From]
      trivial
  | .resume queue =>
      rw [Goal.Over] at h
      rw [Goal.From]
      exact Queue.Over.from h

theorem Queue.Over.from {queue : List (Branch Form)} (h : Queue.Over sig queue) :
    Queue.From sig.repertoire queue := by
  match queue with
  | [] =>
      rw [Queue.From]
      trivial
  | branch :: queue =>
      rw [Queue.Over] at h
      rw [Queue.From]
      exact ⟨Branch.Over.from h.1, Queue.Over.from h.2⟩

end

mutual

theorem Branch.outcome_eq_meaning {branch : Branch Form} (h : branch.Over sig)
    (rest : EvalM Outcome) :
    branch.outcome vocabulary σ rest =
      (Interpretation.within vocabulary []).branchMeaning σ branch rest := by
  match branch with
  | ⟨pending, env, goal⟩ =>
      rw [Branch.Over] at h
      have hgoal : goal.outcome vocabulary σ =
          (Interpretation.within vocabulary []).goalMeaning σ goal :=
        funext fun found => Goal.outcome_eq_meaning h.2.2 found
      rw [Branch.outcome, Interpretation.branchMeaning, Pending.attemptAll_eq h.1, hgoal]

theorem Goal.outcome_eq_meaning {goal : Goal (List (Branch Form))} (h : goal.Over sig)
    (found : Bindings) :
    goal.outcome vocabulary σ found =
      (Interpretation.within vocabulary []).goalMeaning σ goal found := by
  match goal with
  | .select case => rw [Goal.outcome, Interpretation.goalMeaning]
  | .resume queue =>
      rw [Goal.Over] at h
      rw [Goal.outcome, Interpretation.goalMeaning]
      exact Queue.outcome_eq_meaning h

theorem Queue.outcome_eq_meaning {queue : List (Branch Form)} (h : Queue.Over sig queue) :
    Queue.outcome vocabulary σ queue = (Interpretation.within vocabulary []).meaning σ queue := by
  match queue with
  | [] => rw [Queue.outcome, Interpretation.meaning]
  | branch :: queue =>
      rw [Queue.Over] at h
      rw [Queue.outcome, Interpretation.meaning, Queue.outcome_eq_meaning h.2,
        Branch.outcome_eq_meaning h.1]

end

end

/-! ## Paired runs -/

namespace Pairing

variable {frozen : Bool}

/-- Whatever the signature allows corresponds in the two runs. -/
structure Suits (w : Pairing frozen) (table : FunctionTable) (sig : Signature)
    (σ σ' : Valuation) : Prop where
  subjects : ∀ s, sig.subject s → w.Relates (σ s) (σ' s)
  functions : ∀ f, sig.function f → w.AdmitsFunction table f
  guards : ∀ f, sig.guard f → w.Admits table f

variable {w w' : Pairing frozen} {table : FunctionTable} {sig : Signature} {σ σ' : Valuation}

theorem Suits.mono (h : w.Suits table sig σ σ') (hw : w.Extends w') : w'.Suits table sig σ σ' where
  subjects s hs := (h.subjects s hs).mono hw
  functions f hf := (h.functions f hf).mono hw
  guards f hf := (h.guards f hf).mono hw

theorem Suits.respects (h : w.Suits vocabulary.functions sig σ σ') :
    w.Respects (.within vocabulary []) sig.repertoire σ σ' where
  subjects := h.subjects
  functions f hf := (h.functions f hf).respects
  guards f hf := (h.guards f hf).respects

end Pairing

section

variable {frozen : Bool} {strict : Prop} {N : Name → Prop} {w : Pairing frozen} {sig : Signature}
  {σ' : Valuation}

theorem Goal.outcome_simulates {goal : Goal (List (Branch Form))}
    (h : w.Suits vocabulary.functions sig σ σ') (hg : goal.Over sig) {env env' : Bindings}
    (he : w.RelatesEnv N env env') :
    Simulates strict w Pairing.Chosen (goal.outcome vocabulary σ env)
      (goal.outcome vocabulary σ' env') := by
  rw [Goal.outcome_eq_meaning hg, Goal.outcome_eq_meaning hg]
  exact Interpretation.goalMeaning_simulates h.respects hg.from he

/-- What a queue means depends neither on the objects made before nor on the identities of the
objects in its subjects. -/
theorem Queue.outcome_simulates {queue : Queue Form} (h : w.Suits vocabulary.functions sig σ σ')
    (hq : Queue.Over sig queue) :
    Simulates strict w Pairing.Chosen (Queue.outcome vocabulary σ queue)
      (Queue.outcome vocabulary σ' queue) := by
  rw [Queue.outcome_eq_meaning hq, Queue.outcome_eq_meaning hq]
  exact Interpretation.meaning_simulates h.respects hq.from

theorem Branch.continuation_eq {branch : Branch Form} (hb : branch.Over sig) (env : Bindings) :
    branch.continuation vocabulary σ env =
      (Interpretation.within vocabulary []).attemptPendings σ branch.pending env Matcher.accept :=
  Pending.attemptAll_eq (Branch.over_iff.mp hb).1 env Matcher.accept

theorem Branch.continuation_simulates {branch : Branch Form}
    (h : w.Suits vocabulary.functions sig σ σ') (hb : branch.Over sig) :
    Simulates strict w (Pairing.Found fun _ => True)
      (branch.continuation vocabulary σ (branch.env.values σ))
      (branch.continuation vocabulary σ' (branch.env.values σ')) := by
  obtain ⟨hpending, henv, -⟩ := Branch.from_iff.mp hb.from
  rw [Branch.continuation_eq hb, Branch.continuation_eq hb]
  exact Interpretation.attemptPendings_simulates Pairing.found_report h.respects hpending
    (fun _ _ => trivial) (h.respects.environment henv fun _ _ => trivial)
    fun _ he => Matcher.accept_simulates he

/-- Branches with one goal may stand for each other in front of queues that may. -/
theorem Queue.cons_simulates {branch branch' : Branch Form} {queue queue' : Queue Form}
    (h : w.Suits vocabulary.functions sig σ σ') (hg : branch.goal.Over sig)
    (hsame : branch'.goal = branch.goal)
    (hb : Simulates strict w (Pairing.Found N)
      (branch.continuation vocabulary σ (branch.env.values σ))
      (branch'.continuation vocabulary σ' (branch'.env.values σ')))
    (hq : ∀ {w' : Pairing frozen}, w.Extends w' → Simulates strict w' Pairing.Chosen
      (outcome vocabulary σ queue) (outcome vocabulary σ' queue')) :
    Simulates strict w Pairing.Chosen (outcome vocabulary σ (branch :: queue))
      (outcome vocabulary σ' (branch' :: queue')) := by
  rw [Queue.outcome_cons, Queue.outcome_cons, hsame]
  exact concludeWith_simulates hb (fun hw he => Goal.outcome_simulates (h.mono hw) hg he) hq

end

/-! ## Other variables -/

/-- The valuations give every subject of the signature the same value. -/
def Valuation.AgreeOn (sig : Signature) (σ σ' : Valuation) : Prop := ∀ s, sig.subject s → σ s = σ' s

section

variable {sig : Signature} {σ' : Valuation} (h : σ.AgreeOn sig σ')
include h

theorem Environment.values_congr {env : Environment} (he : env.Over sig) :
    env.values σ = env.values σ' := by
  refine List.map_congr_left fun b hb => ?_
  rw [h _ (he.subjects _ (List.mem_map_of_mem hb))]

theorem Pending.attemptAll_congr {ms : List (Pending Form)} (hms : ∀ m ∈ ms, m.Over sig)
    (k : Matcher.Continuation) (env : Bindings) :
    attemptAll vocabulary σ ms env k = attemptAll vocabulary σ' ms env k := by
  induction ms generalizing env with
  | nil => rfl
  | cons m ms ih =>
      obtain ⟨hm, hms⟩ := List.forall_mem_cons.mp hms
      have hk : (fun env => attemptAll vocabulary σ ms env k) =
          fun env => attemptAll vocabulary σ' ms env k := funext fun env => ih hms env
      cases m with
      | pattern subject p => simp only [attemptAll, attempt, hk, h _ hm.1]
      | member subject set eqv => simp only [attemptAll, attempt, hk, h _ hm.1]
      | sameAs subject other => simp only [attemptAll, attempt, hk, h _ hm.1, h _ hm.2]

omit h

mutual

theorem Branch.outcome_congr {branch : Branch Form} (h : σ.AgreeOn sig σ') (hb : branch.Over sig)
    (rest : EvalM Outcome) :
    branch.outcome vocabulary σ rest = branch.outcome vocabulary σ' rest := by
  match branch with
  | ⟨pending, env, goal⟩ =>
      rw [Branch.Over] at hb
      have hgoal : goal.outcome vocabulary σ = goal.outcome vocabulary σ' :=
        funext fun found => Goal.outcome_congr h hb.2.2 found
      rw [Branch.outcome, Branch.outcome, Pending.attemptAll_congr h hb.1,
        Environment.values_congr h hb.2.1, hgoal]

theorem Goal.outcome_congr {goal : Goal (List (Branch Form))} (h : σ.AgreeOn sig σ')
    (hg : goal.Over sig) (found : Bindings) :
    goal.outcome vocabulary σ found = goal.outcome vocabulary σ' found := by
  match goal with
  | .select case => simp only [Goal.outcome]
  | .resume queue =>
      rw [Goal.Over] at hg
      simp only [Goal.outcome]
      exact Queue.outcome_congr h hg

theorem Queue.outcome_congr {queue : List (Branch Form)} (h : σ.AgreeOn sig σ')
    (hq : Queue.Over sig queue) :
    Queue.outcome vocabulary σ queue = Queue.outcome vocabulary σ' queue := by
  match queue with
  | [] => simp only [Queue.outcome]
  | branch :: queue =>
      rw [Queue.Over] at hq
      simp only [Queue.outcome]
      rw [Queue.outcome_congr h hq.2, Branch.outcome_congr h hq.1]

end

end

/-! ## The same outcome -/

/-- The same names in the same order, with values of the same content. -/
def SameBindings : Bindings → Bindings → Prop :=
  List.Forall₂ fun x y => x.1 = y.1 ∧ x.2.SameContent y.2

/-- The same case, with the same names bound to values of the same content. -/
def SameOutcome : Outcome → Outcome → Prop :=
  Option.Rel fun a b =>
    a.1 = b.1 ∧ ∀ x, Option.Rel Value.SameContent (a.2.lookup x) (b.2.lookup x)

/-- What the first run gives, the second one gives too, up to `post`. If `strict`, it also fails
when the first one fails. -/
structure Agrees {α β : Type} (strict : Prop) (post : α → β → Prop)
    (r : Except EvalError (α × ObjectSupply)) (r' : Except EvalError (β × ObjectSupply)) : Prop where
  ok : ∀ {a : α} {s : ObjectSupply}, r = .ok (a, s) → ∃ b s', r' = .ok (b, s') ∧ post a b
  error : strict → ∀ {e : EvalError}, r = .error e → ∃ e', r' = .error e' ∧ e.SameContent e'

theorem sameBindings_lookup {env env' : Bindings} (h : SameBindings env env') (x : Name) :
    Option.Rel Value.SameContent (env.lookup x) (env'.lookup x) := by
  unfold SameBindings at h
  induction h with
  | nil => exact .none
  | @cons a b as bs hab _ ih =>
      rw [List.lookup_cons, List.lookup_cons, hab.1]
      split
      · exact .some hab.2
      · exact ih

theorem Pairing.RelatesScope.sameBindings {frozen : Bool} {w : Pairing frozen}
    {env env' : Bindings} (h : w.RelatesScope env env') : SameBindings env env' :=
  List.Forall₂.imp (fun _ _ hab => ⟨hab.1, Value.Corresponds.sameContent hab.2⟩) h

theorem Pairing.Chosen.sameOutcome {frozen : Bool} {w : Pairing frozen} {a b : Outcome}
    (h : w.Chosen a b) : SameOutcome a b := by
  cases h with
  | none => exact .none
  | some h => exact .some ⟨h.1, sameBindings_lookup h.2.sameBindings⟩

theorem optionRel_trans {α : Type} {R : α → α → Prop} (hR : ∀ a b c, R a b → R b c → R a c)
    {a b c : Option α} (h : Option.Rel R a b) (h' : Option.Rel R b c) : Option.Rel R a c := by
  cases h with
  | none => exact h'
  | some h => cases h' with
    | some h' => exact .some (hR _ _ _ h h')

theorem SameOutcome.trans {a b c : Outcome} (h : SameOutcome a b) (h' : SameOutcome b c) :
    SameOutcome a c := by
  refine optionRel_trans (fun _ _ _ h h' => ⟨h.1.trans h'.1, fun x => ?_⟩) h h'
  exact optionRel_trans (R := Value.SameContent) (fun _ _ _ => .trans) (h.2 x) (h'.2 x)

namespace Agrees

variable {strict : Prop} {r r' r'' : Except EvalError (Outcome × ObjectSupply)}

theorem trans (h : Agrees strict SameOutcome r r') (h' : Agrees strict SameOutcome r' r'') :
    Agrees strict SameOutcome r r'' where
  ok ha := by
    obtain ⟨b, s', hb, hab⟩ := h.ok ha
    obtain ⟨c, s'', hc, hbc⟩ := h'.ok hb
    exact ⟨c, s'', hc, hab.trans hbc⟩
  error hs _ he := by
    obtain ⟨e', he', hsame⟩ := h.error hs he
    obtain ⟨e'', he'', hsame'⟩ := h'.error hs he'
    exact ⟨e'', he'', hsame.trans hsame'⟩

theorem bind {α : Type} {m : EvalM α} {f f' : α → EvalM Outcome} {s : ObjectSupply}
    (h : ∀ {a : α} {s' : ObjectSupply}, m s = .ok (a, s') →
      Agrees strict SameOutcome (f a s') (f' a s')) :
    Agrees strict SameOutcome ((m >>= f) s) ((m >>= f') s) := by
  cases hm : m s with
  | error e =>
      rw [EvalM.bind_of_error hm, EvalM.bind_of_error hm]
      exact ⟨fun ha => (by cases ha), fun _ e' he => ⟨e', he, .refl e'⟩⟩
  | ok result =>
      rw [EvalM.bind_of_ok hm, EvalM.bind_of_ok hm]
      exact h hm

end Agrees

theorem Simulates.agrees {frozen : Bool} {α β : Type} {strict : Prop} {w : Pairing frozen}
    {post : Pairing frozen → α → β → Prop} {post' : α → β → Prop} {m : EvalM α} {m' : EvalM β}
    (h : Simulates strict w post m m') (hpost : ∀ {w' a b}, post w' a b → post' a b) :
    Agrees strict post' (m w.left) (m' w.right) where
  ok ha := by
    obtain ⟨b, w', hb, -, -, hab⟩ := h.ok ha
    exact ⟨b, w'.right, hb, hpost hab⟩
  error hs _ he := h.error hs he

theorem Simulates.bind_agrees {frozen : Bool} {α β γ δ : Type} {strict : Prop} {w : Pairing frozen}
    {post : Pairing frozen → α → β → Prop} {post' : γ → δ → Prop} {m : EvalM α} {m' : EvalM β}
    {f : α → EvalM γ} {f' : β → EvalM δ} (h : Simulates strict w post m m')
    (hf : ∀ {w' : Pairing frozen} {a : α} {b : β}, w.Extends w' → post w' a b →
      Agrees strict post' (f a w'.left) (f' b w'.right)) :
    Agrees strict post' ((m >>= f) w.left) ((m' >>= f') w.right) where
  ok hc := by
    obtain ⟨a, s₁, ha, hc⟩ := EvalM.bind_eq_ok.mp hc
    obtain ⟨b, w', hb, rfl, hw, hab⟩ := h.ok ha
    rw [EvalM.bind_of_ok hb]
    exact (hf hw hab).ok hc
  error hs _ he := by
    rcases EvalM.bind_eq_error.mp he with he | ⟨a, s₁, ha, he⟩
    · obtain ⟨e', he', hsame⟩ := h.error hs he
      exact ⟨e', EvalM.bind_of_error he', hsame⟩
    · obtain ⟨b, w', hb, rfl, hw, hab⟩ := h.ok ha
      rw [EvalM.bind_of_ok hb]
      exact (hf hw hab).error hs he

theorem sameBindings_report {frozen : Bool} :
    Pairing.Report fun (_ : Pairing frozen) => Option.Rel SameBindings where
  none _ := .none
  isNone_eq h := by cases h <;> rfl

/-- Branches with one goal that find the same may stand for each other, also if what they find is
made of different objects. -/
theorem Queue.cons_agrees {frozen : Bool} {strict : Prop} {w : Pairing frozen} {sig : Signature}
    {σ' : Valuation} {branch branch' : Branch Form} {queue queue' : Queue Form}
    (h : w.Suits vocabulary.functions sig σ σ') (hg : branch.goal.Over sig)
    (hsame : branch'.goal = branch.goal)
    (hb : Simulates strict w (fun _ => Option.Rel SameBindings)
      (branch.continuation vocabulary σ (branch.env.values σ))
      (branch'.continuation vocabulary σ' (branch'.env.values σ')))
    (hq : ∀ {s s' : ObjectSupply}, w.left.next ≤ s.next → w.right.next ≤ s'.next →
      Agrees strict SameOutcome (outcome vocabulary σ queue s) (outcome vocabulary σ' queue' s')) :
    Agrees strict SameOutcome (outcome vocabulary σ (branch :: queue) w.left)
      (outcome vocabulary σ' (branch' :: queue') w.right) := by
  rw [Queue.outcome_cons, Queue.outcome_cons, hsame]
  refine hb.bind_agrees fun {w' found found'} hw hfound => ?_
  cases hfound with
  | none => exact hq hw.left hw.right
  | some hbindings =>
      simp only [concludeWith]
      cases hgoal : branch.goal with
      | select case =>
          simp only [Goal.outcome]
          refine ⟨fun ha => ?_, fun _ e he => by cases he⟩
          cases ha
          exact ⟨_, _, rfl, .some ⟨rfl, sameBindings_lookup hbindings⟩⟩
      | resume saved =>
          rw [hgoal, Goal.Over] at hg
          simp only [Goal.outcome]
          exact (Queue.outcome_simulates (h.mono hw) hg).agrees fun hchosen => hchosen.sameOutcome

end PatternCompiler
