import PatternCompiler.Matcher
import PatternCompiler.Proofs.Constants
import PatternCompiler.Proofs.Evaluation

/-!
# Matching under an interpretation

Matching does not look into the functions and guards of a pattern. An interpretation says what they
do with a value and the bindings made so far. Evaluation in a scope that surrounds the bindings is
one; with the empty scope it gives direct matching. Wherever functions and guards take the same
course in paired runs, matching does.
-/

namespace PatternCompiler

set_option autoImplicit false

namespace Pattern

variable {ε : Type}

mutual

/-- The functions of predicates and applications. -/
def functions : Pattern ε → List ε
  | predicate func => [func]
  | app func inner => func :: functions inner
  | not inner => functions inner
  | and items => listFunctions items
  | or alternatives => listFunctions alternatives
  | wildcard | bind _ | literal _ | guard _ => []

def listFunctions : List (Pattern ε) → List ε
  | [] => []
  | p :: ps => functions p ++ listFunctions ps

end

mutual

/-- The expressions of guards. -/
def guards : Pattern ε → List ε
  | guard expr => [expr]
  | app _ inner => guards inner
  | not inner => guards inner
  | and items => listGuards items
  | or alternatives => listGuards alternatives
  | wildcard | bind _ | literal _ | predicate _ => []

def listGuards : List (Pattern ε) → List ε
  | [] => []
  | p :: ps => guards p ++ listGuards ps

end

end Pattern

/-! ## Interpretations -/

/-- What functions and guards give under the bindings made so far. -/
structure Interpretation (ε : Type) where
  apply : ε → Value → Bindings → EvalM Value
  check : ε → Bindings → EvalM Value

namespace Interpretation

open Matcher (Continuation accept continueIf bindName)

variable {ε : Type}

mutual

/-- The bindings of the first way to match that the continuation accepts. -/
def attempt (I : Interpretation ε) :
    Pattern ε → Value → Bindings → Continuation → EvalM (Option Bindings)
  | .wildcard, _, env, k => k env
  | .bind name, value, env, k => bindName name value env k
  | .literal literal, value, env, k => do
      let constant ← EvalM.allocate (Value.ofLiteral literal)
      continueIf (value.equiv literal.equivalence constant) env k
  | .predicate func, value, env, k => do
      let result ← I.apply func value env
      continueIf result.isTruthy env k
  | .guard expr, _, env, k => do
      let result ← I.check expr env
      continueIf result.isTruthy env k
  | .app func inner, value, env, k => do
      let projected ← I.apply func value env
      attempt I inner projected env k
  | .not inner, value, env, k => do
      let matched ← attempt I inner value env accept
      continueIf matched.isNone env k
  | .and items, value, env, k => attemptAll I items value env k
  | .or alternatives, value, env, k => attemptAny I alternatives value env k

def attemptAll (I : Interpretation ε) :
    List (Pattern ε) → Value → Bindings → Continuation → EvalM (Option Bindings)
  | [], _, env, k => k env
  | p :: ps, value, env, k => attempt I p value env fun env => attemptAll I ps value env k

def attemptAny (I : Interpretation ε) :
    List (Pattern ε) → Value → Bindings → Continuation → EvalM (Option Bindings)
  | [], _, _, _ => return none
  | p :: ps, value, env, k => do
      match ← attempt I p value env k with
      | some found => return some found
      | none => attemptAny I ps value env k

end

theorem attemptAll_append (I : Interpretation ε) (ps qs : List (Pattern ε)) (v : Value)
    (env : Bindings) (k : Continuation) :
    I.attemptAll (ps ++ qs) v env k =
      I.attemptAll ps v env fun env => I.attemptAll qs v env k := by
  induction ps generalizing env with
  | nil => rfl
  | cons p ps ih => simp only [List.cons_append, attemptAll, ih]

/-- Evaluation with the bindings in front of an ambient scope. -/
def within (vocabulary : Vocabulary) (ambient : Scope) : Interpretation Form where
  apply func v env := (func.application vocabulary.operators (.quote v)).eval vocabulary.functions
    (env.reverse ++ ambient)
  check expr env := expr.eval vocabulary.functions (env.reverse ++ ambient)

theorem within_nil_apply (vocabulary : Vocabulary) (func : Form) (v : Value) (env : Bindings) :
    (within vocabulary []).apply func v env = Matcher.applyFunction vocabulary func v env := by
  simp only [within, Matcher.applyFunction, Form.evalWith, List.append_nil]

theorem within_nil_check (vocabulary : Vocabulary) (expr : Form) (env : Bindings) :
    (within vocabulary []).check expr env = expr.evalWith vocabulary.functions env := by
  simp only [within, Form.evalWith, List.append_nil]

mutual

/-- Direct matching evaluates in no scope but the bindings. -/
theorem within_nil_attempt (vocabulary : Vocabulary) (p : Pattern Form) (v : Value)
    (env : Bindings) (k : Continuation) :
    (within vocabulary []).attempt p v env k = Matcher.attempt vocabulary p v env k := by
  cases p with
  | wildcard | bind | literal => simp only [attempt, Matcher.attempt]
  | predicate func => simp only [attempt, Matcher.attempt, within_nil_apply]
  | guard expr => simp only [attempt, Matcher.attempt, within_nil_check]
  | app func inner =>
      simp only [attempt, Matcher.attempt, within_nil_apply, within_nil_attempt vocabulary inner]
  | not inner => simp only [attempt, Matcher.attempt, within_nil_attempt vocabulary inner]
  | and items =>
      simp only [attempt, Matcher.attempt]
      exact within_nil_attemptAll vocabulary items v env k
  | or alternatives =>
      simp only [attempt, Matcher.attempt]
      exact within_nil_attemptAny vocabulary alternatives v env k

theorem within_nil_attemptAll (vocabulary : Vocabulary) (ps : List (Pattern Form)) (v : Value)
    (env : Bindings) (k : Continuation) :
    (within vocabulary []).attemptAll ps v env k = Matcher.attemptAll vocabulary ps v env k := by
  cases ps with
  | nil => rfl
  | cons p ps =>
      simp only [attemptAll, Matcher.attemptAll, within_nil_attempt vocabulary p,
        within_nil_attemptAll vocabulary ps]

theorem within_nil_attemptAny (vocabulary : Vocabulary) (ps : List (Pattern Form)) (v : Value)
    (env : Bindings) (k : Continuation) :
    (within vocabulary []).attemptAny ps v env k = Matcher.attemptAny vocabulary ps v env k := by
  cases ps with
  | nil => rfl
  | cons p ps =>
      simp only [attemptAny, Matcher.attemptAny, within_nil_attempt vocabulary p]
      refine bind_congr fun found => ?_
      cases found with
      | some found => rfl
      | none => exact within_nil_attemptAny vocabulary ps v env k

end

end Interpretation

/-! ## Forms that look alike -/

namespace Form

mutual

theorem mentions_eq_of_alike {f g : Form} (h : f.alike g = true) (x : Name) :
    f.mentions x = g.mentions x := by
  match f, g with
  | var a, var b => simp only [alike, decide_eq_true_eq] at h; rw [h]
  | quote a, quote b => simp only [mentions]
  | function a, function b => simp only [mentions]
  | call a as, call b bs =>
      simp only [alike, Bool.and_eq_true] at h
      simp only [mentions, anyMentions_eq_of_alike h.2 x]
  | cond a b c, cond a' b' c' =>
      simp only [alike, Bool.and_eq_true] at h
      simp only [mentions, mentions_eq_of_alike h.1.1 x, mentions_eq_of_alike h.1.2 x,
        mentions_eq_of_alike h.2 x]
  | letIn as a, letIn bs b =>
      simp only [alike, Bool.and_eq_true] at h
      obtain ⟨hbound, hnames⟩ := anyBoundMentions_eq_of_alike h.1 x
      simp only [mentions, hbound, hnames, mentions_eq_of_alike h.2 x]

theorem anyMentions_eq_of_alike {fs gs : List Form} (h : alikeList fs gs = true) (x : Name) :
    anyMentions x fs = anyMentions x gs := by
  match fs, gs with
  | [], [] => rfl
  | f :: fs, g :: gs =>
      simp only [alikeList, Bool.and_eq_true] at h
      simp only [anyMentions, mentions_eq_of_alike h.1 x, anyMentions_eq_of_alike h.2 x]

/-- They bind the same names, too. -/
theorem anyBoundMentions_eq_of_alike {fs gs : List (Name × Form)} (h : alikeBound fs gs = true)
    (x : Name) :
    anyBoundMentions x fs = anyBoundMentions x gs ∧
      fs.all (fun b => b.1 ≠ x) = gs.all (fun b => b.1 ≠ x) := by
  match fs, gs with
  | [], [] => exact ⟨rfl, rfl⟩
  | (y, f) :: fs, (z, g) :: gs =>
      simp only [alikeBound, Bool.and_eq_true, decide_eq_true_eq] at h
      obtain ⟨hbound, hnames⟩ := anyBoundMentions_eq_of_alike h.2 x
      simp only [anyBoundMentions, mentions_eq_of_alike h.1.2 x, hbound, List.all_cons, h.1.1,
        hnames, and_self]

end

end Form

namespace Interpretation

/-- A function that is not said to mention any of the bound names does not see the bindings. -/
theorem within_apply_of_unmentioned {vocabulary : Vocabulary} {ambient : Scope}
    {mentions : Form → Name → Bool} (hmentions : ∀ f x, f.mentions x = true → mentions f x = true)
    {func : Form} {env : Bindings} (h : ∀ x ∈ env.map Prod.fst, mentions func x = false)
    (v : Value) :
    (within vocabulary ambient).apply func v env = (within vocabulary ambient).apply func v [] := by
  refine Form.eval_congr vocabulary.functions _ fun x hx => ?_
  rw [Form.mentions_application_quote] at hx
  have hfree : x ∉ env.reverse.map Prod.fst := by
    intro hmem
    rw [List.map_reverse, List.mem_reverse] at hmem
    have hnot := h x hmem
    rw [hmentions func x hx] at hnot
    cases hnot
  rw [List.lookup_append, Form.lookup_eq_none_of_not_mem hfree]
  rfl

/-- What is said of one function goes for all that look like the same function as it does. -/
theorem within_apply_of_alike {vocabulary : Vocabulary} {ambient : Scope}
    {mentions : Form → Name → Bool} (hmentions : ∀ f x, f.mentions x = true → mentions f x = true)
    {known f g : Form} (hf : (known == f) = true) (hg : (known == g) = true) {env : Bindings}
    (h : ∀ x ∈ env.map Prod.fst, mentions f x = false) (v : Value) :
    (within vocabulary ambient).apply g v env = (within vocabulary ambient).apply g v [] := by
  have hunmentioned : ∀ x ∈ env.map Prod.fst, g.mentions x = false := by
    intro x hx
    rw [← Form.mentions_eq_of_alike hg x, Form.mentions_eq_of_alike hf x]
    exact Bool.eq_false_iff.mpr fun hmentioned =>
      Bool.eq_false_iff.mp (h x hx) (hmentions f x hmentioned)
  exact @within_apply_of_unmentioned vocabulary ambient (fun f x => f.mentions x)
    (fun _ _ h => h) g env hunmentioned v

end Interpretation

/-! ## Paired runs -/

namespace Pairing

variable {ε : Type} {frozen : Bool}

/-- The function takes the same course in both runs wherever the pairs are kept. -/
def RespectsFunction (w : Pairing frozen) (I : Interpretation ε) (f : ε) : Prop :=
  ∀ w' : Pairing frozen, (∀ {i j : Nat}, w.rel i j → w'.rel i j) → ∀ {v v' : Value}
    {env env' : Bindings}, w'.Relates v v' → w'.RelatesScope env env' →
    Simulates True w' Pairing.Relates (I.apply f v env) (I.apply f v' env')

/-- The guard takes the same course in both runs wherever the pairs are kept. -/
def RespectsGuard (w : Pairing frozen) (I : Interpretation ε) (f : ε) : Prop :=
  ∀ w' : Pairing frozen, (∀ {i j : Nat}, w.rel i j → w'.rel i j) → ∀ {env env' : Bindings},
    w'.RelatesScope env env' →
    Simulates True w' Pairing.Relates (I.check f env) (I.check f env')

structure RespectsPattern (w : Pairing frozen) (I : Interpretation ε) (p : Pattern ε) : Prop where
  functions : ∀ f ∈ p.functions, w.RespectsFunction I f
  guards : ∀ f ∈ p.guards, w.RespectsGuard I f

/-- Bindings that correspond, of names that `N` holds of. -/
structure RelatesEnv (N : Name → Prop) (w : Pairing frozen) (env env' : Bindings) : Prop where
  scope : w.RelatesScope env env'
  names : ∀ x ∈ env.map Prod.fst, N x

variable {w w' : Pairing frozen} {I : Interpretation ε} {N : Name → Prop} {env env' : Bindings}

theorem RespectsFunction.mono {f : ε} (h : w.RespectsFunction I f)
    (hrel : ∀ {i j : Nat}, w.rel i j → w'.rel i j) : w'.RespectsFunction I f :=
  fun w' hrel' => h w' fun hij => hrel' (hrel hij)

theorem RespectsGuard.mono {f : ε} (h : w.RespectsGuard I f)
    (hrel : ∀ {i j : Nat}, w.rel i j → w'.rel i j) : w'.RespectsGuard I f :=
  fun w' hrel' => h w' fun hij => hrel' (hrel hij)

theorem RespectsPattern.mono {p : Pattern ε} (h : w.RespectsPattern I p) (hw : w.Extends w') :
    w'.RespectsPattern I p :=
  ⟨fun f hf => (h.functions f hf).mono hw.rel, fun f hf => (h.guards f hf).mono hw.rel⟩

theorem RelatesEnv.mono (h : w.RelatesEnv N env env') (hw : w.Extends w') :
    w'.RelatesEnv N env env' :=
  ⟨h.scope.mono hw, h.names⟩

theorem RelatesEnv.extend (h : w.RelatesEnv N env env') {x : Name} (hx : N x) {v v' : Value}
    (hv : w.Relates v v') : w.RelatesEnv N (env ++ [(x, v)]) (env' ++ [(x, v')]) where
  scope := List.rel_append h.scope (.cons ⟨rfl, hv⟩ .nil)
  names := by
    intro y hy
    simp only [List.map_append, List.map_cons, List.map_nil, List.mem_append,
      List.mem_singleton] at hy
    rcases hy with hy | rfl
    · exact h.names y hy
    · exact hx

theorem RespectsPattern.head {p : Pattern ε} {ps : List (Pattern ε)}
    (h : w.RespectsPattern I (.and (p :: ps))) : w.RespectsPattern I p where
  functions f hf := h.functions f (by simp [Pattern.functions, Pattern.listFunctions, hf])
  guards f hf := h.guards f (by simp [Pattern.guards, Pattern.listGuards, hf])

theorem RespectsPattern.tail {p : Pattern ε} {ps : List (Pattern ε)}
    (h : w.RespectsPattern I (.and (p :: ps))) : w.RespectsPattern I (.and ps) where
  functions f hf := h.functions f (by
    simp only [Pattern.functions] at hf; simp [Pattern.functions, Pattern.listFunctions, hf])
  guards f hf := h.guards f (by
    simp only [Pattern.guards] at hf; simp [Pattern.guards, Pattern.listGuards, hf])

theorem respectsFunction_within {w : Pairing frozen} {vocabulary : Vocabulary} {ambient : Scope}
    (hs : w.RelatesScope ambient ambient) {f : Form} (hc : ∀ c ∈ f.constants, w.Relates c c)
    (hf : frozen = true → f.allocates vocabulary.functions = false ∧ f.isDirect = true) :
    w.RespectsFunction (.within vocabulary ambient) f := by
  intro w' hrel v v' env env' hv he
  have hconstants := f.corresponds_self fun c h => Value.Corresponds.mono (hc c h) hrel
  refine Form.application_simulates vocabulary.functions vocabulary.operators hconstants ?_ hv hf
  exact List.rel_append (List.forall₂_reverse_iff.mpr he) (hs.of_rel hrel)

theorem respectsGuard_within {w : Pairing frozen} {vocabulary : Vocabulary} {ambient : Scope}
    (hs : w.RelatesScope ambient ambient) {f : Form} (hc : ∀ c ∈ f.constants, w.Relates c c)
    (hf : frozen = true → f.allocates vocabulary.functions = false) :
    w.RespectsGuard (.within vocabulary ambient) f := by
  intro w' hrel env env' he
  have hconstants := f.corresponds_self fun c h => Value.Corresponds.mono (hc c h) hrel
  refine hconstants.eval_simulates vocabulary.functions ?_ hf
  exact List.rel_append (List.forall₂_reverse_iff.mpr he) (hs.of_rel hrel)

/-- Both runs found bindings that correspond, or neither found any. -/
def Found (N : Name → Prop) (w : Pairing frozen) : Option Bindings → Option Bindings → Prop :=
  Option.Rel (w.RelatesEnv N)

/-- What is promised about results that are found or not, in the same way by both runs. -/
structure Report (post : Pairing frozen → Option Bindings → Option Bindings → Prop) : Prop where
  none : ∀ w, post w none none
  isNone_eq : ∀ {w found found'}, post w found found' → found.isNone = found'.isNone

theorem found_report : Report (Found N : Pairing frozen → _ → _ → Prop) where
  none _ := .none
  isNone_eq h := by cases h <;> rfl

end Pairing

namespace Matcher

variable {frozen : Bool} {strict : Prop} {N : Name → Prop} {w : Pairing frozen}
  {env env' : Bindings} {k k' : Continuation} {v v' : Value}
  {post : Pairing frozen → Option Bindings → Option Bindings → Prop}

theorem accept_simulates (h : w.RelatesEnv N env env') :
    Simulates strict w (Pairing.Found N) (accept env) (accept env') := .pure (.some h)

theorem continueIf_simulates (hpost : Pairing.Report post) (condition : Bool)
    (h : Simulates strict w post (k env) (k' env')) :
    Simulates strict w post (continueIf condition env k)
      (continueIf condition env' k') := by
  cases condition with
  | true => exact h
  | false => exact .pure (hpost.none w)

theorem bindName_simulates (hpost : Pairing.Report post) (x : Name) (hx : N x) (hv : w.Relates v v')
    (he : w.RelatesEnv N env env')
    (hk : ∀ {e e' : Bindings}, w.RelatesEnv N e e' →
      Simulates strict w post (k e) (k' e')) :
    Simulates strict w post (bindName x v env k) (bindName x v' env' k') := by
  have hlookup := he.scope.lookup x
  unfold bindName
  generalize env.lookup x = bound, env'.lookup x = bound' at hlookup
  cases hlookup with
  | some hb =>
      simp only [Value.Corresponds.isEql_eq w.oneToOne hb hv]
      exact continueIf_simulates hpost _ (hk he)
  | none => exact hk (he.extend hx hv)

end Matcher

namespace Interpretation

open Matcher (Continuation continueIf)

variable {ε : Type} {frozen : Bool} {strict : Prop} {N : Name → Prop} {w : Pairing frozen}
  {I : Interpretation ε} {env env' : Bindings} {k k' : Continuation} {v v' : Value}
  {post : Pairing frozen → Option Bindings → Option Bindings → Prop}

/-- Making the constant of a literal only uses up identities. -/
theorem literal_simulates (hpost : Pairing.Report post) (l : Literal) (hv : w.Relates v v')
    (hk : ∀ {w' : Pairing frozen}, w.Extends w' →
      Simulates strict w' post (k env) (k' env')) :
    Simulates strict w post (I.attempt (.literal l) v env k)
      (I.attempt (.literal l) v' env' k') := by
  have hown := l.equivalence.implies_refl
  have halloc : Simulates strict w (fun _ c c' => v.equiv l.equivalence c = l.denotes v ∧
      v'.equiv l.equivalence c' = l.denotes v) (EvalM.allocate (Value.ofLiteral l))
      (EvalM.allocate (Value.ofLiteral l)) := by
    constructor
    · intro c s hc
      obtain ⟨rfl, rfl⟩ := EvalM.allocate_eq_ok.mp hc
      refine ⟨_, w.advance _ _ (l.ofLiteral_next_le _) (l.ofLiteral_next_le _), rfl, rfl,
        w.extends_advance _ _, Literal.equiv_ofLiteral hown _ v, ?_⟩
      rw [l.denotes_eq_of_sameContent (Value.Corresponds.sameContent hv)]
      exact Literal.equiv_ofLiteral hown _ v'
    · intro _ e he
      cases he
  simp only [attempt]
  refine halloc.bind fun hw hc => ?_
  rw [hc.1, hc.2]
  exact Matcher.continueIf_simulates hpost _ (hk hw)

theorem apply_simulates {func : ε} (hf : w.RespectsFunction I func) (hv : w.Relates v v')
    (he : w.RelatesScope env env') :
    Simulates strict w Pairing.Relates (I.apply func v env) (I.apply func v' env') :=
  (hf w (fun hij => hij) hv he).mono (fun _ => trivial) fun _ hr => hr

theorem check_simulates {expr : ε} (hf : w.RespectsGuard I expr) (he : w.RelatesScope env env') :
    Simulates strict w Pairing.Relates (I.check expr env) (I.check expr env') :=
  (hf w (fun hij => hij) he).mono (fun _ => trivial) fun _ hr => hr

mutual

theorem attempt_simulates (p : Pattern ε)
    {post : Pairing frozen → Option Bindings → Option Bindings → Prop}
    (hpost : Pairing.Report post) {w : Pairing frozen} {env env' : Bindings}
    {v v' : Value} {k k' : Continuation} (hp : w.RespectsPattern I p)
    (hb : ∀ x ∈ p.binders, N x) (hv : w.Relates v v') (he : w.RelatesEnv N env env')
    (hk : ∀ {w' : Pairing frozen} {e e' : Bindings}, w.Extends w' → w'.RelatesEnv N e e' →
      Simulates strict w' post (k e) (k' e')) :
    Simulates strict w post (I.attempt p v env k) (I.attempt p v' env' k') := by
  cases p with
  | wildcard => exact hk (.refl w) he
  | bind x =>
      exact Matcher.bindName_simulates hpost x (hb x (by simp [Pattern.binders])) hv he
        (hk (.refl w))
  | literal l => exact literal_simulates hpost l hv fun hw => hk hw (he.mono hw)
  | predicate func =>
      have hf := hp.functions func (by simp [Pattern.functions])
      simp only [attempt]
      refine (apply_simulates hf hv he.scope).bind fun hw hr => ?_
      rw [Value.Corresponds.isTruthy_eq hr]
      exact Matcher.continueIf_simulates hpost _ (hk hw (he.mono hw))
  | guard expr =>
      have hf := hp.guards expr (by simp [Pattern.guards])
      simp only [attempt]
      refine (check_simulates hf he.scope).bind fun hw hr => ?_
      rw [Value.Corresponds.isTruthy_eq hr]
      exact Matcher.continueIf_simulates hpost _ (hk hw (he.mono hw))
  | app func inner =>
      have hf := hp.functions func (by simp [Pattern.functions])
      have hinner : w.RespectsPattern I inner :=
        ⟨fun f hf => hp.functions f (by simp [Pattern.functions, hf]), hp.guards⟩
      simp only [attempt]
      refine (apply_simulates hf hv he.scope).bind fun hw hr => ?_
      exact attempt_simulates inner hpost (hinner.mono hw) hb hr (he.mono hw)
        fun hw' => hk (hw.trans hw')
  | not inner =>
      simp only [attempt]
      refine (attempt_simulates inner (Pairing.found_report (N := N)) (w := w)
        ⟨hp.functions, hp.guards⟩ hb hv he
        fun _ => Matcher.accept_simulates).bind fun hw hm => ?_
      rw [Pairing.found_report.isNone_eq hm]
      exact Matcher.continueIf_simulates hpost _ (hk hw (he.mono hw))
  | and items => exact attemptAll_simulates items hpost ⟨hp.functions, hp.guards⟩ hb hv he hk
  | or alternatives =>
      exact attemptAny_simulates alternatives hpost ⟨hp.functions, hp.guards⟩ hb hv he hk

theorem attemptAll_simulates (ps : List (Pattern ε))
    {post : Pairing frozen → Option Bindings → Option Bindings → Prop}
    (hpost : Pairing.Report post) {w : Pairing frozen}
    {env env' : Bindings} {v v' : Value} {k k' : Continuation}
    (hp : w.RespectsPattern I (.and ps))
    (hb : ∀ x ∈ Pattern.bindersOfList ps, N x) (hv : w.Relates v v')
    (he : w.RelatesEnv N env env')
    (hk : ∀ {w' : Pairing frozen} {e e' : Bindings}, w.Extends w' → w'.RelatesEnv N e e' →
      Simulates strict w' post (k e) (k' e')) :
    Simulates strict w post (I.attemptAll ps v env k) (I.attemptAll ps v' env' k') := by
  cases ps with
  | nil => exact hk (.refl w) he
  | cons p ps =>
      simp only [Pattern.bindersOfList, List.mem_append] at hb
      simp only [attemptAll]
      refine attempt_simulates p hpost hp.head (fun x hx => hb x (.inl hx)) hv he fun hw he' => ?_
      exact attemptAll_simulates ps hpost (hp.tail.mono hw) (fun x hx => hb x (.inr hx))
        (hv.mono hw) he' fun hw' => hk (hw.trans hw')

theorem attemptAny_simulates (ps : List (Pattern ε))
    {post : Pairing frozen → Option Bindings → Option Bindings → Prop}
    (hpost : Pairing.Report post) {w : Pairing frozen}
    {env env' : Bindings} {v v' : Value} {k k' : Continuation}
    (hp : w.RespectsPattern I (.and ps))
    (hb : ∀ x ∈ Pattern.bindersOfList ps, N x) (hv : w.Relates v v')
    (he : w.RelatesEnv N env env')
    (hk : ∀ {w' : Pairing frozen} {e e' : Bindings}, w.Extends w' → w'.RelatesEnv N e e' →
      Simulates strict w' post (k e) (k' e')) :
    Simulates strict w post (I.attemptAny ps v env k) (I.attemptAny ps v' env' k') := by
  cases ps with
  | nil => exact .pure (hpost.none w)
  | cons p ps =>
      simp only [Pattern.bindersOfList, List.mem_append] at hb
      simp only [attemptAny]
      refine (attempt_simulates p hpost hp.head (fun x hx => hb x (.inl hx)) hv he hk).bind
        fun {w' found found'} hw hm => ?_
      have hsame := hpost.isNone_eq hm
      match found, found', hsame with
      | some e, some e', _ => exact .pure hm
      | none, none, _ =>
          exact attemptAny_simulates ps hpost (hp.tail.mono hw) (fun x hx => hb x (.inr hx))
            (hv.mono hw) (he.mono hw) fun hw' => hk (hw.trans hw')

end

end Interpretation

end PatternCompiler
