import PatternCompiler.Proofs.Likeness

/-!
# Sharing is sound

Several applications of a function in a branch may be replaced by one value. That is sound for a
function that makes no objects, since it always gives the same value. A function that makes objects
gives a new value each time, and matching can tell values apart by identity. One application in a
branch may still be replaced: nothing else in the branch has seen the objects of the shared value, so
they can stand for the objects that the branch would make itself.
-/

namespace PatternCompiler

set_option autoImplicit false

/-! ## Redirected matches -/

namespace Projection

variable (pr : Projection Form)

mutual

/-- The patterns that a pattern on the subject is taken apart into. -/
def conjuncts : Pattern Form → List (Pattern Form)
  | .and items => if pr.anyProjects items then allConjuncts items else [.and items]
  | p => [p]

def allConjuncts : List (Pattern Form) → List (Pattern Form)
  | [] => []
  | p :: ps => conjuncts p ++ allConjuncts ps

end

def dismantle : Pending Form → List (Pending Form)
  | .pattern subject p =>
      if subject = pr.subject then (pr.conjuncts p).map (.pattern subject) else [.pattern subject p]
  | m => [m]

/-- The match applies the function to the subject. -/
def applies : Pending Form → Bool
  | .pattern subject (.app func _) => subject = pr.subject && func == pr.func
  | _ => false

/-- Read the shared value instead of applying the function. -/
def redirect : Pending Form → Pending Form
  | .pattern subject (.app func inner) =>
      if subject = pr.subject && func == pr.func then .pattern pr.fresh inner
      else .pattern subject (.app func inner)
  | m => m

theorem redirect_of_not_applies {m : Pending Form} (h : pr.applies m = false) :
    pr.redirect m = m := by
  unfold applies at h
  unfold redirect
  split at h
  · rw [h]; rfl
  · rfl

theorem applies_iff {m : Pending Form} :
    pr.applies m = true ↔ ∃ func inner, m = .pattern pr.subject (.app func inner) ∧
      (func == pr.func) = true := by
  constructor
  · intro h
    unfold applies at h
    split at h
    · rename_i subject func inner
      simp only [Bool.and_eq_true, decide_eq_true_eq] at h
      obtain ⟨rfl, hfunc⟩ := h
      exact ⟨func, inner, rfl, hfunc⟩
    · cases h
  · rintro ⟨func, inner, rfl, hfunc⟩
    simp [applies, hfunc]

theorem redirect_of_applies {func : Form} {inner : Pattern Form} (h : (func == pr.func) = true) :
    pr.redirect (.pattern pr.subject (.app func inner)) = .pattern pr.fresh inner := by
  simp [redirect, h]

mutual

theorem redirectPattern_eq (p : Pattern Form) :
    pr.redirectPattern p = (pr.conjuncts p).map fun q => pr.redirect (.pattern pr.subject q) := by
  match p with
  | .app func inner =>
      rw [redirectPattern, conjuncts]
      · by_cases h : (func == pr.func) = true
        · simp [redirect, h]
        · simp [redirect, h]
      · simp
  | .and items =>
      rw [redirectPattern, conjuncts]
      split
      · exact redirectItems_eq items
      · rfl
  | .wildcard | .bind _ | .literal _ | .predicate _ | .guard _ | .not _ | .or _ =>
      rw [redirectPattern, conjuncts]
      · rfl
      all_goals simp

theorem redirectItems_eq (ps : List (Pattern Form)) :
    pr.redirectItems ps =
      (pr.allConjuncts ps).map fun q => pr.redirect (.pattern pr.subject q) := by
  match ps with
  | [] => rfl
  | p :: ps =>
      rw [redirectItems, allConjuncts, List.map_append, redirectPattern_eq p, redirectItems_eq ps]

end

theorem redirectPending_eq (m : Pending Form) :
    pr.redirectPending m = (pr.dismantle m).map pr.redirect := by
  cases m with
  | pattern subject p =>
      simp only [redirectPending, dismantle]
      split
      · rename_i hs
        rw [redirectPattern_eq, List.map_map, hs]
        rfl
      · rename_i hs
        cases p <;> simp [redirect, hs]
  | member | sameAs => rfl

variable {I : Interpretation Form} {σ : Valuation}

mutual

theorem attemptAll_conjuncts (p : Pattern Form) (v : Value) (env : Bindings)
    (k : Matcher.Continuation) :
    I.attemptAll (pr.conjuncts p) v env k = I.attempt p v env k := by
  match p with
  | .and items =>
      rw [conjuncts, Interpretation.attempt]
      split
      · exact attemptAll_allConjuncts items v env k
      · rfl
  | .wildcard | .bind _ | .literal _ | .predicate _ | .guard _ | .app .. | .not _ | .or _ =>
      rw [conjuncts]
      · rfl
      all_goals simp

theorem attemptAll_allConjuncts (ps : List (Pattern Form)) (v : Value) (env : Bindings)
    (k : Matcher.Continuation) :
    I.attemptAll (pr.allConjuncts ps) v env k = I.attemptAll ps v env k := by
  match ps with
  | [] => rfl
  | p :: ps =>
      rw [allConjuncts, I.attemptAll_append, attemptAll_conjuncts p, Interpretation.attemptAll]
      congr 1
      funext env
      exact attemptAll_allConjuncts ps v env k

end

theorem attemptPendings_dismantle (ms : List (Pending Form)) (env : Bindings)
    (k : Matcher.Continuation) :
    I.attemptPendings σ (ms.flatMap pr.dismantle) env k = I.attemptPendings σ ms env k := by
  induction ms generalizing env with
  | nil => rfl
  | cons m ms ih =>
      rw [List.flatMap_cons, Interpretation.attemptPendings_append, Interpretation.attemptPendings]
      simp only [ih]
      cases m with
      | pattern subject p =>
          simp only [dismantle]
          split
          · rw [Interpretation.attemptPendings_map_pattern, attemptAll_conjuncts]
            rfl
          · rfl
      | member | sameAs => rfl

mutual

theorem conjuncts_dismantles {R : Pattern Form → List (Pattern Form) → Prop} (hR : Dismantles R)
    (p : Pattern Form) : R p (pr.conjuncts p) := by
  match p with
  | .and items =>
      rw [conjuncts]
      split
      · obtain ⟨ls, hls, hitems⟩ := allConjuncts_dismantles hR items
        rw [hls]
        exact hR.conjuncts hitems
      · exact hR.whole _
  | .wildcard | .bind _ | .literal _ | .predicate _ | .guard _ | .app .. | .not _ | .or _ =>
      rw [conjuncts]
      · exact hR.whole _
      all_goals simp

theorem allConjuncts_dismantles {R : Pattern Form → List (Pattern Form) → Prop}
    (hR : Dismantles R) (ps : List (Pattern Form)) :
    ∃ ls : List (List (Pattern Form)), pr.allConjuncts ps = ls.flatten ∧ List.Forall₂ R ps ls := by
  match ps with
  | [] => exact ⟨[], rfl, .nil⟩
  | p :: ps =>
      obtain ⟨ls, hls, hitems⟩ := allConjuncts_dismantles hR ps
      rw [allConjuncts, hls]
      exact ⟨pr.conjuncts p :: ls, rfl, .cons (conjuncts_dismantles hR p) hitems⟩

end

/-- The parts of a match are on its subject, and what holds of conjuncts, too, holds of them. -/
theorem mem_dismantle {m n : Pending Form} (hn : n ∈ pr.dismantle m) :
    n = m ∨ ∃ subject p q, m = .pattern subject p ∧ n = .pattern subject q ∧
      ∀ {P : Pattern Form → Prop}, (∀ {ps : List (Pattern Form)}, P (.and ps) → ∀ p ∈ ps, P p) →
        P p → P q ∧ ∀ x ∈ q.binders, x ∈ p.binders := by
  cases m with
  | pattern subject p =>
      simp only [dismantle] at hn
      split at hn
      · obtain ⟨q, hq, rfl⟩ := List.mem_map.mp hn
        exact .inr ⟨subject, p, q, rfl, rfl, fun hP hp =>
          pr.conjuncts_dismantles (dismantles_keep hP) p hp q hq⟩
      · exact .inl (List.mem_singleton.mp hn)
  | member | sameAs => exact .inl (List.mem_singleton.mp hn)

theorem dismantle_over {sig : Signature} {m n : Pending Form} (hm : m.Over sig)
    (hn : n ∈ pr.dismantle m) : n.Over sig := by
  rcases pr.mem_dismantle hn with rfl | ⟨subject, p, q, rfl, rfl, hkeep⟩
  · exact hm
  · exact ⟨hm.1, (hkeep (fun h _ hp => h.item hp) hm.2).1⟩

theorem dismantle_from {rep : Repertoire Form} {m n : Pending Form} (hm : m.From rep)
    (hn : n ∈ pr.dismantle m) : n.From rep := by
  rcases pr.mem_dismantle hn with rfl | ⟨subject, p, q, rfl, rfl, hkeep⟩
  · exact hm
  · exact ⟨hm.1, (hkeep (fun h _ hp => h.item hp) hm.2).1⟩

theorem dismantle_binders {m n : Pending Form} (hn : n ∈ pr.dismantle m) {x : Name}
    (hx : x ∈ n.binders) : x ∈ m.binders := by
  rcases pr.mem_dismantle hn with rfl | ⟨subject, p, q, rfl, rfl, hkeep⟩
  · exact hx
  · exact (hkeep (P := fun _ => True) (fun _ _ _ => trivial) trivial).2 x hx

/-! ## The shared value -/

/-- Wherever the first run applies the function, what it gets can be made to correspond to the shared
value. If the function is `still`, the pairs of before are enough. -/
structure Served {frozen : Bool} (pr : Projection Form) (I : Interpretation Form)
    (rep : Repertoire Form) (still : Prop) (σ σ' : Valuation) (w : Pairing frozen) : Prop where
  respects : w.Respects I rep σ σ'
  alike : ∀ g, rep.function g → (g == pr.func) = true → g = pr.func
  world : ∀ {w₁ : Pairing frozen}, w.Extends w₁ → ∀ {v : Value} {s : ObjectSupply},
    I.apply pr.func (σ pr.subject) [] w₁.left = .ok (v, s) →
    ∃ w₂ : Pairing frozen, w₂.left = s ∧ w₂.right = w₁.right ∧ w₁.left.next ≤ s.next ∧
      (∀ {i j : Nat}, w₁.rel i j → w₂.rel i j) ∧ w₂.Relates v (σ' pr.fresh) ∧
      (still → w₁.Extends w₂)

variable {frozen : Bool} {pr} {rep : Repertoire Form} {still : Prop} {σ' : Valuation}
  {w w' : Pairing frozen} {mentions : Form → Name → Bool}

theorem Served.mono (h : pr.Served I rep still σ σ' w) (hw : w.Extends w') :
    pr.Served I rep still σ σ' w' :=
  ⟨h.respects.mono hw, h.alike, fun hw₁ => h.world (hw.trans hw₁)⟩

/-! ## Branches that share -/

/-- No two of the matches apply the function. -/
def AppliedOnce (pr : Projection Form) (ms : List (Pending Form)) : Prop :=
  ms.Pairwise fun m m' => pr.applies m = true → pr.applies m' = false

variable {post : Pairing frozen → Option Bindings → Option Bindings → Prop} {N : Name → Prop}

theorem redirect_simulates (hpost : Pairing.Report post)
    (haccept : ∀ {w : Pairing frozen} {e e' : Bindings}, w.RelatesEnv N e e' →
      post w (some e) (some e'))
    (htransport : still ∨ ∀ {w w' : Pairing frozen} {a b : Option Bindings}, post w a b → post w' a b)
    {ms : List (Pending Form)} {w : Pairing frozen} {env env' : Bindings}
    (h : pr.Served I rep still σ σ' w) (hms : ∀ m ∈ ms, m.From rep)
    (hN : ∀ x ∈ ms.flatMap Pending.binders, N x)
    (hfree : ∀ {v : Value} {env : Bindings}, (∀ x ∈ env.map Prod.fst, N x) →
      I.apply pr.func v env = I.apply pr.func v [])
    (he : w.RelatesEnv N env env') (honce : still ∨ pr.AppliedOnce ms) :
    Simulates False w post (I.attemptPendings σ ms env Matcher.accept)
      (I.attemptPendings σ' (ms.map pr.redirect) env' Matcher.accept) := by
  induction ms generalizing w env env' with
  | nil => exact .pure (haccept he)
  | cons m ms ih =>
      obtain ⟨hm, hms'⟩ := List.forall_mem_cons.mp hms
      simp only [List.flatMap_cons, List.mem_append] at hN
      have hN' : ∀ x ∈ ms.flatMap Pending.binders, N x := fun x hx => hN x (.inr hx)
      have honce' : still ∨ pr.AppliedOnce ms :=
        honce.imp id fun hpair => (List.pairwise_cons.mp hpair).2
      have hrest {w' : Pairing frozen} {e e' : Bindings} (hw : w.Extends w')
          (he' : w'.RelatesEnv N e e') :=
        ih (h.mono hw) hms' hN' he' honce'
      rw [List.map_cons]
      cases happlies : pr.applies m with
      | false =>
          rw [pr.redirect_of_not_applies happlies]
          exact Interpretation.attemptPending_simulates hpost h.respects hm
            (fun x hx => hN x (.inl hx)) he fun hw he' => hrest hw he'
      | true =>
          obtain ⟨func, inner, rfl, halike⟩ := pr.applies_iff.mp happlies
          obtain rfl : func = pr.func :=
            h.alike _ (hm.2.functions _ (by simp [Pattern.functions])) halike
          rw [pr.redirect_of_applies halike]
          refine ⟨fun {found s} hfound => ?_, fun hfalse => hfalse.elim⟩
          simp only [Interpretation.attemptPendings, Interpretation.attemptPending,
            Interpretation.attempt] at hfound
          obtain ⟨v, s₂, hv, hfound⟩ := EvalM.bind_eq_ok.mp hfound
          rw [hfree he.names] at hv
          obtain ⟨w₂, rfl, hright, hle, hrel, hvalues, hextends⟩ := h.world (.refl w) hv
          have hrespects := h.respects.of_rel hrel
          have hsim : Simulates False w₂ post
              (I.attempt inner v env fun e => I.attemptPendings σ ms e Matcher.accept)
              (I.attempt inner (σ' pr.fresh) env' fun e =>
                I.attemptPendings σ' (ms.map pr.redirect) e Matcher.accept) := by
            refine Interpretation.attempt_simulates inner hpost (hrespects.pattern hm.2.inner_app)
              (fun x hx => hN x (.inl hx)) hvalues ⟨he.scope.of_rel hrel, he.names⟩
              fun hw he' => ?_
            rcases honce with hstill | hpair
            · exact hrest ((hextends hstill).trans hw) he'
            · -- No later match of the branch applies the function.
              have hothers : ms.map pr.redirect = ms := by
                conv => rhs; rw [← List.map_id ms]
                exact List.map_congr_left fun m hmem => pr.redirect_of_not_applies
                  ((List.pairwise_cons.mp hpair).1 m hmem happlies)
              rw [hothers]
              exact Interpretation.attemptPendings_simulates hpost (hrespects.mono hw) hms' hN' he'
                fun _ he'' => .pure (haccept he'')
          obtain ⟨found', w₃, hfound', rfl, hw₃, hsame⟩ := hsim.ok hfound
          rw [hright] at hfound'
          rcases htransport with hstill | htransport
          · exact ⟨found', w₃, hfound', rfl, (hextends hstill).trans hw₃, hsame⟩
          · have hle₃ : w.left.next ≤ w₃.left.next := Nat.le_trans hle hw₃.left
            have hle₃' : w.right.next ≤ w₃.right.next := hright ▸ hw₃.right
            exact ⟨found', w.advance _ _ hle₃ hle₃', hfound', rfl,
              w.extends_advance hle₃ hle₃', htransport hsame⟩

theorem shareBranch_simulates (hpost : Pairing.Report post)
    (haccept : ∀ {N : Name → Prop} {w : Pairing frozen} {e e' : Bindings}, w.RelatesEnv N e e' →
      post w (some e) (some e'))
    (htransport : still ∨ ∀ {w w' : Pairing frozen} {a b : Option Bindings}, post w a b → post w' a b)
    (hfree : ∀ {v : Value} {env : Bindings}, (∀ x ∈ env.map Prod.fst, mentions pr.func x = false) →
      I.apply pr.func v env = I.apply pr.func v [])
    {branch : Branch Form} (h : pr.Served I rep still σ σ' w) (hb : branch.From rep)
    (honce : still ∨ pr.AppliedOnce (branch.pending.flatMap pr.dismantle)) :
    Simulates False w post
      (I.attemptPendings σ branch.pending (branch.env.values σ) Matcher.accept)
      (I.attemptPendings σ' (pr.shareBranch mentions branch).pending (branch.env.values σ')
        Matcher.accept) := by
  obtain ⟨hpending, henv, -⟩ := Branch.from_iff.mp hb
  have he : w.RelatesEnv (· ∈ branch.boundNames) (branch.env.values σ) (branch.env.values σ') :=
    h.respects.environment henv fun x hx => List.mem_append.mpr (.inl hx)
  have hN : ∀ x ∈ branch.pending.flatMap Pending.binders, x ∈ branch.boundNames :=
    fun x hx => List.mem_append.mpr (.inr hx)
  unfold shareBranch
  split
  · rename_i hshared
    rw [Bool.and_eq_true] at hshared
    have hfrom : ∀ n ∈ branch.pending.flatMap pr.dismantle, n.From rep := by
      intro n hn
      obtain ⟨m, hm, hn⟩ := List.mem_flatMap.mp hn
      exact pr.dismantle_from (hpending m hm) hn
    have hnames : ∀ x ∈ (branch.pending.flatMap pr.dismantle).flatMap Pending.binders,
        x ∈ branch.boundNames := by
      intro x hx
      obtain ⟨n, hn, hx⟩ := List.mem_flatMap.mp hx
      obtain ⟨m, hm, hn⟩ := List.mem_flatMap.mp hn
      exact hN x (List.mem_flatMap.mpr ⟨m, hm, pr.dismantle_binders hn hx⟩)
    have hindependent : ∀ {v : Value} {env : Bindings},
        (∀ x ∈ env.map Prod.fst, x ∈ branch.boundNames) →
        I.apply pr.func v env = I.apply pr.func v [] := by
      intro v env hbound
      refine hfree fun x hx => ?_
      have hnot := List.all_eq_true.mp hshared.2 x (hbound x hx)
      rwa [Bool.not_eq_true'] at hnot
    have hsim := redirect_simulates hpost haccept htransport h hfrom hnames hindependent he honce
    rw [attemptPendings_dismantle, List.map_flatMap] at hsim
    simp only [← redirectPending_eq] at hsim
    exact hsim
  · exact Interpretation.attemptPendings_simulates hpost h.respects hpending hN he
      fun _ he' => .pure (haccept he')

theorem shareBranch_same (pr : Projection Form) (mentions : Form → Name → Bool)
    (branch : Branch Form) :
    (pr.shareBranch mentions branch).goal = branch.goal ∧
      (pr.shareBranch mentions branch).env = branch.env := by
  unfold shareBranch
  split <;> exact ⟨rfl, rfl⟩

/-- A queue that reads the value of a still function means what the queue means that applies it. -/
theorem share_simulates (hstill : still)
    (hfree : ∀ {v : Value} {env : Bindings}, (∀ x ∈ env.map Prod.fst, mentions pr.func x = false) →
      I.apply pr.func v env = I.apply pr.func v [])
    {queue : Queue Form} {w : Pairing frozen} (h : pr.Served I rep still σ σ' w)
    (hq : Queue.From rep queue) :
    Simulates False w Pairing.Chosen (I.meaning σ queue)
      (I.meaning σ' (queue.share mentions pr)) := by
  induction queue generalizing w with
  | nil => exact Interpretation.meaning_simulates h.respects hq
  | cons branch queue ih =>
      rw [Queue.From] at hq
      obtain ⟨hgoal, henv⟩ := pr.shareBranch_same mentions branch
      refine Interpretation.meaning_cons_simulates (N := fun _ => True) h.respects
        (Branch.from_iff.mp hq.1).2.2 hgoal ?_ fun hw => ih (h.mono hw) hq.2
      rw [henv]
      refine shareBranch_simulates Pairing.found_report (fun he => ?_) (.inl hstill) hfree h hq.1
        (.inl hstill)
      exact .some ⟨he.scope, fun _ _ => trivial⟩

/-! ## Functions that make nothing -/

variable {vocabulary : Vocabulary}

/-- A function that makes nothing gives values that correspond, whenever it is applied. -/
theorem relates_of_still {func : Form} (hplain : func.QuotesPlainly)
    (hdirect : func.isDirect = true) (hstill : func.allocates vocabulary.functions = false)
    {ambient : Scope} (hscope : w.RelatesScope ambient ambient) {v v' r r' : Value}
    (hv : w.Relates v v') {s s₀ s₁ : ObjectSupply}
    (hr : (Interpretation.within vocabulary ambient).apply func v [] w.left = .ok (r, s))
    (hr' : (Interpretation.within vocabulary ambient).apply func v' [] s₀ = .ok (r', s₁)) :
    w.left.next ≤ s.next ∧ w.Relates r r' := by
  let pairs : Pairing true := ⟨w.rel, w.left, s₀, w.oneToOne, fun hf => by cases hf⟩
  have hambient : pairs.RelatesScope ambient ambient := hscope
  have hrespects : pairs.RespectsFunction (.within vocabulary ambient) func :=
    Pairing.respectsFunction_within hambient
      (fun c hc => Value.relates_of_isPlain (hplain c hc) pairs) fun _ => ⟨hstill, hdirect⟩
  have hsim : Simulates False pairs Pairing.Relates _ _ :=
    Interpretation.apply_simulates hrespects hv .nil
  obtain ⟨r'', pairs', hr'', rfl, hextends, hrel⟩ := hsim.ok hr
  cases hr'.symm.trans hr''
  exact ⟨hextends.left, hextends.relates_of_frozen hrel⟩

theorem served_of_still (hplain : pr.func.QuotesPlainly) (hdirect : pr.func.isDirect = true)
    (hstill : pr.func.allocates vocabulary.functions = false) {ambient : Scope}
    (hscope : w.RelatesScope ambient ambient)
    (h : w.Respects (.within vocabulary ambient) rep σ σ') (hsubject : rep.subject pr.subject)
    {s₀ s₁ : ObjectSupply}
    (happlied : (Interpretation.within vocabulary ambient).apply pr.func (σ' pr.subject) [] s₀ =
      .ok (σ' pr.fresh, s₁)) :
    pr.Served (.within vocabulary ambient) rep True σ σ' w where
  respects := h
  alike g _ halike := Form.eq_of_alike halike hplain
  world {w₁} hw₁ {v s} hv := by
    obtain ⟨hle, hvalues⟩ := relates_of_still hplain hdirect hstill (hscope.mono hw₁)
      ((h.subjects _ hsubject).mono hw₁) hv happlied
    exact ⟨w₁.advance s w₁.right hle (Nat.le_refl _), rfl, rfl, hle, fun hij => hij, hvalues,
      fun _ => w₁.extends_advance hle (Nat.le_refl _)⟩

/-! ## Functions that make objects -/

/-- The variable holds, in the second run, what the function gave there for the subject between
`s₀` and `s₁`. No object made in between is paired. -/
structure Held {frozen : Bool} (pr : Projection Form) (vocabulary : Vocabulary) (sig : Signature)
    (σ σ' : Valuation) (s₀ s₁ : ObjectSupply) (w : Pairing frozen) : Prop where
  suits : w.Suits vocabulary.functions sig σ σ'
  subject : sig.subject pr.subject
  function : sig.function pr.func
  plain : ∀ f, sig.function f → f.QuotesPlainly
  isDirect : pr.func.isDirect = true
  applied : Matcher.applyFunction vocabulary pr.func (σ' pr.subject) [] s₀ = .ok (σ' pr.fresh, s₁)
  before : s₁.next ≤ w.right.next
  made : frozen = false → (σ' pr.subject).MadeBefore s₀
  spare : frozen = false → ∀ {i j : Nat}, w.rel i j → j < s₀.next ∨ s₁.next ≤ j

variable {sig : Signature} {s₀ s₁ : ObjectSupply}

theorem Held.mono (h : pr.Held vocabulary sig σ σ' s₀ s₁ w) (hw : w.Extends w') :
    pr.Held vocabulary sig σ σ' s₀ s₁ w' where
  suits := h.suits.mono hw
  subject := h.subject
  function := h.function
  plain := h.plain
  isDirect := h.isDirect
  applied := h.applied
  before := Nat.le_trans h.before hw.right
  made := h.made
  spare hf i j hij := by
    rcases hw.fresh hij with hij | ⟨-, -, hj⟩
    · exact h.spare hf hij
    · exact .inr (Nat.le_trans h.before hj)

theorem corresponds_below {rel : Nat → Nat → Prop} {s : ObjectSupply} {a b : Value}
    (h : Value.Corresponds rel a b) (hb : b.MadeBefore s) :
    Value.Corresponds (fun i j => rel i j ∧ j < s.next) a b := by
  induction h with
  | symbol name => exact .symbol name
  | int n => exact .int n
  | float x => exact .float x
  | str text hij => exact .str text ⟨hij, hb⟩
  | cons hij _ _ iha ihb => exact .cons ⟨hij, hb.1⟩ (iha hb.2.1) (ihb hb.2.2)

/-- The objects of the shared value can stand for those that an application makes itself. -/
theorem Held.exists_pairing {w : Pairing false} (h : pr.Held vocabulary sig σ σ' s₀ s₁ w)
    {v : Value} {s : ObjectSupply}
    (hv : Matcher.applyFunction vocabulary pr.func (σ pr.subject) [] w.left = .ok (v, s)) :
    ∃ w' : Pairing false, w'.left = s ∧ w'.right = w.right ∧ w.left.next ≤ s.next ∧
      (∀ {i j : Nat}, w.rel i j → w'.rel i j) ∧ w'.Relates v (σ' pr.fresh) := by
  -- Compare with the application that made the shared value, on the pairs known back then.
  let past : Pairing false :=
    ⟨fun i j => w.rel i j ∧ j < s₀.next, w.left, s₀, fun hij hij' => w.oneToOne hij.1 hij'.1,
      fun hf i j hij => ⟨(w.bounded hf hij.1).1, hij.2⟩⟩
  have hadmits : past.AdmitsFunction vocabulary.functions pr.func :=
    ⟨⟨fun c hc => Value.relates_of_isPlain (h.plain _ h.function c hc) past,
      (h.suits.functions _ h.function).allocates⟩, (h.suits.functions _ h.function).isDirect⟩
  have hsubject : past.Relates (σ pr.subject) (σ' pr.subject) :=
    corresponds_below (h.suits.subjects _ h.subject) (h.made rfl)
  have hsim : Simulates False past Pairing.Relates _ _ :=
    Matcher.applyFunction_simulates hadmits hsubject .nil
  obtain ⟨v', past', hv', rfl, hextends, hrel⟩ := hsim.ok hv
  obtain ⟨rfl, rfl⟩ : σ' pr.fresh = v' ∧ s₁ = past'.right := by
    have heq := h.applied.symm.trans hv'
    simpa only [Except.ok.injEq, Prod.mk.injEq] using heq
  have apart : ∀ {i j i' j' : Nat}, w.rel i j → past'.rel i' j' → (i = i' ↔ j = j') := by
    intro i j i' j' hij hij'
    rcases hextends.fresh hij' with hold | ⟨-, hi, hj⟩
    · exact w.oneToOne hij hold.1
    · have hbound := (w.bounded rfl hij).1
      have hnew := (past'.bounded rfl hij').2
      have hspare := h.spare rfl hij
      change w.left.next ≤ i' at hi
      change s₀.next ≤ j' at hj
      constructor <;> intro <;> omega
  refine ⟨⟨fun i j => w.rel i j ∨ past'.rel i j, past'.left, w.right, ?_, ?_⟩, rfl, rfl,
    hextends.left, .inl, Value.Corresponds.mono hrel .inr⟩
  · rintro i j i' j' (hij | hij) (hij' | hij')
    · exact w.oneToOne hij hij'
    · exact apart hij hij'
    · exact ⟨fun hi => ((apart hij' hij).mp hi.symm).symm,
        fun hj => ((apart hij' hij).mpr hj.symm).symm⟩
    · exact past'.oneToOne hij hij'
  · rintro - i j (hij | hij)
    · obtain ⟨hi, hj⟩ := w.bounded rfl hij
      exact ⟨Nat.lt_of_lt_of_le hi hextends.left, hj⟩
    · obtain ⟨hi, hj⟩ := past'.bounded rfl hij
      exact ⟨hi, Nat.lt_of_lt_of_le hj h.before⟩

theorem Held.served (h : pr.Held vocabulary sig σ σ' s₀ s₁ w) :
    pr.Served (.within vocabulary []) sig.repertoire
      (pr.func.allocates vocabulary.functions = false) σ σ' w where
  respects := h.suits.respects
  alike g _ halike := Form.eq_of_alike halike (h.plain _ h.function)
  world {w₁} hw₁ {v s} hv := by
    have h₁ := h.mono hw₁
    have happlied := h.applied
    rw [← Interpretation.within_nil_apply] at happlied
    cases hstill : pr.func.allocates vocabulary.functions with
    | false =>
        obtain ⟨hle, hvalues⟩ := relates_of_still (h.plain _ h.function) h.isDirect hstill .nil
          (h₁.suits.subjects _ h.subject) hv happlied
        exact ⟨w₁.advance s w₁.right hle (Nat.le_refl _), rfl, rfl, hle, fun hij => hij, hvalues,
          fun _ => w₁.extends_advance hle (Nat.le_refl _)⟩
    | true =>
        cases frozen with
        | true => rw [(h.suits.functions _ h.function).allocates rfl] at hstill; cases hstill
        | false =>
            rw [Interpretation.within_nil_apply] at hv
            obtain ⟨w₂, hleft, hright, hle, hrel, hvalues⟩ := h₁.exists_pairing hv
            exact ⟨w₂, hleft, hright, hle, hrel, hvalues, fun hfalse => by cases hfalse⟩

/-- The function makes nothing, or is applied by one of the matches at most. -/
def Shareable (pr : Projection Form) (functions : FunctionTable) (ms : List (Pending Form)) : Prop :=
  pr.func.allocates functions = false ∨ pr.AppliedOnce ms

end Projection

/-- A queue that reads shared values means what the queue means that applies the function. -/
theorem Queue.share_agrees {frozen : Bool} {vocabulary : Vocabulary} {sig : Signature}
    {σ σ' : Valuation} {s₀ s₁ : ObjectSupply} {pr : Projection Form}
    {mentions : Form → Name → Bool}
    (hmentions : ∀ f x, f.mentions x = true → mentions f x = true) {queue : Queue Form}
    {w : Pairing frozen} (h : pr.Held vocabulary sig σ σ' s₀ s₁ w) (hq : Queue.Over sig queue)
    (honce : ∀ branch ∈ queue,
      pr.Shareable vocabulary.functions (branch.pending.flatMap pr.dismantle)) :
    Agrees False SameOutcome (outcome vocabulary σ queue w.left)
      (outcome vocabulary σ' (share mentions pr queue) w.right) := by
  induction queue generalizing w with
  | nil => exact (Queue.outcome_simulates h.suits hq).agrees fun hchosen => hchosen.sameOutcome
  | cons branch queue ih =>
      rw [Queue.Over] at hq
      obtain ⟨hbranch, hqueue⟩ := List.forall_mem_cons.mp honce
      obtain ⟨hgoal, henv⟩ := pr.shareBranch_same mentions branch
      refine cons_agrees h.suits (Branch.over_iff.mp hq.1).2.2 hgoal ?_ fun hs hs' => ?_
      · rw [Branch.continuation_eq hq.1,
          Branch.continuation_eq (hq.1.share mentions pr h.subject), henv]
        exact Projection.shareBranch_simulates sameBindings_report
          (fun he => .some he.scope.sameBindings) (.inr fun hsame => hsame)
          (fun hfree => Interpretation.within_apply_of_unmentioned hmentions hfree _)
          h.served hq.1.from hbranch
      · exact ih (h.mono (w.extends_advance hs hs')) hq.2 hqueue

open Interpretation (within) in
/-- Reading what a function gave for a subject in place of applying it keeps what a queue means, at
any later time and up to the objects made since, if the function makes no objects and quotes only
symbols and integers. -/
theorem sharing_keeps_meaning {vocabulary : Vocabulary} {ambient : Scope}
    {mentions : Form → Name → Bool} (hmentions : ∀ f x, f.mentions x = true → mentions f x = true)
    {pr : Projection Form} (hdirect : pr.func.isDirect = true)
    (hstill : pr.func.allocates vocabulary.functions = false) (hplain : pr.func.QuotesPlainly)
    {rep : Repertoire Form} {queue : Queue Form} (hq : Queue.From rep queue)
    (hsubject : rep.subject pr.subject) {σ : Valuation} {s : ObjectSupply}
    (hready : Ready ambient rep σ s) {s₀ s₁ : ObjectSupply}
    (happlied : (within vocabulary ambient).apply pr.func (σ pr.subject) [] s₀ =
      .ok (σ pr.fresh, s₁))
    {t t' : ObjectSupply} (ht : s.next ≤ t.next) (ht' : s.next ≤ t'.next) :
    Simulates False (Pairing.same false t t') Pairing.Chosen
      ((within vocabulary ambient).meaning σ queue)
      ((within vocabulary ambient).meaning σ (queue.share mentions pr)) := by
  have hlater : (Pairing.same false s s).Extends (Pairing.same false t t') :=
    Pairing.same_extends ht ht'
  have hserved := Projection.served_of_still hplain hdirect hstill
    ((Pairing.same_relatesScope hready.ambient).mono hlater)
    ((hready.respects vocabulary).mono hlater) hsubject happlied
  exact Projection.share_simulates trivial
    (fun hfree => Interpretation.within_apply_of_unmentioned hmentions hfree _) hserved hq

/-- Two branches that apply one function; the second one compares what two applications give, and
goes on with a third. -/
def applyingBranches (root x : Name) (f : Form) : Queue Form :=
  [⟨[.pattern root (.app f (.literal (.int 5)))], .empty, .select 0⟩,
    ⟨[.pattern root (.and [.app f (.bind x), .app f (.bind x)])], .empty,
      .resume [⟨[.pattern root (.app f (.bind x))], .empty, .select 2⟩]⟩]

theorem applyingBranches_from {rep : Repertoire Form} {root : Name} {f : Form}
    (hroot : rep.subject root) (hf : rep.function f) (x : Name) :
    Queue.From rep (applyingBranches root x f) := by
  have hliteral : (Pattern.app f (.literal (.int 5))).From rep :=
    ⟨by simp [Pattern.functions, hf], by simp [Pattern.guards]⟩
  have hbind : (Pattern.app f (.bind x)).From rep :=
    ⟨by simp [Pattern.functions, hf], by simp [Pattern.guards]⟩
  have htwice : (Pattern.and [.app f (.bind x), .app f (.bind x)]).From rep :=
    ⟨by simp [Pattern.functions, Pattern.listFunctions, hf],
      by simp [Pattern.guards, Pattern.listGuards]⟩
  simp [applyingBranches, Queue.From, Branch.From, Goal.From, Pending.From, Environment.subjects,
    Environment.empty, hroot, hliteral, hbind, htwice]

open Interpretation (within) in
theorem sharing_keeps_meaning_of_tail :
    ∃ (outcome : Outcome) (t : ObjectSupply) (w : Pairing false),
      (within ⟨⟨⟨3⟩, ⟨4⟩, ⟨5⟩, ⟨6⟩, ⟨7⟩, ⟨8⟩, ⟨9⟩⟩, [(⟨7⟩, .memql)]⟩ [(⟨10⟩, .int 5)]).meaning
        (fun _ => .cons 0 (.int 5) .nil)
        (Queue.share (fun f x => f.mentions x) ⟨⟨11⟩, .call ⟨7⟩ [.var ⟨10⟩], ⟨13⟩⟩
          (applyingBranches ⟨11⟩ ⟨12⟩ (.call ⟨7⟩ [.var ⟨10⟩]))) ⟨1⟩ = .ok (outcome, t) ∧
      w.Chosen (some (2, [(⟨12⟩, .cons 0 (.int 5) .nil)])) outcome := by
  have hsim := @sharing_keeps_meaning
    ⟨⟨⟨3⟩, ⟨4⟩, ⟨5⟩, ⟨6⟩, ⟨7⟩, ⟨8⟩, ⟨9⟩⟩, [(⟨7⟩, .memql)]⟩ [(⟨10⟩, .int 5)]
    (fun f x => f.mentions x) (fun _ _ h => h) ⟨⟨11⟩, .call ⟨7⟩ [.var ⟨10⟩], ⟨13⟩⟩ rfl rfl
    (by simp [Form.QuotesPlainly, Form.constants, Form.listConstants])
    ⟨(· = ⟨11⟩), (· = .call ⟨7⟩ [.var ⟨10⟩]), fun _ => False⟩
    (applyingBranches ⟨11⟩ ⟨12⟩ (.call ⟨7⟩ [.var ⟨10⟩])) (applyingBranches_from rfl rfl ⟨12⟩) rfl
    (fun _ => .cons 0 (.int 5) .nil) ⟨1⟩
    ⟨fun _ _ => ⟨Nat.zero_lt_one, trivial, trivial⟩,
      by simp [Form.constants, Form.listConstants], nofun, by simp [Value.MadeBefore]⟩
    ⟨1⟩ ⟨1⟩ rfl ⟨1⟩ ⟨1⟩ (Nat.le_refl _) (Nat.le_refl _)
  obtain ⟨outcome, w, houtcome, -, -, hchosen⟩ := hsim.ok (s := ⟨1⟩) rfl
  exact ⟨outcome, _, w, houtcome, hchosen⟩

end PatternCompiler
