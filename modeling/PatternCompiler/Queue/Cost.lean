import PatternCompiler.Queue.Basic

/-!
# The cost of a queue

A measure on queues that every step lowers. The cost of a match depends on what follows: on the
cost of failing, and on a function from the cost of failing later to the cost of going on. An
alternative is charged for everything that is compiled again behind it, and a negation for the
copy of the queue that it saves. Simplifying a queue never raises its cost.
-/

namespace PatternCompiler

set_option autoImplicit false

variable {ε : Type}

namespace Pattern

mutual

/-- The cost of matching, given the cost `s` of success and the cost `f` of failure. -/
def cost : Pattern ε → (Nat → Nat) → Nat → Nat
  | .wildcard, s, f => 1 + s f
  | .bind _, s, f => 2 + s f + f
  | .literal _, s, f => 1 + s f + f
  | .predicate _, s, f => 1 + s f + f
  | .guard _, s, f => 1 + s f + f
  | .app _ inner, s, f => 1 + cost inner s f
  | .not inner, s, f => 2 + cost inner (fun g => f + g) (1 + s f)
  | .and items, s, f => 1 + costAll items s f
  | .or alternatives, s, f => 1 + costAny alternatives s f

def costAll : List (Pattern ε) → (Nat → Nat) → Nat → Nat
  | [], s, f => s f
  | p :: ps, s, f => cost p (costAll ps s) f

def costAny : List (Pattern ε) → (Nat → Nat) → Nat → Nat
  | [], s, f => s f
  | p :: ps, s, f => cost p s (1 + costAny ps s f)

end

end Pattern

/-- The cost of success is at least that of failure. -/
def Inflationary (s : Nat → Nat) : Prop := ∀ f, f ≤ s f

/-- One cost function is below another, also when failure gets dearer. -/
def Below (s s' : Nat → Nat) : Prop := ∀ f f', f ≤ f' → s f ≤ s' f'

namespace Pattern

mutual

theorem cost_below (p : Pattern ε) {s s' : Nat → Nat} (h : Below s s') :
    Below (p.cost s) (p.cost s') := by
  intro f f' hf
  have hs := h f f' hf
  cases p with
  | wildcard => simp only [cost]; omega
  | bind _ => simp only [cost]; omega
  | literal _ => simp only [cost]; omega
  | predicate _ => simp only [cost]; omega
  | guard _ => simp only [cost]; omega
  | app _ inner =>
      have := cost_below inner h f f' hf
      simp only [cost]; omega
  | not inner =>
      have hadd : Below (fun g => f + g) (fun g => f' + g) := by intro g g' hg; simp only; omega
      have := cost_below inner hadd (1 + s f) (1 + s' f') (by omega)
      simp only [cost]; omega
  | and items =>
      have := costAll_below items h f f' hf
      simp only [cost]; omega
  | or alternatives =>
      have := costAny_below alternatives h f f' hf
      simp only [cost]; omega

theorem costAll_below (ps : List (Pattern ε)) {s s' : Nat → Nat} (h : Below s s') :
    Below (costAll ps s) (costAll ps s') := by
  intro f f' hf
  cases ps with
  | nil => exact h f f' hf
  | cons p ps => exact cost_below p (costAll_below ps h) f f' hf

theorem costAny_below (ps : List (Pattern ε)) {s s' : Nat → Nat} (h : Below s s') :
    Below (costAny ps s) (costAny ps s') := by
  intro f f' hf
  cases ps with
  | nil => exact h f f' hf
  | cons p ps =>
      have := costAny_below ps h f f' hf
      exact cost_below p h _ _ (by omega)

end

mutual

theorem le_cost (p : Pattern ε) {s : Nat → Nat} (h : Inflationary s) (f : Nat) :
    s f ≤ p.cost s f := by
  cases p with
  | wildcard => simp only [cost]; omega
  | bind _ => simp only [cost]; omega
  | literal _ => simp only [cost]; omega
  | predicate _ => simp only [cost]; omega
  | guard _ => simp only [cost]; omega
  | app _ inner =>
      have := le_cost inner h f
      simp only [cost]; omega
  | not inner =>
      have hadd : Inflationary (fun g => f + g) := by intro g; simp only; omega
      have := le_cost inner hadd (1 + s f)
      simp only [cost] at this ⊢; omega
  | and items =>
      have := le_costAll items h f
      simp only [cost]; omega
  | or alternatives =>
      have := le_costAny alternatives h f
      simp only [cost]; omega

theorem le_costAll (ps : List (Pattern ε)) {s : Nat → Nat} (h : Inflationary s) (f : Nat) :
    s f ≤ costAll ps s f := by
  cases ps with
  | nil => exact Nat.le_refl _
  | cons p ps =>
      have hrest : Inflationary (costAll ps s) := fun g => Nat.le_trans (h g) (le_costAll ps h g)
      have := le_cost p hrest f
      have := le_costAll ps h f
      simp only [costAll]; omega

theorem le_costAny (ps : List (Pattern ε)) {s : Nat → Nat} (h : Inflationary s) (f : Nat) :
    s f ≤ costAny ps s f := by
  cases ps with
  | nil => exact Nat.le_refl _
  | cons p ps =>
      have := le_cost p h (1 + costAny ps s f)
      have := h (1 + costAny ps s f)
      have := le_costAny ps h f
      simp only [costAny]; omega

end

/-- A plain comparison costs at least a test. -/
theorem test_le_cost_of_quoted? {p : Pattern ε} {l : Literal} (hq : p.quoted? = some l)
    {s : Nat → Nat} (hm : Below s s) (hi : Inflationary s) (f : Nat) :
    1 + s f + f ≤ p.cost s f := by
  fun_induction quoted? p with
  | case1 l => simp only [cost]; omega
  | case2 p ih =>
      simp only [cost, costAll]
      exact Nat.le_trans (ih hq) (Nat.le_add_left _ _)
  | case3 p ih =>
      have := ih hq
      have := cost_below p hm f (1 + s f) (by have := hi f; omega)
      simp only [cost, costAny]; omega
  | case4 p => simp at hq

end Pattern

namespace Pending

def cost : Pending ε → (Nat → Nat) → Nat → Nat
  | .pattern _ p, s, f => p.cost s f
  | .member .., s, f => 1 + s f + f
  | .sameAs .., s, f => 1 + s f + f

def costAll : List (Pending ε) → (Nat → Nat) → Nat → Nat
  | [], s, f => s f
  | m :: ms, s, f => m.cost (costAll ms s) f

theorem cost_below (m : Pending ε) {s s' : Nat → Nat} (h : Below s s') :
    Below (m.cost s) (m.cost s') := by
  intro f f' hf
  cases m with
  | pattern _ p => exact p.cost_below h f f' hf
  | member _ _ _ => have := h f f' hf; simp only [cost]; omega
  | sameAs _ _ => have := h f f' hf; simp only [cost]; omega

theorem costAll_below (ms : List (Pending ε)) {s s' : Nat → Nat} (h : Below s s') :
    Below (costAll ms s) (costAll ms s') := by
  induction ms with
  | nil => exact h
  | cons m ms ih => exact m.cost_below ih

theorem le_cost (m : Pending ε) {s : Nat → Nat} (h : Inflationary s) (f : Nat) :
    s f ≤ m.cost s f := by
  cases m with
  | pattern _ p => exact p.le_cost h f
  | member _ _ _ => simp only [cost]; omega
  | sameAs _ _ => simp only [cost]; omega

theorem costAll_inflationary (ms : List (Pending ε)) {s : Nat → Nat} (h : Inflationary s) :
    Inflationary (costAll ms s) := by
  induction ms with
  | nil => exact h
  | cons m ms ih => exact fun f => Nat.le_trans (ih f) (m.le_cost ih f)

theorem costAll_append (ms ns : List (Pending ε)) (s : Nat → Nat) :
    costAll (ms ++ ns) s = costAll ms (costAll ns s) := by
  induction ms with
  | nil => rfl
  | cons m ms ih => funext f; simp only [List.cons_append, costAll, ih]

theorem costAll_map_pattern (subject : Name) (ps : List (Pattern ε)) (s : Nat → Nat) :
    costAll (ps.map (.pattern subject)) s = Pattern.costAll ps s := by
  induction ps with
  | nil => rfl
  | cons p ps ih => funext f; simp only [List.map_cons, costAll, ih, cost, Pattern.costAll]

end Pending

mutual

/-- The cost of a branch in front of a queue of cost `f`. -/
def Branch.cost : Branch ε → Nat → Nat
  | ⟨pending, _, goal⟩, f => 1 + Pending.costAll pending (fun g => Goal.cost goal + g) f

def Goal.cost : Goal (List (Branch ε)) → Nat
  | .select _ => 0
  | .resume queue => Queue.cost queue

def Queue.cost : List (Branch ε) → Nat
  | [] => 0
  | branch :: queue => branch.cost (Queue.cost queue)

end

def Goal.onward (goal : Goal (List (Branch ε))) : Nat → Nat := fun g => goal.cost + g

theorem Goal.onward_below (goal : Goal (List (Branch ε))) : Below goal.onward goal.onward := by
  intro f f' hf; simp only [Goal.onward]; omega

theorem Goal.onward_inflationary (goal : Goal (List (Branch ε))) : Inflationary goal.onward := by
  intro f; simp only [Goal.onward]; omega

theorem Branch.cost_eq (branch : Branch ε) (f : Nat) :
    branch.cost f = 1 + Pending.costAll branch.pending branch.goal.onward f := by
  obtain ⟨pending, env, goal⟩ := branch
  simp only [Branch.cost]; rfl

theorem Branch.cost_mono (branch : Branch ε) {f f' : Nat} (h : f ≤ f') :
    branch.cost f ≤ branch.cost f' := by
  rw [branch.cost_eq, branch.cost_eq]
  exact Nat.add_le_add_left (Pending.costAll_below _ branch.goal.onward_below f f' h) 1

theorem Branch.lt_cost (branch : Branch ε) (f : Nat) : f < branch.cost f := by
  rw [branch.cost_eq]
  have := Pending.costAll_inflationary branch.pending branch.goal.onward_inflationary f
  omega

end PatternCompiler
