import PatternCompiler.Proofs.Marking
import PatternCompiler.Proofs.Membership
import PatternCompiler.Proofs.Rejection

/-!
# Ways through patterns

A way through a pattern goes from left to right and takes one alternative of every disjunction. On
the way a variable gets bound and then read; no way goes through a negation. What every way ensures
is kept by folding alternatives. It is kept by splitting and sharing, which drop nothing that binds
the variable but may take away a reading.
-/

namespace PatternCompiler

set_option autoImplicit false

/-! ## The use of a variable -/

/-- What a way has done with a variable. -/
inductive Usage where
  | unbound
  | bound
  | read
deriving DecidableEq

namespace Usage

def bind : Usage → Usage
  | unbound => bound
  | usage => usage

/-- An expression that mentions a variable reads it if it is bound. -/
def look (mentioned : Bool) : Usage → Usage
  | bound => if mentioned then read else bound
  | usage => usage

/-- The environment at the end of the way, where what is bound may be marked for other reasons. -/
def Fits (x : Name) (env : Environment) : Usage → Prop
  | unbound => x ∉ env.names
  | bound => x ∈ env.names
  | read => env.isUsed x = true

@[simp] theorem look_false (s : Usage) : s.look false = s := by
  cases s with
  | unbound | bound | read => rfl

end Usage

/-! ## Demands on patterns -/

namespace Pattern

variable {ε : Type} (mentions : ε → Name → Bool) (x : Name) (probe : Usage → Bool)

mutual

/-- All ways through the pattern end where `goal` allows. What stands in a negation begins and ends
where `probe` allows. -/
def ensures : Pattern ε → (Usage → Bool) → Usage → Bool
  | wildcard, goal, s | literal _, goal, s => goal s
  | bind name, goal, s => goal (if name = x then s.bind else s)
  | predicate expr, goal, s | guard expr, goal, s => goal (s.look (mentions expr x))
  | app func inner, goal, s => inner.ensures goal (s.look (mentions func x))
  | not inner, goal, s => probe s && inner.ensures probe s && goal s
  | and items, goal, s => ensuresAll items goal s
  | or alternatives, goal, s => ensuresEach alternatives goal s

/-- All ways through one pattern after another end where `goal` allows. -/
def ensuresAll : List (Pattern ε) → (Usage → Bool) → Usage → Bool
  | [], goal, s => goal s
  | p :: ps, goal, s => p.ensures (ensuresAll ps goal) s

/-- All ways through any of the patterns end where `goal` allows. -/
def ensuresEach : List (Pattern ε) → (Usage → Bool) → Usage → Bool
  | [], _, _ => true
  | p :: ps, goal, s => p.ensures goal s && ensuresEach ps goal s

end

variable {mentions x probe}

theorem ensuresEach_iff {goal : Usage → Bool} {s : Usage} {ps : List (Pattern ε)} :
    ensuresEach mentions x probe ps goal s = true ↔
      ∀ p ∈ ps, p.ensures mentions x probe goal s = true := by
  induction ps with
  | nil => simp [ensuresEach]
  | cons p ps ih => rw [ensuresEach, Bool.and_eq_true, ih, List.forall_mem_cons]

mutual

theorem ensures_mono {goal goal' : Usage → Bool}
    (hgoal : ∀ s, goal s = true → goal' s = true) (p : Pattern ε) {s : Usage}
    (h : p.ensures mentions x probe goal s = true) :
    p.ensures mentions x probe goal' s = true := by
  cases p with
  | wildcard | literal | bind | predicate | guard => exact hgoal _ h
  | app func inner => exact ensures_mono hgoal inner h
  | not inner =>
      rw [ensures, Bool.and_eq_true] at h ⊢
      exact ⟨h.1, hgoal s h.2⟩
  | and items => exact ensuresAll_mono hgoal items h
  | or alternatives => exact ensuresEach_mono hgoal alternatives h

theorem ensuresAll_mono {goal goal' : Usage → Bool}
    (hgoal : ∀ s, goal s = true → goal' s = true) (ps : List (Pattern ε)) {s : Usage}
    (h : ensuresAll mentions x probe ps goal s = true) :
    ensuresAll mentions x probe ps goal' s = true := by
  cases ps with
  | nil => exact hgoal s h
  | cons p ps => exact ensures_mono (fun _ hs => ensuresAll_mono hgoal ps hs) p h

theorem ensuresEach_mono {goal goal' : Usage → Bool}
    (hgoal : ∀ s, goal s = true → goal' s = true) (ps : List (Pattern ε)) {s : Usage}
    (h : ensuresEach mentions x probe ps goal s = true) :
    ensuresEach mentions x probe ps goal' s = true := by
  cases ps with
  | nil => rfl
  | cons p ps =>
      rw [ensuresEach, Bool.and_eq_true] at h ⊢
      exact ⟨ensures_mono hgoal p h.1, ensuresEach_mono hgoal ps h.2⟩

end

/-- A plain comparison neither binds nor reads. -/
theorem ensures_of_quoted {p : Pattern ε} {l : Literal} (h : p.quoted? = some l)
    (goal : Usage → Bool) (s : Usage) :
    p.ensures mentions x probe goal s = goal s := by
  fun_induction quoted? p with
  | case1 l => rfl
  | case2 p ih => exact ih h
  | case3 p ih =>
      rw [ensures, ensuresEach, ensuresEach, Bool.and_true]
      exact ih h
  | case4 => cases h

mutual

/-- A variable that the pattern does not bind stays unbound. -/
theorem ensures_of_not_mem_binders {goal : Usage → Bool} (hprobe : probe .unbound = true)
    (hgoal : goal .unbound = true) (p : Pattern ε) (hx : x ∉ p.binders) :
    p.ensures mentions x probe goal .unbound = true := by
  cases p with
  | wildcard | literal | predicate | guard => exact hgoal
  | bind name =>
      have hne : name ≠ x := fun heq => hx (List.mem_singleton.mpr heq.symm)
      rw [ensures, if_neg hne]
      exact hgoal
  | app func inner => exact ensures_of_not_mem_binders hprobe hgoal inner hx
  | not inner =>
      rw [ensures, hprobe, hgoal, ensures_of_not_mem_binders hprobe hprobe inner hx]
      rfl
  | and items => exact ensuresAll_of_not_mem_binders hprobe hgoal items hx
  | or alternatives => exact ensuresEach_of_not_mem_binders hprobe hgoal alternatives hx

theorem ensuresAll_of_not_mem_binders {goal : Usage → Bool} (hprobe : probe .unbound = true)
    (hgoal : goal .unbound = true) (ps : List (Pattern ε)) (hx : x ∉ bindersOfList ps) :
    ensuresAll mentions x probe ps goal .unbound = true := by
  cases ps with
  | nil => exact hgoal
  | cons p ps =>
      rw [bindersOfList, List.mem_append, not_or] at hx
      exact ensures_of_not_mem_binders hprobe (ensuresAll_of_not_mem_binders hprobe hgoal ps hx.2)
        p hx.1

theorem ensuresEach_of_not_mem_binders {goal : Usage → Bool} (hprobe : probe .unbound = true)
    (hgoal : goal .unbound = true) (ps : List (Pattern ε)) (hx : x ∉ bindersOfList ps) :
    ensuresEach mentions x probe ps goal .unbound = true := by
  cases ps with
  | nil => rfl
  | cons p ps =>
      rw [bindersOfList, List.mem_append, not_or] at hx
      rw [ensuresEach, ensures_of_not_mem_binders hprobe hgoal p hx.1,
        ensuresEach_of_not_mem_binders hprobe hgoal ps hx.2]
      rfl

end

end Pattern

/-- What is allowed of a read variable is allowed of a bound one. -/
def Falls (goal : Usage → Bool) : Prop := goal .read = true → goal .bound = true

theorem Falls.of_look {goal : Usage → Bool} (h : Falls goal) {mentioned : Bool} {s : Usage}
    (hs : goal (s.look mentioned) = true) : goal s = true := by
  cases s with
  | unbound | read => exact hs
  | bound =>
      cases mentioned with
      | false => exact hs
      | true => exact h hs

namespace Pattern

variable {ε : Type} {mentions : ε → Name → Bool} {x : Name} {probe : Usage → Bool}

mutual

theorem ensures_falls {goal : Usage → Bool} (hprobe : Falls probe) (hgoal : Falls goal)
    (p : Pattern ε) : Falls (p.ensures mentions x probe goal) := by
  intro h
  cases p with
  | wildcard | literal => exact hgoal h
  | bind name =>
      rw [ensures] at h ⊢
      split at h
      · rename_i heq
        rw [if_pos heq]
        exact hgoal h
      · rename_i hne
        rw [if_neg hne]
        exact hgoal h
  | predicate expr | guard expr =>
      rw [ensures] at h ⊢
      cases mentions expr x with
      | false => exact hgoal h
      | true => exact h
  | app func inner =>
      rw [ensures] at h ⊢
      cases mentions func x with
      | false => exact ensures_falls hprobe hgoal inner h
      | true => exact h
  | not inner =>
      simp only [ensures, Bool.and_eq_true] at h ⊢
      exact ⟨⟨hprobe h.1.1, ensures_falls hprobe hprobe inner h.1.2⟩, hgoal h.2⟩
  | and items => exact ensuresAll_falls hprobe hgoal items h
  | or alternatives => exact ensuresEach_falls hprobe hgoal alternatives h

theorem ensuresAll_falls {goal : Usage → Bool} (hprobe : Falls probe) (hgoal : Falls goal)
    (ps : List (Pattern ε)) : Falls (ensuresAll mentions x probe ps goal) := by
  cases ps with
  | nil => exact hgoal
  | cons p ps => exact ensures_falls hprobe (ensuresAll_falls hprobe hgoal ps) p

theorem ensuresEach_falls {goal : Usage → Bool} (hprobe : Falls probe) (hgoal : Falls goal)
    (ps : List (Pattern ε)) : Falls (ensuresEach mentions x probe ps goal) := by
  intro h
  cases ps with
  | nil => rfl
  | cons p ps =>
      rw [ensuresEach, Bool.and_eq_true] at h ⊢
      exact ⟨ensures_falls hprobe hgoal p h.1, ensuresEach_falls hprobe hgoal ps h.2⟩

end

mutual

/-- There is a way through every pattern without empty disjunctions, and what has been read stays
read on it. -/
theorem not_ensures_read {goal : Usage → Bool} (hgoal : goal .read = false) (p : Pattern ε)
    (hp : ¬ p.Malformed) : p.ensures mentions x probe goal .read = false := by
  cases p with
  | wildcard | literal | predicate | guard => exact hgoal
  | bind name =>
      rw [ensures]
      split
      · exact hgoal
      · exact hgoal
  | app func inner => exact not_ensures_read hgoal inner fun h => hp (.app h)
  | not inner => rw [ensures, hgoal, Bool.and_false]
  | and items => exact not_ensuresAll_read hgoal items fun p hmem h => hp (.item hmem h)
  | or alternatives =>
      cases alternatives with
      | nil => exact absurd .self hp
      | cons q qs =>
          rw [ensures, ensuresEach,
            not_ensures_read hgoal q fun h => hp (.alternative List.mem_cons_self h)]
          rfl

theorem not_ensuresAll_read {goal : Usage → Bool} (hgoal : goal .read = false)
    (ps : List (Pattern ε)) (hps : ∀ p ∈ ps, ¬ p.Malformed) :
    ensuresAll mentions x probe ps goal .read = false := by
  cases ps with
  | nil => exact hgoal
  | cons p ps =>
      obtain ⟨hp, hps⟩ := List.forall_mem_cons.mp hps
      exact not_ensures_read (not_ensuresAll_read hgoal ps hps) p hp

end

end Pattern

/-! ## Demands on pending matches -/

namespace Pending

variable {ε : Type} (mentions : ε → Name → Bool) (x : Name) (probe : Usage → Bool)

def ensures : Pending ε → (Usage → Bool) → Usage → Bool
  | pattern _ p, goal => p.ensures mentions x probe goal
  | member .., goal | sameAs .., goal => goal

/-- All ways through the matches, in their order, end where `goal` allows. -/
def ensuresAll (ms : List (Pending ε)) (goal : Usage → Bool) : Usage → Bool :=
  ms.foldr (fun m goal => m.ensures mentions x probe goal) goal

variable {mentions x probe} {goal goal' : Usage → Bool}

theorem ensuresAll_append (ms ns : List (Pending ε)) :
    ensuresAll mentions x probe (ms ++ ns) goal =
      ensuresAll mentions x probe ms (ensuresAll mentions x probe ns goal) :=
  List.foldr_append

theorem ensuresAll_map_pattern (subject : Name) (ps : List (Pattern ε)) :
    ensuresAll mentions x probe (ps.map (.pattern subject)) goal =
      Pattern.ensuresAll mentions x probe ps goal := by
  induction ps with
  | nil => rfl
  | cons p ps ih =>
      change p.ensures mentions x probe (ensuresAll mentions x probe (ps.map _) goal) = _
      rw [ih]
      rfl

theorem ensures_mono (hgoal : ∀ s, goal s = true → goal' s = true) (m : Pending ε) {s : Usage}
    (h : m.ensures mentions x probe goal s = true) :
    m.ensures mentions x probe goal' s = true := by
  cases m with
  | pattern subject p => exact Pattern.ensures_mono hgoal p h
  | member | sameAs => exact hgoal s h

theorem ensuresAll_mono (hgoal : ∀ s, goal s = true → goal' s = true) (ms : List (Pending ε))
    {s : Usage} (h : ensuresAll mentions x probe ms goal s = true) :
    ensuresAll mentions x probe ms goal' s = true := by
  induction ms generalizing s with
  | nil => exact hgoal s h
  | cons m ms ih => exact ensures_mono (fun _ => ih) m h

theorem ensuresAll_falls (hprobe : Falls probe) (hgoal : Falls goal) (ms : List (Pending ε)) :
    Falls (ensuresAll mentions x probe ms goal) := by
  induction ms with
  | nil => exact hgoal
  | cons m ms ih =>
      cases m with
      | pattern subject p => exact Pattern.ensures_falls hprobe ih p
      | member | sameAs => exact ih

theorem ensuresAll_of_not_binder (hprobe : probe .unbound = true) (hgoal : goal .unbound = true)
    {ms : List (Pending ε)} (hx : ∀ m ∈ ms, x ∉ m.binders) :
    ensuresAll mentions x probe ms goal .unbound = true := by
  induction ms with
  | nil => exact hgoal
  | cons m ms ih =>
      obtain ⟨hm, hms⟩ := List.forall_mem_cons.mp hx
      cases m with
      | pattern subject p => exact Pattern.ensures_of_not_mem_binders hprobe (ih hms) p hm
      | member | sameAs => exact ih hms

theorem not_ensuresAll_read (hgoal : goal .read = false) {ms : List (Pending ε)}
    (hms : ∀ m ∈ ms, m.Within .wellFormed) : ensuresAll mentions x probe ms goal .read = false := by
  induction ms with
  | nil => exact hgoal
  | cons m ms ih =>
      obtain ⟨hm, hrest⟩ := List.forall_mem_cons.mp hms
      cases m with
      | pattern subject p => exact Pattern.not_ensures_read (ih hrest) p hm.2
      | member | sameAs => exact ih hrest

/-- Every match for alternatives, folded or not, ensures what all alternatives ensure. -/
theorem ensures_of_mem_alternativeMatches {fold : Bool} {subject : Name}
    {alternatives : List (Pattern ε)} {s : Usage}
    (h : ∀ p ∈ alternatives, p.ensures mentions x probe goal s = true) {m : Pending ε}
    (hm : m ∈ alternativeMatches fold subject alternatives) :
    m.ensures mentions x probe goal s = true := by
  cases fold with
  | false =>
      obtain ⟨p, hp, rfl⟩ := List.mem_map.mp hm
      exact h p hp
  | true =>
      obtain ⟨runs, hruns, rfl⟩ := (alternativeMatches_foldsExactly subject alternatives).runs
      obtain ⟨run, hrun, hreplaces⟩ := exists_of_mem_of_forall₂ hruns.flip hm
      cases hreplaces with
      | single p => exact h p (List.mem_flatten.mpr ⟨_, hrun, List.mem_singleton_self p⟩)
      | @run _ set hset hmany =>
          cases run with
          | nil =>
              obtain rfl := List.map_eq_nil_iff.mp hset.symm
              cases hmany
          | cons p ps =>
              cases set with
              | nil => cases hmany
              | cons l set =>
                  have hquoted : p.quoted? = some l := (List.cons.inj hset).1
                  have hp := h p (List.mem_flatten.mpr ⟨_, hrun, List.mem_cons_self⟩)
                  rwa [Pattern.ensures_of_quoted hquoted] at hp

end Pending

/-! ## Demands after splitting and sharing -/

section

variable {ε : Type} {dropped : ε → Prop} {mentions : ε → Name → Bool} {x : Name}
  {probe goal : Usage → Bool}

/-- The functions that are dropped do not read the variable, or it need not be read. -/
def Spares (dropped : ε → Prop) (mentions : ε → Name → Bool) (x : Name)
    (probe goal : Usage → Bool) : Prop :=
  ∀ func, dropped func → mentions func x = false ∨ Falls probe ∧ Falls goal

theorem Spares.before_item (h : Spares dropped mentions x probe goal) (ps : List (Pattern ε)) :
    Spares dropped mentions x probe (Pattern.ensuresAll mentions x probe ps goal) :=
  fun func hfunc => (h func hfunc).imp_right fun ⟨hprobe, hgoal⟩ =>
    ⟨hprobe, Pattern.ensuresAll_falls hprobe hgoal ps⟩

theorem Spares.before (h : Spares dropped mentions x probe goal) (ms : List (Pending ε)) :
    Spares dropped mentions x probe (Pending.ensuresAll mentions x probe ms goal) :=
  fun func hfunc => (h func hfunc).imp_right fun ⟨hprobe, hgoal⟩ =>
    ⟨hprobe, Pending.ensuresAll_falls hprobe hgoal ms⟩

theorem Spares.of_look (h : Spares dropped mentions x probe goal) {func : ε} (hfunc : dropped func)
    {s : Usage} (hs : goal (s.look (mentions func x)) = true) : goal s = true := by
  rcases h func hfunc with hnone | ⟨-, hgoal⟩
  · rwa [hnone, Usage.look_false] at hs
  · exact hgoal.of_look hs

end

namespace Knowledge

variable {ε : Type} {mentions : ε → Name → Bool} {x : Name} {probe : Usage → Bool}

theorem remainder_ensures {verdict : Option Bool} {undecided : Option (List (Pending ε))}
    {left : List (Pending ε)} (hleft : remainder verdict undecided = some left)
    {goal : Usage → Bool} {s : Usage} (hdecided : verdict = some true → goal s = true)
    (hundecided : undecided = some left →
      Pending.ensuresAll mentions x probe left goal s = true) :
    Pending.ensuresAll mentions x probe left goal s = true := by
  cases verdict with
  | none => exact hundecided hleft
  | some holds =>
      cases holds with
      | true =>
          cases hleft
          exact hdecided rfl
      | false => cases hleft

variable [BEq ε] (k : Knowledge ε) {free : Bool} {subject : Name}

/-- The functions whose predicates go if the branch's one answer is this. -/
def Drops (free : Bool) (func : ε) : Prop := free = true ∧ k.fact.IsAbout func

theorem drops_of_predicateVerdict {func : ε} {b : Bool}
    (h : k.predicateVerdict free subject func = some b) : k.Drops free func := by
  unfold predicateVerdict at h
  split at h
  · rename_i known knownFunc hfact
    split at h
    · rename_i hknown
      obtain ⟨⟨-, halike⟩, hfree⟩ : (_ ∧ _) ∧ free = true := by
        simpa only [Bool.and_eq_true] using hknown
      refine ⟨hfree, ?_⟩
      rw [hfact]
      exact halike
    · cases h
  · cases h

mutual

/-- What is known to match does not bind the variable, and it is spared what it reads. -/
theorem ensures_of_verdict {goal : Usage → Bool}
    (hspares : Spares (k.Drops free) mentions x probe goal) {s : Usage} {p : Pattern ε}
    (hdecided : k.verdict free subject p = some true)
    (h : p.ensures mentions x probe goal s = true) : goal s = true := by
  cases p with
  | literal => exact h
  | predicate func =>
      rw [verdict] at hdecided
      exact hspares.of_look (k.drops_of_predicateVerdict hdecided) h
  | not inner =>
      rw [Pattern.ensures, Bool.and_eq_true] at h
      exact h.2
  | and items => exact ensures_of_verdictAll hspares hdecided h
  | or alternatives =>
      rw [verdict] at hdecided
      split at hdecided
      · cases hdecided
      · cases hdecided
  | wildcard | bind | guard | app => cases hdecided

theorem ensures_of_verdictAll {goal : Usage → Bool}
    (hspares : Spares (k.Drops free) mentions x probe goal) {s : Usage} {ps : List (Pattern ε)}
    (hdecided : k.verdictAll free subject ps = some true)
    (h : Pattern.ensuresAll mentions x probe ps goal s = true) : goal s = true := by
  cases ps with
  | nil => exact h
  | cons p ps =>
      rw [verdictAll] at hdecided
      split at hdecided
      · cases hdecided
      · cases hdecided
      · rename_i hp hps
        exact ensures_of_verdictAll hspares hps
          (ensures_of_verdict (hspares.before_item ps) hp h)
      · cases hdecided

end

mutual

theorem residue_ensures {goal : Usage → Bool}
    (hspares : Spares (k.Drops free) mentions x probe goal) {s : Usage} {p : Pattern ε}
    {left : List (Pending ε)} (hleft : k.residue free subject p = some left)
    (h : p.ensures mentions x probe goal s = true) :
    Pending.ensuresAll mentions x probe left goal s = true := by
  have keep {q : Pattern ε} (h : q.ensures mentions x probe goal s = true)
      (hleft : remainder (k.verdict free subject q) (some [.pattern subject q]) = some left) :
      Pending.ensuresAll mentions x probe left goal s = true := by
    refine remainder_ensures hleft (fun hdecided => ensures_of_verdict k hspares hdecided h) ?_
    intro heq
    cases heq
    exact h
  cases p with
  | and items =>
      rw [residue] at hleft
      exact remainder_ensures hleft (fun hdecided => ensures_of_verdict k hspares hdecided h)
        fun hitems => residueItems_ensures hspares hitems h
  | wildcard | bind | literal | predicate | guard | app | not | or => exact keep h hleft

theorem residueItems_ensures {goal : Usage → Bool}
    (hspares : Spares (k.Drops free) mentions x probe goal) {s : Usage} {ps : List (Pattern ε)}
    {left : List (Pending ε)} (hleft : k.residueItems free subject ps = some left)
    (h : Pattern.ensuresAll mentions x probe ps goal s = true) :
    Pending.ensuresAll mentions x probe left goal s = true := by
  cases ps with
  | nil =>
      cases hleft
      exact h
  | cons p ps =>
      obtain ⟨first, rest, hfirst, hrest, rfl⟩ := exists_of_residueItems_cons hleft
      rw [Pending.ensuresAll_append]
      exact residue_ensures (hspares.before rest) hfirst
        (Pattern.ensures_mono (fun _ => residueItems_ensures hspares hrest) p h)

end

theorem residuePending_ensures {goal : Usage → Bool}
    (hspares : Spares (k.Drops free) mentions x probe goal) {s : Usage} {m : Pending ε}
    {left : List (Pending ε)} (hleft : k.residuePending free m = some left)
    (h : m.ensures mentions x probe goal s = true) :
    Pending.ensuresAll mentions x probe left goal s = true := by
  cases m with
  | pattern subject p =>
      rw [residuePending] at hleft
      split at hleft
      · exact residue_ensures k hspares hleft h
      · cases hleft
        exact h
  | member | sameAs =>
      refine remainder_ensures hleft (fun _ => h) fun heq => ?_
      cases heq
      exact h

theorem residueAll_ensures {goal : Usage → Bool}
    (hspares : Spares (k.Drops free) mentions x probe goal) {s : Usage} {ms left : List (Pending ε)}
    (hleft : k.residueAll free ms = some left)
    (h : Pending.ensuresAll mentions x probe ms goal s = true) :
    Pending.ensuresAll mentions x probe left goal s = true := by
  induction ms generalizing s left with
  | nil =>
      cases hleft
      exact h
  | cons m ms ih =>
      obtain ⟨first, rest, hfirst, hrest, rfl⟩ := exists_of_residueAll_cons hleft
      rw [Pending.ensuresAll_append]
      exact residuePending_ensures k (hspares.before rest) hfirst
        (Pending.ensures_mono (fun _ => ih hrest) m h)

end Knowledge

namespace Projection

variable {ε : Type} [BEq ε] {mentions : ε → Name → Bool} {x : Name} {probe goal : Usage → Bool}
  {pr : Projection ε}

/-- The functions whose applications go. -/
def Drops (pr : Projection ε) (func : ε) : Prop := (func == pr.func) = true

mutual

theorem redirectPattern_ensures {goal : Usage → Bool}
    (hspares : Spares pr.Drops mentions x probe goal) {p : Pattern ε} {s : Usage}
    (h : p.ensures mentions x probe goal s = true) :
    Pending.ensuresAll mentions x probe (pr.redirectPattern p) goal s = true := by
  cases p with
  | app func inner =>
      rw [redirectPattern]
      split
      · rename_i hfunc
        rw [Pattern.ensures] at h
        change inner.ensures mentions x probe goal s = true
        exact (hspares.before [.pattern pr.fresh inner]).of_look hfunc h
      · exact h
  | and items =>
      rw [redirectPattern]
      split
      · exact redirectItems_ensures hspares h
      · exact h
  | wildcard | bind | literal | predicate | guard | not | or => exact h

theorem redirectItems_ensures {goal : Usage → Bool}
    (hspares : Spares pr.Drops mentions x probe goal) {ps : List (Pattern ε)} {s : Usage}
    (h : Pattern.ensuresAll mentions x probe ps goal s = true) :
    Pending.ensuresAll mentions x probe (pr.redirectItems ps) goal s = true := by
  cases ps with
  | nil => exact h
  | cons p ps =>
      rw [redirectItems, Pending.ensuresAll_append]
      exact redirectPattern_ensures (hspares.before (pr.redirectItems ps))
        (Pattern.ensures_mono (fun _ => redirectItems_ensures hspares) p h)

end

theorem redirectPending_ensures (hspares : Spares pr.Drops mentions x probe goal) {m : Pending ε}
    {s : Usage} (h : m.ensures mentions x probe goal s = true) :
    Pending.ensuresAll mentions x probe (pr.redirectPending m) goal s = true := by
  cases m with
  | pattern subject p =>
      rw [redirectPending]
      split
      · exact redirectPattern_ensures hspares h
      · exact h
  | member | sameAs => exact h

theorem redirectAll_ensures (hspares : Spares pr.Drops mentions x probe goal)
    {ms : List (Pending ε)} {s : Usage} (h : Pending.ensuresAll mentions x probe ms goal s = true) :
    Pending.ensuresAll mentions x probe (ms.flatMap pr.redirectPending) goal s = true := by
  induction ms generalizing s with
  | nil => exact h
  | cons m ms ih =>
      rw [List.flatMap_cons, Pending.ensuresAll_append]
      exact redirectPending_ensures (hspares.before (ms.flatMap pr.redirectPending))
        (Pending.ensures_mono (fun _ => ih) m h)

end Projection

end PatternCompiler
