import PatternCompiler.Proofs.Sharing

/-!
# Patterns that make each value once

A path of functions leads from a subject to a value that its last function makes anew. If no two
conjuncts of a pattern share such a path, then no branch that the pattern gives rise to ever applies
a function that makes objects twice to one subject, and every projection can be shared. Steps keep
that up. It holds of all patterns whose functions make no objects.
-/

namespace PatternCompiler

set_option autoImplicit false

variable {functions : FunctionTable}

/-! ## Patterns -/

namespace Pattern

mutual

/-- The paths to the values that the pattern has made anew, not counting those under negations. -/
def makers (functions : FunctionTable) : Pattern Form → List (List Form)
  | app func inner =>
      (if func.allocates functions then [[func]] else []) ++ (makers functions inner).map (func :: ·)
  | and items => listMakers functions items
  | or alternatives => listMakers functions alternatives
  | wildcard | bind _ | literal _ | predicate _ | guard _ | not _ => []

def listMakers (functions : FunctionTable) : List (Pattern Form) → List (List Form)
  | [] => []
  | p :: ps => makers functions p ++ listMakers functions ps

end

/-- The patterns have no path in common. -/
def Apart (functions : FunctionTable) (p q : Pattern Form) : Prop :=
  ∀ path ∈ p.makers functions, path ∉ q.makers functions

mutual

/-- No two conjuncts of one conjunction have a path in common. -/
def AppliesOnce (functions : FunctionTable) : Pattern Form → Prop
  | app _ inner => AppliesOnce functions inner
  | not inner => AppliesOnce functions inner
  | and items => items.Pairwise (Apart functions) ∧ AllApplyOnce functions items
  | or alternatives => AllApplyOnce functions alternatives
  | wildcard | bind _ | literal _ | predicate _ | guard _ => True

def AllApplyOnce (functions : FunctionTable) : List (Pattern Form) → Prop
  | [] => True
  | p :: ps => AppliesOnce functions p ∧ AllApplyOnce functions ps

end

theorem allApplyOnce_iff {ps : List (Pattern Form)} :
    AllApplyOnce functions ps ↔ ∀ p ∈ ps, p.AppliesOnce functions := by
  induction ps with
  | nil => simp [AllApplyOnce]
  | cons p ps ih => rw [AllApplyOnce, ih, List.forall_mem_cons]

theorem mem_listMakers {ps : List (Pattern Form)} {path : List Form} :
    path ∈ listMakers functions ps ↔ ∃ p ∈ ps, path ∈ p.makers functions := by
  induction ps with
  | nil => simp [listMakers]
  | cons p ps ih => simp [listMakers, ih]

theorem Apart.symm {p q : Pattern Form} (h : p.Apart functions q) : q.Apart functions p :=
  fun path hq hp => h path hp hq

theorem Apart.of_subset {p p' q : Pattern Form} (h : p.Apart functions q)
    (hsub : ∀ path ∈ p'.makers functions, path ∈ p.makers functions) : p'.Apart functions q :=
  fun path hp => h path (hsub path hp)

theorem Apart.inner {func : Form} {p q : Pattern Form}
    (h : (Pattern.app func p).Apart functions (.app func q)) : p.Apart functions q := by
  intro path hp hq
  refine h (func :: path) ?_ ?_
  · rw [makers]
    exact List.mem_append.mpr (.inr (List.mem_map_of_mem hp))
  · rw [makers]
    exact List.mem_append.mpr (.inr (List.mem_map_of_mem hq))

mutual

theorem makers_eq_nil {p : Pattern Form} (h : ∀ f ∈ p.functions, f.allocates functions = false) :
    p.makers functions = [] := by
  match p with
  | app func inner =>
      rw [makers, h func (by simp [Pattern.functions]),
        makers_eq_nil fun f hf => h f (by simp [Pattern.functions, hf])]
      rfl
  | and items =>
      rw [makers]
      exact listMakers_eq_nil h
  | or alternatives =>
      rw [makers]
      exact listMakers_eq_nil h
  | wildcard | bind _ | literal _ | predicate _ | guard _ | not _ => rw [makers]

theorem listMakers_eq_nil {ps : List (Pattern Form)}
    (h : ∀ f ∈ listFunctions ps, f.allocates functions = false) : listMakers functions ps = [] := by
  match ps with
  | [] => rfl
  | p :: ps =>
      simp only [listFunctions, List.mem_append] at h
      rw [listMakers, makers_eq_nil fun f hf => h f (.inl hf),
        listMakers_eq_nil fun f hf => h f (.inr hf)]
      rfl

end

mutual

/-- Functions that make nothing make nothing twice. -/
theorem appliesOnce_of_still {p : Pattern Form}
    (h : ∀ f ∈ p.functions, f.allocates functions = false) : p.AppliesOnce functions := by
  match p with
  | app func inner =>
      rw [AppliesOnce]
      exact appliesOnce_of_still fun f hf => h f (by simp [Pattern.functions, hf])
  | not inner =>
      rw [AppliesOnce]
      exact appliesOnce_of_still h
  | and items =>
      rw [AppliesOnce]
      refine ⟨?_, allApplyOnce_of_still h⟩
      refine List.pairwise_of_forall_mem_list fun p hp q hq path hpath => ?_
      rw [makers_eq_nil fun f hf => h f (mem_listFunctions hp hf)] at hpath
      cases hpath
  | or alternatives =>
      rw [AppliesOnce]
      exact allApplyOnce_of_still h
  | wildcard | bind _ | literal _ | predicate _ | guard _ => rw [AppliesOnce]; trivial

theorem allApplyOnce_of_still {ps : List (Pattern Form)}
    (h : ∀ f ∈ listFunctions ps, f.allocates functions = false) : AllApplyOnce functions ps := by
  match ps with
  | [] => trivial
  | p :: ps =>
      simp only [listFunctions, List.mem_append] at h
      exact ⟨appliesOnce_of_still fun f hf => h f (.inl hf),
        allApplyOnce_of_still fun f hf => h f (.inr hf)⟩

end

end Pattern

/-! ## Branches -/

namespace Pending

def Apart (functions : FunctionTable) : Pending Form → Pending Form → Prop
  | .pattern s p, .pattern s' q => s = s' → p.Apart functions q
  | _, _ => True

def AppliesOnce (functions : FunctionTable) : Pending Form → Prop
  | .pattern _ p => p.AppliesOnce functions
  | .member .. | .sameAs .. => True

theorem Apart.symm {m n : Pending Form} (h : m.Apart functions n) : n.Apart functions m := by
  cases m <;> cases n <;> first | trivial | exact fun hs => (h hs.symm).symm

end Pending

/-- The matches can stand in one branch. -/
structure Pending.Independent (functions : FunctionTable) (ms : List (Pending Form)) : Prop where
  apart : ms.Pairwise (Pending.Apart functions)
  once : ∀ m ∈ ms, m.AppliesOnce functions

mutual

def Branch.AppliesOnce (functions : FunctionTable) : Branch Form → Prop
  | ⟨pending, _, goal⟩ => Pending.Independent functions pending ∧ Goal.AppliesOnce functions goal

def Goal.AppliesOnce (functions : FunctionTable) : Goal (List (Branch Form)) → Prop
  | .select _ => True
  | .resume queue => Queue.AppliesOnce functions queue

def Queue.AppliesOnce (functions : FunctionTable) : List (Branch Form) → Prop
  | [] => True
  | branch :: queue => Branch.AppliesOnce functions branch ∧ Queue.AppliesOnce functions queue

end

theorem Branch.appliesOnce_iff {branch : Branch Form} :
    branch.AppliesOnce functions ↔
      Pending.Independent functions branch.pending ∧ branch.goal.AppliesOnce functions := by
  obtain ⟨pending, env, goal⟩ := branch
  rw [Branch.AppliesOnce]

theorem Branch.AppliesOnce.withEnv {branch : Branch Form} (h : branch.AppliesOnce functions)
    (env : Environment) : Branch.AppliesOnce functions { branch with env := env } := by
  obtain ⟨hpending, hgoal⟩ := Branch.appliesOnce_iff.mp h
  exact Branch.appliesOnce_iff.mpr ⟨hpending, hgoal⟩

theorem Queue.appliesOnce_iff {queue : Queue Form} :
    Queue.AppliesOnce functions queue ↔ ∀ branch ∈ queue, branch.AppliesOnce functions := by
  induction queue with
  | nil => simp [Queue.AppliesOnce]
  | cons branch queue ih => rw [Queue.AppliesOnce, ih, List.forall_mem_cons]

/-- What a match is replaced by is independent, and as far from other matches as the match is. -/
structure Pending.Pieces (functions : FunctionTable) (m : Pending Form)
    (ms : List (Pending Form)) : Prop extends Pending.Independent functions ms where
  within : ∀ n ∈ ms, ∀ m', m.Apart functions m' → n.Apart functions m'

namespace Pending

theorem independent_cons {m : Pending Form} {ms : List (Pending Form)} :
    Independent functions (m :: ms) ↔
      (∀ n ∈ ms, m.Apart functions n) ∧ m.AppliesOnce functions ∧ Independent functions ms := by
  constructor
  · rintro ⟨hapart, honce⟩
    obtain ⟨hfirst, hrest⟩ := List.pairwise_cons.mp hapart
    obtain ⟨hm, hms⟩ := List.forall_mem_cons.mp honce
    exact ⟨hfirst, hm, hrest, hms⟩
  · rintro ⟨hfirst, hm, hrest, hms⟩
    exact ⟨List.pairwise_cons.mpr ⟨hfirst, hrest⟩, List.forall_mem_cons.mpr ⟨hm, hms⟩⟩

/-- Nothing else matches a subject that is new. -/
theorem apart_of_fresh {sig : Signature} {fresh : Name} (hfresh : ¬ sig.subject fresh)
    {m : Pending Form} (hm : m.Over sig) (p : Pattern Form) :
    (Pending.pattern fresh p).Apart functions m := by
  cases m with
  | pattern subject q => exact fun hs => absurd (hs ▸ hm.1) hfresh
  | member | sameAs => trivial

theorem Pieces.whole {m : Pending Form} (h : m.AppliesOnce functions) : m.Pieces functions [m] where
  apart := by simp
  once n hn := by
    obtain rfl := List.mem_singleton.mp hn
    exact h
  within n hn m' hm' := by
    obtain rfl := List.mem_singleton.mp hn
    exact hm'

theorem Pieces.dropped {m : Pending Form} : m.Pieces functions [] where
  apart := .nil
  once n hn := by cases hn
  within n hn := by cases hn

theorem Independent.replace {m : Pending Form} {ms ns : List (Pending Form)}
    (h : Independent functions (m :: ms)) (hns : m.Pieces functions ns) :
    Independent functions (ns ++ ms) := by
  obtain ⟨hfirst, -, hrest⟩ := independent_cons.mp h
  constructor
  · refine List.pairwise_append.mpr ⟨hns.apart, hrest.apart, ?_⟩
    intro n hn n' hn'
    exact hns.within n hn n' (hfirst n' hn')
  · intro n hn
    rcases List.mem_append.mp hn with hn | hn
    · exact hns.once n hn
    · exact hrest.once n hn

theorem independent_flatten {ms : List (Pending Form)} {ls : List (List (Pending Form))}
    (h : List.Forall₂ (Pieces functions) ms ls) (hms : ms.Pairwise (Apart functions)) :
    Independent functions ls.flatten ∧
      ∀ m', (∀ m ∈ ms, m.Apart functions m') → ∀ n ∈ ls.flatten, n.Apart functions m' := by
  induction h with
  | nil => exact ⟨⟨.nil, fun n hn => by cases hn⟩, fun _ _ n hn => by cases hn⟩
  | @cons m l ms ls hm hrest ih =>
      obtain ⟨hhead, htail⟩ := List.pairwise_cons.mp hms
      obtain ⟨⟨hapart, honce⟩, hwithin⟩ := ih htail
      rw [List.flatten_cons]
      refine ⟨⟨List.pairwise_append.mpr ⟨hm.apart, hapart, fun n hn n' hn' => ?_⟩, ?_⟩, ?_⟩
      · have hother : ∀ m' ∈ ms, m'.Apart functions n := fun m' hm' =>
          (hm.within n hn m' (hhead m' hm')).symm
        exact (hwithin n hother n' hn').symm
      · intro n hn
        rcases List.mem_append.mp hn with hn | hn
        · exact hm.once n hn
        · exact honce n hn
      · intro m' hm' n hn
        rcases List.mem_append.mp hn with hn | hn
        · exact hm.within n hn m' (hm' m List.mem_cons_self)
        · exact hwithin m' (fun m hmem => hm' m (List.mem_cons_of_mem _ hmem)) n hn

theorem independent_map {f : Pending Form → Pending Form} {ms : List (Pending Form)}
    (h : Independent functions ms)
    (hapart : ∀ m ∈ ms, ∀ n ∈ ms, m.Apart functions n → (f m).Apart functions (f n))
    (honce : ∀ m ∈ ms, m.AppliesOnce functions → (f m).AppliesOnce functions) :
    Independent functions (ms.map f) where
  apart := by
    rw [List.pairwise_map]
    exact h.apart.imp_of_mem fun hm hn hmn => hapart _ hm _ hn hmn
  once n hn := by
    obtain ⟨m, hm, rfl⟩ := List.mem_map.mp hn
    exact honce m hm (h.once m hm)

end Pending

/-- Taking a conjunction apart leaves independent pieces. -/
theorem dismantles_pieces (functions : FunctionTable) (subject : Name) : Dismantles fun p l =>
    p.AppliesOnce functions →
      (Pending.pattern subject p).Pieces functions (l.map (.pattern subject)) where
  whole p hp := .whole hp
  dropped p _ := .dropped
  conjuncts := by
    intro ps ls hls hp
    rw [Pattern.AppliesOnce, Pattern.allApplyOnce_iff] at hp
    have hpieces : List.Forall₂ (Pending.Pieces functions) (ps.map (.pattern subject))
        (ls.map (List.map (.pattern subject))) := by
      have honce := hp.2
      clear hp
      induction hls with
      | nil => exact .nil
      | cons h _ ih =>
          obtain ⟨hhead, htail⟩ := List.forall_mem_cons.mp honce
          exact .cons (h hhead) (ih htail)
    have hpairs : (ps.map (Pending.pattern subject)).Pairwise (Pending.Apart functions) := by
      rw [List.pairwise_map]
      exact hp.1.imp fun h _ => h
    obtain ⟨hindependent, hwithin⟩ := Pending.independent_flatten hpieces hpairs
    rw [← List.map_flatten] at hindependent hwithin
    refine ⟨hindependent, fun n hn m' hm' => hwithin m' (fun m hm => ?_) n hn⟩
    obtain ⟨p, hp, rfl⟩ := List.mem_map.mp hm
    cases m' with
    | pattern subject' q =>
        intro hs
        refine (hm' hs).of_subset fun path hpath => ?_
        rw [Pattern.makers, Pattern.mem_listMakers]
        exact ⟨p, hp, hpath⟩
    | member | sameAs => trivial

theorem folded_pieces {subject : Name} {ps : List (Pattern Form)}
    (h : (Pattern.or ps).AppliesOnce functions) {m : Pending Form} (hm : FoldsTo subject ps m) :
    (Pending.pattern subject (.or ps)).Pieces functions [m] := by
  rw [Pattern.AppliesOnce, Pattern.allApplyOnce_iff] at h
  rcases hm with ⟨p, hp, rfl⟩ | ⟨set, rfl⟩
  · have honce : (Pending.pattern subject p).AppliesOnce functions := h p hp
    refine ⟨(Pending.Pieces.whole honce).toIndependent, fun n hn m' hm' => ?_⟩
    obtain rfl := List.mem_singleton.mp hn
    cases m' with
    | pattern subject' q =>
        intro hs
        refine (hm' hs).of_subset fun path hpath => ?_
        rw [Pattern.makers, Pattern.mem_listMakers]
        exact ⟨p, hp, hpath⟩
    | member | sameAs => trivial
  · have honce : (Pending.member subject set (.ofLiterals set)).AppliesOnce functions := trivial
    refine ⟨(Pending.Pieces.whole honce).toIndependent, fun n hn m' _ => ?_⟩
    obtain rfl := List.mem_singleton.mp hn
    trivial

/-! ## Steps -/

theorem Knowledge.residuePending_pieces (k : Knowledge Form) (free : Bool)
    {m : Pending Form} (hm : m.AppliesOnce functions) {left : List (Pending Form)}
    (h : k.residuePending free m = some left) : m.Pieces functions left := by
  have kept : ∀ {verdict : Option Bool} {m : Pending Form}, m.AppliesOnce functions →
      remainder verdict (some [m]) = some left → m.Pieces functions left := by
    intro verdict m hm h
    unfold remainder at h
    split at h
    · cases h; exact .dropped
    · cases h
    · cases h; exact .whole hm
  cases m with
  | pattern subject p =>
      simp only [residuePending] at h
      split at h
      · obtain ⟨l, rfl, hl⟩ :=
          residue_dismantles (dismantles_pieces functions subject) k free subject p h
        exact hl hm
      · cases h
        exact .whole hm
  | member | sameAs => exact kept hm h

theorem Knowledge.residueAll_pieces (k : Knowledge Form) (free : Bool)
    {ms : List (Pending Form)} (hms : ∀ m ∈ ms, m.AppliesOnce functions)
    {left : List (Pending Form)} (h : k.residueAll free ms = some left) :
    ∃ ls, left = ls.flatten ∧ List.Forall₂ (Pending.Pieces functions) ms ls := by
  induction ms generalizing left with
  | nil => cases h; exact ⟨[], rfl, .nil⟩
  | cons m ms ih =>
      obtain ⟨hm, hms⟩ := List.forall_mem_cons.mp hms
      obtain ⟨first, rest, hfirst, hrest, rfl⟩ := exists_of_residueAll_cons h
      obtain ⟨ls, rfl, hls⟩ := ih hms hrest
      exact ⟨first :: ls, rfl, .cons (residuePending_pieces k free hm hfirst) hls⟩

theorem Queue.AppliesOnce.refine {queue : Queue Form} (h : Queue.AppliesOnce functions queue)
    (mentions : Form → Name → Bool) (test : Test Form) (outcome : Bool) :
    Queue.AppliesOnce functions (Queue.refine mentions test outcome queue) := by
  unfold Queue.refine
  split
  · exact h
  · rw [Queue.appliesOnce_iff] at h ⊢
    intro branch hbranch
    obtain ⟨b, hb, hrefined⟩ := List.mem_filterMap.mp hbranch
    obtain ⟨_, left, -, hleft, rfl⟩ := Knowledge.exists_of_refineBranch hrefined
    obtain ⟨hpending, hgoal⟩ := Branch.appliesOnce_iff.mp (h b hb)
    obtain ⟨ls, rfl, hls⟩ := Knowledge.residueAll_pieces _ _ hpending.once hleft
    exact Branch.appliesOnce_iff.mpr ⟨(Pending.independent_flatten hls hpending.apart).1, hgoal⟩

namespace Projection

variable {pr : Projection Form}

theorem dismantle_pieces {m : Pending Form} (hm : m.AppliesOnce functions) :
    m.Pieces functions (pr.dismantle m) := by
  cases m with
  | pattern subject p =>
      simp only [dismantle]
      split
      · exact pr.conjuncts_dismantles (dismantles_pieces functions subject) p hm
      · exact .whole hm
  | member | sameAs => exact .whole hm

theorem independent_dismantle {ms : List (Pending Form)} (h : Pending.Independent functions ms) :
    Pending.Independent functions (ms.flatMap pr.dismantle) := by
  have hpieces : List.Forall₂ (Pending.Pieces functions) ms (ms.map pr.dismantle) := by
    rw [List.forall₂_map_right_iff]
    exact List.forall₂_same.mpr fun m hm => dismantle_pieces (h.once m hm)
  exact (Pending.independent_flatten hpieces h.apart).1

/-- Matches that can stand in one branch can share. -/
theorem shareable_of_independent (hplain : pr.func.QuotesPlainly)
    {ms : List (Pending Form)} (h : Pending.Independent functions ms) :
    pr.Shareable functions (ms.flatMap pr.dismantle) := by
  cases hstill : pr.func.allocates functions with
  | false => exact .inl hstill
  | true =>
      refine .inr ((independent_dismantle h).apart.imp fun {m n} hapart hm => ?_)
      refine Bool.eq_false_iff.mpr fun hn => ?_
      obtain ⟨f, p, rfl, hf⟩ := pr.applies_iff.mp hm
      obtain ⟨g, q, rfl, hg⟩ := pr.applies_iff.mp hn
      obtain rfl : f = pr.func := Form.eq_of_alike hf hplain
      obtain rfl : g = pr.func := Form.eq_of_alike hg hplain
      -- Both matches apply the function first, which is a path of its own.
      refine hapart rfl [pr.func] ?_ ?_ <;> simp [Pattern.makers, hstill]

theorem redirect_apart {sig : Signature} (hplain : pr.func.QuotesPlainly)
    (hfresh : ¬ sig.subject pr.fresh) {m n : Pending Form} (hm : m.Over sig) (hn : n.Over sig)
    (h : m.Apart functions n) : (pr.redirect m).Apart functions (pr.redirect n) := by
  cases happlies : pr.applies m with
  | false =>
      rw [pr.redirect_of_not_applies happlies]
      cases happlies' : pr.applies n with
      | false => rwa [pr.redirect_of_not_applies happlies']
      | true =>
          obtain ⟨g, q, rfl, hg⟩ := pr.applies_iff.mp happlies'
          rw [pr.redirect_of_applies hg]
          exact (Pending.apart_of_fresh hfresh hm q).symm
  | true =>
      obtain ⟨f, p, rfl, hf⟩ := pr.applies_iff.mp happlies
      rw [pr.redirect_of_applies hf]
      cases happlies' : pr.applies n with
      | false =>
          rw [pr.redirect_of_not_applies happlies']
          exact Pending.apart_of_fresh hfresh hn p
      | true =>
          obtain ⟨g, q, rfl, hg⟩ := pr.applies_iff.mp happlies'
          rw [pr.redirect_of_applies hg]
          obtain rfl : f = pr.func := Form.eq_of_alike hf hplain
          obtain rfl : g = pr.func := Form.eq_of_alike hg hplain
          exact fun _ => (h rfl).inner

theorem redirect_once {m : Pending Form} (h : m.AppliesOnce functions) :
    (pr.redirect m).AppliesOnce functions := by
  cases happlies : pr.applies m with
  | false => rwa [pr.redirect_of_not_applies happlies]
  | true =>
      obtain ⟨f, p, rfl, hf⟩ := pr.applies_iff.mp happlies
      rw [pr.redirect_of_applies hf]
      rwa [Pending.AppliesOnce, Pattern.AppliesOnce] at h

end Projection

theorem Queue.AppliesOnce.share {sig : Signature} {queue : Queue Form}
    (h : Queue.AppliesOnce functions queue) (hq : Queue.Over sig queue)
    (mentions : Form → Name → Bool) {pr : Projection Form} (hplain : pr.func.QuotesPlainly)
    (hfresh : ¬ sig.subject pr.fresh) :
    Queue.AppliesOnce functions (Queue.share mentions pr queue) := by
  rw [Queue.appliesOnce_iff] at h ⊢
  rw [Queue.over_iff] at hq
  intro branch hbranch
  obtain ⟨b, hb, rfl⟩ := List.mem_map.mp hbranch
  obtain ⟨hpending, hgoal⟩ := Branch.appliesOnce_iff.mp (h b hb)
  unfold Projection.shareBranch
  split
  · refine Branch.appliesOnce_iff.mpr ⟨?_, hgoal⟩
    have hover : ∀ n ∈ b.pending.flatMap pr.dismantle, n.Over sig := by
      intro n hn
      obtain ⟨m, hm, hn⟩ := List.mem_flatMap.mp hn
      exact pr.dismantle_over ((Branch.over_iff.mp (hq b hb)).1 m hm) hn
    have hmap : b.pending.flatMap pr.redirectPending =
        (b.pending.flatMap pr.dismantle).map pr.redirect := by
      rw [List.map_flatMap]
      simp only [← Projection.redirectPending_eq]
    simp only [hmap]
    exact Pending.independent_map (Projection.independent_dismantle hpending)
      (fun m hm n hn hmn => Projection.redirect_apart hplain hfresh (hover m hm) (hover n hn) hmn)
      fun m _ hm => Projection.redirect_once hm
  · exact h b hb

def Step.AppliesOnce (functions : FunctionTable) (fresh : Name) : Step Form → Prop
  | .fail | .select .. => True
  | .advance queue => Queue.AppliesOnce functions queue
  | .test _ yes no => Queue.AppliesOnce functions yes ∧ Queue.AppliesOnce functions no
  | .project _ _ _ body => Queue.AppliesOnce functions (body fresh)

namespace Queue

variable {options : Options} {mentions : Form → Name → Bool} {branch : Branch Form}
  {queue : Queue Form} {fresh : Name} {sig : Signature}

theorem testStep_appliesOnce {test : Test Form} (hb : branch.AppliesOnce functions)
    (hq : Queue.AppliesOnce functions queue) :
    (testStep options mentions test branch queue).AppliesOnce functions fresh := by
  unfold testStep
  split
  · exact ⟨Queue.appliesOnce_iff.mpr (List.forall_mem_cons.mpr
      ⟨hb, Queue.appliesOnce_iff.mp (hq.refine mentions test true)⟩),
      hq.refine mentions test false⟩
  · exact ⟨by rw [Queue.AppliesOnce]; exact ⟨hb, hq⟩, hq⟩

theorem bind_appliesOnce {x subject : Name} (hb : branch.AppliesOnce functions) :
    (branch.bind x subject).AppliesOnce functions := by
  unfold Branch.bind
  split
  · exact hb.withEnv _
  · split
    · exact hb
    · obtain ⟨hpending, hgoal⟩ := Branch.appliesOnce_iff.mp hb
      refine Branch.appliesOnce_iff.mpr ⟨Pending.independent_cons.mpr ⟨?_, trivial, hpending⟩, hgoal⟩
      exact fun n _ => trivial

theorem projectStep_appliesOnce {subject : Name} {func : Form} {inner : Pattern Form}
    (hplain : ∀ f, sig.function f → f.QuotesPlainly) (hfresh : ¬ sig.subject fresh)
    (hover : (branch.push (.pattern subject (.app func inner))).Over sig ∧ Queue.Over sig queue)
    (hpending : Pending.Independent functions (.pattern subject (.app func inner) :: branch.pending))
    (hgoal : branch.goal.AppliesOnce functions) (hq : Queue.AppliesOnce functions queue) :
    (projectStep options mentions subject func inner branch queue).AppliesOnce functions fresh := by
  obtain ⟨hm, hms⟩ := List.forall_mem_cons.mp (Branch.over_iff.mp hover.1).1
  obtain ⟨-, hp, hrest⟩ := Pending.independent_cons.mp hpending
  rw [Pending.AppliesOnce, Pattern.AppliesOnce] at hp
  simp only [projectStep, Step.AppliesOnce]
  rw [Queue.AppliesOnce]
  constructor
  · refine Branch.appliesOnce_iff.mpr ⟨Pending.independent_cons.mpr ⟨?_, hp, hrest⟩, hgoal⟩
    exact fun n hn => Pending.apart_of_fresh hfresh (hms n hn) inner
  · split
    · exact hq.share hover.2 mentions (hplain func hm.2.function_app) hfresh
    · exact hq

theorem patternStep_appliesOnce {subject : Name} {p : Pattern Form}
    (hplain : ∀ f, sig.function f → f.QuotesPlainly) (hfresh : ¬ sig.subject fresh)
    (hover : Queue.Over sig (branch.push (.pattern subject p) :: queue))
    (h : Queue.AppliesOnce functions (branch.push (.pattern subject p) :: queue)) :
    (patternStep options mentions subject branch queue p).AppliesOnce functions fresh := by
  rw [Queue.AppliesOnce] at h
  rw [Queue.Over] at hover
  obtain ⟨hb, hq⟩ := h
  obtain ⟨hpending, hgoal⟩ := Branch.appliesOnce_iff.mp hb
  obtain ⟨-, hp, hrest⟩ := Pending.independent_cons.mp hpending
  have htail : branch.AppliesOnce functions := Branch.appliesOnce_iff.mpr ⟨hrest, hgoal⟩
  have cons : ∀ {b : Branch Form}, b.AppliesOnce functions →
      Queue.AppliesOnce functions (b :: queue) := by
    intro b hb
    rw [Queue.AppliesOnce]
    exact ⟨hb, hq⟩
  cases p with
  | wildcard => exact cons htail
  | bind x => exact cons (bind_appliesOnce htail)
  | literal => exact testStep_appliesOnce htail hq
  | predicate | guard => exact testStep_appliesOnce (htail.withEnv _) hq
  | app func inner => exact projectStep_appliesOnce hplain hfresh hover hpending hgoal hq
  | not inner =>
      simp only [patternStep, Step.AppliesOnce]
      rw [Queue.AppliesOnce]
      refine ⟨Branch.appliesOnce_iff.mpr ⟨⟨by simp [Branch.probe], fun m hm => ?_⟩, ?_⟩, cons htail⟩
      · obtain rfl := List.mem_singleton.mp hm
        rwa [Pending.AppliesOnce, Pattern.AppliesOnce] at hp
      · rw [Branch.probe, Goal.AppliesOnce]
        exact hq
  | and items =>
      have hitems : List.Forall₂ (fun p l => l = [p]) items (items.map fun p => [p]) := by
        rw [List.forall₂_map_right_iff]
        exact List.forall₂_same.mpr fun p _ => rfl
      have hpieces := (dismantles_pieces functions subject).conjuncts
        (List.Forall₂.imp (fun p l hl hp => hl ▸ Pending.Pieces.whole hp) hitems) hp
      rw [← List.flatMap_def, List.flatMap_singleton'] at hpieces
      exact cons (Branch.appliesOnce_iff.mpr ⟨hpending.replace hpieces, hgoal⟩)
  | or alternatives =>
      simp only [patternStep, Step.AppliesOnce]
      rw [Queue.appliesOnce_iff]
      intro b hmem
      rcases List.mem_append.mp hmem with hmem | hmem
      · obtain ⟨m, hm, rfl⟩ := List.mem_map.mp hmem
        have hpieces := folded_pieces hp (alternativeMatches_foldsTo _ _ _ m hm)
        exact Branch.appliesOnce_iff.mpr ⟨hpending.replace hpieces, hgoal⟩
      · exact Queue.appliesOnce_iff.mp hq b hmem

/-- A step keeps the matches of every branch independent. -/
theorem step_appliesOnce (hplain : ∀ f, sig.function f → f.QuotesPlainly)
    (hfresh : ¬ sig.subject fresh) (hover : Queue.Over sig queue)
    (h : Queue.AppliesOnce functions queue) :
    (step options mentions queue).AppliesOnce functions fresh := by
  match queue with
  | [] => trivial
  | ⟨[], env, .select case⟩ :: queue => trivial
  | ⟨[], env, .resume saved⟩ :: queue =>
      rw [Queue.AppliesOnce, Branch.AppliesOnce, Goal.AppliesOnce] at h
      exact h.1.2
  | ⟨.pattern subject p :: ms, env, goal⟩ :: queue =>
      have hover' : Queue.Over sig (Branch.push ⟨ms, env, goal⟩ (.pattern subject p) :: queue) :=
        hover
      exact patternStep_appliesOnce hplain hfresh hover' h
  | ⟨.member subject set eqv :: ms, env, goal⟩ :: queue
  | ⟨.sameAs subject other :: ms, env, goal⟩ :: queue =>
      rw [Queue.AppliesOnce, Branch.AppliesOnce] at h
      obtain ⟨⟨hpending, hgoal⟩, hq⟩ := h
      obtain ⟨-, -, hrest⟩ := Pending.independent_cons.mp hpending
      exact testStep_appliesOnce (Branch.appliesOnce_iff.mpr ⟨hrest, hgoal⟩) hq

end Queue

end PatternCompiler
