import PatternCompiler.Proofs.Arrival
import PatternCompiler.Proofs.Demands

/-!
# Open readings

A reading is open if it does not stand in a negation and none comes after it. Whoever reads a
variable openly has the first branch of the queue from then on, for as long as tests succeed, and
so goes on to the case with the variable marked.
-/

namespace PatternCompiler

set_option autoImplicit false

variable {ε : Type}

/-- No reading stands in a negation or before one. -/
def Demand.openReading : Demand where
  goal _ := true
  probe s := s ≠ .read
  goal_unbound := rfl
  probe_unbound := rfl

/-- A reading may be taken away from what is only demanded to be open. -/
theorem Demand.openReading_shares [BEq ε] (mentions : ε → Name → Bool) (x : Name) :
    Demand.openReading.Shares mentions x := by
  refine .inr ⟨fun h => ?_, fun _ => rfl⟩
  cases h

section

variable {mentions : ε → Name → Bool} {x : Name} {branch : Branch ε} {queue : Queue ε}

/-- The variable is marked, and nothing stands between the branch and its case but tests and
projections. -/
structure Branch.Leads (mentions : ε → Name → Bool) (x : Name) (branch : Branch ε) : Prop where
  used : branch.env.isUsed x = true
  selects : ∃ case, branch.goal = .select case
  ensures : Pending.ensuresAll mentions x Demand.openReading.probe branch.pending
    Demand.openReading.goal .read = true
  within : branch.Within .wellFormed

/-- The first branch does. -/
def Queue.Leads (mentions : ε → Name → Bool) (x : Name) (queue : Queue ε) : Prop :=
  ∃ branch rest, queue = branch :: rest ∧ branch.Leads mentions x

/-- The queue for a successful test, and any other that the step asks for. -/
def Step.Leads (mentions : ε → Name → Bool) (x : Name) : Step ε → Prop
  | .fail => False
  | .select _ env => env.isUsed x = true
  | .advance queue => Queue.Leads mentions x queue
  | .test _ yes _ => Queue.Leads mentions x yes
  | .project _ _ _ body => ∀ fresh, Queue.Leads mentions x (body fresh)

/-- If what the step asks reads the variable, the branch it is asked for leads from then on. -/
def Step.ReadsOpenly (mentions : ε → Name → Bool) (x : Name) : Step ε → Prop
  | .fail | .select .. | .advance _ => True
  | .test asked yes _ => x ∈ asked.pairs.map Prod.fst → Queue.Leads mentions x yes
  | .project _ _ pairs body =>
      x ∈ pairs.map Prod.fst → ∀ fresh, Queue.Leads mentions x (body fresh)

theorem alternativeMatches_ne_nil (fold : Bool) (subject : Name) {alternatives : List (Pattern ε)}
    (h : alternatives ≠ []) : alternativeMatches fold subject alternatives ≠ [] := by
  cases fold with
  | false => exact fun hnil => h (List.map_eq_nil_iff.mp hnil)
  | true =>
      obtain ⟨runs, hruns, rfl⟩ := (alternativeMatches_foldsExactly subject alternatives).runs
      intro hnil
      rw [hnil] at hruns
      cases hruns
      exact h rfl

theorem Branch.Leads.read (h : branch.Leads mentions x) (expr : ε) :
    (branch.read mentions expr).Leads mentions x :=
  ⟨Branch.isUsed_read.mpr (.inl h.used), h.selects, h.ensures, h.within.read expr⟩

/-- Whoever reads the variable leads: no negation is left, and a probe could not have read it. -/
theorem Branch.Within.leads_of_read (hwell : branch.Within .wellFormed) {s : Usage}
    (hs : s.Fits x branch.env) {expr : ε}
    (hx : x ∈ (branch.env.visible mentions expr).map Prod.fst)
    (h : Pending.ensuresAll mentions x Demand.openReading.probe branch.pending
      (Demand.openReading.at branch.goal) (s.look (mentions expr x)) = true) :
    (branch.read mentions expr).Leads mentions x := by
  obtain ⟨hmem, hexpr⟩ := Environment.mem_visible_iff.mp hx
  have hread : s.look (mentions expr x) = .read := by
    rw [hexpr]
    cases s with
    | unbound => exact absurd hmem hs
    | bound | read => rfl
  rw [hread] at h
  obtain ⟨case, hgoal⟩ : ∃ case, branch.goal = .select case := by
    cases hgoal : branch.goal with
    | select case => exact ⟨case, rfl⟩
    | resume saved =>
        rw [hgoal, Pending.not_ensuresAll_read rfl (Branch.within_iff.mp hwell).1] at h
        cases h
  rw [hgoal] at h
  exact ⟨Branch.isUsed_read.mpr (.inr ⟨hmem, hexpr⟩), ⟨case, hgoal⟩, h, hwell.read expr⟩

namespace Queue

variable [BEq ε] {options : Options}

theorem testStep_readsOpenly {test : Test ε}
    (h : x ∈ test.pairs.map Prod.fst → branch.Leads mentions x) :
    (testStep options mentions test branch queue).ReadsOpenly mentions x := by
  unfold testStep
  split
  · exact fun hx => ⟨branch, _, rfl, h hx⟩
  · exact fun hx => ⟨branch, _, rfl, h hx⟩

theorem testStep_leads (h : branch.Leads mentions x) (test : Test ε) :
    (testStep options mentions test branch queue).Leads mentions x := by
  unfold testStep
  split
  · exact ⟨branch, _, rfl, h⟩
  · exact ⟨branch, _, rfl, h⟩

theorem patternStep_leads {subject : Name} {p : Pattern ε} {pending : List (Pending ε)}
    {env : Environment} {goal : Goal (List (Branch ε))}
    (h : Branch.Leads mentions x ⟨.pattern subject p :: pending, env, goal⟩) :
    (patternStep options mentions subject ⟨pending, env, goal⟩ queue p).Leads mentions x := by
  obtain ⟨hused, hselects, hensures, hwell⟩ := h
  obtain ⟨hp, hrest⟩ := List.forall_mem_cons.mp (Branch.within_iff.mp hwell).1
  have leads {ms : List (Pending ε)}
      (h : Pending.ensuresAll mentions x Demand.openReading.probe ms Demand.openReading.goal .read =
        true) (hms : ∀ m ∈ ms, m.Within .wellFormed) : Branch.Leads mentions x ⟨ms, env, goal⟩ :=
    ⟨hused, hselects, h, hwell.withPending hms⟩
  have behind (h : Pending.ensuresAll mentions x Demand.openReading.probe pending
      Demand.openReading.goal .read = true) : Branch.Leads mentions x ⟨pending, env, goal⟩ :=
    leads h hrest
  cases p with
  | wildcard => exact ⟨_, _, rfl, behind hensures⟩
  | bind y =>
      have hread : Pending.ensuresAll mentions x Demand.openReading.probe pending
          Demand.openReading.goal (if y = x then .read else .read) = true := hensures
      rw [ite_self] at hread
      have hbound := behind hread
      refine ⟨_, _, rfl, Branch.isUsed_bind hbound.used y subject, ?_, ?_,
        hbound.within.bind y trivial⟩
      · rw [Branch.goal_bind]
        exact hselects
      · rw [Branch.ensuresAll_bind]
        exact hbound.ensures
  | literal l => exact testStep_leads (behind hensures) _
  | predicate func => exact testStep_leads ((behind hensures).read func) _
  | guard expr => exact testStep_leads ((behind hensures).read expr) _
  | app func inner =>
      intro fresh
      have hinner : Branch.Leads mentions x ⟨.pattern fresh inner :: pending, env, goal⟩ :=
        leads hensures
          (List.forall_mem_cons.mpr ⟨⟨trivial, Contents.wellFormed.inner_app hp.2⟩, hrest⟩)
      exact ⟨_, _, rfl, hinner.read func⟩
  | not inner => cases hensures
  | and items =>
      refine ⟨_, _, rfl, leads ?_ (List.forall_mem_append.mpr ⟨fun m hm => ?_, hrest⟩)⟩
      · rw [Pending.ensuresAll_append, Pending.ensuresAll_map_pattern]
        exact hensures
      · obtain ⟨q, hq, rfl⟩ := List.mem_map.mp hm
        exact ⟨trivial, Contents.wellFormed.item hp.2 q hq⟩
  | or alternatives =>
      have hne : alternatives ≠ [] := by
        rintro rfl
        exact hp.2 .self
      obtain ⟨m, ms, hms⟩ := List.exists_cons_of_ne_nil
        (alternativeMatches_ne_nil options.foldMemberships subject hne)
      have hm : m ∈ alternativeMatches options.foldMemberships subject alternatives :=
        hms ▸ List.mem_cons_self
      have hfirst : Branch.Leads mentions x ⟨m :: pending, env, goal⟩ :=
        leads (Pending.ensures_of_mem_alternativeMatches (Pattern.ensuresEach_iff.mp hensures) hm)
          (List.forall_mem_cons.mpr ⟨alternativeMatches_within _ trivial
            (Contents.wellFormed.alternative hp.2) m hm, hrest⟩)
      refine ⟨_, ms.map (Branch.push ⟨pending, env, goal⟩) ++ queue, ?_, hfirst⟩
      rw [hms, List.map_cons, List.cons_append]
      rfl

/-- A branch that leads keeps the lead, as long as tests succeed. -/
theorem step_leads (h : Queue.Leads mentions x queue) :
    (step options mentions queue).Leads mentions x := by
  obtain ⟨⟨pending, env, goal⟩, rest, rfl, hbranch⟩ := h
  obtain ⟨case, hgoal⟩ := hbranch.selects
  change goal = .select case at hgoal
  subst hgoal
  cases pending with
  | nil => exact hbranch.used
  | cons m ms =>
      have hms := (List.forall_mem_cons.mp (Branch.within_iff.mp hbranch.within).1).2
      have hrest (hensures : Pending.ensuresAll mentions x Demand.openReading.probe ms
          Demand.openReading.goal .read = true) :
          Branch.Leads mentions x ⟨ms, env, .select case⟩ :=
        ⟨hbranch.used, hbranch.selects, hensures, hbranch.within.withPending hms⟩
      cases m with
      | pattern subject p => exact patternStep_leads hbranch
      | member | sameAs => exact testStep_leads (hrest hbranch.ensures) _

/-- A branch that leads takes the marked variable to its case. -/
theorem build_leads (h : Queue.Leads mentions x queue) (b : Builder) :
    ∃ case env, Arrives options mentions queue (Queue.build options mentions queue b).1 case env ∧
      env.isUsed x = true := by
  induction queue using Queue.build.induct options mentions generalizing b with
  | case1 queue hstep =>
      have hleads := hstep ▸ step_leads h
      exact hleads.elim
  | case2 queue case env hstep =>
      have hleads := hstep ▸ step_leads h
      rw [build_of_select hstep]
      exact ⟨case, env, .select _ hstep, hleads⟩
  | case3 queue next hstep ih =>
      have hleads := hstep ▸ step_leads h
      rw [build_of_advance hstep]
      obtain ⟨case, env, harrives, hused⟩ := ih hleads b
      exact ⟨case, env, .advance hstep harrives, hused⟩
  | case4 queue asked yes no hstep ihyes _ =>
      have hleads := hstep ▸ step_leads h
      rw [build_of_test hstep]
      obtain ⟨case, env, harrives, hused⟩ := ihyes hleads b
      exact ⟨case, env, .yes hstep harrives, hused⟩
  | case5 queue func subject pairs body hstep ih =>
      have hleads := hstep ▸ step_leads h
      rw [build_of_project hstep]
      obtain ⟨case, env, harrives, hused⟩ := ih _ (hleads _) b.projection.2
      exact ⟨case, env, .project hstep harrives, hused⟩

theorem patternStep_readsOpenly (hwell : branch.Within .wellFormed) {subject : Name}
    {p : Pattern ε} (hp : ¬ p.Malformed) {s : Usage} (hs : s.Fits x branch.env)
    (h : p.ensures mentions x Demand.openReading.probe
      (Pending.ensuresAll mentions x Demand.openReading.probe branch.pending
        (Demand.openReading.at branch.goal)) s = true) :
    (patternStep options mentions subject branch queue p).ReadsOpenly mentions x := by
  cases p with
  | predicate func =>
      exact testStep_readsOpenly fun hx => hwell.leads_of_read hs hx h
  | guard expr =>
      exact testStep_readsOpenly fun hx => hwell.leads_of_read hs hx h
  | app func inner =>
      intro hx fresh
      have hinner : (branch.push (.pattern fresh inner)).Within .wellFormed :=
        hwell.push ⟨trivial, Contents.wellFormed.inner_app hp⟩
      exact ⟨_, _, rfl, hinner.leads_of_read hs hx h⟩
  | literal => exact testStep_readsOpenly fun hx => by cases hx
  | wildcard | bind | not | and | or => trivial

/-- Where an expression reads the variable, the branch it is asked for leads. -/
theorem step_readsOpenly (h : Queue.Meets mentions x .openReading queue)
    (hwell : Queue.Within .wellFormed queue) :
    (step options mentions queue).ReadsOpenly mentions x := by
  match queue with
  | [] => trivial
  | ⟨[], env, .select case⟩ :: queue => trivial
  | ⟨[], env, .resume saved⟩ :: queue => trivial
  | ⟨m :: ms, env, goal⟩ :: queue =>
      obtain ⟨⟨s, hs, hm⟩, -⟩ := Branch.meets_iff.mp (meets_cons.mp h).1
      have hbranch := (within_cons.mp hwell).1
      obtain ⟨hfirst, hrest⟩ := List.forall_mem_cons.mp (Branch.within_iff.mp hbranch).1
      cases m with
      | pattern subject p =>
          have hbehind : Branch.Within .wellFormed ⟨ms, env, goal⟩ := hbranch.withPending hrest
          exact patternStep_readsOpenly hbehind hfirst.2 hs hm
      | member | sameAs => exact testStep_readsOpenly fun hx => by cases hx

/-- If the tree reads the variable anywhere, the queue arrives at a case with it marked. -/
theorem build_readsOpenly (h : Queue.Meets mentions x .openReading queue)
    (hwell : Queue.Within .wellFormed queue) (b : Builder)
    (hx : x ∈ (Queue.build options mentions queue b).1.binders) :
    ∃ case env, Arrives options mentions queue (Queue.build options mentions queue b).1 case env ∧
      env.isUsed x = true := by
  have hshares := Demand.openReading_shares mentions x
  induction queue using Queue.build.induct options mentions generalizing b with
  | case1 queue hstep =>
      rw [build_of_fail hstep] at hx
      cases hx
  | case2 queue case env hstep =>
      rw [build_of_select hstep] at hx
      cases hx
  | case3 queue next hstep ih =>
      have hnext := hstep ▸ step_meets hshares h
      have hwell' := hstep ▸ step_within options mentions hwell
      rw [build_of_advance hstep] at hx ⊢
      obtain ⟨case, env, harrives, hused⟩ := ih hnext hwell' b hx
      exact ⟨case, env, .advance hstep harrives, hused⟩
  | case4 queue asked yes no hstep ihyes ihno =>
      have hnext := hstep ▸ step_meets hshares h
      have hwell' := hstep ▸ step_within options mentions hwell
      have hreads := hstep ▸ step_readsOpenly h hwell
      rw [build_of_test hstep] at hx ⊢
      simp only [Decision.binders, List.mem_append] at hx
      rcases hx with (hx | hx) | hx
      · obtain ⟨case, env, harrives, hused⟩ := build_leads (hreads hx) b
        exact ⟨case, env, .yes hstep harrives, hused⟩
      · obtain ⟨case, env, harrives, hused⟩ := ihyes hnext.1 hwell'.1 b hx
        exact ⟨case, env, .yes hstep harrives, hused⟩
      · obtain ⟨case, env, harrives, hused⟩ := ihno hnext.2 hwell'.2 _ hx
        exact ⟨case, env, .no hstep harrives, hused⟩
  | case5 queue func subject pairs body hstep ih =>
      have hnext := hstep ▸ step_meets hshares h
      have hwell' := hstep ▸ step_within options mentions hwell
      have hreads := hstep ▸ step_readsOpenly h hwell
      rw [build_of_project hstep] at hx ⊢
      simp only [Decision.binders, List.mem_append] at hx
      rcases hx with hx | hx
      · obtain ⟨case, env, harrives, hused⟩ := build_leads (hreads hx _) b.projection.2
        exact ⟨case, env, .project hstep harrives, hused⟩
      · obtain ⟨case, env, harrives, hused⟩ :=
          ih _ (hnext _) (hwell' _ trivial) b.projection.2 hx
        exact ⟨case, env, .project hstep harrives, hused⟩

end Queue

end

end PatternCompiler
