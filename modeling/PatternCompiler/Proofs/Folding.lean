import PatternCompiler.Proofs.Outcome

/-!
# Folding is sound

A run of alternatives that only compare with literals becomes one membership match. Matched one by
one, several of them may accept the value, and then what is left of the branch is tried several
times. Each of these tries ends as the first one did, so one try is enough. This also holds of the
errors: if the first try gives a result, then so does each later one.
-/

namespace PatternCompiler

set_option autoImplicit false

variable {frozen : Bool} {strict : Prop} {vocabulary : Vocabulary} {sig : Signature}
  {σ σ' : Valuation}

/-- A plain comparison goes on if the literal denotes the value, with some identities used up. -/
theorem Matcher.attempt_of_quoted (vocabulary : Vocabulary) {p : Pattern Form} {l : Literal} (h : p.quoted? = some l)
    (v : Value) (env : Bindings) (k : Continuation) (s : ObjectSupply) :
    ∃ s₁ : ObjectSupply, s.next ≤ s₁.next ∧
      attempt vocabulary p v env k s = continueIf (l.denotes v) env k s₁ := by
  fun_induction Pattern.quoted? p with
  | case1 literal =>
      cases h
      refine ⟨(Value.ofLiteral l s).2, l.ofLiteral_next_le s, ?_⟩
      have hconstant : EvalM.allocate (Value.ofLiteral l) s
          = .ok ((Value.ofLiteral l s).1, (Value.ofLiteral l s).2) := rfl
      rw [attempt, EvalM.bind_of_ok hconstant,
        Literal.equiv_ofLiteral (Equivalence.implies_refl _)]
  | case2 p ih =>
      obtain ⟨s₁, hle, heq⟩ := ih h
      exact ⟨s₁, hle, by rw [attempt]; exact heq⟩
  | case3 p ih =>
      obtain ⟨s₁, hle, heq⟩ := ih h
      refine ⟨s₁, hle, ?_⟩
      rw [attempt]
      simp only [attemptAny]
      rw [← heq]
      -- A disjunction of one item gives back what the item gives.
      cases hresult : attempt vocabulary p v env k s with
      | error e => exact EvalM.bind_of_error hresult
      | ok result =>
          rw [EvalM.bind_of_ok hresult]
          obtain ⟨found, s₂⟩ := result
          cases found <;> rfl
  | case4 => cases h

namespace Queue

/-- The branches of a run of plain comparisons, one for each. -/
def runBranches (subject : Name) (branch : Branch Form) (run : List (Pattern Form × Literal)) :
    Queue Form :=
  ((run.map Prod.fst).map (.pattern subject)).map branch.push

variable {subject : Name} {branch : Branch Form} {queue queue' : Queue Form}
  {run : List (Pattern Form × Literal)} {w : Pairing frozen}

/-- Once the rest of the branch has found nothing, no later alternative finds anything: each of
them starts over where the second run was at `w`, and the second run found nothing from there. -/
theorem runBranches_after_none (h : w.Suits vocabulary.functions sig σ σ') (hb : branch.Over sig)
    (hrun : ∀ e ∈ run, e.1.quoted? = some e.2) {w₁ : Pairing frozen} (hw₁ : w.Extends w₁)
    (hnone : branch.continuation vocabulary σ' (branch.env.values σ') w.right = .ok (none, w₁.right))
    (hq : ∀ {w' : Pairing frozen}, w.Extends w' → Simulates strict w' Pairing.Chosen
      (outcome vocabulary σ queue) (outcome vocabulary σ' queue')) :
    Simulates strict w₁ Pairing.Chosen
      (outcome vocabulary σ (runBranches subject branch run ++ queue))
      (outcome vocabulary σ' queue') := by
  induction run generalizing w₁ with
  | nil => exact hq hw₁
  | cons e run ih =>
      obtain ⟨he, hrun⟩ := List.forall_mem_cons.mp hrun
      have hrest {s : ObjectSupply} (hs : w₁.left.next ≤ s.next) :=
        ih hrun (hw₁.trans (w₁.extends_advance hs (Nat.le_refl _))) hnone
      obtain ⟨s₁, hs₁, heq⟩ := Matcher.attempt_of_quoted vocabulary he (σ subject)
        (branch.env.values σ) (branch.continuation vocabulary σ) w₁.left
      rw [runBranches, List.map_cons, List.map_cons, List.map_cons, List.cons_append, outcome_push]
      refine .advance_left hs₁ (EvalM.bind_eq_of_eq heq) ?_
      cases e.2.denotes (σ subject) with
      | false => exact hrest hs₁
      | true =>
          have hle : w.left.next ≤ s₁.next := Nat.le_trans hw₁.left hs₁
          have hsim : Simulates strict (w.advance s₁ w.right hle (Nat.le_refl _)) _ _ _ :=
            Branch.continuation_simulates (h.mono (w.extends_advance hle (Nat.le_refl _))) hb
          -- If the first run gives a result again, it is none again.
          have hagain : ∀ {found : Option Bindings} {s₂ : ObjectSupply},
              branch.continuation vocabulary σ (branch.env.values σ) s₁ = .ok (found, s₂) →
              found = none ∧ s₁.next ≤ s₂.next := by
            intro found s₂ hfound
            obtain ⟨found', w', hfound', rfl, hw, hsame⟩ := hsim.ok hfound
            have hresult := hnone.symm.trans hfound'
            simp only [Except.ok.injEq, Prod.mk.injEq] at hresult
            rw [← hresult.1] at hsame
            cases hsame
            exact ⟨rfl, hw.left⟩
          refine ⟨fun {a s₂} ha => ?_, fun hstrict e he => ?_⟩
          · obtain ⟨found, s₃, hfound, ha⟩ := EvalM.bind_eq_ok.mp ha
            obtain ⟨rfl, hs₃⟩ := hagain hfound
            have hs := Nat.le_trans hs₁ hs₃
            obtain ⟨a', w'', ha', hs₂, hw', hchosen⟩ := (hrest hs).ok ha
            exact ⟨a', w'', ha', hs₂, (Pairing.extends_advance
              (w₁.advance s₁ w₁.right hs₁ (Nat.le_refl _)) hs₃ (Nat.le_refl _)).trans hw', hchosen⟩
          · rcases EvalM.bind_eq_error.mp he with he | ⟨found, s₃, hfound, he⟩
            · obtain ⟨e', he', -⟩ := hsim.error hstrict he
              cases hnone.symm.trans he'
            · obtain ⟨rfl, hs₃⟩ := hagain hfound
              exact (hrest (Nat.le_trans hs₁ hs₃)).error hstrict he

/-- A run of plain comparisons does what one membership match does. -/
theorem runBranches_simulates {w : Pairing frozen} (h : w.Suits vocabulary.functions sig σ σ')
    (hs : sig.subject subject) (hb : branch.Over sig) (hrun : ∀ e ∈ run, e.1.quoted? = some e.2)
    (hq : ∀ {w' : Pairing frozen}, w.Extends w' → Simulates strict w' Pairing.Chosen
      (outcome vocabulary σ queue) (outcome vocabulary σ' queue')) :
    Simulates strict w Pairing.Chosen
      (outcome vocabulary σ (runBranches subject branch run ++ queue))
      (Matcher.continueIf (run.any fun e => e.2.denotes (σ' subject)) (branch.env.values σ')
        (branch.continuation vocabulary σ')
        >>= concludeWith (branch.goal.outcome vocabulary σ') (outcome vocabulary σ' queue')) := by
  induction run generalizing w with
  | nil => exact hq (.refl w)
  | cons e run ih =>
      obtain ⟨he, hrun⟩ := List.forall_mem_cons.mp hrun
      obtain ⟨s₁, hs₁, heq⟩ := Matcher.attempt_of_quoted vocabulary he (σ subject)
        (branch.env.values σ) (branch.continuation vocabulary σ) w.left
      have hdenotes := e.2.denotes_eq_of_sameContent (Value.Corresponds.sameContent
        (h.subjects _ hs))
      have hw := w.extends_advance hs₁ (Nat.le_refl w.right.next)
      rw [runBranches, List.map_cons, List.map_cons, List.map_cons, List.cons_append, outcome_push]
      refine .advance_left hs₁ (EvalM.bind_eq_of_eq heq) ?_
      rw [List.any_cons, ← hdenotes]
      cases e.2.denotes (σ subject) with
      | false => exact ih (h.mono hw) hrun fun hw' => hq (hw.trans hw')
      | true =>
          have hsim : Simulates strict (w.advance s₁ w.right hs₁ (Nat.le_refl _)) _ _ _ :=
            Branch.continuation_simulates (h.mono hw) hb
          refine hsim.bind_of_runs fun {w' found found'} hw' hsame _ hfound' => ?_
          cases hsame with
          | some hfound =>
              exact Goal.outcome_simulates (h.mono (hw.trans hw')) (Branch.over_iff.mp hb).2.2 hfound
          | none =>
              exact runBranches_after_none (h.mono hw) hb hrun hw' hfound'
                fun hw' => hq (hw.trans hw')

theorem matchesOfRun_simulates (h : w.Suits vocabulary.functions sig σ σ')
    (hs : sig.subject subject) (hb : branch.Over sig)
    (hrun : ∀ e ∈ run, e.1.quoted? = some e.2 ∧ e.1.Over sig)
    (hq : ∀ {w' : Pairing frozen}, w.Extends w' → Simulates strict w' Pairing.Chosen
      (outcome vocabulary σ queue) (outcome vocabulary σ' queue')) :
    Simulates strict w Pairing.Chosen
      (outcome vocabulary σ (runBranches subject branch run ++ queue))
      (outcome vocabulary σ' ((matchesOfRun subject run).map branch.push ++ queue')) := by
  unfold matchesOfRun
  split
  · exact hq (.refl w)
  · rename_i p l
    have hpush : (branch.push (.pattern subject p)).Over sig :=
      hb.push ⟨hs, (hrun _ List.mem_cons_self).2⟩
    exact cons_simulates h (Branch.over_iff.mp hb).2.2 rfl (Branch.continuation_simulates h hpush) hq
  · rw [List.map_cons, List.cons_append, outcome_push]
    have hmember : ((run.map Prod.snd).any fun l => l.denotes (σ' subject)) =
        run.any fun e => e.2.denotes (σ' subject) := by rw [List.any_map]; rfl
    rw [Pending.attempt, hmember]
    exact runBranches_simulates h hs hb (fun e he => (hrun e he).1) hq

theorem foldFrom_simulates {ps : List (Pattern Form)} {w : Pairing frozen}
    (h : w.Suits vocabulary.functions sig σ σ') (hs : sig.subject subject) (hb : branch.Over sig)
    (hrun : ∀ e ∈ run, e.1.quoted? = some e.2 ∧ e.1.Over sig) (hps : ∀ p ∈ ps, p.Over sig)
    (hq : Queue.Over sig queue) :
    Simulates strict w Pairing.Chosen
      (outcome vocabulary σ (runBranches subject branch run ++
        ((ps.map (.pattern subject)).map branch.push ++ queue)))
      (outcome vocabulary σ' ((foldFrom subject run ps).map branch.push ++ queue)) := by
  induction ps generalizing run w with
  | nil => exact matchesOfRun_simulates h hs hb hrun fun hw => outcome_simulates (h.mono hw) hq
  | cons p ps ih =>
      obtain ⟨hp, hps⟩ := List.forall_mem_cons.mp hps
      rw [foldFrom]
      split
      · rename_i l hquoted
        have hrun' : ∀ e ∈ run ++ [(p, l)], e.1.quoted? = some e.2 ∧ e.1.Over sig := by
          intro e he
          rcases List.mem_append.mp he with he | he
          · exact hrun e he
          · obtain rfl := List.mem_singleton.mp he
            exact ⟨hquoted, hp⟩
        have hsim : Simulates strict w _ _ _ := ih h hrun' hps
        simpa [runBranches] using hsim
      · rw [List.map_append, List.append_assoc]
        refine matchesOfRun_simulates h hs hb hrun fun hw => ?_
        have hpush : (branch.push (.pattern subject p)).Over sig := hb.push ⟨hs, hp⟩
        refine cons_simulates (h.mono hw) (Branch.over_iff.mp hb).2.2 rfl
          (Branch.continuation_simulates (h.mono hw) hpush) fun hw' => ?_
        have hempty : ∀ e ∈ ([] : List (Pattern Form × Literal)),
            e.1.quoted? = some e.2 ∧ e.1.Over sig := fun e he => by cases he
        exact ih (h.mono (hw.trans hw')) hempty hps

/-- Folded alternatives mean what the alternatives mean. -/
theorem alternativeMatches_simulates {ps : List (Pattern Form)} (fold : Bool)
    (h : w.Suits vocabulary.functions sig σ σ') (hs : sig.subject subject) (hb : branch.Over sig)
    (hps : ∀ p ∈ ps, p.Over sig) (hq : Queue.Over sig queue) :
    Simulates strict w Pairing.Chosen
      (outcome vocabulary σ ((ps.map (.pattern subject)).map branch.push ++ queue))
      (outcome vocabulary σ' ((alternativeMatches fold subject ps).map branch.push ++ queue)) := by
  cases fold with
  | true =>
      have hempty : ∀ e ∈ ([] : List (Pattern Form × Literal)),
          e.1.quoted? = some e.2 ∧ e.1.Over sig := fun e he => by cases he
      exact foldFrom_simulates h hs hb hempty hps hq
  | false =>
      refine outcome_simulates h (Queue.over_iff.mpr fun b hmem => ?_)
      rcases List.mem_append.mp hmem with hmem | hmem
      · obtain ⟨m, hm, rfl⟩ := List.mem_map.mp hmem
        obtain ⟨p, hp, rfl⟩ := List.mem_map.mp hm
        exact hb.push ⟨hs, hps p hp⟩
      · exact Queue.over_iff.mp hq b hmem

end Queue

end PatternCompiler
