import PatternCompiler.Queue.Refine

/-!
# Splitting with one answer

A branch asks about at most one function whether it is free of pattern variables, and takes the
answer for every function that compares equal to the known one. What is left of the branch is then a
function of that answer.
-/

namespace PatternCompiler

set_option autoImplicit false

variable {ε : Type}

/-- The fact is about a function that compares equal to this one. -/
def Fact.IsAbout [BEq ε] : Fact ε → ε → Prop
  | .predicate _ known, func => (known == func) = true
  | .member .., _ | .sameAs .., _ => False

theorem Fact.IsAbout.exists_alike [BEq ε] {fact : Fact ε} {f g : ε} (hf : fact.IsAbout f)
    (hg : fact.IsAbout g) : ∃ known, (known == f) = true ∧ (known == g) = true := by
  cases fact with
  | predicate subject known => exact ⟨known, hf, hg⟩
  | member | sameAs => cases hf

namespace Knowledge

/-! ## With the answer given -/

/-- Whether a function gives a true value for the subject, if functions like the known one are
`free` of pattern variables. -/
def predicateVerdict [BEq ε] (k : Knowledge ε) (free : Bool) (subject : Name) (func : ε) :
    Option Bool :=
  match k.fact with
  | .predicate known knownFunc =>
      if subject = known && knownFunc == func && free then some k.holds else none
  | _ => none

mutual

def verdict [BEq ε] (k : Knowledge ε) (free : Bool) (subject : Name) : Pattern ε → Option Bool
  | .literal literal => k.decideMember subject [literal] literal.equivalence
  | .predicate func => k.predicateVerdict free subject func
  | .not inner => (k.verdict free subject inner).map (!·)
  | .and items => k.verdictAll free subject items
  | .or alternatives =>
      if !alternatives.isEmpty && k.allRefuted free subject alternatives then some false else none
  | .wildcard | .bind _ | .guard _ | .app .. => none

def verdictAll [BEq ε] (k : Knowledge ε) (free : Bool) (subject : Name) :
    List (Pattern ε) → Option Bool
  | [] => some true
  | p :: ps =>
      match k.verdict free subject p, k.verdictAll free subject ps with
      | some false, _ | _, some false => some false
      | some true, some true => some true
      | _, _ => none

def allRefuted [BEq ε] (k : Knowledge ε) (free : Bool) (subject : Name) :
    List (Pattern ε) → Bool
  | [] => true
  | p :: ps => k.verdict free subject p == some false && k.allRefuted free subject ps

end

def remainder (verdict : Option Bool) (undecided : Option (List (Pending ε))) :
    Option (List (Pending ε)) :=
  match verdict with
  | some true => some []
  | some false => none
  | none => undecided

mutual

def residue [BEq ε] (k : Knowledge ε) (free : Bool) (subject : Name) :
    Pattern ε → Option (List (Pending ε))
  | .and items =>
      remainder (k.verdict free subject (.and items)) (k.residueItems free subject items)
  | p => remainder (k.verdict free subject p) (some [.pattern subject p])

def residueItems [BEq ε] (k : Knowledge ε) (free : Bool) (subject : Name) :
    List (Pattern ε) → Option (List (Pending ε))
  | [] => some []
  | p :: ps => do
      let first ← k.residue free subject p
      let rest ← k.residueItems free subject ps
      return first ++ rest

end

def residuePending [BEq ε] (k : Knowledge ε) (free : Bool) : Pending ε → Option (List (Pending ε))
  | .pattern subject p =>
      if k.fact.subject? = some subject then k.residue free subject p
      else some [.pattern subject p]
  | .member subject set eqv =>
      remainder (k.decideMember subject set eqv) (some [.member subject set eqv])
  | .sameAs subject other =>
      remainder (k.decideSameAs subject other) (some [.sameAs subject other])

def residueAll [BEq ε] (k : Knowledge ε) (free : Bool) :
    List (Pending ε) → Option (List (Pending ε))
  | [] => some []
  | m :: ms => do
      let first ← k.residuePending free m
      let rest ← k.residueAll free ms
      return first ++ rest

theorem exists_of_residueItems_cons [BEq ε] {k : Knowledge ε} {free : Bool} {subject : Name}
    {p : Pattern ε} {ps : List (Pattern ε)} {left : List (Pending ε)}
    (h : k.residueItems free subject (p :: ps) = some left) :
    ∃ first rest, k.residue free subject p = some first ∧
      k.residueItems free subject ps = some rest ∧ left = first ++ rest := by
  simp only [residueItems, Option.bind_eq_bind, Option.bind_eq_some_iff, Option.pure_def,
    Option.some.injEq] at h
  obtain ⟨first, hfirst, rest, hrest, hleft⟩ := h
  exact ⟨first, rest, hfirst, hrest, hleft.symm⟩

theorem exists_of_residueAll_cons [BEq ε] {k : Knowledge ε} {free : Bool} {m : Pending ε}
    {ms left : List (Pending ε)} (h : k.residueAll free (m :: ms) = some left) :
    ∃ first rest, k.residuePending free m = some first ∧ k.residueAll free ms = some rest ∧
      left = first ++ rest := by
  simp only [residueAll, Option.bind_eq_bind, Option.bind_eq_some_iff, Option.pure_def,
    Option.some.injEq] at h
  obtain ⟨first, hfirst, rest, hrest, hleft⟩ := h
  exact ⟨first, rest, hfirst, hrest, hleft.symm⟩

/-! ## The cell -/

/-- The computation gives `value` for the answer that its cell holds in the end, and for any answer
if it holds none. A cell once filled is left alone, and one that gets filled gets the answer for a
function that the fact is about. -/
structure Gives [BEq ε] (k : Knowledge ε) (isFree : ε → Bool) {α : Type} (m : Asking α)
    (value : Bool → α) : Prop where
  cell : ∀ cell, (m.run cell).2 = cell ∨
    cell = none ∧ ∃ func, k.fact.IsAbout func ∧ (m.run cell).2 = some (isFree func)
  value : ∀ cell free, (∀ b ∈ (m.run cell).2, b = free) → (m.run cell).1 = value free

section

variable [BEq ε] {k : Knowledge ε} {isFree : ε → Bool} {α β : Type} {m : Asking α}
  {value : Bool → α}

theorem Gives.pure (x : α) : k.Gives isFree (pure x) fun _ => x :=
  ⟨fun _ => .inl rfl, fun _ _ _ => rfl⟩

theorem Gives.bind (h : k.Gives isFree m value) {f : α → Asking β} {g : α → Bool → β}
    (hf : ∀ x, k.Gives isFree (f x) (g x)) :
    k.Gives isFree (m >>= f) fun free => g (value free) free := by
  have hrun (cell : Option Bool) :
      (m >>= f).run cell = (f (m.run cell).1).run (m.run cell).2 := rfl
  refine ⟨fun cell => ?_, fun cell free hfree => ?_⟩
  · rw [hrun]
    rcases (hf (m.run cell).1).cell (m.run cell).2 with hkept | ⟨hempty, hfilled⟩
    · rw [hkept]
      exact h.cell cell
    · -- The cell is still empty after the first part, so it was empty before.
      rcases h.cell cell with hcell | ⟨-, func, -, hsome⟩
      · exact .inr ⟨hcell ▸ hempty, hfilled⟩
      · rw [hempty] at hsome
        cases hsome
  · rw [hrun] at hfree ⊢
    have hfirst : ∀ b ∈ (m.run cell).2, b = free := by
      intro b hb
      rcases (hf (m.run cell).1).cell (m.run cell).2 with hkept | ⟨hempty, -⟩
      · exact hfree b (hkept.symm ▸ hb)
      · rw [hempty] at hb
        cases hb
    rw [(hf _).value _ free hfree, h.value cell free hfirst]

theorem Gives.congr (h : k.Gives isFree m value) {value' : Bool → α}
    (heq : ∀ free, value free = value' free) : k.Gives isFree m value' :=
  funext heq ▸ h

theorem Gives.map (h : k.Gives isFree m value) (f : α → β) :
    k.Gives isFree (f <$> m) fun free => f (value free) :=
  h.bind fun x => Gives.pure (f x)

/-- With a cell that starts empty, a yes has been given for a function that the fact is about. -/
theorem Gives.exists_eq (h : k.Gives isFree m value) (cell : Option Bool) :
    ∃ free : Bool,
      (cell = none → free = true → ∃ func, k.fact.IsAbout func ∧ isFree func = true) ∧
      (m.run cell).1 = value free := by
  cases hcell : (m.run cell).2 with
  | none =>
      exact ⟨false, fun _ => nofun, h.value cell false fun b hb => by rw [hcell] at hb; cases hb⟩
  | some b =>
      refine ⟨b, ?_, h.value cell b fun b' hb => by rw [hcell] at hb; cases hb; rfl⟩
      rintro rfl rfl
      rcases h.cell none with hkept | ⟨-, func, habout, hfilled⟩
      · rw [hcell] at hkept
        cases hkept
      · rw [hcell] at hfilled
        exact ⟨func, habout, (Option.some.inj hfilled).symm⟩

theorem ask_gives {func : ε} (h : k.fact.IsAbout func) : k.Gives isFree (ask isFree func) id := by
  refine ⟨fun cell => ?_, fun cell free hfree => ?_⟩
  · cases cell with
    | none => exact .inr ⟨rfl, func, h, rfl⟩
    | some b => exact .inl rfl
  · cases cell with
    | none => exact hfree _ rfl
    | some b => exact hfree _ rfl

theorem decidePredicate_gives (k : Knowledge ε) (isFree : ε → Bool) (subject : Name) (func : ε) :
    k.Gives isFree (k.decidePredicate isFree subject func)
      fun free => k.predicateVerdict free subject func := by
  unfold decidePredicate
  split
  · rename_i known knownFunc hfact
    split
    · rename_i hknown
      have habout : k.fact.IsAbout func := by
        rw [hfact]
        exact (Bool.and_eq_true_iff.mp hknown).2
      refine ((ask_gives habout).map fun free => if free then some k.holds else none).congr ?_
      intro free
      simp only [predicateVerdict, hfact, hknown, Bool.true_and, id_eq]
    · rename_i hknown
      refine (Gives.pure none).congr fun free => ?_
      simp only [predicateVerdict, hfact, hknown, Bool.false_and, Bool.false_eq_true, if_false]
  · rename_i hfact
    refine (Gives.pure none).congr fun free => ?_
    unfold predicateVerdict
    split
    · rename_i known knownFunc heq
      exact absurd heq (hfact known knownFunc)
    · rfl

mutual

theorem decidePattern_gives (k : Knowledge ε) (isFree : ε → Bool) (subject : Name)
    (p : Pattern ε) :
    k.Gives isFree (k.decidePattern isFree subject p) fun free => k.verdict free subject p := by
  match p with
  | .literal literal =>
      simp only [decidePattern, verdict]
      exact .pure _
  | .predicate func =>
      simp only [decidePattern, verdict]
      exact k.decidePredicate_gives isFree subject func
  | .not inner =>
      simp only [decidePattern, verdict]
      exact (decidePattern_gives k isFree subject inner).map (Option.map (!·))
  | .and items =>
      simp only [decidePattern, verdict]
      exact decideAll_gives k isFree subject items
  | .or alternatives =>
      simp only [decidePattern, verdict]
      cases alternatives.isEmpty with
      | true => exact .pure none
      | false =>
          exact (refutesAll_gives k isFree subject alternatives).map
            fun refuted => if refuted then some false else none
  | .wildcard | .bind _ | .guard _ | .app .. =>
      simp only [decidePattern, verdict]
      exact .pure none

theorem decideAll_gives (k : Knowledge ε) (isFree : ε → Bool) (subject : Name)
    (ps : List (Pattern ε)) :
    k.Gives isFree (k.decideAll isFree subject ps) fun free => k.verdictAll free subject ps := by
  match ps with
  | [] =>
      simp only [decideAll, verdictAll]
      exact .pure _
  | p :: ps =>
      have hrest := decideAll_gives k isFree subject ps
      have hbehind (first : Option Bool) : k.Gives isFree
          (match first with
            | some false => pure (some false)
            | some true => k.decideAll isFree subject ps
            | none => return (← k.decideAll isFree subject ps).filter (!·))
          fun free => match first, k.verdictAll free subject ps with
            | some false, _ | _, some false => some false
            | some true, some true => some true
            | _, _ => none := by
        match first with
        | some false => exact .pure _
        | some true =>
            refine hrest.congr fun free => ?_
            rcases k.verdictAll free subject ps with _ | _ | _ <;> rfl
        | none =>
            refine (hrest.map (Option.filter (!·))).congr fun free => ?_
            rcases k.verdictAll free subject ps with _ | _ | _ <;> rfl
      simp only [decideAll, verdictAll]
      exact (decidePattern_gives k isFree subject p).bind hbehind

theorem refutesAll_gives (k : Knowledge ε) (isFree : ε → Bool) (subject : Name)
    (ps : List (Pattern ε)) :
    k.Gives isFree (k.refutesAll isFree subject ps) fun free => k.allRefuted free subject ps := by
  match ps with
  | [] =>
      simp only [refutesAll, allRefuted]
      exact .pure _
  | p :: ps =>
      have hbehind (first : Option Bool) : k.Gives isFree
          (match first with
            | some false => k.refutesAll isFree subject ps
            | _ => pure false)
          fun free => first == some false && k.allRefuted free subject ps := by
        match first with
        | some false => exact refutesAll_gives k isFree subject ps
        | some true | none => exact .pure false
      simp only [refutesAll, allRefuted]
      exact (decidePattern_gives k isFree subject p).bind hbehind

end

theorem settle_gives (verdict : Option Bool) {undecided : Asking (Option (List (Pending ε)))}
    {left : Bool → Option (List (Pending ε))} (h : k.Gives isFree undecided left) :
    k.Gives isFree (settle verdict undecided) fun free => remainder verdict (left free) := by
  match verdict with
  | some true | some false => exact .pure _
  | none => exact h

/-- The parts come in the order of the list, whichever is looked at first. -/
theorem append_gives {first rest : Asking (Option (List (Pending ε)))}
    {left right : Bool → Option (List (Pending ε))} (hfirst : k.Gives isFree first left)
    (hrest : k.Gives isFree rest right) :
    k.Gives isFree
      (do
        let some ns ← rest | return none
        let some ms ← first | return none
        return some (ms ++ ns))
      fun free => do
        let ms ← left free
        let ns ← right free
        return ms ++ ns := by
  have hbehind (ns : Option (List (Pending ε))) : k.Gives isFree
      (match ns with
        | some ns => do
            let some ms ← first | return none
            return some (ms ++ ns)
        | _ => pure none)
      fun free => do
        let ms ← left free
        let ns ← ns
        return ms ++ ns := by
    match ns with
    | none =>
        refine (Gives.pure none).congr fun free => ?_
        cases left free with
        | none | some => rfl
    | some ns =>
        have happended (ms : Option (List (Pending ε))) : k.Gives isFree
            (match ms with
              | some ms => pure (some (ms ++ ns))
              | _ => pure none)
            fun _ => ms.map (· ++ ns) := by
          cases ms with
          | none | some => exact .pure _
        refine (hfirst.bind happended).congr fun free => ?_
        cases left free with
        | none | some => rfl
  exact hrest.bind hbehind

mutual

theorem refinePattern_gives (k : Knowledge ε) (isFree : ε → Bool) (subject : Name)
    (p : Pattern ε) :
    k.Gives isFree (k.refinePattern isFree subject p) fun free => k.residue free subject p := by
  have hverdict := k.decidePattern_gives isFree subject p
  match p with
  | .and items =>
      simp only [refinePattern, residue]
      exact hverdict.bind fun verdict =>
        settle_gives verdict (refineItems_gives k isFree subject items)
  | .wildcard | .bind _ | .literal _ | .predicate _ | .guard _ | .app .. | .not _ | .or _ =>
      simp only [refinePattern, residue]
      exact hverdict.bind fun verdict => settle_gives verdict (.pure _)

theorem refineItems_gives (k : Knowledge ε) (isFree : ε → Bool) (subject : Name)
    (ps : List (Pattern ε)) :
    k.Gives isFree (k.refineItems isFree subject ps)
      fun free => k.residueItems free subject ps := by
  match ps with
  | [] =>
      simp only [refineItems, residueItems]
      exact .pure _
  | p :: ps =>
      simp only [refineItems, residueItems]
      exact append_gives (refinePattern_gives k isFree subject p)
        (refineItems_gives k isFree subject ps)

end

theorem refinePending_gives (k : Knowledge ε) (isFree : ε → Bool) (m : Pending ε) :
    k.Gives isFree (k.refinePending isFree m) fun free => k.residuePending free m := by
  cases m with
  | pattern subject p =>
      simp only [refinePending, residuePending]
      split
      · exact k.refinePattern_gives isFree subject p
      · exact .pure _
  | member | sameAs => exact settle_gives _ (.pure _)

theorem refineAll_gives (k : Knowledge ε) (isFree : ε → Bool) (ms : List (Pending ε)) :
    k.Gives isFree (k.refineAll isFree ms) fun free => k.residueAll free ms := by
  induction ms with
  | nil => exact .pure _
  | cons m ms ih => exact append_gives (k.refinePending_gives isFree m) ih

end

/-! ## Branches -/

variable [BEq ε]

/-- A branch is refined with one answer. If that is yes, it has been given for a function that the
fact is about. -/
theorem exists_refineBranch_eq (k : Knowledge ε) (mentions : ε → Name → Bool) (branch : Branch ε) :
    ∃ free : Bool,
      (free = true → ∃ func, k.fact.IsAbout func ∧ branch.isIndependentOf mentions func = true) ∧
      k.refineBranch mentions branch =
        (k.residueAll free branch.pending).map fun left => { branch with pending := left } := by
  obtain ⟨free, hfree, hleft⟩ :=
    (k.refineAll_gives (branch.isIndependentOf mentions) branch.pending).exists_eq none
  exact ⟨free, hfree rfl, congrArg (Option.map _) hleft⟩

theorem exists_of_refineBranch {k : Knowledge ε} {mentions : ε → Name → Bool}
    {branch refined : Branch ε} (h : k.refineBranch mentions branch = some refined) :
    ∃ (free : Bool) (left : List (Pending ε)),
      (free = true → ∃ func, k.fact.IsAbout func ∧ branch.isIndependentOf mentions func = true) ∧
      k.residueAll free branch.pending = some left ∧ refined = { branch with pending := left } := by
  obtain ⟨free, hfree, heq⟩ := k.exists_refineBranch_eq mentions branch
  obtain ⟨left, hleft, rfl⟩ := Option.map_eq_some_iff.mp (heq ▸ h)
  exact ⟨free, left, hfree, hleft, rfl⟩

end Knowledge

end PatternCompiler
