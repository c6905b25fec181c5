import PatternCompiler.Proofs.Outcome

/-!
# Functions that look alike

Forms are compared by shape and content, flonums as numbers and objects without their identity, while
evaluation can tell the bits of flonums and the identities of objects. For forms that quote only
symbols and integers likeness is equality. Other functions that look alike do alike if their flonums
have the same bits and their objects can be paired off while every other object in sight is paired
with itself. The two zeros are one number with different bits, and there likeness is not enough.
-/

namespace PatternCompiler

set_option autoImplicit false

/-! ## Likeness -/

theorem Flonum.numericEq_comm (x y : Flonum) : x.numericEq y = y.numericEq x := by
  simp only [numericEq, Bool.and_comm, eq_comm]

theorem Value.alike_comm (a b : Value) : a.alike b = b.alike a := by
  induction a generalizing b with
  | cons i a as iha ihas =>
      cases b with
      | cons j b bs => simp only [alike, iha b, ihas bs]
      | symbol | int | float | str => rfl
  | float x => cases b <;> simp only [alike, x.numericEq_comm]
  | symbol | int | str => cases b <;> simp only [alike, eq_comm]

def Value.isPlain : Value → Bool
  | symbol _ | int _ => true
  | float _ | str .. | cons .. => false

theorem Value.eq_of_alike {a b : Value} (h : a.alike b = true) (hb : b.isPlain = true) : a = b := by
  cases b with
  | symbol name => cases a <;> simp_all [Value.alike]
  | int n => cases a <;> simp_all [Value.alike]
  | float | str | cons => cases hb

theorem Value.relates_of_isPlain {frozen : Bool} {v : Value} (h : v.isPlain = true)
    (w : Pairing frozen) : w.Relates v v := by
  cases v with
  | symbol name => exact .symbol name
  | int n => exact .int n
  | float | str | cons => cases h

namespace Form

/-- The form quotes only symbols and integers. -/
def QuotesPlainly (f : Form) : Prop := ∀ c ∈ f.constants, c.isPlain = true

mutual

theorem alike_symm {f g : Form} (h : f.alike g = true) : g.alike f = true := by
  match f, g with
  | var a, var b | function a, function b => simp only [alike] at h ⊢; simpa only [eq_comm] using h
  | quote a, quote b => simp only [alike] at h ⊢; rwa [Value.alike_comm]
  | call a as, call b bs =>
      simp only [alike, Bool.and_eq_true, decide_eq_true_eq] at h ⊢
      exact ⟨h.1.symm, alikeList_symm h.2⟩
  | cond a b c, cond a' b' c' =>
      simp only [alike, Bool.and_eq_true] at h ⊢
      exact ⟨⟨alike_symm h.1.1, alike_symm h.1.2⟩, alike_symm h.2⟩
  | letIn as a, letIn bs b =>
      simp only [alike, Bool.and_eq_true] at h ⊢
      exact ⟨alikeBound_symm h.1, alike_symm h.2⟩

theorem alikeList_symm {fs gs : List Form} (h : alikeList fs gs = true) :
    alikeList gs fs = true := by
  match fs, gs with
  | [], [] => rfl
  | f :: fs, g :: gs =>
      simp only [alikeList, Bool.and_eq_true] at h ⊢
      exact ⟨alike_symm h.1, alikeList_symm h.2⟩

theorem alikeBound_symm {fs gs : List (Name × Form)} (h : alikeBound fs gs = true) :
    alikeBound gs fs = true := by
  match fs, gs with
  | [], [] => rfl
  | (x, f) :: fs, (y, g) :: gs =>
      simp only [alikeBound, Bool.and_eq_true, decide_eq_true_eq] at h ⊢
      exact ⟨⟨h.1.1.symm, alike_symm h.1.2⟩, alikeBound_symm h.2⟩

end

mutual

theorem eq_of_alike {f g : Form} (h : f.alike g = true) (hg : ∀ c ∈ g.constants, c.isPlain = true) :
    f = g := by
  match f, g with
  | var a, var b => simp only [alike, decide_eq_true_eq] at h; rw [h]
  | quote a, quote b =>
      simp only [alike] at h
      rw [Value.eq_of_alike h (hg b (by simp [constants]))]
  | function a, function b => simp only [alike, decide_eq_true_eq] at h; rw [h]
  | call a as, call b bs =>
      simp only [alike, Bool.and_eq_true, decide_eq_true_eq] at h
      rw [h.1, list_eq_of_alike h.2 (by simpa only [constants] using hg)]
  | cond a b c, cond a' b' c' =>
      simp only [alike, Bool.and_eq_true] at h
      simp only [constants, List.mem_append] at hg
      rw [eq_of_alike h.1.1 fun x hx => hg x (.inl (.inl hx)),
        eq_of_alike h.1.2 fun x hx => hg x (.inl (.inr hx)),
        eq_of_alike h.2 fun x hx => hg x (.inr hx)]
  | letIn as a, letIn bs b =>
      simp only [alike, Bool.and_eq_true] at h
      simp only [constants, List.mem_append] at hg
      rw [bound_eq_of_alike h.1 fun x hx => hg x (.inl hx),
        eq_of_alike h.2 fun x hx => hg x (.inr hx)]

theorem list_eq_of_alike {fs gs : List Form} (h : alikeList fs gs = true)
    (hg : ∀ c ∈ listConstants gs, c.isPlain = true) : fs = gs := by
  match fs, gs with
  | [], [] => rfl
  | f :: fs, g :: gs =>
      simp only [alikeList, Bool.and_eq_true] at h
      simp only [listConstants, List.mem_append] at hg
      rw [eq_of_alike h.1 fun x hx => hg x (.inl hx),
        list_eq_of_alike h.2 fun x hx => hg x (.inr hx)]

theorem bound_eq_of_alike {fs gs : List (Name × Form)} (h : alikeBound fs gs = true)
    (hg : ∀ c ∈ boundConstants gs, c.isPlain = true) : fs = gs := by
  match fs, gs with
  | [], [] => rfl
  | (x, f) :: fs, (y, g) :: gs =>
      simp only [alikeBound, Bool.and_eq_true, decide_eq_true_eq] at h
      simp only [boundConstants, List.mem_append] at hg
      rw [h.1.1, eq_of_alike h.1.2 fun x hx => hg x (.inl hx),
        bound_eq_of_alike h.2 fun x hx => hg x (.inr hx)]

end

/-! ## Forms that correspond -/

variable {rel : Nat → Nat → Prop}

mutual

/-- The constants are the only part in which forms that look alike can differ. They are taken off
the front of a list of more, so that the parts of a form can be dealt with one after the other. -/
theorem corresponds_of_alike {f g : Form} (h : f.alike g = true) {cs ds : List Value}
    (hc : List.Forall₂ (Value.Corresponds rel) (f.constants ++ cs) (g.constants ++ ds)) :
    f.Corresponds rel g ∧ List.Forall₂ (Value.Corresponds rel) cs ds := by
  match f, g with
  | var a, var b =>
      simp only [alike, decide_eq_true_eq] at h
      exact ⟨h ▸ .var a, hc⟩
  | quote a, quote b =>
      simp only [constants, List.cons_append, List.nil_append, List.forall₂_cons] at hc
      exact ⟨.quote hc.1, hc.2⟩
  | function a, function b =>
      simp only [alike, decide_eq_true_eq] at h
      exact ⟨h ▸ .function a, hc⟩
  | call a as, call b bs =>
      simp only [alike, Bool.and_eq_true, decide_eq_true_eq] at h
      simp only [constants] at hc
      obtain ⟨hargs, hrest⟩ := listCorresponds_of_alike h.2 hc
      exact ⟨h.1 ▸ .call a hargs, hrest⟩
  | cond a b c, cond a' b' c' =>
      simp only [alike, Bool.and_eq_true] at h
      simp only [constants, List.append_assoc] at hc
      obtain ⟨ha, hc⟩ := corresponds_of_alike h.1.1 hc
      obtain ⟨hb, hc⟩ := corresponds_of_alike h.1.2 hc
      obtain ⟨hc', hrest⟩ := corresponds_of_alike h.2 hc
      exact ⟨.cond ha hb hc', hrest⟩
  | letIn as a, letIn bs b =>
      simp only [alike, Bool.and_eq_true] at h
      simp only [constants, List.append_assoc] at hc
      obtain ⟨hbound, hc⟩ := boundCorresponds_of_alike h.1 hc
      obtain ⟨hbody, hrest⟩ := corresponds_of_alike h.2 hc
      exact ⟨.letIn hbound hbody, hrest⟩

theorem listCorresponds_of_alike {fs gs : List Form} (h : alikeList fs gs = true)
    {cs ds : List Value}
    (hc : List.Forall₂ (Value.Corresponds rel) (listConstants fs ++ cs) (listConstants gs ++ ds)) :
    ListCorresponds rel fs gs ∧ List.Forall₂ (Value.Corresponds rel) cs ds := by
  match fs, gs with
  | [], [] => exact ⟨.nil, hc⟩
  | f :: fs, g :: gs =>
      simp only [alikeList, Bool.and_eq_true] at h
      simp only [listConstants, List.append_assoc] at hc
      obtain ⟨hf, hc⟩ := corresponds_of_alike h.1 hc
      obtain ⟨hfs, hrest⟩ := listCorresponds_of_alike h.2 hc
      exact ⟨.cons hf hfs, hrest⟩

theorem boundCorresponds_of_alike {fs gs : List (Name × Form)} (h : alikeBound fs gs = true)
    {cs ds : List Value}
    (hc : List.Forall₂ (Value.Corresponds rel) (boundConstants fs ++ cs)
      (boundConstants gs ++ ds)) :
    BoundCorresponds rel fs gs ∧ List.Forall₂ (Value.Corresponds rel) cs ds := by
  match fs, gs with
  | [], [] => exact ⟨.nil, hc⟩
  | (x, f) :: fs, (y, g) :: gs =>
      simp only [alikeBound, Bool.and_eq_true, decide_eq_true_eq] at h
      simp only [boundConstants, List.append_assoc] at hc
      obtain ⟨hf, hc⟩ := corresponds_of_alike h.1.2 hc
      obtain ⟨hfs, hrest⟩ := boundCorresponds_of_alike h.2 hc
      exact ⟨h.1.1 ▸ .cons x hf hfs, hrest⟩

end
end Form

/-! ## Functions that agree -/

open Interpretation (within)

variable {vocabulary : Vocabulary} {ambient : Scope} {f g : Form} {w : Pairing false} {v : Value}
  {env : Bindings}

/-- Functions that look alike do alike if their constants correspond. -/
theorem Form.apply_simulates_of_alike (halike : (f == g) = true)
    (hconstants : w.RelatesAll f.constants g.constants) (hambient : w.RelatesScope ambient ambient)
    (hv : w.Relates v v) (henv : w.RelatesScope env env) :
    Simulates True w Pairing.Relates ((within vocabulary ambient).apply f v env)
      ((within vocabulary ambient).apply g v env) := by
  have hall : List.Forall₂ (Value.Corresponds w.rel) (f.constants ++ []) (g.constants ++ []) := by
    rw [List.append_nil, List.append_nil]
    exact hconstants
  obtain ⟨hcorresponds, -⟩ := Form.corresponds_of_alike halike hall
  exact Form.application_simulates vocabulary.functions vocabulary.operators hcorresponds
    (List.rel_append (List.forall₂_reverse_iff.mpr henv) hambient) hv nofun

theorem Pairing.respectsPattern_within {p : Pattern Form} (hambient : w.RelatesScope ambient ambient)
    (hp : ∀ h ∈ p.functions ++ p.guards, ∀ c ∈ h.constants, w.Relates c c) :
    w.RespectsPattern (within vocabulary ambient) p where
  functions h hmem :=
    respectsFunction_within hambient (hp h (List.mem_append.mpr (.inl hmem))) nofun
  guards h hmem := respectsGuard_within hambient (hp h (List.mem_append.mpr (.inr hmem))) nofun

/-- Whatever the answers are, a decided predicate comes out as the known one did. -/
theorem Knowledge.eq_of_decidePredicate {ε : Type} [BEq ε] {k : Knowledge ε} {isFree : ε → Bool}
    {subject : Name} {func : ε} {cell : Option Bool} {b : Bool}
    (h : ((k.decidePredicate isFree subject func).run cell).1 = some b) : b = k.holds := by
  obtain ⟨free, -, heq⟩ := (k.decidePredicate_gives isFree subject func).exists_eq cell
  rw [heq, predicateVerdict] at h
  split at h
  · split at h
    · cases h; rfl
    · cases h
  · cases h

theorem Projection.redirectPending_of_alike {pr : Projection Form} (h : (pr.func == g) = true)
    (p : Pattern Form) :
    pr.redirectPending (.pattern pr.subject (.app g p)) = [.pattern pr.fresh p] := by
  have hsymm : (g == pr.func) = true := Form.alike_symm h
  simp only [redirectPending, redirectPattern, hsymm, if_true]

/-- Functions that look alike and whose constants correspond both fail, or give values that are both
true or both false. A predicate decided from the other one comes out as if it were evaluated, and an
application that reads what the other one gave finds what it would have found. -/
theorem alike_functions_agree (halike : (f == g) = true)
    (hconstants : w.RelatesAll f.constants g.constants) (hambient : w.RelatesScope ambient ambient)
    (hv : w.Relates v v) (henv : w.RelatesScope env env) :
    Agrees True (fun r r' => r.isTruthy = r'.isTruthy)
        ((within vocabulary ambient).apply f v env w.left)
        ((within vocabulary ambient).apply g v env w.right) ∧
      ∀ r s, (within vocabulary ambient).apply f v env w.left = .ok (r, s) →
        (∀ subject isFree cell b,
          (((Knowledge.mk (.predicate subject f) r.isTruthy).decidePattern isFree subject
            (.predicate g)).run cell).1 = some b →
          ∃ s', (within vocabulary ambient).attempt (.predicate g) v env Matcher.accept w.right =
            .ok (if b then some env else none, s')) ∧
        ∀ (pr : Projection Form) (σ : Valuation) (p : Pattern Form), pr.func = f → σ pr.fresh = r →
          (∀ h ∈ p.functions ++ p.guards, ∀ c ∈ h.constants, w.Relates c c) →
          Agrees True (Option.Rel SameBindings)
            ((within vocabulary ambient).attemptPendings σ
              (pr.redirectPending (.pattern pr.subject (.app g p))) env Matcher.accept s)
            ((within vocabulary ambient).attempt (.app g p) v env Matcher.accept w.right) := by
  have hsim : Simulates True w Pairing.Relates ((within vocabulary ambient).apply f v env)
      ((within vocabulary ambient).apply g v env) :=
    Form.apply_simulates_of_alike halike hconstants hambient hv henv
  refine ⟨hsim.agrees Value.Corresponds.isTruthy_eq, fun r s hr => ?_⟩
  obtain ⟨r', w', hr', rfl, hw, hrel⟩ := hsim.ok hr
  constructor
  · intro subject isFree cell b hb
    rw [Knowledge.decidePattern] at hb
    refine ⟨w'.right, ?_⟩
    rw [Interpretation.attempt, EvalM.bind_of_ok hr', Knowledge.eq_of_decidePredicate hb,
      Value.Corresponds.isTruthy_eq hrel]
    cases r'.isTruthy <;> rfl
  · rintro pr σ p rfl rfl hp
    have hpattern : w.RespectsPattern (within vocabulary ambient) p :=
      Pairing.respectsPattern_within hambient hp
    have hmatch : Simulates True w' (Pairing.Found fun _ => True) _ _ :=
      Interpretation.attempt_simulates p Pairing.found_report (hpattern.mono hw)
        (fun _ _ => trivial) hrel ⟨henv.mono hw, fun _ _ => trivial⟩
        fun _ he => Matcher.accept_simulates he
    rw [Projection.redirectPending_of_alike halike, Interpretation.attempt, EvalM.bind_of_ok hr']
    refine hmatch.agrees fun hfound => ?_
    cases hfound with
    | none => exact .none
    | some he => exact .some he.scope.sameBindings

/-- Two strings of one content, neither of which is the subject. -/
theorem alike_functions_agree_of_strings :
    ∃ s, (within ⟨⟨⟨3⟩, ⟨4⟩, ⟨5⟩, ⟨6⟩, ⟨7⟩, ⟨8⟩, ⟨9⟩⟩, [(⟨5⟩, .equal)]⟩ [(⟨10⟩, .int 1)]).attempt
      (.predicate (.call ⟨5⟩ [.quote (.str 1 "a")])) (.str 2 "a") [(⟨11⟩, .str 2 "a")]
      Matcher.accept ⟨3⟩ = .ok (some [(⟨11⟩, .str 2 "a")], s) := by
  let w : Pairing false :=
    { rel := fun i j => i = 0 ∧ j = 1 ∨ i = 2 ∧ j = 2
      left := ⟨3⟩
      right := ⟨3⟩
      oneToOne := by rintro i j i' j' (⟨rfl, rfl⟩ | ⟨rfl, rfl⟩) (⟨rfl, rfl⟩ | ⟨rfl, rfl⟩) <;> simp
      bounded := by rintro - i j (⟨rfl, rfl⟩ | ⟨rfl, rfl⟩) <;> simp }
  have hsubject : w.Relates (.str 2 "a") (.str 2 "a") := .str "a" (.inr ⟨rfl, rfl⟩)
  obtain ⟨-, hoptimized⟩ := @alike_functions_agree
    ⟨⟨⟨3⟩, ⟨4⟩, ⟨5⟩, ⟨6⟩, ⟨7⟩, ⟨8⟩, ⟨9⟩⟩, [(⟨5⟩, .equal)]⟩ [(⟨10⟩, .int 1)]
    (.call ⟨5⟩ [.quote (.str 0 "a")]) (.call ⟨5⟩ [.quote (.str 1 "a")]) w (.str 2 "a")
    [(⟨11⟩, .str 2 "a")] rfl (.cons (.str "a" (.inl ⟨rfl, rfl⟩)) .nil)
    (.cons ⟨rfl, .int 1⟩ .nil) hsubject (.cons ⟨rfl, hsubject⟩ .nil)
  exact (hoptimized .t ⟨3⟩ rfl).1 ⟨12⟩ (fun _ => true) none true rfl

/-! ## Flonums that look alike -/

/-- Is the subject `eql` to the flonum? -/
def eqlTo (x : Flonum) : Form := .call ⟨4⟩ [.quote (.float x)]

def negativeZero : Flonum := ⟨0x8000000000000000⟩

/-- The functions are taken for one and the same, since the zeros are equal as numbers, but only one
of them holds of a zero. A case with the other one is given up although it matches, as is an
application that reads the other's result. -/
theorem alike_functions_differ_on_zeros :
    (eqlTo ⟨0⟩ == eqlTo negativeZero) = true ∧
      ∃ vocabulary : Vocabulary,
        (within vocabulary []).apply (eqlTo ⟨0⟩) (.float negativeZero) [] ⟨0⟩ = .ok (.nil, ⟨0⟩) ∧
        (within vocabulary []).apply (eqlTo negativeZero) (.float negativeZero) [] ⟨0⟩ =
          .ok (.t, ⟨0⟩) ∧
        Queue.refine (fun f x => f.mentions x) (.predicate ⟨10⟩ (eqlTo ⟨0⟩) []) false
          [⟨[.pattern ⟨10⟩ (.predicate (eqlTo negativeZero))], .empty, .select 1⟩] = [] ∧
        (within vocabulary []).meaning (fun _ => .float negativeZero)
          [⟨[.pattern ⟨10⟩ (.predicate (eqlTo negativeZero))], .empty, .select 1⟩] ⟨0⟩ =
            .ok (some (1, []), ⟨0⟩) ∧
        Queue.share (fun f x => f.mentions x) ⟨⟨10⟩, eqlTo ⟨0⟩, ⟨11⟩⟩
          [⟨[.pattern ⟨10⟩ (.app (eqlTo negativeZero) (.literal .t))], .empty, .select 1⟩] =
            [⟨[.pattern ⟨11⟩ (.literal .t)], .empty, .select 1⟩] := by
  refine ⟨by decide, ⟨⟨⟨3⟩, ⟨4⟩, ⟨5⟩, ⟨6⟩, ⟨7⟩, ⟨8⟩, ⟨9⟩⟩, [(⟨4⟩, .eql)]⟩, ?_⟩
  exact ⟨rfl, rfl, rfl, rfl, rfl⟩

end PatternCompiler
