import PatternCompiler.Evaluator

/-!
# Runs side by side

Two evaluations that make their objects at different times give values with different identities.
A pairing matches up the identities that play the same part in either run. The comparators cannot
tell paired values apart, and a pairing grows as both runs make new objects. `Simulates` says that
the second of two computations does what the first one does, up to a pairing.
-/

namespace PatternCompiler

set_option autoImplicit false

/-! ## Values -/

namespace Value

/-- The values differ at most in their objects, and `rel` holds between those. -/
inductive Corresponds (rel : Nat → Nat → Prop) : Value → Value → Prop where
  | symbol (name : Name) : Corresponds rel (.symbol name) (.symbol name)
  | int (n : Int64) : Corresponds rel (.int n) (.int n)
  | float (x : Flonum) : Corresponds rel (.float x) (.float x)
  | str {i j : Nat} (s : String) : rel i j → Corresponds rel (.str i s) (.str j s)
  | cons {i j : Nat} {a b as bs : Value} : rel i j → Corresponds rel a b → Corresponds rel as bs →
      Corresponds rel (.cons i a as) (.cons j b bs)

variable {rel rel' : Nat → Nat → Prop} {a a' b b' c : Value}

theorem Corresponds.mono (h : Corresponds rel a b) (hrel : ∀ {i j}, rel i j → rel' i j) :
    Corresponds rel' a b := by
  induction h with
  | symbol name => exact .symbol name
  | int n => exact .int n
  | float x => exact .float x
  | str s h => exact .str s (hrel h)
  | cons h _ _ iha ihb => exact .cons (hrel h) iha ihb

theorem corresponds_refl (hrel : ∀ i, rel i i) (a : Value) : Corresponds rel a a := by
  induction a with
  | symbol name => exact .symbol name
  | int n => exact .int n
  | float x => exact .float x
  | str i s => exact .str s (hrel i)
  | cons i a b iha ihb => exact .cons (hrel i) iha ihb

@[simp] theorem Corresponds.nil : Corresponds rel Value.nil Value.nil := .symbol _

@[simp] theorem Corresponds.ofBool (p : Bool) : Corresponds rel (ofBool p) (ofBool p) := by
  cases p <;> exact .symbol _

theorem Corresponds.isNil_eq (h : Corresponds rel a b) : a.isNil = b.isNil := by
  cases h <;> rfl

theorem Corresponds.isTruthy_eq (h : Corresponds rel a b) : a.isTruthy = b.isTruthy := by
  simp only [isTruthy, h.isNil_eq]

/-- The relation pairs every object with at most one object, in either direction. -/
def OneToOne (rel : Nat → Nat → Prop) : Prop :=
  ∀ {i j i' j' : Nat}, rel i j → rel i' j' → (i = i' ↔ j = j')

theorem Corresponds.isEq_eq (hrel : OneToOne rel) (h : Corresponds rel a a')
    (h' : Corresponds rel b b') : a.isEq b = a'.isEq b' := by
  cases h <;> cases h' <;> simp only [isEq]
  · rename_i hi _ _ _ hj
    simp only [hrel hi hj]
  · rename_i hi _ _ _ _ _ _ _ _ hj _ _
    simp only [hrel hi hj]

theorem Corresponds.isEql_eq (hrel : OneToOne rel) (h : Corresponds rel a a')
    (h' : Corresponds rel b b') : a.isEql b = a'.isEql b' := by
  have heq := h.isEq_eq hrel h'
  cases h <;> cases h' <;> first | rfl | exact heq

theorem Corresponds.isEqual_eq (hrel : OneToOne rel) (h : Corresponds rel a a')
    (h' : Corresponds rel b b') : a.isEqual b = a'.isEqual b' := by
  induction h generalizing b b' with
  | symbol name =>
      have heql := (.symbol name : Corresponds rel _ _).isEql_eq hrel h'
      cases h' <;> exact heql
  | int n =>
      have heql := (.int n : Corresponds rel _ _).isEql_eq hrel h'
      cases h' <;> exact heql
  | float x =>
      have heql := (.float x : Corresponds rel _ _).isEql_eq hrel h'
      cases h' <;> exact heql
  | str s hi =>
      cases h' <;> rfl
  | cons hi ha hb iha ihb =>
      have heql := Corresponds.isEql_eq hrel (.cons hi ha hb) h'
      cases h' with
      | cons _ ha' hb' => simp only [isEqual, iha ha', ihb hb']
      | symbol | int | float | str => exact heql

theorem Corresponds.equiv_eq (hrel : OneToOne rel) (eqv : Equivalence)
    (h : Corresponds rel a a') (h' : Corresponds rel b b') : a.equiv eqv b = a'.equiv eqv b' := by
  cases eqv with
  | identity => exact h.isEq_eq hrel h'
  | numericIdentity => exact h.isEql_eq hrel h'
  | structural => exact h.isEqual_eq hrel h'

/-! ### Content -/

/-- The values differ at most in the identities of their objects. -/
abbrev SameContent : Value → Value → Prop := Corresponds fun _ _ => True

theorem SameContent.refl (a : Value) : SameContent a a := corresponds_refl (fun _ => trivial) a

theorem SameContent.trans (h : SameContent a b) (h' : SameContent b c) : SameContent a c := by
  induction h generalizing c with
  | symbol | int | float => exact h'
  | str s _ => cases h'; exact .str s trivial
  | cons _ _ _ iha ihb =>
      cases h' with
      | cons _ ha hb => exact .cons trivial (iha ha) (ihb hb)

theorem SameContent.symm (h : SameContent a b) : SameContent b a := by
  induction h with
  | symbol | int | float => constructor
  | str s _ => exact .str s trivial
  | cons _ _ _ iha ihb => exact .cons trivial iha ihb

theorem Corresponds.sameContent (h : Corresponds rel a b) : SameContent a b := h.mono fun _ => trivial

theorem isEql_refl (a : Value) : a.isEql a = true := by cases a <;> simp [isEql, isEq]

theorem isEql_comm (a b : Value) : a.isEql b = b.isEql a := by
  cases a <;> cases b <;> simp [isEql, isEq, eq_comm]

theorem SameContent.isEqual (h : SameContent a b) : a.isEqual b = true := by
  induction h with
  | cons _ _ _ iha ihb => simp only [Value.isEqual, iha, ihb, Bool.and_self]
  | symbol | int | float | str => simp [Value.isEqual, isEql, isEq]

theorem SameContent.isEqual_left (h : SameContent a b) (c : Value) : a.isEqual c = b.isEqual c := by
  induction h generalizing c with
  | cons _ _ _ iha ihb =>
      cases c with
      | cons _ c d => simp only [Value.isEqual, iha c, ihb d]
      | symbol | int | float | str => rfl
  | symbol | int | float => rfl
  | str s _ => cases c <;> rfl

end Value

/-! ## Errors -/

/-- The same error, up to the identities in the value it reports. -/
inductive EvalError.SameContent : EvalError → EvalError → Prop where
  | unboundVariable (name : Name) : SameContent (.unboundVariable name) (.unboundVariable name)
  | undefinedFunction (name : Name) :
      SameContent (.undefinedFunction name) (.undefinedFunction name)
  | wrongArity (func : Builtin) (expected got : Nat) :
      SameContent (.wrongArity func expected got) (.wrongArity func expected got)
  | wrongType (func : Builtin) {v v' : Value} : v.SameContent v' →
      SameContent (.wrongType func v) (.wrongType func v')
  | overflow (func : Builtin) : SameContent (.overflow func) (.overflow func)

theorem EvalError.SameContent.refl (e : EvalError) : e.SameContent e := by
  cases e with
  | wrongType func v => exact .wrongType func (.refl v)
  | unboundVariable | undefinedFunction | wrongArity | overflow => constructor

theorem EvalError.SameContent.trans {e e' e'' : EvalError} (h : e.SameContent e')
    (h' : e'.SameContent e'') : e.SameContent e'' := by
  cases h with
  | wrongType func h => cases h' with
    | wrongType _ h' => exact .wrongType func (h.trans h')
  | unboundVariable | undefinedFunction | wrongArity | overflow => exact h'

/-! ## Computations -/

namespace EvalM

variable {α β : Type} {m : EvalM α} {f : α → EvalM β} {s s' : ObjectSupply} {b : β} {e : EvalError}

theorem bind_eq_ok :
    (m >>= f) s = .ok (b, s') ↔ ∃ a s₁, m s = .ok (a, s₁) ∧ f a s₁ = .ok (b, s') := by
  simp only [bind, StateT.bind, Except.bind]
  cases m s with
  | error e => simp
  | ok r => simp only [Except.ok.injEq]; exact ⟨fun h => ⟨r.1, r.2, rfl, h⟩, by rintro ⟨a, s₁, rfl, h⟩; exact h⟩

theorem bind_eq_error :
    (m >>= f) s = .error e ↔
      m s = .error e ∨ ∃ a s₁, m s = .ok (a, s₁) ∧ f a s₁ = .error e := by
  simp only [bind, StateT.bind, Except.bind]
  cases m s with
  | error e => simp
  | ok r => simp only [reduceCtorEq, false_or, Except.ok.injEq]; exact ⟨fun h => ⟨r.1, r.2, rfl, h⟩, by rintro ⟨a, s₁, rfl, h⟩; exact h⟩

theorem bind_of_ok {a : α} {s₁ : ObjectSupply} (h : m s = .ok (a, s₁)) : (m >>= f) s = f a s₁ := by
  simp only [bind, StateT.bind, Except.bind, h]

theorem bind_of_error (h : m s = .error e) : (m >>= f) s = .error e := by
  simp only [bind, StateT.bind, Except.bind, h]

theorem bind_eq_of_eq {m' : EvalM α} (h : m s = m' s') : (m >>= f) s = (m' >>= f) s' := by
  simp only [bind, StateT.bind, h]

theorem allocate_eq_ok {action : StateM ObjectSupply α} {a : α} :
    allocate action s = .ok (a, s') ↔ a = (action s).1 ∧ s' = (action s).2 := by
  simp only [allocate, Except.ok.injEq, Prod.ext_iff, eq_comm]

end EvalM

/-! ## Pairings -/

/-- Two runs and the objects that correspond in them. A frozen pairing belongs to runs that make
no objects they could compare; otherwise every paired object was made before. -/
structure Pairing (frozen : Bool) where
  rel : Nat → Nat → Prop
  left : ObjectSupply
  right : ObjectSupply
  oneToOne : Value.OneToOne rel
  bounded : frozen = false → ∀ {i j : Nat}, rel i j → i < left.next ∧ j < right.next

namespace Pairing

variable {frozen : Bool}

def Relates (w : Pairing frozen) : Value → Value → Prop := Value.Corresponds w.rel

/-- Both runs have gone on; new pairs are of new objects, and a frozen pairing gets none. -/
structure Extends (w w' : Pairing frozen) : Prop where
  rel : ∀ {i j : Nat}, w.rel i j → w'.rel i j
  fresh : ∀ {i j : Nat}, w'.rel i j →
    w.rel i j ∨ frozen = false ∧ w.left.next ≤ i ∧ w.right.next ≤ j
  left : w.left.next ≤ w'.left.next
  right : w.right.next ≤ w'.right.next

variable {w w' w'' : Pairing frozen} {a b : Value}

theorem Extends.refl (w : Pairing frozen) : w.Extends w :=
  ⟨fun h => h, fun h => .inl h, Nat.le_refl _, Nat.le_refl _⟩

theorem Extends.trans (h : w.Extends w') (h' : w'.Extends w'') : w.Extends w'' where
  rel hij := h'.rel (h.rel hij)
  fresh hij := by
    rcases h'.fresh hij with hij | ⟨hf, hi, hj⟩
    · exact h.fresh hij
    · exact .inr ⟨hf, Nat.le_trans h.left hi, Nat.le_trans h.right hj⟩
  left := Nat.le_trans h.left h'.left
  right := Nat.le_trans h.right h'.right

theorem Relates.mono (h : w.Relates a b) (hw : w.Extends w') : w'.Relates a b :=
  Value.Corresponds.mono h hw.rel

/-- The same pairs after either run has gone on by itself. -/
def advance (w : Pairing frozen) (s t : ObjectSupply) (hs : w.left.next ≤ s.next)
    (ht : w.right.next ≤ t.next) : Pairing frozen where
  rel := w.rel
  left := s
  right := t
  oneToOne := w.oneToOne
  bounded hf _ _ hij := by
    obtain ⟨hi, hj⟩ := w.bounded hf hij
    exact ⟨Nat.lt_of_lt_of_le hi hs, Nat.lt_of_lt_of_le hj ht⟩

theorem extends_advance (w : Pairing frozen) {s t : ObjectSupply} (hs : w.left.next ≤ s.next)
    (ht : w.right.next ≤ t.next) : w.Extends (w.advance s t hs ht) :=
  ⟨fun h => h, fun h => .inl h, hs, ht⟩

/-- Both runs make an object, and these two correspond. -/
def allocate (w : Pairing false) : Pairing false where
  rel i j := w.rel i j ∨ i = w.left.next ∧ j = w.right.next
  left := ⟨w.left.next + 1⟩
  right := ⟨w.right.next + 1⟩
  oneToOne := by
    rintro i j i' j' (h | ⟨rfl, rfl⟩) (h' | ⟨rfl, rfl⟩)
    · exact w.oneToOne h h'
    · have := w.bounded rfl h; constructor <;> intro <;> omega
    · have := w.bounded rfl h'; constructor <;> intro <;> omega
    · simp
  bounded _ := by
    rintro i j (h | ⟨rfl, rfl⟩)
    · have := w.bounded rfl h; constructor <;> simp only <;> omega
    · constructor <;> exact Nat.lt_succ_self _

theorem extends_allocate (w : Pairing false) : w.Extends w.allocate where
  rel := .inl
  fresh := by
    rintro i j (h | ⟨rfl, rfl⟩)
    · exact .inl h
    · exact .inr ⟨rfl, Nat.le_refl _, Nat.le_refl _⟩
  left := Nat.le_succ _
  right := Nat.le_succ _

/-- Every object made before both supplies corresponds to itself. -/
def same (frozen : Bool) (s t : ObjectSupply) : Pairing frozen where
  rel i j := i = j ∧ (frozen = false → i < s.next ∧ i < t.next)
  left := s
  right := t
  oneToOne := by rintro i j i' j' ⟨rfl, -⟩ ⟨rfl, -⟩; rfl
  bounded hf := by rintro i j ⟨rfl, h⟩; exact h hf

end Pairing

/-- Every object in the value was made before the supply got to where it is. -/
def Value.MadeBefore (supply : ObjectSupply) : Value → Prop
  | .symbol _ | .int _ | .float _ => True
  | .str i _ => i < supply.next
  | .cons i a b => i < supply.next ∧ a.MadeBefore supply ∧ b.MadeBefore supply

namespace Pairing

variable {frozen : Bool} {w : Pairing frozen} {v v' : Value} {s t : ObjectSupply}

theorem Relates.madeBefore (h : w.Relates v v') (hf : frozen = false) :
    v.MadeBefore w.left ∧ v'.MadeBefore w.right := by
  unfold Relates at h
  induction h with
  | symbol | int | float => exact ⟨trivial, trivial⟩
  | str _ h => exact w.bounded hf h
  | cons h _ _ iha ihb =>
      obtain ⟨hi, hj⟩ := w.bounded hf h
      exact ⟨⟨hi, iha.1, ihb.1⟩, hj, iha.2, ihb.2⟩

theorem same_relates (h : frozen = false → v.MadeBefore s ∧ v.MadeBefore t) :
    (same frozen s t).Relates v v := by
  unfold Relates
  induction v with
  | symbol name => exact .symbol name
  | int n => exact .int n
  | float x => exact .float x
  | str i text => exact .str text ⟨rfl, h⟩
  | cons i a b iha ihb =>
      refine .cons ⟨rfl, fun hf => ⟨(h hf).1.1, (h hf).2.1⟩⟩ (iha ?_) (ihb ?_)
      · exact fun hf => ⟨(h hf).1.2.1, (h hf).2.2.1⟩
      · exact fun hf => ⟨(h hf).1.2.2, (h hf).2.2.2⟩

theorem same_extends {t t' : ObjectSupply} (ht : s.next ≤ t.next) (ht' : s.next ≤ t'.next) :
    (same frozen s s).Extends (same frozen t t') where
  rel hij := ⟨hij.1, fun hf =>
    ⟨Nat.lt_of_lt_of_le (hij.2 hf).1 ht, Nat.lt_of_lt_of_le (hij.2 hf).2 ht'⟩⟩
  fresh := by
    rintro i j ⟨rfl, -⟩
    by_cases hold : frozen = false → i < s.next ∧ i < s.next
    · exact .inl ⟨rfl, hold⟩
    · simp only [and_self, Classical.not_imp, Nat.not_lt] at hold
      exact .inr ⟨hold.1, hold.2, hold.2⟩
  left := ht
  right := ht'

/-- Runs that make nothing leave their pairs as they are. -/
theorem Extends.relates_of_frozen {w w' : Pairing true} (hw : w.Extends w')
    (h : w'.Relates v v') : w.Relates v v' := by
  refine Value.Corresponds.mono h fun hij => ?_
  rcases hw.fresh hij with hij | ⟨hf, -⟩
  · exact hij
  · cases hf

end Pairing

/-! ## Simulation -/

/-- What the first computation gives, the second one gives too, up to a pairing that extends `w`
and with `post` between the results. If `strict`, it also fails when the first one fails. -/
structure Simulates {frozen : Bool} {α β : Type} (strict : Prop) (w : Pairing frozen)
    (post : Pairing frozen → α → β → Prop) (m : EvalM α) (m' : EvalM β) : Prop where
  ok : ∀ {a : α} {s : ObjectSupply}, m w.left = .ok (a, s) →
    ∃ (b : β) (w' : Pairing frozen), m' w.right = .ok (b, w'.right) ∧ s = w'.left ∧
      w.Extends w' ∧ post w' a b
  error : strict → ∀ {e : EvalError}, m w.left = .error e →
    ∃ e', m' w.right = .error e' ∧ e.SameContent e'

namespace Simulates

variable {frozen : Bool} {α β γ δ : Type} {strict : Prop} {w : Pairing frozen}
variable {post : Pairing frozen → α → β → Prop} {post' : Pairing frozen → γ → δ → Prop}

theorem pure {a : α} {b : β} (h : post w a b) :
    Simulates strict w post (Pure.pure a) (Pure.pure b) where
  ok ha := by cases ha; exact ⟨b, w, rfl, rfl, .refl w, h⟩
  error _ _ he := by cases he

theorem throw {e e' : EvalError} (h : e.SameContent e') :
    Simulates strict w post (MonadExcept.throw e) (MonadExcept.throw e') where
  ok ha := by cases ha
  error _ _ he := by cases he; exact ⟨e', rfl, h⟩

/-- What follows may depend on how the two runs got there. -/
theorem bind_of_runs {m : EvalM α} {m' : EvalM β} {f : α → EvalM γ} {f' : β → EvalM δ}
    (h : Simulates strict w post m m')
    (hf : ∀ {w' : Pairing frozen} {a : α} {b : β}, w.Extends w' → post w' a b →
      m w.left = .ok (a, w'.left) → m' w.right = .ok (b, w'.right) →
      Simulates strict w' post' (f a) (f' b)) :
    Simulates strict w post' (m >>= f) (m' >>= f') where
  ok hc := by
    obtain ⟨a, s₁, ha, hc⟩ := EvalM.bind_eq_ok.mp hc
    obtain ⟨b, w', hb, rfl, hw, hab⟩ := h.ok ha
    obtain ⟨d, w'', hd, hs, hw', hcd⟩ := (hf hw hab ha hb).ok hc
    exact ⟨d, w'', (EvalM.bind_of_ok hb).trans hd, hs, hw.trans hw', hcd⟩
  error hs _ he := by
    rcases EvalM.bind_eq_error.mp he with he | ⟨a, s₁, ha, he⟩
    · obtain ⟨e', he', hsame⟩ := h.error hs he
      exact ⟨e', EvalM.bind_of_error he', hsame⟩
    · obtain ⟨b, w', hb, rfl, hw, hab⟩ := h.ok ha
      obtain ⟨e', he', hsame⟩ := (hf hw hab ha hb).error hs he
      exact ⟨e', (EvalM.bind_of_ok hb).trans he', hsame⟩

theorem bind {m : EvalM α} {m' : EvalM β} {f : α → EvalM γ} {f' : β → EvalM δ}
    (h : Simulates strict w post m m')
    (hf : ∀ {w' : Pairing frozen} {a : α} {b : β}, w.Extends w' → post w' a b →
      Simulates strict w' post' (f a) (f' b)) :
    Simulates strict w post' (m >>= f) (m' >>= f') :=
  h.bind_of_runs fun hw hab _ _ => hf hw hab

theorem mono {m : EvalM α} {m' : EvalM β} {strict' : Prop} {post' : Pairing frozen → α → β → Prop}
    (h : Simulates strict w post m m') (hs : strict' → strict)
    (hpost : ∀ {w' : Pairing frozen} {a : α} {b : β}, w.Extends w' → post w' a b → post' w' a b) :
    Simulates strict' w post' m m' where
  ok ha := by
    obtain ⟨b, w', hb, hs, hw, hab⟩ := h.ok ha
    exact ⟨b, w', hb, hs, hw, hpost hw hab⟩
  error hs' _ he := h.error (hs hs') he

/-- The first run may have used up identities by itself. -/
theorem advance_left {m m₁ : EvalM α} {m' : EvalM β} {s : ObjectSupply}
    (hle : w.left.next ≤ s.next) (heq : m w.left = m₁ s)
    (h : Simulates strict (w.advance s w.right hle (Nat.le_refl _)) post m₁ m') :
    Simulates strict w post m m' where
  ok ha := by
    obtain ⟨b, w', hb, hs, hw, hab⟩ := h.ok (heq ▸ ha)
    exact ⟨b, w', hb, hs, (w.extends_advance hle (Nat.le_refl _)).trans hw, hab⟩
  error hs _ he := h.error hs (heq ▸ he)

end Simulates

end PatternCompiler
