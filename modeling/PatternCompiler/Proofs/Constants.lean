import Mathlib.Data.List.Forall2
import PatternCompiler.Proofs.Correspondence
import PatternCompiler.Queue.Refine

/-!
# Literals and the values they stand for

Whether a literal denotes a value is a matter of content. A comparator that is at least as general
as the literal needs decides exactly that, whichever objects the constant was made of. What the
comparison of literals says about two literals, it says about the values they denote, so that a
known outcome of a membership test decides others.
-/

namespace PatternCompiler

set_option autoImplicit false

theorem Equivalence.implies_refl (eqv : Equivalence) : eqv.implies eqv = true :=
  decide_eq_true (Nat.le_refl _)

namespace Literal

mutual

/-- The value has the content of the literal. -/
def denotes : Literal → Value → Bool
  | symbol a, .symbol b => a = b
  | int m, .int n => m = n
  | char c, .int n => codePoint c = n
  | float x, .float y => x = y
  | str s, .str _ t => s = t
  | list items, v => listDenotes items v
  | _, _ => false

def listDenotes : List Literal → Value → Bool
  | [], v => v.isNil
  | l :: ls, .cons _ car cdr => denotes l car && listDenotes ls cdr
  | _ :: _, _ => false

end

/-! ## Constants -/

theorem newList_cons_fst (v : Value) (vs : List Value) (supply : ObjectSupply) :
    (Value.newList (v :: vs) supply).1
      = .cons (Value.newList vs supply).2.next v (Value.newList vs supply).1 := rfl

theorem listDenotes_newList {ls : List Literal} {vs : List Value}
    (h : List.Forall₂ (fun l v => l.denotes v = true) ls vs) (supply : ObjectSupply) :
    listDenotes ls (Value.newList vs supply).1 = true := by
  induction h generalizing supply with
  | nil => rfl
  | @cons l v ls vs hv _ ih =>
      rw [newList_cons_fst, listDenotes, hv, ih supply]
      rfl

mutual

theorem denotes_ofLiteral (l : Literal) (supply : ObjectSupply) :
    l.denotes (Value.ofLiteral l supply).1 = true := by
  cases l with
  | symbol | int | float | char | str =>
      rw [Value.ofLiteral]
      exact decide_eq_true rfl
  | list items =>
      rw [Value.ofLiteral]
      exact listDenotes_newList (denotes_ofLiterals items supply) _

theorem denotes_ofLiterals (ls : List Literal) (supply : ObjectSupply) :
    List.Forall₂ (fun l v => l.denotes v = true) ls (Value.ofLiterals ls supply).1 := by
  cases ls with
  | nil => exact .nil
  | cons l ls =>
      rw [Value.ofLiterals]
      exact .cons (denotes_ofLiteral l supply) (denotes_ofLiterals ls _)

end

mutual

/-- A value is equal to what a literal denotes exactly if the literal denotes the value too. -/
theorem isEqual_of_denotes (l : Literal) {c : Value} (h : l.denotes c = true) (v : Value) :
    v.isEqual c = l.denotes v := by
  cases l with
  | list items => simp only [denotes] at h ⊢; exact isEqual_of_listDenotes items h v
  | symbol | int | float | char | str =>
      cases c <;> simp only [denotes, decide_eq_true_eq, Bool.false_eq_true] at h
      subst h
      cases v <;> simp [denotes, Value.isEqual, Value.isEql, Value.isEq, eq_comm]

theorem isEqual_of_listDenotes (ls : List Literal) {c : Value} (h : listDenotes ls c = true)
    (v : Value) : v.isEqual c = listDenotes ls v := by
  cases ls with
  | nil =>
      cases c <;> simp only [listDenotes, Value.isNil, decide_eq_true_eq, Bool.false_eq_true] at h
      subst h
      cases v <;> simp [listDenotes, Value.isNil, Value.isEqual, Value.isEql, Value.isEq]
  | cons l ls =>
      cases c with
      | cons i car cdr =>
          simp only [listDenotes, Bool.and_eq_true] at h
          cases v with
          | cons j a b =>
              simp only [Value.isEqual, listDenotes, isEqual_of_denotes l h.1 a,
                isEqual_of_listDenotes ls h.2 b]
          | symbol | int | float | str => rfl
      | symbol | int | float | str => simp [listDenotes] at h

end

/-- The comparator a literal needs, and any more general one, finds out whether it denotes. -/
theorem equiv_of_denotes {l : Literal} {eqv : Equivalence} (heqv : l.equivalence.implies eqv = true)
    {c : Value} (h : l.denotes c = true) (v : Value) : v.equiv eqv c = l.denotes v := by
  rw [← isEqual_of_denotes l h v]
  cases eqv with
  | structural => rfl
  | identity | numericIdentity =>
      cases l <;> simp only [equivalence, kind, Kind.equivalence, Equivalence.implies,
        Equivalence.rank, Nat.reduceLeDiff, decide_false, Bool.false_eq_true] at heqv
      all_goals
        cases c <;> simp only [denotes, Bool.false_eq_true] at h
        cases v <;> rfl

theorem equiv_ofLiteral {l : Literal} {eqv : Equivalence} (heqv : l.equivalence.implies eqv = true)
    (supply : ObjectSupply) (v : Value) :
    v.equiv eqv (Value.ofLiteral l supply).1 = l.denotes v :=
  equiv_of_denotes heqv (l.denotes_ofLiteral supply) v

theorem denotes_eq_of_sameContent (l : Literal) {v v' : Value} (h : v.SameContent v') :
    l.denotes v = l.denotes v' := by
  rw [← isEqual_of_denotes l (l.denotes_ofLiteral ⟨0⟩) v,
    ← isEqual_of_denotes l (l.denotes_ofLiteral ⟨0⟩) v', h.isEqual_left]

/-! ### Supplies -/

theorem newList_next_le (vs : List Value) (supply : ObjectSupply) :
    supply.next ≤ (Value.newList vs supply).2.next := by
  induction vs with
  | nil => exact Nat.le_refl _
  | cons v vs ih => exact Nat.le_trans ih (Nat.le_succ _)

mutual

theorem ofLiteral_next_le (l : Literal) (supply : ObjectSupply) :
    supply.next ≤ (Value.ofLiteral l supply).2.next := by
  cases l with
  | symbol | int | float | char => exact Nat.le_refl _
  | str s => exact Nat.le_succ _
  | list items => exact Nat.le_trans (ofLiterals_next_le items supply) (newList_next_le _ _)

theorem ofLiterals_next_le (ls : List Literal) (supply : ObjectSupply) :
    supply.next ≤ (Value.ofLiterals ls supply).2.next := by
  cases ls with
  | nil => exact Nat.le_refl _
  | cons l ls => exact Nat.le_trans (ofLiteral_next_le l supply) (ofLiterals_next_le ls _)

end

/-! ## Literals compared with each other -/

theorem denotes_of_isNil {l : Literal} (h : l.isNil = true) (v : Value) :
    l.denotes v = v.isNil := by
  cases l with
  | symbol name =>
      simp only [isNil, decide_eq_true_eq] at h
      subst h
      cases v <;> simp [denotes, Value.isNil, eq_comm]
  | list items =>
      simp only [isNil, List.isEmpty_iff] at h
      subst h
      rfl
  | int | float | char | str => cases h

theorem denotes_of_fixnum? {l : Literal} {n : Int64} (h : l.fixnum? = some n) (v : Value) :
    l.denotes v = (int n).denotes v := by
  cases l <;> cases h <;> cases v <;> rfl

theorem denotes_of_equivAtom {eqv : Equivalence} {m t : Literal}
    (h : equivAtom eqv m t = true) (v : Value) : m.denotes v = t.denotes v := by
  unfold equivAtom at h
  split at h
  · simp only [decide_eq_true_eq] at h; rw [h]
  · simp only [Bool.and_eq_true, decide_eq_true_eq] at h; rw [h.2]
  · simp only [Bool.and_eq_true, decide_eq_true_eq] at h; rw [h.2]
  · cases h

theorem denotes_of_equivOther {eqv : Equivalence} {m t : Literal}
    (h : equivOther eqv m t = true) (v : Value) : m.denotes v = t.denotes v := by
  unfold equivOther at h
  split at h
  · rw [Bool.and_eq_true] at h
    rw [denotes_of_isNil h.1, denotes_of_isNil h.2]
  · split at h
    · rename_i hm ht
      simp only [decide_eq_true_eq] at h
      rw [denotes_of_fixnum? hm, denotes_of_fixnum? ht, h]
    · exact denotes_of_equivAtom h v

mutual

theorem denotes_of_equiv {eqv : Equivalence} {m t : Literal} (h : m.equiv eqv t = true)
    (v : Value) : m.denotes v = t.denotes v := by
  cases m with
  | list as =>
      cases t with
      | list bs =>
          simp only [equiv] at h
          split at h
          · rw [Bool.and_eq_true, List.isEmpty_iff, List.isEmpty_iff] at h
            rw [h.1, h.2]
          · rw [Bool.and_eq_true] at h
            exact listDenotes_of_equivItems h.2 v
      | symbol | int | float | char | str => exact denotes_of_equivOther h v
  | symbol | int | float | char | str => exact denotes_of_equivOther h v

theorem listDenotes_of_equivItems {as bs : List Literal} (h : equivItems as bs = true)
    (v : Value) : listDenotes as v = listDenotes bs v := by
  match as, bs with
  | [], [] => rfl
  | a :: as, b :: bs =>
      simp only [equivItems, Bool.and_eq_true] at h
      cases v with
      | cons i car cdr =>
          simp only [listDenotes, denotes_of_equiv h.1 car, listDenotes_of_equivItems h.2 cdr]
      | symbol | int | float | str => rfl
  | [], _ :: _ => cases h
  | _ :: _, [] => cases h

end

mutual

/-- Literals that denote a common value are structurally equal. -/
theorem equiv_of_common {m t : Literal} {v : Value} (hm : m.denotes v = true)
    (ht : t.denotes v = true) : m.equiv .structural t = true := by
  cases m with
  | list as =>
      cases t with
      | list bs =>
          simp only [denotes] at hm ht
          simp only [equiv]
          split
          · cases as <;> cases bs <;> cases v <;>
              simp_all [listDenotes, Value.isNil]
          · simp [equivItems_of_common hm ht]
      | symbol | int | float | char | str =>
          cases as <;> cases v <;>
            simp_all [denotes, listDenotes, Value.isNil, equiv, equivOther, isNil]
  | symbol | int | float | char | str =>
      cases t with
      | list bs =>
          cases bs <;> cases v <;>
            simp_all [denotes, listDenotes, Value.isNil, equiv, equivOther, isNil]
      | symbol | int | float | char | str =>
          cases v <;> simp_all [denotes, equiv, equivOther, equivAtom, isNil, fixnum?]

theorem equivItems_of_common {as bs : List Literal} {v : Value} (ha : listDenotes as v = true)
    (hb : listDenotes bs v = true) : equivItems as bs = true := by
  match as, bs, v with
  | [], [], _ => rfl
  | a :: as, b :: bs, .cons _ car cdr =>
      simp only [listDenotes, Bool.and_eq_true] at ha hb
      simp only [equivItems, equiv_of_common ha.1 hb.1, equivItems_of_common ha.2 hb.2,
        Bool.and_self]
  | [], b :: bs, .cons .. => cases ha
  | a :: as, [], .cons .. => cases hb
  | [], b :: bs, .symbol _ | [], b :: bs, .int _ | [], b :: bs, .float _
  | [], b :: bs, .str .. => cases hb
  | a :: as, _, .symbol _ | a :: as, _, .int _ | a :: as, _, .float _
  | a :: as, _, .str .. => cases ha

end

end Literal

/-! ## Values compared with literals -/

namespace Value

/-- A supply whose objects are none of the value's. -/
def nextFree : Value → ObjectSupply
  | symbol _ | int _ | float _ => ⟨0⟩
  | str i _ => ⟨i + 1⟩
  | cons i a b => ⟨max (i + 1) (max a.nextFree.next b.nextFree.next)⟩

theorem MadeBefore.mono {v : Value} {s t : ObjectSupply} (h : v.MadeBefore s)
    (hle : s.next ≤ t.next) : v.MadeBefore t := by
  induction v with
  | symbol | int | float => trivial
  | str i text => exact Nat.lt_of_lt_of_le h hle
  | cons i a b iha ihb => exact ⟨Nat.lt_of_lt_of_le h.1 hle, iha h.2.1, ihb h.2.2⟩

theorem madeBefore_nextFree (v : Value) : v.MadeBefore v.nextFree := by
  induction v with
  | symbol | int | float => trivial
  | str i text => exact Nat.lt_succ_self i
  | cons i a b iha ihb =>
      exact ⟨Nat.le_max_left _ _, iha.mono (by simp only [nextFree]; omega),
        ihb.mono (by simp only [nextFree]; omega)⟩

/-- The identity of a string or a cell. -/
def object? : Value → Option Nat
  | str i _ | cons i _ _ => some i
  | symbol _ | int _ | float _ => none

theorem isEql_of_object?_eq_none {c : Value} (hc : c.object? = none) (v : Value) :
    v.isEql c = v.isEqual c := by
  cases c <;> cases hc <;> cases v <;> rfl

theorem isEq_eq_isEql {c : Value} (hc : ∀ x, c ≠ .float x) (v : Value) : v.isEq c = v.isEql c := by
  cases c with
  | float x => exact absurd rfl (hc x)
  | symbol | int | str | cons => cases v <;> rfl

/-- What is another object is not `eql`. -/
theorem isEql_of_object?_ne {v c : Value} {i : Nat} (hc : c.object? = some i)
    (hv : v.object? ≠ some i) : v.isEql c = false := by
  cases c with
  | symbol | int | float => cases hc
  | str | cons =>
      cases hc
      cases v with
      | symbol | int | float => rfl
      | str | cons =>
          have hne := fun hij => hv (congrArg some hij)
          first | rfl | exact decide_eq_false hne

/-- Whatever object a value is, it was made before. -/
theorem MadeBefore.object?_lt {v : Value} {s : ObjectSupply} {i : Nat} (h : v.MadeBefore s)
    (hi : v.object? = some i) : i < s.next := by
  cases v <;> cases hi
  · exact h
  · exact h.1

/-- The comparator finds the value equal to the constant of a literal, made of new objects. -/
def equals (eqv : Equivalence) (v : Value) (l : Literal) : Bool :=
  v.equiv eqv (ofLiteral l v.nextFree).1

end Value

namespace Literal

/-- The comparator finds some value equal to a new constant of the literal. -/
def comparable (eqv : Equivalence) : Literal → Bool
  | symbol _ | int _ | char _ => true
  | float _ => eqv ≠ .identity
  | str _ => eqv = .structural
  | list items => items.isEmpty || eqv = .structural

/-- What the comparator suits is comparable. -/
theorem comparable_of_equivalence {l : Literal} {eqv : Equivalence}
    (h : l.equivalence.implies eqv = true) : l.comparable eqv = true := by
  cases l <;> cases eqv <;>
    simp_all [comparable, equivalence, kind, Kind.equivalence, Equivalence.implies, Equivalence.rank]

theorem implies_structural (l : Literal) : l.equivalence.implies .structural = true := by
  cases l <;> rfl

/-- Constants of such literals have no identity. -/
theorem object?_ofLiteral_eq_none {l : Literal} (hl : l.comparable .numericIdentity = true)
    (s : ObjectSupply) : (Value.ofLiteral l s).1.object? = none := by
  cases l with
  | symbol | int | float | char => rfl
  | str text => cases hl
  | list items => cases items with
    | nil => rfl
    | cons l ls => cases hl

/-- Constants of the other literals are new objects. -/
theorem object?_ofLiteral_eq_some {l : Literal} (hl : l.comparable .numericIdentity = false)
    (s : ObjectSupply) :
    ∃ i, (Value.ofLiteral l s).1.object? = some i ∧
      s.next ≤ i ∧ i < (Value.ofLiteral l s).2.next := by
  cases l with
  | symbol | int | float | char => cases hl
  | str text => exact ⟨s.next, rfl, Nat.le_refl _, Nat.lt_succ_self _⟩
  | list items => cases items with
    | nil => cases hl
    | cons l ls =>
        refine ⟨_, congrArg Value.object? (newList_cons_fst _ _ _), ?_, Nat.lt_succ_self _⟩
        exact Nat.le_trans (ofLiterals_next_le (l :: ls) s) (newList_next_le _ _)

/-- If a constant is an object, it is one made for it. -/
theorem object?_ofLiteral_bounds {l : Literal} {s : ObjectSupply} {i : Nat}
    (hi : (Value.ofLiteral l s).1.object? = some i) :
    s.next ≤ i ∧ i < (Value.ofLiteral l s).2.next := by
  cases hl : l.comparable .numericIdentity with
  | true => rw [object?_ofLiteral_eq_none hl s] at hi; cases hi
  | false =>
      obtain ⟨j, hobject, hj⟩ := object?_ofLiteral_eq_some hl s
      cases hobject.symm.trans hi
      exact hj

theorem comparable_identity {l : Literal} (hl : ∀ x, l ≠ float x) :
    l.comparable .identity = l.comparable .numericIdentity := by
  cases l with
  | float x => exact absurd rfl (hl x)
  | symbol | int | char | str | list => rfl

theorem ofLiteral_ne_float {l : Literal} (hl : ∀ x, l ≠ float x) (s : ObjectSupply) (x : Flonum) :
    (Value.ofLiteral l s).1 ≠ .float x := by
  intro heq
  have hdenotes := l.denotes_ofLiteral s
  rw [heq] at hdenotes
  cases l with
  | float x => exact hl x rfl
  | symbol | int | char | str => cases hdenotes
  | list items => cases items <;> cases hdenotes

section

variable (l : Literal) {v : Value} {s : ObjectSupply}

theorem isEql_apart (hv : ∀ i, (Value.ofLiteral l s).1.object? = some i → v.object? ≠ some i) :
    v.isEql (Value.ofLiteral l s).1 = (l.comparable .numericIdentity && l.denotes v) := by
  cases hl : l.comparable .numericIdentity with
  | true =>
      rw [Value.isEql_of_object?_eq_none (object?_ofLiteral_eq_none hl s),
        isEqual_of_denotes l (l.denotes_ofLiteral s), Bool.true_and]
  | false =>
      obtain ⟨i, hobject, -⟩ := object?_ofLiteral_eq_some hl s
      exact Value.isEql_of_object?_ne hobject (hv i hobject)

/-- A comparator finds another object equal to a constant exactly if it can and the contents
agree. -/
theorem equiv_apart (eqv : Equivalence)
    (hv : ∀ i, (Value.ofLiteral l s).1.object? = some i → v.object? ≠ some i) :
    v.equiv eqv (Value.ofLiteral l s).1 = (l.comparable eqv && l.denotes v) := by
  cases eqv with
  | structural =>
      rw [comparable_of_equivalence (implies_structural l), Bool.true_and]
      exact isEqual_of_denotes l (l.denotes_ofLiteral s) v
  | numericIdentity => exact isEql_apart l hv
  | identity =>
      by_cases hfloat : ∃ x, l = float x
      · obtain ⟨x, rfl⟩ := hfloat
        cases v <;> rfl
      · rw [not_exists] at hfloat
        rw [comparable_identity hfloat, ← isEql_apart l hv]
        exact Value.isEq_eq_isEql (ofLiteral_ne_float hfloat s) v

theorem equiv_new (eqv : Equivalence) (hv : v.MadeBefore s) :
    v.equiv eqv (Value.ofLiteral l s).1 = (l.comparable eqv && l.denotes v) := by
  refine equiv_apart l eqv fun i hi hvi => ?_
  have hnew := (object?_ofLiteral_bounds hi).1
  have hold := hv.object?_lt hvi
  omega

end

theorem equals_eq (l : Literal) (eqv : Equivalence) (v : Value) :
    v.equals eqv l = (l.comparable eqv && l.denotes v) :=
  equiv_new l eqv v.madeBefore_nextFree

/-- Constants made one after another are equal to a value that is none of them if the comparator
can find that out and the contents agree. -/
theorem equiv_ofLiterals_apart (set : List Literal) (eqv : Equivalence) {v : Value}
    {s : ObjectSupply}
    (hv : ∀ {i}, s.next ≤ i ∧ i < (Value.ofLiterals set s).2.next → v.object? ≠ some i) :
    List.Forall₂ (fun l c => v.equiv eqv c = v.equals eqv l) set (Value.ofLiterals set s).1 := by
  induction set generalizing s with
  | nil => exact .nil
  | cons l set ih =>
      have hfirst := l.ofLiteral_next_le s
      have hrest := ofLiterals_next_le set (Value.ofLiteral l s).2
      refine .cons ?_ (ih fun hi => hv ⟨Nat.le_trans hfirst hi.1, hi.2⟩)
      rw [equals_eq]
      refine equiv_apart l eqv fun i hi => hv ?_
      obtain ⟨hlo, hhi⟩ := object?_ofLiteral_bounds hi
      exact ⟨hlo, Nat.lt_of_lt_of_le hhi hrest⟩

theorem equals_eq_of_sameContent {v v' : Value} (h : v.SameContent v') (eqv : Equivalence) :
    v.equals eqv = v'.equals eqv := by
  funext l
  rw [equals_eq, equals_eq, l.denotes_eq_of_sameContent h]

end Literal

namespace Literal

theorem comparable_of_equivAtom {eqv : Equivalence} {m t : Literal}
    (h : equivAtom eqv m t = true) : t.comparable eqv = true := by
  unfold equivAtom at h
  split at h
  · rfl
  · rw [Bool.and_eq_true] at h; exact h.1
  · rw [Bool.and_eq_true] at h; exact h.1
  · cases h

theorem comparable_of_equivOther {eqv : Equivalence} {m t : Literal}
    (h : equivOther eqv m t = true) : t.comparable eqv = true := by
  unfold equivOther at h
  split at h
  · rw [Bool.and_eq_true] at h
    cases t with
    | symbol => rfl
    | list items => exact Bool.or_eq_true_iff.mpr (.inl h.2)
    | int | float | char | str => cases h.2
  · split at h
    · rename_i ht
      cases t <;> first | rfl | cases ht
    · exact comparable_of_equivAtom h

/-- What a comparator of literals finds equal to something, it can find equal to values. -/
theorem comparable_of_equiv {eqv : Equivalence} {m t : Literal} (h : m.equiv eqv t = true) :
    t.comparable eqv = true := by
  unfold equiv at h
  split at h
  · split at h
    · rw [Bool.and_eq_true] at h
      exact Bool.or_eq_true_iff.mpr (.inl h.2)
    · rw [Bool.and_eq_true] at h
      exact Bool.or_eq_true_iff.mpr (.inr h.1)
  · exact comparable_of_equivOther h

end Literal

/-- What is known about a value's membership decides the membership asked for. -/
theorem setOutcome_sound {known asked : List Literal} {eqv askedEqv : Equivalence}
    {holds b : Bool} (h : setOutcome known eqv holds asked askedEqv = some b) {v : Value}
    (hv : known.any (v.equals eqv) = holds) : asked.any (v.equals askedEqv) = b := by
  unfold setOutcome at h
  cases holds with
  | true =>
      obtain ⟨m, hm, hmv⟩ := List.any_eq_true.mp hv
      rw [Literal.equals_eq, Bool.and_eq_true] at hmv
      simp only [if_true] at h
      split at h
      · rename_i hdisjoint
        cases h
        rw [List.any_eq_false]
        intro t ht htv
        rw [Literal.equals_eq, Bool.and_eq_true] at htv
        have hne := List.all_eq_true.mp (List.all_eq_true.mp hdisjoint m hm) t ht
        simp [Literal.equiv_of_common hmv.2 htv.2] at hne
      · split at h
        · rename_i hcovered
          cases h
          rw [Bool.and_eq_true, List.all_eq_true] at hcovered
          obtain ⟨t, ht, hmt⟩ := List.any_eq_true.mp (hcovered.2 m hm)
          refine List.any_eq_true.mpr ⟨t, ht, ?_⟩
          rw [Literal.equals_eq, Literal.comparable_of_equiv hmt, ← Literal.denotes_of_equiv hmt v,
            hmv.2, Bool.and_self]
        · cases h
  | false =>
      simp only [Bool.false_eq_true, if_false] at h
      split at h
      · rename_i hexcluded
        cases h
        rw [Bool.and_eq_true, List.all_eq_true] at hexcluded
        rw [List.any_eq_false] at hv ⊢
        intro t ht htv
        rw [Literal.equals_eq, Bool.and_eq_true] at htv
        obtain ⟨m, hm, htm⟩ := List.any_eq_true.mp (hexcluded.2 t ht)
        refine hv m hm ?_
        rw [Literal.equals_eq, Literal.comparable_of_equiv htm, ← Literal.denotes_of_equiv htm v,
          htv.2, Bool.and_self]
      · cases h

end PatternCompiler
