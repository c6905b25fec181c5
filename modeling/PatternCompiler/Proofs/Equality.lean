import Mathlib.Data.List.Forall2
import PatternCompiler.Proofs.Correspondence

/-!
# Equality of values

A value is known again by its name, its number, its bits or the number of its object. The middle
comparator compares just that, the strictest one does so for everything but flonums, and the most
general one compares content. In a heap every object has one content, so that what one comparator
finds equal is equal under the more general ones, and values are equal in content if they are trees
of cells with the same shape and with leaves that cannot be told apart.
-/

namespace PatternCompiler

set_option autoImplicit false

namespace Value

variable {a b c : Value}

/-! ## Identities -/

/-- What a value is known again by. -/
inductive Identity where
  | symbol (name : Name)
  | int (n : Int64)
  | float (x : Flonum)
  | text (object : Nat)
  | cell (object : Nat)

def identity : Value → Identity
  | symbol name => .symbol name
  | int n => .int n
  | float x => .float x
  | str object _ => .text object
  | cons object _ _ => .cell object

theorem isEql_iff : a.isEql b = true ↔ a.identity = b.identity := by
  cases a <;> cases b <;> simp [isEql, isEq, identity]

theorem isEq_iff : a.isEq b = true ↔ a.identity = b.identity ∧ ∀ x, a ≠ float x := by
  cases a <;> cases b <;> simp [isEq, identity]

theorem isEq_symm (h : a.isEq b = true) : b.isEq a = true := by
  obtain ⟨hidentity, ha⟩ := isEq_iff.mp h
  refine isEq_iff.mpr ⟨hidentity.symm, ?_⟩
  rintro x rfl
  cases a <;> cases hidentity
  exact ha x rfl

theorem isEq_trans (h : a.isEq b = true) (h' : b.isEq c = true) : a.isEq c = true := by
  obtain ⟨hidentity, ha⟩ := isEq_iff.mp h
  exact isEq_iff.mpr ⟨hidentity.trans (isEq_iff.mp h').1, ha⟩

theorem isEq_self_iff : a.isEq a = true ↔ ∀ x, a ≠ float x :=
  isEq_iff.trans (and_iff_right rfl)

/-! ## Content -/

theorem isEqual_iff_sameContent : a.isEqual b = true ↔ SameContent a b := by
  refine ⟨fun h => ?_, SameContent.isEqual⟩
  induction a generalizing b with
  | symbol name =>
      cases b with
      | symbol name' =>
          obtain rfl : name = name' := of_decide_eq_true h
          exact .symbol name
      | int | float | str | cons => cases h
  | int n =>
      cases b with
      | int n' =>
          obtain rfl : n = n' := of_decide_eq_true h
          exact .int n
      | symbol | float | str | cons => cases h
  | float x =>
      cases b with
      | float x' =>
          obtain rfl : x = x' := of_decide_eq_true h
          exact .float x
      | symbol | int | str | cons => cases h
  | str i s =>
      cases b with
      | str j s' =>
          obtain rfl : s = s' := of_decide_eq_true h
          exact .str s trivial
      | symbol | int | float | cons => cases h
  | cons i car cdr ihcar ihcdr =>
      cases b with
      | cons j car' cdr' =>
          obtain ⟨hcar, hcdr⟩ := Bool.and_eq_true_iff.mp h
          exact .cons trivial (ihcar hcar) (ihcdr hcdr)
      | symbol | int | float | str => cases h

/-! ## Trees of cells -/

/-- What is left of a value if nothing but its cells counts. -/
inductive Shape where
  | leaf
  | cell (car cdr : Shape)

def shape : Value → Shape
  | cons _ car cdr => .cell car.shape cdr.shape
  | _ => .leaf

/-- What the cells of a value lead to, from left to right. -/
def leaves : Value → List Value
  | cons _ car cdr => car.leaves ++ cdr.leaves
  | v => [v]

/-- The same atom, or two strings with the same text. -/
def SameLeaf (a b : Value) : Prop := a.isEql b = true ∨ ∃ i j s, a = str i s ∧ b = str j s

theorem length_leaves_eq (h : a.shape = b.shape) : a.leaves.length = b.leaves.length := by
  induction a generalizing b with
  | cons i car cdr ihcar ihcdr =>
      cases b with
      | cons j car' cdr' =>
          obtain ⟨hcar, hcdr⟩ := Shape.cell.inj h
          rw [leaves, leaves, List.length_append, List.length_append, ihcar hcar, ihcdr hcdr]
      | symbol | int | float | str => cases h
  | symbol | int | float | str =>
      cases b with
      | cons => cases h
      | symbol | int | float | str => rfl

theorem SameContent.shape_eq (h : SameContent a b) : a.shape = b.shape := by
  induction h with
  | cons _ _ _ ihcar ihcdr => rw [shape, shape, ihcar, ihcdr]
  | symbol | int | float | str => rfl

theorem SameContent.sameLeaves (h : SameContent a b) :
    List.Forall₂ SameLeaf a.leaves b.leaves := by
  induction h with
  | cons _ _ _ ihcar ihcdr => exact List.rel_append ihcar ihcdr
  | str s _ => exact .cons (.inr ⟨_, _, s, rfl, rfl⟩) .nil
  | symbol | int | float => exact .cons (.inl (isEql_refl _)) .nil

/-! ## Heaps -/

/-- What an object is made of. -/
inductive Object where
  | text (s : String)
  | halves (car cdr : Value)

/-- Every object in the value is made of what the heap says. -/
def LivesIn (heap : Nat → Object) : Value → Prop
  | str object s => heap object = .text s
  | cons object car cdr => heap object = .halves car cdr ∧ car.LivesIn heap ∧ cdr.LivesIn heap
  | _ => True

variable {heap : Nat → Object}

/-- In a heap an identity belongs to one value only. -/
theorem LivesIn.eq_of_identity (ha : a.LivesIn heap) (hb : b.LivesIn heap)
    (h : a.identity = b.identity) : a = b := by
  cases a <;> cases b <;> cases h
  case str.str.refl i s t =>
    obtain rfl : s = t := Object.text.inj (ha.symm.trans hb)
    rfl
  case cons.cons.refl i car cdr car' cdr' =>
    obtain ⟨rfl, rfl⟩ := Object.halves.inj (ha.1.symm.trans hb.1)
    rfl
  all_goals rfl

theorem LivesIn.isEqual_of_isEql (ha : a.LivesIn heap) (hb : b.LivesIn heap)
    (h : a.isEql b = true) : a.isEqual b = true := by
  rw [ha.eq_of_identity hb (isEql_iff.mp h)]
  exact (SameContent.refl b).isEqual

theorem LivesIn.sameContent_of_sameLeaf (ha : a.LivesIn heap) (hb : b.LivesIn heap)
    (h : SameLeaf a b) : SameContent a b := by
  rcases h with h | ⟨i, j, s, rfl, rfl⟩
  · exact isEqual_iff_sameContent.mp (ha.isEqual_of_isEql hb h)
  · exact .str s trivial

theorem LivesIn.sameContent_of_leaves (ha : a.LivesIn heap) (hb : b.LivesIn heap)
    (hshape : a.shape = b.shape) (hleaves : List.Forall₂ SameLeaf a.leaves b.leaves) :
    SameContent a b := by
  induction a generalizing b with
  | cons i car cdr ihcar ihcdr =>
      cases b with
      | cons j car' cdr' =>
          obtain ⟨hcar, hcdr⟩ := Shape.cell.inj hshape
          have hlength := length_leaves_eq hcar
          -- The shapes of the halves say where the leaves of the first one end.
          have hfirst := List.forall₂_take_append _ _ _ hleaves
          have hlast := List.forall₂_drop_append _ _ _ hleaves
          rw [← hlength, leaves, List.take_left] at hfirst
          rw [← hlength, leaves, List.drop_left] at hlast
          exact .cons trivial (ihcar ha.2.1 hb.2.1 hcar hfirst) (ihcdr ha.2.2 hb.2.2 hcdr hlast)
      | symbol | int | float | str => cases hshape
  | symbol | int | float | str =>
      cases b with
      | cons => cases hshape
      | symbol | int | float | str =>
          exact ha.sameContent_of_sameLeaf hb (List.forall₂_cons.mp hleaves).1

theorem LivesIn.isEqual_iff (ha : a.LivesIn heap) (hb : b.LivesIn heap) :
    a.isEqual b = true ↔ a.shape = b.shape ∧ List.Forall₂ SameLeaf a.leaves b.leaves := by
  rw [isEqual_iff_sameContent]
  exact ⟨fun h => ⟨h.shape_eq, h.sameLeaves⟩, fun h => ha.sameContent_of_leaves hb h.1 h.2⟩

/-! ## The chain -/

theorem isEql_of_isEq (h : a.isEq b = true) : a.isEql b = true := isEql_iff.mpr (isEq_iff.mp h).1

theorem LivesIn.equiv_mono (ha : a.LivesIn heap) (hb : b.LivesIn heap) {e e' : Equivalence}
    (he : e.implies e' = true) (h : a.equiv e b = true) : a.equiv e' b = true := by
  cases e with
  | identity =>
      have heql := isEql_of_isEq h
      cases e' with
      | identity => exact h
      | numericIdentity => exact heql
      | structural => exact ha.isEqual_of_isEql hb heql
  | numericIdentity =>
      cases e' with
      | identity => cases he
      | numericIdentity => exact h
      | structural => exact ha.isEqual_of_isEql hb h
  | structural =>
      cases e' with
      | identity | numericIdentity => cases he
      | structural => exact h

/-- In a heap each comparator implies the more general ones, and the most general one compares
shapes and leaves. The general two are equivalences on all values, and the strictest one is so on
all values but flonums. -/
theorem comparators_form_chain :
    (∀ (heap : Nat → Object) (a b : Value), a.LivesIn heap → b.LivesIn heap →
      (a.isEq b = true → a.isEql b = true) ∧ (a.isEql b = true → a.isEqual b = true) ∧
      (∀ e e' : Equivalence, a.equiv e b = true → e.implies e' = true → a.equiv e' b = true) ∧
      (a.isEqual b = true ↔ a.shape = b.shape ∧ List.Forall₂ SameLeaf a.leaves b.leaves)) ∧
    ((∀ a : Value, a.isEql a = true) ∧ (∀ a b : Value, a.isEql b = true → b.isEql a = true) ∧
      ∀ a b c : Value, a.isEql b = true → b.isEql c = true → a.isEql c = true) ∧
    ((∀ a : Value, a.isEqual a = true) ∧ (∀ a b : Value, a.isEqual b = true → b.isEqual a = true) ∧
      ∀ a b c : Value, a.isEqual b = true → b.isEqual c = true → a.isEqual c = true) ∧
    (∀ a b : Value, a.isEq b = true → b.isEq a = true) ∧
    (∀ a b c : Value, a.isEq b = true → b.isEq c = true → a.isEq c = true) ∧
    ∀ a : Value, a.isEq a = true ↔ ∀ x, a ≠ float x := by
  refine ⟨fun heap a b ha hb => ?_, ⟨isEql_refl, fun a b h => ?_, fun a b c h h' => ?_⟩,
    ⟨fun a => ?_, fun a b h => ?_, fun a b c h h' => ?_⟩, fun _ _ => isEq_symm,
    fun _ _ _ => isEq_trans, fun _ => isEq_self_iff⟩
  · exact ⟨isEql_of_isEq, ha.isEqual_of_isEql hb, fun _ _ h he => ha.equiv_mono hb he h,
      ha.isEqual_iff hb⟩
  · rw [isEql_comm]
    exact h
  · exact isEql_iff.mpr ((isEql_iff.mp h).trans (isEql_iff.mp h'))
  · exact (SameContent.refl a).isEqual
  · exact (isEqual_iff_sameContent.mp h).symm.isEqual
  · exact ((isEqual_iff_sameContent.mp h).trans (isEqual_iff_sameContent.mp h')).isEqual

/-- Two cells made one after the other, each with a string of its own and with a flonum that is not
a number: they are different objects of equal content. -/
theorem comparators_form_chain_of_copies :
    let nan : Value := float ⟨0x7ff8000000000000⟩
    let heap : Nat → Object := fun
      | 0 | 1 => .text "a"
      | 2 => .halves (str 0 "a") nan
      | _ => .halves (str 1 "a") nan
    let first := cons 2 (str 0 "a") nan
    let second := cons 3 (str 1 "a") nan
    first.LivesIn heap ∧ second.LivesIn heap ∧ first.isEql second = false ∧
      first.isEqual second = true ∧ second.isEqual first = true ∧
      first.equiv .structural first = true := by
  intro nan heap first second
  have hfirst : first.LivesIn heap := ⟨rfl, rfl, trivial⟩
  have hsecond : second.LivesIn heap := ⟨rfl, rfl, trivial⟩
  obtain ⟨hchain, -, ⟨-, hsymm, -⟩, -⟩ := comparators_form_chain
  obtain ⟨-, -, -, hcontent⟩ := hchain heap first second hfirst hsecond
  obtain ⟨-, -, hmore, -⟩ := hchain heap first first hfirst hfirst
  have hleaves : List.Forall₂ SameLeaf first.leaves second.leaves :=
    .cons (.inr ⟨0, 1, "a", rfl, rfl⟩) (.cons (.inl rfl) .nil)
  have hequal := hcontent.mpr ⟨rfl, hleaves⟩
  exact ⟨hfirst, hsecond, rfl, hequal, hsymm _ _ hequal, hmore .identity .structural rfl rfl⟩

end Value

end PatternCompiler
