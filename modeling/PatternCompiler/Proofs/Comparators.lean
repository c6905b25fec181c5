import PatternCompiler.Proofs.Constants

/-!
# The comparison of literals and the comparators

Literals are compared without making values of them. Constants made of two literals have no object
in common, and a comparator then finds them equal exactly if the comparison of literals does: both
come down to whether the second literal can be found equal to anything at all, and whether it
denotes what the first one stands for.
-/

namespace PatternCompiler

set_option autoImplicit false

namespace Literal

variable {eqv : Equivalence} {a b : Literal}

/-! ## Under a stricter equivalence -/

theorem equivAtom_of_comparable (h : equivAtom .structural a b = true)
    (hb : b.comparable eqv = true) : equivAtom eqv a b = true := by
  unfold equivAtom at h ⊢
  split at h
  · exact h
  · rw [Bool.and_eq_true] at h ⊢
    exact ⟨hb, h.2⟩
  · rw [Bool.and_eq_true] at h ⊢
    exact ⟨hb, h.2⟩
  · cases h

theorem equivOther_of_comparable (h : equivOther .structural a b = true)
    (hb : b.comparable eqv = true) : equivOther eqv a b = true := by
  unfold equivOther at h ⊢
  split at h
  · rename_i hnil
    rw [if_pos hnil]
    exact h
  · rename_i hnil
    rw [if_neg hnil]
    split at h
    · exact h
    · exact equivAtom_of_comparable h hb

/-- Structurally equal literals are equal under every equivalence that can find the second one
equal to something. -/
theorem equiv_of_comparable (h : a.equiv .structural b = true) (hb : b.comparable eqv = true) :
    a.equiv eqv b = true := by
  cases a with
  | list as =>
      cases b with
      | list bs =>
          simp only [equiv] at h ⊢
          split at h
          · rename_i hempty
            rw [if_pos hempty]
            exact h
          · rename_i hempty
            rw [if_neg hempty]
            -- Two lists of which neither is empty compare under structural equality only.
            have hstructural : eqv = .structural := by
              rcases Bool.or_eq_true_iff.mp hb with hbs | heqv
              · exact absurd (Bool.or_eq_true_iff.mpr (.inr hbs)) hempty
              · exact of_decide_eq_true heqv
            rw [hstructural]
            exact h
      | symbol | int | float | char | str => exact equivOther_of_comparable h hb
  | symbol | int | float | char | str => exact equivOther_of_comparable h hb

/-- The comparison of literals, in terms of a value of the first one. -/
theorem equiv_eq_denotes (eqv : Equivalence) (b : Literal) {v : Value} (hv : a.denotes v = true) :
    a.equiv eqv b = (b.comparable eqv && b.denotes v) := by
  rw [Bool.eq_iff_iff, Bool.and_eq_true]
  constructor
  · intro h
    exact ⟨comparable_of_equiv h, by rw [← denotes_of_equiv h v, hv]⟩
  · rintro ⟨hb, hbv⟩
    exact equiv_of_comparable (equiv_of_common hv hbv) hb

/-! ## Constants made apart -/

/-- Constants made one after the other, in either order, are no common object. -/
theorem object?_ofLiteral_ne {s t : ObjectSupply}
    (h : (Value.ofLiteral a s).2.next ≤ t.next ∨ (Value.ofLiteral b t).2.next ≤ s.next) {i : Nat}
    (hb : (Value.ofLiteral b t).1.object? = some i) : (Value.ofLiteral a s).1.object? ≠ some i := by
  intro ha
  have hai := object?_ofLiteral_bounds ha
  have hbi := object?_ofLiteral_bounds hb
  omega

/-- Each comparator finds the values of two literals, made of new objects each, equal exactly if
the literals are equal under its equivalence. -/
theorem equiv_eq_equiv_ofLiteral (a b : Literal) (eqv : Equivalence) {s t : ObjectSupply}
    (h : (Value.ofLiteral a s).2.next ≤ t.next ∨ (Value.ofLiteral b t).2.next ≤ s.next) :
    a.equiv eqv b = (Value.ofLiteral a s).1.equiv eqv (Value.ofLiteral b t).1 := by
  rw [equiv_apart b eqv fun i hi => object?_ofLiteral_ne h hi]
  exact equiv_eq_denotes eqv b (denotes_ofLiteral a s)

/-- A character in a nested list meets its code point, in lists made the second one first. -/
theorem equiv_eq_equiv_ofLiteral_of_code_point :
    (Value.ofLiteral (list [list [char 'b'], str "s"]) ⟨4⟩).1.equiv .structural
        (Value.ofLiteral (list [list [int 98], str "s"]) ⟨0⟩).1 = true ∧
      (Value.ofLiteral (list [list [char 'b'], str "s"]) ⟨4⟩).1.equiv .numericIdentity
        (Value.ofLiteral (list [list [int 98], str "s"]) ⟨0⟩).1 = false := by
  have hmade : (Value.ofLiteral (list [list [int 98], str "s"]) ⟨0⟩).2.next ≤ 4 := by decide
  constructor
  · rw [← equiv_eq_equiv_ofLiteral _ _ .structural (.inr hmade)]
    decide
  · rw [← equiv_eq_equiv_ofLiteral _ _ .numericIdentity (.inr hmade)]
    decide

end Literal

end PatternCompiler
