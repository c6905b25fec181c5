import PatternCompiler.Proofs.Naming

/-!
# Numbering strings

A symbol table answers requests for names one after another. Whatever it was asked for before, its
strings are those it was asked to hold, numbered in the order in which they first came up, and its
index is the inverse of that numbering. A made-up name can be read back, provided that its stem does
not end in a digit: then the digits at its end are its number.
-/

namespace PatternCompiler

set_option autoImplicit false

/-! ## Stems and numbers -/

def EndsInDigit (s : String) : Prop := ∃ c, s.toList.getLast? = some c ∧ c.isDigit = true

theorem takeWhile_isDigit_reverse {s : String} (h : ¬ EndsInDigit s) :
    s.toList.reverse.takeWhile Char.isDigit = [] := by
  cases hs : s.toList.reverse with
  | nil => rfl
  | cons c cs =>
      have hlast : s.toList.getLast? = some c := by rw [← List.head?_reverse, hs]; rfl
      have hc : ¬ c.isDigit = true := fun hc => h ⟨c, hlast, hc⟩
      exact List.takeWhile_cons_of_neg hc

theorem isDigit_of_mem_toString {n : Nat} {c : Char} (h : c ∈ (toString n).toList) :
    c.isDigit = true := by
  rw [Nat.toString_eq_repr, Nat.toList_repr] at h
  exact Nat.isDigit_of_mem_toDigits (by decide) (by decide) h

/-- From the end on, the number is all there is before the first character that is no digit. -/
theorem takeWhile_isDigit_numbered {stem : String} (h : ¬ EndsInDigit stem) (n : Nat) :
    (stem ++ toString n).toList.reverse.takeWhile Char.isDigit = (toString n).toList.reverse := by
  have hdigits : ∀ c ∈ (toString n).toList.reverse, c.isDigit = true := fun c hc =>
    isDigit_of_mem_toString (List.mem_reverse.mp hc)
  rw [String.toList_append, List.reverse_append, List.takeWhile_append_of_pos hdigits,
    takeWhile_isDigit_reverse h, List.append_nil]

theorem numbered_inj {stem stem' : String} (h : ¬ EndsInDigit stem) (h' : ¬ EndsInDigit stem')
    {m n : Nat} (heq : stem ++ toString m = stem' ++ toString n) : stem = stem' ∧ m = n := by
  have hdigits : (toString m).toList.reverse = (toString n).toList.reverse := by
    rw [← takeWhile_isDigit_numbered h, heq, takeWhile_isDigit_numbered h']
  have hnumber : toString m = toString n :=
    String.toList_injective (List.reverse_injective hdigits)
  rw [hnumber] at heq
  have hlists := congrArg String.toList heq
  rw [String.toList_append, String.toList_append] at hlists
  exact ⟨String.toList_injective (List.append_cancel_right hlists), Nat.repr_injective hnumber⟩

namespace SymbolTable

/-- Made-up names are read back, number and stem. -/
theorem generatedString_eq_iff {stem stem' : String} (h : ¬ EndsInDigit stem)
    (h' : ¬ EndsInDigit stem') {m n : Nat} :
    generatedString stem m = generatedString stem' n ↔ stem = stem' ∧ m = n := by
  constructor
  · intro heq
    have hlists := congrArg String.toList heq
    simp only [generatedString, String.toList_append, List.append_assoc,
      List.append_cancel_left_eq] at hlists
    rw [← String.toList_append, ← String.toList_append] at hlists
    exact numbered_inj h h' (String.toList_injective hlists)
  · rintro ⟨rfl, rfl⟩
    rfl

/-- A stem that ends in a digit takes over digits of the number. -/
example : generatedString "x" 11 = generatedString "x1" 1 := by rfl

/-! ## Requests -/

/-- What a table can be asked for. -/
inductive Request where
  | intern (s : String)
  | get (s : String)
  | generated (stem : String) (number : Nat)

/-- The string that the table holds after the request, unless it is only looked up. -/
def Request.interned? : Request → Option String
  | .intern s => some s
  | .get _ => none
  | .generated stem number => some (generatedString stem number)

/-- The name that the request is answered with, and the table after it. -/
def answer (table : SymbolTable) : Request → Option Name × SymbolTable
  | .intern s => (some (table.intern s).1, (table.intern s).2)
  | .get s => (table.get? s, table)
  | .generated stem number => (some (table.generated stem number).1, (table.generated stem number).2)

/-- The table after requests that were made one after another. -/
def after (table : SymbolTable) (requests : List Request) : SymbolTable :=
  requests.foldl (fun table request => (table.answer request).2) table

variable {table : SymbolTable}

theorem after_eq_internAll (table : SymbolTable) (requests : List Request) :
    table.after requests = (table.internAll (requests.filterMap Request.interned?)).2 := by
  induction requests generalizing table with
  | nil => rfl
  | cons request requests ih =>
      refine (ih (table.answer request).2).trans ?_
      cases request with
      | intern s => rfl
      | get s => rfl
      | generated stem number => rfl

theorem Coherent.after (h : table.Coherent) (requests : List Request) :
    (table.after requests).Coherent := by
  rw [after_eq_internAll]
  exact (h.internAll _).1

theorem Coherent.extends_after (h : table.Coherent) (requests : List Request) :
    table.Extends (table.after requests) := by
  rw [after_eq_internAll]
  exact (h.internAll _).2.1

/-! ## The order of strings -/

theorem Coherent.get?_eq_some_iff (h : table.Coherent) {s : String} {x : Name} :
    table.get? s = some x ↔ table.lookup? x = some s := by
  rw [lookup?, ← h s x.id, get?, Option.map_eq_some_iff]
  constructor
  · rintro ⟨i, hi, rfl⟩
    exact hi
  · intro hi
    exact ⟨x.id, hi, rfl⟩

theorem Coherent.get?_eq_none_iff (h : table.Coherent) {s : String} :
    table.get? s = none ↔ s ∉ table.strings.toList := by
  rw [mem_strings_iff, Option.eq_none_iff_forall_ne_some, not_exists]
  exact forall_congr' fun x => not_congr h.get?_eq_some_iff

/-- A string comes behind all others when it is interned for the first time, and never again. -/
theorem Coherent.strings_intern (h : table.Coherent) {asked : List String}
    (hasked : table.strings.toList = asked.eraseDups) (s : String) :
    (table.intern s).2.strings.toList = (asked ++ [s]).eraseDups := by
  rw [List.eraseDups_append, ← hasked, SymbolTable.intern]
  have hmem : s ∈ table.strings.toList ↔ s ∈ asked := by rw [hasked, List.mem_eraseDups]
  cases hget : table.get? s with
  | some x =>
      have hold : s ∈ asked := hmem.mp (mem_strings_iff.mpr ⟨x, h.get?_eq_some_iff.mp hget⟩)
      simp [List.removeAll, hold]
  | none =>
      have hnew : s ∉ asked := fun hs => h.get?_eq_none_iff.mp hget (hmem.mpr hs)
      simp [List.removeAll, hnew, SymbolTable.push, List.eraseDups_cons]

theorem Coherent.strings_internAll (h : table.Coherent) {asked : List String}
    (hasked : table.strings.toList = asked.eraseDups) (ss : List String) :
    (table.internAll ss).2.strings.toList = (asked ++ ss).eraseDups := by
  induction ss generalizing table asked with
  | nil =>
      rw [List.append_nil]
      exact hasked
  | cons s ss ih =>
      have hrest := ih (h.intern s) (h.strings_intern hasked s)
      rw [List.append_assoc] at hrest
      exact hrest

theorem strings_initial : initial.strings.toList = reserved := by
  have hnone : (⟨#[], ∅⟩ : SymbolTable).strings.toList = ([] : List String).eraseDups := rfl
  exact empty_coherent.strings_internAll hnone reserved

/-! ## Tables that were asked -/

/-- The table numbers the strings it was asked to hold, in the order in which they came up. -/
structure Numbers (table : SymbolTable) (asked : List String) : Prop where
  /-- The index is the inverse of the numbering. -/
  inverse : ∀ (s : String) (i : Nat), table.index[s]? = some i ↔ table.strings[i]? = some s
  order : table.strings.toList = asked.eraseDups
  /-- The numbers in use are those below the number of strings. -/
  used : ∀ x : Name, (∃ s, table.get? s = some x) ↔ x.id < table.size
  found : ∀ s, table.get? s ≠ none ↔ s ∈ asked
  named : ∀ s x, table.get? s = some x ↔ table.lookup? x = some s
  lookup_intern : ∀ s, (table.intern s).2.lookup (table.intern s).1 = s
  /-- Strings have the same name if they are the same, whatever is asked in between. -/
  intern_eq_iff : ∀ s t later,
    (((table.intern s).2.after later).intern t).1 = (table.intern s).1 ↔ s = t
  generated_eq_iff : ∀ stem stem', ¬ EndsInDigit stem → ¬ EndsInDigit stem' → ∀ m n later,
    (((table.generated stem m).2.after later).generated stem' n).1 = (table.generated stem m).1 ↔
      stem = stem' ∧ m = n
  /-- No request changes what is known about a name. -/
  kept : ∀ (request : Request) x s, table.lookup? x = some s →
    (table.answer request).2.lookup? x = some s ∧ (table.answer request).2.get? s = some x

theorem exists_lookup?_iff {x : Name} : (∃ s, table.lookup? x = some s) ↔ x.id < table.size := by
  rw [← Option.isSome_iff_exists, lookup?]
  simp [size]

theorem Coherent.intern_eq_iff (h : table.Coherent) (s t : String) (later : List Request) :
    (((table.intern s).2.after later).intern t).1 = (table.intern s).1 ↔ s = t := by
  have hthen := (h.intern s).after later
  have hs : ((table.intern s).2.after later).lookup? (table.intern s).1 = some s :=
    (h.intern s).extends_after later _ _ (h.lookup?_intern s)
  constructor
  · intro heq
    have ht := hthen.lookup?_intern t
    rw [heq, extends_intern _ t _ s hs] at ht
    exact Option.some.inj ht
  · rintro rfl
    exact (hthen.intern s).eq_of_lookup? (hthen.lookup?_intern s) (extends_intern _ s _ s hs)

theorem Coherent.numbers (h : table.Coherent) {asked : List String}
    (hasked : table.strings.toList = asked.eraseDups) : table.Numbers asked where
  inverse := h
  order := hasked
  used x := (exists_congr fun _ => h.get?_eq_some_iff).trans exists_lookup?_iff
  found s := by rw [ne_eq, h.get?_eq_none_iff, not_not, hasked, List.mem_eraseDups]
  named s x := h.get?_eq_some_iff
  lookup_intern s := by rw [lookup, h.lookup?_intern s, Option.getD_some]
  intern_eq_iff := h.intern_eq_iff
  generated_eq_iff stem stem' hstem hstem' m n later :=
    (h.intern_eq_iff _ _ later).trans (generatedString_eq_iff hstem hstem')
  kept request x s hx := by
    have hthen : (table.after [request]).lookup? x = some s := h.extends_after [request] x s hx
    exact ⟨hthen, (h.after [request]).get?_eq_some_iff.mpr hthen⟩

theorem lookup_reserved (requests : List Request) {x : Name} {s : String}
    (h : reserved[x.id]? = some s) : (initial.after requests).lookup x = s := by
  have hinitial : initial.lookup? x = some s := by
    rw [lookup?, ← Array.getElem?_toList, strings_initial, h]
  rw [lookup, initial_coherent.extends_after requests x s hinitial, Option.getD_some]

/-- Whatever a new table is asked for, it numbers the three reserved strings and then those that it
was asked to hold. -/
theorem requests_number_strings (requests : List Request) :
    let table := initial.after requests
    table.Numbers (reserved ++ requests.filterMap Request.interned?) ∧
      table.lookup .empty = "" ∧ table.lookup .nil = "nil" ∧ table.lookup .t = "t" := by
  refine ⟨(initial_coherent.after requests).numbers ?_, lookup_reserved requests rfl,
    lookup_reserved requests rfl, lookup_reserved requests rfl⟩
  have hreserved : initial.strings.toList = reserved.eraseDups := strings_initial
  rw [after_eq_internAll]
  exact initial_coherent.strings_internAll hreserved _

/-- A made-up name does not come up again with another stem, though the digits at the end of both
spellings are the same. -/
theorem requests_number_strings_of_stems :
    let table := initial.after [.intern "car", .get "cdr", .generated "val" 0, .intern "car"]
    table.strings.toList = ["", "nil", "t", "car", "#:val0"] ∧ table.get? "cdr" = none ∧
      ¬ EndsInDigit "val" ∧ ¬ EndsInDigit "x1y" ∧
      (((table.generated "val" 12).2.after [.intern "cdr"]).generated "x1y" 12).1 ≠
        (table.generated "val" 12).1 := by
  intro table
  obtain ⟨hnumbers, -⟩ := requests_number_strings
    [.intern "car", .get "cdr", .generated "val" 0, .intern "car"]
  have hval : ¬ EndsInDigit "val" := by rintro ⟨c, hc, hdigit⟩; cases hc; cases hdigit
  have hother : ¬ EndsInDigit "x1y" := by rintro ⟨c, hc, hdigit⟩; cases hc; cases hdigit
  refine ⟨hnumbers.order, ?_, hval, hother, fun heq => ?_⟩
  · by_contra hfound
    exact absurd ((hnumbers.found "cdr").mp hfound) (by decide)
  · have hsame := (hnumbers.generated_eq_iff "val" "x1y" hval hother 12 12 _).mp heq
    exact absurd hsame.1 (by decide)

end SymbolTable

end PatternCompiler
