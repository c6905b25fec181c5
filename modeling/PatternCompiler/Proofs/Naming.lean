import Mathlib.Data.List.Forall2
import Std.Data.String.ToNat
import PatternCompiler.NameSupply
import PatternCompiler.Vocabulary
import PatternCompiler.Clause

/-!
# Names that do not clash

A symbol table holds every string once. Therefore the names that a compilation makes up differ from
each other and from all names that are not spelled like made-up ones, and the names of a vocabulary
stand for the functions whose spellings they are.
-/

namespace PatternCompiler

set_option autoImplicit false

/-! ## Symbol tables -/

namespace SymbolTable

/-- The index finds exactly the strings that the table holds. -/
def Coherent (table : SymbolTable) : Prop :=
  ∀ (s : String) (i : Nat), table.index[s]? = some i ↔ table.strings[i]? = some s

/-- What one table says about names, a later table says too. -/
def Extends (table table' : SymbolTable) : Prop :=
  ∀ (x : Name) (s : String), table.lookup? x = some s → table'.lookup? x = some s

variable {table : SymbolTable}

theorem Coherent.eq_of_lookup? (h : table.Coherent) {x y : Name} {s : String}
    (hx : table.lookup? x = some s) (hy : table.lookup? y = some s) : x = y := by
  have hi := (h s x.id).mpr hx
  have hj := (h s y.id).mpr hy
  rw [hi] at hj
  cases x
  cases y
  simpa using hj

theorem Coherent.push (h : table.Coherent) {s : String} (hs : table.get? s = none) :
    (table.push s).2.Coherent := by
  have hnone : table.index[s]? = none := by simpa [get?] using hs
  intro s' i
  simp only [SymbolTable.push, Std.HashMap.getElem?_insert, Array.getElem?_push, size]
  by_cases hi : i = table.strings.size
  · subst hi
    rw [if_pos rfl]
    constructor
    · intro heq
      split at heq
      · simp_all
      · have hlt := (h s' _).mp heq
        simp at hlt
    · intro heq
      cases heq
      simp
  · rw [if_neg hi]
    constructor
    · intro heq
      split at heq
      · cases heq; exact absurd rfl hi
      · exact (h s' i).mp heq
    · intro heq
      have hindex := (h s' i).mpr heq
      rw [if_neg]
      · exact hindex
      · intro hsame
        rw [← beq_iff_eq.mp hsame, hnone] at hindex
        cases hindex

theorem extends_push (table : SymbolTable) (s : String) : table.Extends (table.push s).2 := by
  intro x s' hx
  have hlt : x.id < table.strings.size := by
    by_contra hge
    rw [lookup?, Array.getElem?_eq_none (Nat.not_lt.mp hge)] at hx
    cases hx
  rw [lookup?, SymbolTable.push, Array.getElem?_push, if_neg (Nat.ne_of_lt hlt)]
  exact hx

theorem Coherent.intern (h : table.Coherent) (s : String) : (table.intern s).2.Coherent := by
  unfold SymbolTable.intern
  split
  · exact h
  · rename_i hs
    exact h.push hs

theorem extends_intern (table : SymbolTable) (s : String) : table.Extends (table.intern s).2 := by
  unfold SymbolTable.intern
  split
  · exact fun _ _ hx => hx
  · exact table.extends_push s

theorem Coherent.lookup?_intern (h : table.Coherent) (s : String) :
    (table.intern s).2.lookup? (table.intern s).1 = some s := by
  unfold SymbolTable.intern
  split
  · rename_i name hs
    obtain ⟨i, hi, rfl⟩ := Option.map_eq_some_iff.mp hs
    exact (h s i).mp hi
  · simp [SymbolTable.push, lookup?, size]

theorem Coherent.internAll {table : SymbolTable} (h : table.Coherent) (ss : List String) :
    (table.internAll ss).2.Coherent ∧ table.Extends (table.internAll ss).2 ∧
      List.Forall₂ (fun x s => (table.internAll ss).2.lookup? x = some s)
        (table.internAll ss).1 ss := by
  induction ss generalizing table with
  | nil => exact ⟨h, fun _ _ hx => hx, .nil⟩
  | cons s ss ih =>
      obtain ⟨hcoherent, hextends, hnames⟩ := ih (h.intern s)
      exact ⟨hcoherent, fun x s' hx => hextends x s' (extends_intern table s x s' hx),
        .cons (hextends _ _ (h.lookup?_intern s)) hnames⟩

theorem empty_coherent : (⟨#[], ∅⟩ : SymbolTable).Coherent := by
  intro s i
  simp

theorem initial_coherent : initial.Coherent := (empty_coherent.internAll reserved).1

theorem mem_strings_iff {s : String} : s ∈ table.strings.toList ↔ ∃ x, table.lookup? x = some s := by
  rw [List.mem_iff_getElem?]
  constructor
  · rintro ⟨i, hi⟩
    exact ⟨⟨i⟩, by rw [lookup?, ← hi, Array.getElem?_toList]⟩
  · rintro ⟨x, hx⟩
    exact ⟨x.id, by rw [Array.getElem?_toList]; exact hx⟩

end SymbolTable

/-! ## Made-up names -/

open SymbolTable (generatedString generatedMark)

theorem generatedString_inj {stem : String} {m n : Nat}
    (h : generatedString stem m = generatedString stem n) : m = n := by
  unfold generatedString at h
  have hlists := congrArg String.toList h
  simp only [String.toList_append, List.append_cancel_left_eq] at hlists
  exact Nat.repr_injective (String.toList_injective hlists)

theorem generatedString_stem_ne (m n : Nat) :
    generatedString "val" m ≠ generatedString "x" n := by
  intro h
  have hlists := congrArg String.toList h
  simp [generatedString, generatedMark] at hlists

theorem isGeneratedString_generatedString (stem : String) (n : Nat) :
    SymbolTable.isGeneratedString (generatedString stem n) = true := by
  simp [SymbolTable.isGeneratedString, generatedString, generatedMark]

namespace NameSupply

/-- The name is held, and no later projection gets it. -/
def Settled (supply : NameSupply) (x : Name) : Prop :=
  ∃ s, supply.symbols.lookup? x = some s ∧ ∀ n, supply.next ≤ n → s ≠ generatedString "x" n

variable {supply : NameSupply}

theorem settled_of_ordinary {x : Name} (h : supply.symbols.isGenerated? x = some false) :
    supply.Settled x := by
  obtain ⟨s, hs, hordinary⟩ := Option.map_eq_some_iff.mp h
  refine ⟨s, hs, fun n _ heq => ?_⟩
  rw [heq, isGeneratedString_generatedString] at hordinary
  cases hordinary

theorem Settled.fresh {x : Name} (h : supply.Settled x) (stem : String) :
    (NameSupply.fresh stem supply).2.Settled x := by
  obtain ⟨s, hs, hne⟩ := h
  exact ⟨s, SymbolTable.extends_intern _ _ _ _ hs, fun n hn => hne n (Nat.le_of_succ_le hn)⟩

theorem fresh_coherent (h : supply.symbols.Coherent) (stem : String) :
    (NameSupply.fresh stem supply).2.symbols.Coherent := h.intern _

theorem fresh_settled (h : supply.symbols.Coherent) :
    (NameSupply.fresh "x" supply).2.Settled (NameSupply.fresh "x" supply).1 := by
  refine ⟨_, h.lookup?_intern _, fun n hn heq => ?_⟩
  rw [← generatedString_inj heq] at hn
  exact Nat.not_succ_le_self _ hn

theorem root_settled (h : supply.symbols.Coherent) :
    (NameSupply.fresh "val" supply).2.Settled (NameSupply.fresh "val" supply).1 :=
  ⟨_, h.lookup?_intern _, fun _ _ => generatedString_stem_ne _ _⟩

theorem Settled.ne_fresh {x : Name} (h : supply.Settled x) (hc : supply.symbols.Coherent) :
    x ≠ (NameSupply.fresh "x" supply).1 := by
  rintro rfl
  obtain ⟨s, hs, hne⟩ := h
  have hfresh := hc.lookup?_intern (generatedString "x" supply.next)
  have hlater : (supply.symbols.intern (generatedString "x" supply.next)).2.lookup? _ = _ :=
    SymbolTable.extends_intern _ _ _ _ hs
  exact hne _ (Nat.le_refl _) (Option.some.inj (hlater.symm.trans hfresh))

/-- The names of a compilation are no names of anything else. -/
theorem fresh_ne_of_ordinary (hc : supply.symbols.Coherent) (stem : String) {x : Name}
    (h : supply.symbols.isGenerated? x = some false) : x ≠ (NameSupply.fresh stem supply).1 := by
  rintro rfl
  obtain ⟨s, hs, hordinary⟩ := Option.map_eq_some_iff.mp h
  have hfresh := hc.lookup?_intern (generatedString stem supply.next)
  have hlater : (supply.symbols.intern (generatedString stem supply.next)).2.lookup? _ = _ :=
    SymbolTable.extends_intern _ _ _ _ hs
  rw [Option.some.inj (hlater.symm.trans hfresh), isGeneratedString_generatedString] at hordinary
  cases hordinary

end NameSupply

/-! ## Vocabularies -/

def Builtin.comparator : Equivalence → Builtin
  | .identity => eq
  | .numericIdentity => eql
  | .structural => equal

def Builtin.membership : Equivalence → Builtin
  | .identity => memq
  | .numericIdentity => memql
  | .structural => member

/-- The names that generated code calls stand for the functions they are meant for. -/
structure Vocabulary.Standard (vocabulary : Vocabulary) : Prop where
  comparator : ∀ eqv,
    vocabulary.functions.lookup (vocabulary.operators.comparator eqv) = some (.comparator eqv)
  membership : ∀ eqv,
    vocabulary.functions.lookup (vocabulary.operators.membership eqv) = some (.membership eqv)
  named : ∀ b, vocabulary.functions.lookup (vocabulary.functions.nameOf b) = some b

/-- Every entry of the function table has the name of its spelling. -/
def FunctionTable.Spelled (table : SymbolTable) :
    FunctionTable → List (String × Builtin) → Prop :=
  List.Forall₂ fun entry spelling =>
    table.lookup? entry.1 = some spelling.1 ∧ entry.2 = spelling.2

namespace FunctionTable

variable {functions : FunctionTable} {spellings : List (String × Builtin)} {table : SymbolTable}

theorem spelled_zip {names : List Name}
    (h : List.Forall₂ (fun x s => table.lookup? x = some s) names (spellings.map Prod.fst)) :
    Spelled table (names.zip (spellings.map Prod.snd)) spellings := by
  induction spellings generalizing names with
  | nil => cases h; exact .nil
  | cons spelling spellings ih =>
      cases h with
      | cons hname hrest => exact .cons ⟨hname, rfl⟩ (ih hrest)

/-- A name resolves to the function that its string spells. -/
theorem Spelled.lookup_eq (h : Spelled table functions spellings) (hc : table.Coherent) {x : Name}
    {s : String} (hx : table.lookup? x = some s) : functions.lookup x = spellings.lookup s := by
  unfold Spelled at h
  induction h with
  | nil => rfl
  | @cons entry spelling entries spellings hentry _ ih =>
      obtain ⟨y, b⟩ := entry
      obtain ⟨s', b'⟩ := spelling
      obtain ⟨hy, rfl⟩ := hentry
      have hsame : (x == y) = (s == s') := by
        rw [Bool.eq_iff_iff, beq_iff_eq, beq_iff_eq]
        constructor
        · rintro rfl
          exact Option.some.inj (hx.symm.trans hy)
        · rintro rfl
          exact hc.eq_of_lookup? hx hy
      rw [List.lookup_cons, List.lookup_cons, ih, hsame]

theorem Spelled.lookup?_nameOf (h : Spelled table functions spellings) {b : Builtin} {s : String}
    (hb : spellings.find? (fun entry => entry.2 = b) = some (s, b)) :
    table.lookup? (functions.nameOf b) = some s := by
  unfold Spelled at h
  unfold nameOf
  induction h with
  | nil => cases hb
  | @cons entry spelling entries spellings hentry _ ih =>
      rw [List.find?_cons] at hb ⊢
      rw [hentry.2]
      split at hb
      · cases hb
        exact hentry.1
      · exact ih hb

end FunctionTable

theorem Operators.intern_spelled {table : SymbolTable} (h : table.Coherent) :
    (Operators.intern table).2.Coherent ∧
      List.Forall₂ (fun x s => (Operators.intern table).2.lookup? x = some s)
        [(Operators.intern table).1.eq, (Operators.intern table).1.eql,
          (Operators.intern table).1.equal, (Operators.intern table).1.memq,
          (Operators.intern table).1.memql, (Operators.intern table).1.member,
          (Operators.intern table).1.funcall]
        ["eq", "eql", "equal", "memq", "memql", "member", "funcall"] := by
  have hall := h.internAll ["eq", "eql", "equal", "memq", "memql", "member", "funcall"]
  unfold Operators.intern
  simp only [SymbolTable.internAll] at hall
  generalize table.intern "eq" = r at hall ⊢
  obtain ⟨x₁, t₁⟩ := r
  simp only at hall ⊢
  generalize t₁.intern "eql" = r at hall ⊢
  obtain ⟨x₂, t₂⟩ := r
  simp only at hall ⊢
  generalize t₂.intern "equal" = r at hall ⊢
  obtain ⟨x₃, t₃⟩ := r
  simp only at hall ⊢
  generalize t₃.intern "memq" = r at hall ⊢
  obtain ⟨x₄, t₄⟩ := r
  simp only at hall ⊢
  generalize t₄.intern "memql" = r at hall ⊢
  obtain ⟨x₅, t₅⟩ := r
  simp only at hall ⊢
  generalize t₅.intern "member" = r at hall ⊢
  obtain ⟨x₆, t₆⟩ := r
  simp only at hall ⊢
  generalize t₆.intern "funcall" = r at hall ⊢
  obtain ⟨x₇, t₇⟩ := r
  exact ⟨hall.1, hall.2.2⟩

theorem Vocabulary.intern_standard {table : SymbolTable} (h : table.Coherent) :
    (Vocabulary.intern table).1.Standard := by
  have hops := Operators.intern_spelled h
  unfold Vocabulary.intern FunctionTable.intern
  generalize Operators.intern table = r at hops ⊢
  obtain ⟨ops, t⟩ := r
  obtain ⟨ht, hnames⟩ := hops
  obtain ⟨hc, hextends, hspellings⟩ := ht.internAll (Builtin.spellings.map Prod.fst)
  have hspelled := FunctionTable.spelled_zip hspellings
  simp only
  generalize t.internAll (Builtin.spellings.map Prod.fst) = r at hc hextends hspelled ⊢
  obtain ⟨names, t'⟩ := r
  have operator {x : Name} {s : String} {b : Builtin} (hx : t.lookup? x = some s)
      (hb : Builtin.spellings.lookup s = some b) :=
    (hspelled.lookup_eq hc (hextends x s hx)).trans hb
  have builtin {b : Builtin} {s : String}
      (hb : Builtin.spellings.find? (fun entry => entry.2 = b) = some (s, b))
      (hs : Builtin.spellings.lookup s = some b) :=
    (hspelled.lookup_eq hc (hspelled.lookup?_nameOf hb)).trans hs
  simp only [List.forall₂_cons] at hnames
  obtain ⟨heq, heql, hequal, hmemq, hmemql, hmember, -⟩ := hnames
  constructor
  · intro eqv
    cases eqv with
    | identity => exact operator heq rfl
    | numericIdentity => exact operator heql rfl
    | structural => exact operator hequal rfl
  · intro eqv
    cases eqv with
    | identity => exact operator hmemq rfl
    | numericIdentity => exact operator hmemql rfl
    | structural => exact operator hmember rfl
  · intro b
    cases b <;> exact builtin rfl rfl

end PatternCompiler
