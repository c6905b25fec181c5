import Mathlib.Algebra.Order.Ring.Int
import PatternCompiler.Proofs.Evaluation

/-!
# Arithmetic without wrapping

Sums and differences are made from left to right, and every partial result has to fit. What comes
out is therefore the exact whole number, or the error of the first argument at which this goes
wrong: a result that does not fit, or an argument that is no integer. Calls through `funcall` end
with a call of the first function that is not `funcall`.
-/

namespace PatternCompiler

set_option autoImplicit false

namespace Builtin

/-! ## Partial results -/

/-- The whole number is one of those that integers hold. -/
def Fits (n : Int) : Prop := -2 ^ 63 ≤ n ∧ n < 2 ^ 63

/-- What is meant by a sum or a difference of whole numbers: all of them added up, or the first less
all the others. -/
def exact : Builtin → List Int → Int
  | sub, n :: ns => n - ns.sum
  | _, ns => ns.sum

/-- What the numbers give with the function, of which each may be one that does not fit. -/
def exactOf (b : Builtin) (ns : List Int64) : Int := exact b (ns.map Int64.toInt)

/-- Every partial result fits: what the function gives for any beginning of the numbers. -/
def Stays (b : Builtin) (ns : List Int64) : Prop := ∀ front, front <+: ns → Fits (exactOf b front)

/-- What comes out from a total on, if the numbers are added to it or, with sign -1, taken off. -/
def totalOf (sign total : Int) (ns : List Int64) : Int := total + sign * (ns.map Int64.toInt).sum

def StaysFrom (sign total : Int) (ns : List Int64) : Prop :=
  ∀ front, front <+: ns → Fits (totalOf sign total front)

theorem fits_toInt (n : Int64) : Fits n.toInt := ⟨n.le_toInt, n.toInt_lt⟩

theorem toInt_ofInt_of_fits {n : Int} (h : Fits n) : (Int64.ofInt n).toInt = n :=
  Int64.toInt_ofInt_of_le h.1 h.2

@[simp] theorem totalOf_nil (sign total : Int) : totalOf sign total [] = total := by
  simp [totalOf]

theorem totalOf_cons (sign total : Int) (n : Int64) (ns : List Int64) :
    totalOf sign total (n :: ns) = totalOf sign (total + sign * n.toInt) ns := by
  rw [totalOf, totalOf, List.map_cons, List.sum_cons, Int.mul_add, Int.add_assoc]

theorem staysFrom_nil {sign total : Int} : StaysFrom sign total [] ↔ Fits total := by
  simp [StaysFrom]

theorem staysFrom_cons {sign total : Int} {n : Int64} {ns : List Int64} :
    StaysFrom sign total (n :: ns) ↔ Fits total ∧ StaysFrom sign (total + sign * n.toInt) ns := by
  simp only [StaysFrom, List.prefix_cons_iff, forall_eq_or_imp, totalOf_nil, forall_exists_index,
    and_imp]
  refine and_congr_right fun _ => ?_
  constructor
  · intro h front hfront
    rw [← totalOf_cons]
    exact h _ front rfl hfront
  · rintro h _ front rfl hfront
    rw [totalOf_cons]
    exact h front hfront

theorem StaysFrom.fits {sign total : Int} {ns : List Int64} (h : StaysFrom sign total ns) :
    Fits total := totalOf_nil sign total ▸ h [] List.nil_prefix

theorem not_staysFrom_cons {sign total : Int} {n : Int64} (h : ¬ Fits (total + sign * n.toInt))
    (ns : List Int64) : ¬ StaysFrom sign total (n :: ns) :=
  fun hstays => h (staysFrom_cons.mp hstays).2.fits

theorem fits_exactOf_nil (b : Builtin) : Fits (b.exactOf []) := by
  have hzero : b.exactOf [] = 0 := by cases b <;> rfl
  rw [hzero]
  exact ⟨by decide, by decide⟩

theorem exactOf_add (ns : List Int64) : exactOf add ns = totalOf 1 0 ns := by
  simp [exactOf, exact, totalOf]

theorem exactOf_sub_cons (n : Int64) (ns : List Int64) :
    exactOf sub (n :: ns) = totalOf (-1) n.toInt ns := by
  simp [exactOf, exact, totalOf, Int.sub_eq_add_neg]

theorem stays_add {ns : List Int64} : Stays add ns ↔ StaysFrom 1 0 ns := by
  simp only [Stays, StaysFrom, exactOf_add]

theorem stays_sub_cons {n : Int64} {ns : List Int64} :
    Stays sub (n :: ns) ↔ StaysFrom (-1) n.toInt ns := by
  simp only [Stays, StaysFrom, List.prefix_cons_iff, forall_eq_or_imp, forall_exists_index, and_imp]
  constructor
  · intro h front hfront
    rw [← exactOf_sub_cons]
    exact h.2 _ front rfl hfront
  · intro h
    refine ⟨fits_exactOf_nil sub, ?_⟩
    rintro _ front rfl hfront
    rw [exactOf_sub_cons]
    exact h front hfront

/-! ## Accumulation -/

/-- Add the numbers to the total one by one, or take them off it. -/
def accumulate (b : Builtin) (sign : Int) (total : Int64) : List Value → EvalM Int64
  | [] => return total
  | v :: vs => do
      let n ← expectInt b v
      let total ← fit b (total.toInt + sign * n.toInt)
      accumulate b sign total vs

theorem sum_eq_accumulate (total : Int64) (vs : List Value) :
    sum total vs = accumulate add 1 total vs := by
  induction vs generalizing total with
  | nil => rfl
  | cons v vs ih => simp only [sum, accumulate, ih, Int.one_mul]

theorem difference_eq_accumulate (total : Int64) (vs : List Value) :
    difference total vs = accumulate sub (-1) total vs := by
  induction vs generalizing total with
  | nil => rfl
  | cons v vs ih => simp only [difference, accumulate, ih, Int.neg_one_mul, Int.sub_eq_add_neg]

variable {b : Builtin} {sign : Int} {total : Int64} {vs : List Value} {s s' : ObjectSupply}

theorem fits_iff {n : Int} :
    Fits n ↔ Int64.minValue.toInt ≤ n ∧ n ≤ Int64.maxValue.toInt := by
  rw [Int64.toInt_minValue, Int64.toInt_maxValue, Fits]
  omega

theorem fit_of_fits (b : Builtin) {n : Int} (h : Fits n) : fit b n s = .ok (Int64.ofInt n, s) := by
  rw [fit, if_pos (fits_iff.mp h)]
  rfl

theorem fit_of_not_fits (b : Builtin) {n : Int} (h : ¬ Fits n) :
    fit b n s = .error (.overflow b) := by
  rw [fit, if_neg (mt fits_iff.mpr h)]
  rfl

theorem expectInt_of_not_int (b : Builtin) {v : Value} (h : ∀ n, v ≠ .int n) :
    expectInt b v s = .error (.wrongType b v) := by
  cases v with
  | int n => exact absurd rfl (h n)
  | symbol | float | str | cons => rfl

theorem accumulate_nil : accumulate b sign total [] s = .ok (total, s) := rfl

theorem accumulate_cons_of_fits {n : Int64} (h : Fits (total.toInt + sign * n.toInt)) :
    accumulate b sign total (.int n :: vs) s =
      accumulate b sign (Int64.ofInt (total.toInt + sign * n.toInt)) vs s :=
  (EvalM.bind_of_ok rfl).trans (EvalM.bind_of_ok (fit_of_fits b h))

theorem accumulate_cons_of_not_fits {n : Int64} (h : ¬ Fits (total.toInt + sign * n.toInt)) :
    accumulate b sign total (.int n :: vs) s = .error (.overflow b) :=
  (EvalM.bind_of_ok rfl).trans (EvalM.bind_of_error (fit_of_not_fits b h))

theorem accumulate_cons_of_not_int {v : Value} (h : ∀ n, v ≠ .int n) :
    accumulate b sign total (v :: vs) s = .error (.wrongType b v) :=
  EvalM.bind_of_error (expectInt_of_not_int b h)

/-! ## Numbers in front -/

/-- An integer in front of the arguments is the first of the numbers in front, if there are any. -/
theorem exists_split_cons {n : Int64} {P : List Int64 → List Value → Prop} :
    (∃ ns rest, .int n :: vs = ns.map .int ++ rest ∧ P ns rest) ↔
      P [] (.int n :: vs) ∨ ∃ ns rest, vs = ns.map .int ++ rest ∧ P (n :: ns) rest := by
  constructor
  · rintro ⟨ns, rest, hsplit, h⟩
    cases ns with
    | nil =>
        obtain rfl : .int n :: vs = rest := hsplit
        exact .inl h
    | cons m ns =>
        obtain ⟨hm, rfl⟩ := List.cons.inj hsplit
        obtain rfl : n = m := Value.int.inj hm
        exact .inr ⟨ns, rest, rfl, h⟩
  · rintro (h | ⟨ns, rest, rfl, h⟩)
    · exact ⟨[], _, rfl, h⟩
    · exact ⟨n :: ns, rest, rfl, h⟩

theorem exists_split_of_not_int {v : Value} (hv : ∀ n, v ≠ .int n)
    {P : List Int64 → List Value → Prop} :
    (∃ ns rest, v :: vs = ns.map .int ++ rest ∧ P ns rest) ↔ P [] (v :: vs) := by
  constructor
  · rintro ⟨ns, rest, hsplit, h⟩
    cases ns with
    | nil =>
        obtain rfl : v :: vs = rest := hsplit
        exact h
    | cons n ns => exact absurd (List.cons.inj hsplit).1 (hv n)
  · exact fun h => ⟨[], _, rfl, h⟩

theorem exists_split_nil {P : List Int64 → List Value → Prop} :
    (∃ ns rest, [] = ns.map .int ++ rest ∧ P ns rest) ↔ P [] [] := by
  constructor
  · rintro ⟨ns, rest, hsplit, h⟩
    obtain ⟨hns, rfl⟩ := List.append_eq_nil_iff.mp hsplit.symm
    obtain rfl := List.map_eq_nil_iff.mp hns
    exact h
  · exact fun h => ⟨[], [], rfl, h⟩

/-- The first argument is an integer and the total with it fits, or one of the two goes wrong. -/
theorem accumulate_cons (b : Builtin) (sign : Int) (total : Int64) (v : Value) (vs : List Value)
    (s : ObjectSupply) :
    (∃ n, v = .int n ∧ Fits (total.toInt + sign * n.toInt) ∧ accumulate b sign total (v :: vs) s =
        accumulate b sign (Int64.ofInt (total.toInt + sign * n.toInt)) vs s) ∨
      (∃ n, v = .int n ∧ ¬ Fits (total.toInt + sign * n.toInt) ∧
        accumulate b sign total (v :: vs) s = .error (.overflow b)) ∨
      ((∀ n, v ≠ .int n) ∧ accumulate b sign total (v :: vs) s = .error (.wrongType b v)) := by
  by_cases hv : ∃ n, v = .int n
  · obtain ⟨n, rfl⟩ := hv
    by_cases hfits : Fits (total.toInt + sign * n.toInt)
    · exact .inl ⟨n, rfl, hfits, accumulate_cons_of_fits hfits⟩
    · exact .inr (.inl ⟨n, rfl, hfits, accumulate_cons_of_not_fits hfits⟩)
  · have hv : ∀ n, v ≠ .int n := not_exists.mp hv
    exact .inr (.inr ⟨hv, accumulate_cons_of_not_int hv⟩)

/-- The total is exact, and there is one if all arguments are integers and every partial result
fits. -/
theorem accumulate_eq_ok_iff {n : Int64} :
    accumulate b sign total vs s = .ok (n, s') ↔ ∃ ns rest, vs = ns.map .int ++ rest ∧
      rest = [] ∧ StaysFrom sign total.toInt ns ∧ n.toInt = totalOf sign total.toInt ns ∧
        s' = s := by
  induction vs generalizing total with
  | nil =>
      rw [exists_split_nil, staysFrom_nil, accumulate_nil]
      simp [fits_toInt, eq_comm, Int64.toInt_inj]
  | cons v vs ih =>
      rcases accumulate_cons b sign total v vs s with
        ⟨m, rfl, hfits, heq⟩ | ⟨m, rfl, hfits, heq⟩ | ⟨hv, heq⟩
      · rw [heq, ih, toInt_ofInt_of_fits hfits, exists_split_cons]
        simp [staysFrom_cons, fits_toInt, totalOf_cons]
      · rw [heq, exists_split_cons]
        simp [not_staysFrom_cons hfits]
      · rw [heq, exists_split_of_not_int hv]
        simp

theorem accumulate_eq_overflow_iff :
    accumulate b sign total vs s = .error (.overflow b) ↔ ∃ ns rest, vs = ns.map .int ++ rest ∧
      ¬ Fits (totalOf sign total.toInt ns) := by
  induction vs generalizing total with
  | nil =>
      rw [exists_split_nil, accumulate_nil]
      simp [fits_toInt]
  | cons v vs ih =>
      rcases accumulate_cons b sign total v vs s with
        ⟨m, rfl, hfits, heq⟩ | ⟨m, rfl, hfits, heq⟩ | ⟨hv, heq⟩
      · rw [heq, ih, toInt_ofInt_of_fits hfits, exists_split_cons]
        simp [fits_toInt, totalOf_cons]
      · rw [heq, exists_split_cons]
        refine iff_of_true rfl (.inr ⟨[], vs, rfl, ?_⟩)
        rwa [totalOf_cons, totalOf_nil]
      · rw [heq, exists_split_of_not_int hv]
        simp [fits_toInt]

theorem not_head?_int (v : Value) (m : Int64) (vs : List Value) :
    ¬ ((Value.int m :: vs).head? = some v ∧ ∀ n, v ≠ .int n) :=
  fun h => h.2 m (Option.some.inj h.1).symm

theorem accumulate_eq_wrongType_iff {v : Value} :
    accumulate b sign total vs s = .error (.wrongType b v) ↔ ∃ ns rest, vs = ns.map .int ++ rest ∧
      (rest.head? = some v ∧ ∀ n, v ≠ .int n) ∧ StaysFrom sign total.toInt ns := by
  induction vs generalizing total with
  | nil =>
      rw [exists_split_nil, accumulate_nil]
      simp
  | cons w vs ih =>
      rcases accumulate_cons b sign total w vs s with
        ⟨m, rfl, hfits, heq⟩ | ⟨m, rfl, hfits, heq⟩ | ⟨hw, heq⟩
      · rw [heq, ih, toInt_ofInt_of_fits hfits, exists_split_cons]
        simp only [not_head?_int, staysFrom_cons, fits_toInt, true_and, false_and, false_or]
      · rw [heq, exists_split_cons]
        simp only [not_head?_int, not_staysFrom_cons hfits, reduceCtorEq, Except.error.injEq,
          false_and, and_false, exists_false, or_false]
      · rw [heq, exists_split_of_not_int hw]
        have hsame : w = v → ∀ n, v ≠ .int n := fun h => h ▸ hw
        simpa [staysFrom_nil, fits_toInt] using hsame

theorem accumulate_eq_error {e : EvalError} (h : accumulate b sign total vs s = .error e) :
    e = .overflow b ∨ ∃ v, e = .wrongType b v := by
  induction vs generalizing total with
  | nil => cases h
  | cons v vs ih =>
      rcases accumulate_cons b sign total v vs s with ⟨m, -, -, heq⟩ | ⟨m, -, -, heq⟩ | ⟨-, heq⟩
      · exact ih (heq ▸ h)
      · rw [heq] at h
        cases h
        exact .inl rfl
      · rw [heq] at h
        cases h
        exact .inr ⟨v, rfl⟩

/-! ## Sums and differences -/

/-- A call gives the exact result or the error that comes first: the exact result if all arguments
are integers and every partial result fits, an overflow if a partial result does not fit before
there is an argument that is no integer, and otherwise the type error for the first such argument.
-/
structure Exact (b : Builtin) (args : List Value) (s : ObjectSupply)
    (outcome : Except EvalError (Value × ObjectSupply)) : Prop where
  ok : ∀ v s', outcome = .ok (v, s') ↔ ∃ ns : List Int64, args = ns.map .int ∧ b.Stays ns ∧
    (∃ n : Int64, v = .int n ∧ n.toInt = b.exactOf ns) ∧ s' = s
  overflow : outcome = .error (.overflow b) ↔ ∃ ns : List Int64, ∃ rest,
    args = ns.map .int ++ rest ∧ ¬ Fits (b.exactOf ns)
  wrongType : ∀ v, outcome = .error (.wrongType b v) ↔ ∃ ns : List Int64, ∃ rest,
    args = ns.map .int ++ v :: rest ∧ (∀ n, v ≠ .int n) ∧ b.Stays ns
  error : ∀ e, outcome = .error e → e = .overflow b ∨ ∃ v, e = .wrongType b v

/-- The same with what follows the numbers as one list. -/
theorem Exact.of_splits {args : List Value} {outcome : Except EvalError (Value × ObjectSupply)}
    (ok : ∀ v s', outcome = .ok (v, s') ↔ ∃ ns rest, args = ns.map .int ++ rest ∧ rest = [] ∧
      b.Stays ns ∧ (∃ n : Int64, v = .int n ∧ n.toInt = b.exactOf ns) ∧ s' = s)
    (overflow : outcome = .error (.overflow b) ↔ ∃ ns rest, args = ns.map .int ++ rest ∧
      ¬ Fits (b.exactOf ns))
    (wrongType : ∀ v, outcome = .error (.wrongType b v) ↔ ∃ ns rest, args = ns.map .int ++ rest ∧
      (rest.head? = some v ∧ ∀ n, v ≠ .int n) ∧ b.Stays ns)
    (error : ∀ e, outcome = .error e → e = .overflow b ∨ ∃ v, e = .wrongType b v) :
    Exact b args s outcome where
  ok v s' := by
    rw [ok]
    constructor
    · rintro ⟨ns, _, rfl, rfl, h⟩
      exact ⟨ns, List.append_nil _, h⟩
    · rintro ⟨ns, rfl, h⟩
      exact ⟨ns, [], (List.append_nil _).symm, rfl, h⟩
  overflow := overflow
  wrongType v := by
    rw [wrongType]
    constructor
    · rintro ⟨ns, rest, rfl, ⟨hhead, hv⟩, hstays⟩
      obtain ⟨rest, rfl⟩ := List.head?_eq_some_iff.mp hhead
      exact ⟨ns, rest, rfl, hv, hstays⟩
    · rintro ⟨ns, rest, rfl, hv, hstays⟩
      exact ⟨ns, v :: rest, rfl, ⟨rfl, hv⟩, hstays⟩
  error := error

theorem map_int_eq_ok_iff {m : EvalM Int64} {v : Value} :
    (do return .int (← m) : EvalM Value) s = .ok (v, s') ↔ ∃ n, v = .int n ∧ m s = .ok (n, s') := by
  rw [EvalM.bind_eq_ok]
  constructor
  · rintro ⟨n, s₁, hm, h⟩
    cases h
    exact ⟨n, rfl, hm⟩
  · rintro ⟨n, rfl, hm⟩
    exact ⟨n, s', hm, rfl⟩

theorem map_int_eq_error_iff {m : EvalM Int64} {e : EvalError} :
    (do return .int (← m) : EvalM Value) s = .error e ↔ m s = .error e := by
  rw [EvalM.bind_eq_error]
  constructor
  · rintro (h | ⟨n, s₁, -, h⟩)
    · exact h
    · cases h
  · exact .inl

theorem int_accumulate_eq_ok_iff {v : Value} :
    (do return .int (← accumulate b sign total vs) : EvalM Value) s = .ok (v, s') ↔
      ∃ ns rest, vs = ns.map .int ++ rest ∧ rest = [] ∧ StaysFrom sign total.toInt ns ∧
        (∃ n : Int64, v = .int n ∧ n.toInt = totalOf sign total.toInt ns) ∧ s' = s := by
  simp only [map_int_eq_ok_iff, accumulate_eq_ok_iff]
  constructor
  · rintro ⟨n, hv, ns, rest, hvs, hrest, hstays, hn, hs⟩
    exact ⟨ns, rest, hvs, hrest, hstays, ⟨n, hv, hn⟩, hs⟩
  · rintro ⟨ns, rest, hvs, hrest, hstays, ⟨n, hv, hn⟩, hs⟩
    exact ⟨n, hv, ns, rest, hvs, hrest, hstays, hn, hs⟩

theorem sum_exact (args : List Value) (s : ObjectSupply) : Exact add args s (add.run args s) := by
  have hrun : add.run args s = (do return .int (← accumulate add 1 0 args) : EvalM Value) s := by
    rw [← sum_eq_accumulate]
    rfl
  rw [hrun]
  refine .of_splits (fun v s' => ?_) ?_ (fun v => ?_) fun e he => ?_
  · simp only [stays_add, exactOf_add]
    exact int_accumulate_eq_ok_iff
  · simp only [exactOf_add]
    exact map_int_eq_error_iff.trans accumulate_eq_overflow_iff
  · simp only [stays_add]
    exact map_int_eq_error_iff.trans accumulate_eq_wrongType_iff
  · exact accumulate_eq_error (map_int_eq_error_iff.mp he)

/-- The first of several arguments of `-` is what the others are taken off. -/
theorem difference_exact (v w : Value) (args : List Value) (s : ObjectSupply) :
    Exact sub (v :: w :: args) s (sub.run (v :: w :: args) s) := by
  by_cases hv : ∃ n, v = .int n
  · obtain ⟨n, rfl⟩ := hv
    have hrun : sub.run (.int n :: w :: args) s =
        (do return .int (← accumulate sub (-1) n (w :: args)) : EvalM Value) s := by
      rw [← difference_eq_accumulate]
      rfl
    rw [hrun]
    refine .of_splits (fun v s' => ?_) ?_ (fun v => ?_) fun e he => ?_
    · rw [exists_split_cons]
      simp only [stays_sub_cons, exactOf_sub_cons, reduceCtorEq, false_and, false_or]
      exact int_accumulate_eq_ok_iff
    · rw [exists_split_cons]
      simp only [exactOf_sub_cons, fits_exactOf_nil, not_true_eq_false, false_or]
      exact map_int_eq_error_iff.trans accumulate_eq_overflow_iff
    · rw [exists_split_cons]
      simp only [not_head?_int, stays_sub_cons, false_and, false_or]
      exact map_int_eq_error_iff.trans accumulate_eq_wrongType_iff
    · exact accumulate_eq_error (map_int_eq_error_iff.mp he)
  · have hv : ∀ n, v ≠ .int n := not_exists.mp hv
    have hrun : sub.run (v :: w :: args) s = .error (.wrongType sub v) :=
      EvalM.bind_of_error (EvalM.bind_of_error (expectInt_of_not_int sub hv))
    rw [hrun]
    refine .of_splits (fun u s' => ?_) ?_ (fun u => ?_) fun e he => ?_
    · rw [exists_split_of_not_int hv]
      simp
    · rw [exists_split_of_not_int hv]
      simp [fits_exactOf_nil]
    · have hsame : v = u → (∀ n, u ≠ .int n) ∧ sub.Stays [] := by
        rintro rfl
        exact ⟨hv, fun front hfront => List.prefix_nil.mp hfront ▸ fits_exactOf_nil sub⟩
      rw [exists_split_of_not_int hv, and_assoc]
      simpa using hsame
    · cases he
      exact .inr ⟨v, rfl⟩

/-! ## Single arguments -/

/-- A call with one argument gives the exact result, overflows at one integer only, and refuses
everything but integers. -/
structure ExactAt (b : Builtin) (f : Int → Int) (edge : Int) (s : ObjectSupply)
    (outcome : Value → Except EvalError (Value × ObjectSupply)) : Prop where
  ok : ∀ n : Int64, n.toInt ≠ edge →
    ∃ m : Int64, outcome (.int n) = .ok (.int m, s) ∧ m.toInt = f n.toInt
  overflow : ∀ v, outcome v = .error (.overflow b) ↔ ∃ n : Int64, v = .int n ∧ n.toInt = edge
  wrongType : ∀ v, (∀ n, v ≠ .int n) → outcome v = .error (.wrongType b v)

theorem exactAt_of_fits {f : Int → Int} {edge : Int}
    (hedge : ∀ n : Int64, Fits (f n.toInt) ↔ n.toInt ≠ edge)
    {outcome : Value → Except EvalError (Value × ObjectSupply)}
    (houtcome : ∀ v, outcome v =
      (do return .int (← fit b (f (← expectInt b v).toInt)) : EvalM Value) s) :
    ExactAt b f edge s outcome := by
  have hok (n : Int64) (h : n.toInt ≠ edge) :
      outcome (.int n) = .ok (.int (Int64.ofInt (f n.toInt)), s) := by
    rw [houtcome]
    exact (EvalM.bind_of_ok rfl).trans (EvalM.bind_of_ok (fit_of_fits b ((hedge n).mpr h)))
  have hoverflow (n : Int64) (h : n.toInt = edge) : outcome (.int n) = .error (.overflow b) := by
    rw [houtcome]
    exact (EvalM.bind_of_ok rfl).trans
      (EvalM.bind_of_error (fit_of_not_fits b fun hfits => (hedge n).mp hfits h))
  have hwrongType (v : Value) (h : ∀ n, v ≠ .int n) : outcome v = .error (.wrongType b v) := by
    rw [houtcome]
    exact EvalM.bind_of_error (expectInt_of_not_int b h)
  refine ⟨fun n h => ⟨_, hok n h, toInt_ofInt_of_fits ((hedge n).mpr h)⟩, fun v => ⟨?_, ?_⟩,
    hwrongType⟩
  · intro h
    by_cases hv : ∃ n, v = .int n
    · obtain ⟨n, rfl⟩ := hv
      refine ⟨n, rfl, Decidable.byContradiction fun hne => ?_⟩
      rw [hok n hne] at h
      cases h
    · rw [hwrongType v (not_exists.mp hv)] at h
      cases h
  · rintro ⟨n, rfl, h⟩
    exact hoverflow n h

theorem negation_exact (s : ObjectSupply) :
    ExactAt sub (fun n => -n) (-2 ^ 63) s fun v => sub.run [v] s := by
  refine exactAt_of_fits (fun n => ?_) fun v => ?_
  · have hfits := fits_toInt n
    unfold Fits at hfits ⊢
    omega
  · cases v with
    | int n => rfl
    | symbol | float | str | cons => rfl

theorem successor_exact (s : ObjectSupply) :
    ExactAt onePlus (fun n => n + 1) (2 ^ 63 - 1) s fun v => onePlus.run [v] s := by
  refine exactAt_of_fits (fun n => ?_) fun v => rfl
  have hfits := fits_toInt n
  unfold Fits at hfits ⊢
  omega

end Builtin

/-! ## Chains of designators -/

namespace FunctionTable

/-- What a call through `funcall` comes to when its remaining arguments no longer begin with a
symbol for `funcall` itself. -/
inductive Ends (functions : FunctionTable) (s : ObjectSupply) :
    List Value → Except EvalError (Value × ObjectSupply) → Prop where
  | call {x : Name} {b : Builtin} (args : List Value) (hx : functions.lookup x = some b)
      (hb : b ≠ .funcall) : Ends functions s (.symbol x :: args) (b.run args s)
  | undefined {x : Name} (args : List Value) (hx : functions.lookup x = none) :
      Ends functions s (.symbol x :: args) (.error (.undefinedFunction x))
  | noSymbol {v : Value} (args : List Value) (hv : ∀ x, v ≠ .symbol x) :
      Ends functions s (v :: args) (.error (.wrongType .funcall v))
  | missing : Ends functions s [] (.error (.wrongArity .funcall 1 0))

theorem apply_funcall_symbol (functions : FunctionTable) (x : Name) (args : List Value)
    (s : ObjectSupply) :
    functions.apply .funcall (.symbol x :: args) s =
      match functions.lookup x with
      | some b => functions.apply b args s
      | none => .error (.undefinedFunction x) := by
  rw [apply]
  cases hx : functions.lookup x with
  | some b => exact EvalM.bind_of_ok (by rw [resolve, hx]; rfl)
  | none => exact EvalM.bind_of_error (by rw [resolve, hx]; rfl)

/-- The induction is on the arguments, of which every link of the chain takes one. -/
theorem funcall_ends (functions : FunctionTable) (args : List Value) (s : ObjectSupply) :
    ∃ (xs : List Name) (rest : List Value), args = xs.map .symbol ++ rest ∧
      (∀ x ∈ xs, functions.lookup x = some .funcall) ∧
      functions.Ends s rest (functions.apply .funcall args s) := by
  induction args with
  | nil => exact ⟨[], [], rfl, List.forall_mem_nil _, .missing⟩
  | cons v args ih =>
      by_cases hv : ∃ x, v = .symbol x
      · obtain ⟨x, rfl⟩ := hv
        rw [apply_funcall_symbol]
        cases hx : functions.lookup x with
        | none => exact ⟨[], _, rfl, List.forall_mem_nil _, .undefined args hx⟩
        | some b =>
            by_cases hb : b = .funcall
            · subst hb
              obtain ⟨xs, rest, rfl, hxs, hends⟩ := ih
              exact ⟨x :: xs, rest, rfl, List.forall_mem_cons.mpr ⟨hx, hxs⟩, hends⟩
            · simp only [apply_eq_run functions hb]
              exact ⟨[], _, rfl, List.forall_mem_nil _, .call args hx hb⟩
      · have hv : ∀ x, v ≠ .symbol x := not_exists.mp hv
        have hwrong : functions.apply .funcall (v :: args) s = .error (.wrongType .funcall v) := by
          cases v with
          | symbol x => exact absurd rfl (hv x)
          | int | float | str | cons => rfl
        rw [hwrong]
        exact ⟨[], _, rfl, List.forall_mem_nil _, .noSymbol args hv⟩

/-- Integer arithmetic is exact or fails at the first argument at which it has to, and a chain of
calls through `funcall` ends with a call of another function or an error. -/
theorem arithmetic_never_wraps (functions : FunctionTable) (s : ObjectSupply) :
    (∀ args, Builtin.Exact .add args s (functions.apply .add args s)) ∧
    (∀ v w args,
      Builtin.Exact .sub (v :: w :: args) s (functions.apply .sub (v :: w :: args) s)) ∧
    Builtin.ExactAt .sub (fun n => -n) (-2 ^ 63) s (fun v => functions.apply .sub [v] s) ∧
    Builtin.ExactAt .onePlus (fun n => n + 1) (2 ^ 63 - 1) s
      (fun v => functions.apply .onePlus [v] s) ∧
    ∀ args, ∃ (xs : List Name) (rest : List Value), args = xs.map .symbol ++ rest ∧
      (∀ x ∈ xs, functions.lookup x = some .funcall) ∧
      functions.Ends s rest (functions.apply .funcall args s) := by
  have hother {b : Builtin} (hb : b ≠ .funcall) := apply_eq_run functions hb
  refine ⟨fun args => ?_, fun v w args => ?_, ?_, ?_, fun args => funcall_ends functions args s⟩
  · rw [hother (by decide)]
    exact Builtin.sum_exact args s
  · rw [hother (by decide)]
    exact Builtin.difference_exact v w args s
  · simp only [hother (b := .sub) (by decide)]
    exact Builtin.negation_exact s
  · simp only [hother (b := .onePlus) (by decide)]
    exact Builtin.successor_exact s

end FunctionTable

end PatternCompiler
