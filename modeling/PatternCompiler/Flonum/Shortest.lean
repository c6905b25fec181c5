import PatternCompiler.Flonum.Basic

/-!
# Shortest decimals

Every finite flonum stands for the interval of reals that round to it. Among the decimals in that
interval, the search takes the coarsest decimal grid that has one, and on it the one nearest to
the exact value, a tie going up. All arithmetic is exact.
-/

namespace PatternCompiler.Flonum

set_option autoImplicit false

/-- The decimal `coefficient * 10 ^ exponent`. -/
structure Decimal where
  coefficient : Nat
  exponent : Int
deriving DecidableEq

/-- Numerator and denominator of `base ^ e`. -/
def powerNum (base : Nat) (e : Int) : Nat := base.pow e.toNat

def powerDen (base : Nat) (e : Int) : Nat := base.pow (-e).toNat

/-- The interval of a positive flonum in quarters of its last place, ends included or not. -/
structure Interval where
  low : Nat
  exact : Nat
  high : Nat
  closed : Bool
  /-- A quarter of the last place is `2 ^ scale`. -/
  scale : Int

def interval (x : Flonum) : Interval where
  low := 4 * x.mantissa - (if x.isNarrowBelow then 1 else 2)
  exact := 4 * x.mantissa
  high := 4 * x.mantissa + 2
  closed := x.mantissa % 2 = 0
  scale := x.scale - 2

/-- The interval's points and the grid `10 ^ k` as multiples of one common unit. -/
def Interval.measure (i : Interval) (k : Int) (n : Nat) : Nat :=
  n * powerNum 2 i.scale * powerDen 10 k

def Interval.gridStep (i : Interval) (k : Int) : Nat := powerDen 2 i.scale * powerNum 10 k

def Interval.contains (i : Interval) (k : Int) (c : Nat) : Bool :=
  let point := c * i.gridStep k
  if i.closed then i.measure k i.low ≤ point && point ≤ i.measure k i.high
  else i.measure k i.low < point && point < i.measure k i.high

/-- The multiple of `10 ^ k` in the interval that is nearest to the exact value. -/
def Interval.nearest? (i : Interval) (k : Int) : Option Nat :=
  let below := i.measure k i.exact / i.gridStep k
  let rest := i.measure k i.exact % i.gridStep k
  match i.contains k below, i.contains k (below + 1) with
  | true, true => some (if i.gridStep k ≤ 2 * rest then below + 1 else below)
  | true, false => some below
  | false, true => some (below + 1)
  | false, false => none

/-- The least `e` for which the value is below `10 ^ e`. -/
def Interval.magnitude (i : Interval) : Int :=
  let num := i.exact * powerNum 2 i.scale
  let den := powerDen 2 i.scale
  if den ≤ num then (Nat.toDigits 10 (num / den)).length
  else -((List.range 400).findIdx fun j => den ≤ num * Nat.pow 10 (j + 1) : Nat)

def Decimal.normalize (d : Decimal) : Decimal :=
  let zeros := ((Nat.toDigits 10 d.coefficient).reverse.takeWhile (· = '0')).length
  ⟨d.coefficient / Nat.pow 10 zeros, d.exponent + zeros⟩

def Interval.truncate (i : Interval) (k : Int) : Decimal :=
  ⟨i.measure k i.exact / i.gridStep k, k⟩

/-- The shortest decimal of a positive finite flonum; seventeen digits always suffice. -/
def shortest (x : Flonum) : Decimal :=
  let i := x.interval
  let grids := (List.range 17).map fun (n : Nat) => i.magnitude - (n + 1 : Nat)
  let found := grids.findSome? fun k => (i.nearest? k).map (Decimal.mk · k)
  (found.getD (i.truncate (i.magnitude - 17))).normalize

end PatternCompiler.Flonum
