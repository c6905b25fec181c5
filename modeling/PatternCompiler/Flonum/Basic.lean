/-!
# Floating-point numbers by their bits

A flonum is the 64 bits of a binary floating-point number. Two flonums are the same number for the
comparators exactly when their bits agree, so a NaN is itself and the two zeros differ; the
numeric comparison, which sees them the other way round, is kept apart.
-/

namespace PatternCompiler

set_option autoImplicit false

structure Flonum where
  bits : UInt64
deriving DecidableEq, Inhabited

namespace Flonum

/-- The weight of the leading bit that is not stored, `2 ^ 52`. -/
def hiddenBit : Nat := 4503599627370496

def isNegative (x : Flonum) : Bool := 2048 ≤ x.bits.toNat / hiddenBit

def exponentField (x : Flonum) : Nat := x.bits.toNat / hiddenBit % 2048

def fractionField (x : Flonum) : Nat := x.bits.toNat % hiddenBit

def isNaN (x : Flonum) : Bool := x.exponentField = 2047 && x.fractionField ≠ 0

def isInfinite (x : Flonum) : Bool := x.exponentField = 2047 && x.fractionField = 0

def isZero (x : Flonum) : Bool := x.exponentField = 0 && x.fractionField = 0

/-- The absolute value of a finite flonum is `mantissa * 2 ^ scale`. -/
def mantissa (x : Flonum) : Nat :=
  if x.exponentField = 0 then x.fractionField else x.fractionField + hiddenBit

def scale (x : Flonum) : Int :=
  if x.exponentField = 0 then -1074 else (x.exponentField : Int) - 1075

/-- The next flonum towards zero is only half as far away as the next one outwards. -/
def isNarrowBelow (x : Flonum) : Bool := x.fractionField = 0 && 1 < x.exponentField

/-- Numeric equality: a NaN equals nothing and the zeros are equal. -/
def numericEq (x y : Flonum) : Bool :=
  !x.isNaN && !y.isNaN && (x = y || (x.isZero && y.isZero))

end Flonum

end PatternCompiler
