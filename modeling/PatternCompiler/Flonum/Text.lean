import PatternCompiler.Flonum.Shortest
import PatternCompiler.Text.Inspect

/-!
# Text of flonums

The shortest decimal, written positionally with at least one fraction digit when its leading digit
stands between the fourth fraction place and the sixteenth integer place, and with a bare exponent
otherwise.
-/

namespace PatternCompiler.Flonum

set_option autoImplicit false

/-- The powers of ten of the leading digit that are written positionally. -/
def leastPositional : Int := -4

def mostPositional : Int := 15

def zeros (n : Nat) : List Char := List.replicate n '0'

def Decimal.positional (d : Decimal) : List Char :=
  let digits := Nat.toDigits 10 d.coefficient
  let places := (-d.exponent).toNat
  if 0 ≤ d.exponent then digits ++ zeros d.exponent.toNat ++ ['.', '0']
  else if places < digits.length then
    digits.take (digits.length - places) ++ '.' :: digits.drop (digits.length - places)
  else '0' :: '.' :: zeros (places - digits.length) ++ digits

/-- Digits with a point after the first, if more follow, and the power of ten of the first. -/
def Decimal.scientific (d : Decimal) (leading : Int) : List Char :=
  let digits := Nat.toDigits 10 d.coefficient
  let fraction := if digits.length ≤ 1 then [] else '.' :: digits.drop 1
  digits.take 1 ++ fraction ++ 'e' :: (toString leading).toList

def Decimal.text (d : Decimal) : String :=
  let leading : Int := d.exponent + ((Nat.toDigits 10 d.coefficient).length : Int) - 1
  if leastPositional ≤ leading ∧ leading ≤ mostPositional then String.ofList d.positional
  else String.ofList (d.scientific leading)

def unsignedText (x : Flonum) : String :=
  if x.isInfinite then "inf"
  else if x.isZero then "0.0"
  else x.shortest.text

/-- The text of a flonum; a NaN has no sign. -/
def text (x : Flonum) : String :=
  if x.isNaN then "NaN"
  else if x.isNegative then "-" ++ x.unsignedText
  else x.unsignedText

instance : Inspect Flonum := ⟨text⟩

end PatternCompiler.Flonum
