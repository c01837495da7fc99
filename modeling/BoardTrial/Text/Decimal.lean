/-!
# Decimal numerals

A numeral in positional notation, and the floating point number nearest to it. The nearest number is
found with whole numbers alone: a fraction is measured in units in the last place of its binary
exponent, and the count of units is rounded, a half to the even neighbor.

This module stands for the reading of numbers in the standard library.
-/

namespace BoardTrial

/-- The whole number nearest to `n / d`, of two equally near the even one. -/
def roundQuotient (n d : Nat) : Nat :=
  let q := n / d
  let r := n % d
  if 2 * r < d then q else if d < 2 * r then q + 1 else q + q % 2

/-- The exponent of the largest power of two that is at most `n / d`, for positive `n` and `d`. -/
def binaryExponent (n d : Nat) : Int :=
  let l : Int := (n.log2 : Int) - d.log2
  let fits := if 0 ≤ l then d <<< l.toNat ≤ n else d ≤ n <<< (-l).toNat
  if fits then l else l - 1

/-- The bits of the double nearest to `n / d`, of two equally near the one whose last bit is zero.
Above all finite numbers comes infinity. -/
def nearestBits (n d : Nat) : Nat :=
  if n = 0 then 0
  else
    let e := max (binaryExponent n d - 52) (-1074)
    let units :=
      if 0 ≤ e then roundQuotient n (d <<< e.toNat) else roundQuotient (n <<< (-e).toNat) d
    min ((e + 1074).toNat <<< 52 + units) 0x7FF0000000000000

/-- The double nearest to `n / d`. -/
def nearestFloat (n d : Nat) : Float := Float.ofBits (UInt64.ofNat (nearestBits n d))

example : nearestBits 1 10 = 0x3FB999999999999A := by decide +kernel

example : nearestBits 1 (1 <<< 1074) = 1 ∧ nearestBits 1 (1 <<< 1075) = 0 := by decide +kernel

example : nearestBits (1 <<< 1024) 1 = 0x7FF0000000000000 := by decide +kernel

/-- A decimal numeral: a sign, the digits before the point and those behind it. -/
structure Decimal where
  /-- Whether a minus sign comes first. -/
  negative : Bool
  /-- The digits before the point. -/
  whole : List Char
  /-- The digits behind the point, none if there is no point. -/
  fraction : List Char
  deriving DecidableEq

namespace Decimal

/-- The number that digits write. -/
def natOfDigits (ds : List Char) : Nat := ds.foldl (fun n d => 10 * n + (d.toNat - '0'.toNat)) 0

/-- The double nearest to a numeral; zero keeps its sign. -/
def toFloat (d : Decimal) : Float :=
  let x := nearestFloat (natOfDigits (d.whole ++ d.fraction)) (Nat.pow 10 d.fraction.length)
  if d.negative then -x else x

end Decimal

end BoardTrial
