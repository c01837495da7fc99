import BoardTrial.Text.Decimal
import Mathlib.Algebra.Group.Nat.Defs
import Mathlib.Data.List.Basic
import Mathlib.Data.Nat.Init

/-!
# Numerals in writing

Decimal numerals as they are written: an optional minus sign, digits without a superfluous zero in
front, and if there are digits behind the point, the point and those. Every finite double is such a
numeral exactly (`Numeral.ofFloat`).
-/

namespace BoardTrial

/-- A decimal numeral that can be written: its first digit is zero only if no other stands before
the point. -/
structure Numeral extends Decimal where
  /-- There are digits before the point. -/
  ne_nil : whole ≠ []
  /-- They are digits. -/
  isDigit_whole : ∀ c ∈ whole, c.isDigit = true
  /-- Only zero itself starts with zero. -/
  eq_zero : whole.head? = some '0' → whole = ['0']
  /-- Behind the point there are digits only. -/
  isDigit_fraction : ∀ c ∈ fraction, c.isDigit = true

/-- The digits of a positive number do not start with zero. -/
theorem head?_toDigits_ne_zero {n : Nat} (h : 0 < n) : (Nat.toDigits 10 n).head? ≠ some '0' := by
  induction n using Nat.base_induction 10 (by decide) with
  | single m hm =>
    rw [Nat.toDigits_of_lt_base hm]
    intro hz
    have hzero : m.digitChar = '0' := Option.some.inj hz
    have := Nat.toNat_digitChar_sub_48_of_lt_ten hm
    rw [hzero] at this
    simp at this
    omega
  | digit m k hk hm ih =>
    rw [← Nat.toDigits_append_toDigits (by decide) hm hk,
      List.head?_append_of_ne_nil _ Nat.toDigits_ne_nil]
    exact ih hm

namespace Numeral

/-- The minus sign, if there is one. -/
def sign (n : Numeral) : List Char := if n.negative then ['-'] else []

/-- The point and the digits behind it, if there are any. -/
def behindPoint (n : Numeral) : List Char := if n.fraction.isEmpty then [] else '.' :: n.fraction

/-- The numeral in writing. -/
def text (n : Numeral) : List Char := n.sign ++ n.whole ++ n.behindPoint

/-- The digits of `n`, with zeros in front so that one comes before the last `k`. -/
def paddedDigits (n k : Nat) : List Char := (Nat.toDigits 10 n).leftpad (k + 1) '0'

theorem lt_length_paddedDigits (n k : Nat) : k < (paddedDigits n k).length := by
  rw [paddedDigits, List.length_leftpad]
  exact Nat.le_max_left _ _

theorem isDigit_paddedDigits {n k : Nat} {c : Char} (h : c ∈ paddedDigits n k) :
    c.isDigit = true := by
  rw [paddedDigits, List.leftpad, List.mem_append] at h
  rcases h with h | h
  · rw [List.eq_of_mem_replicate h]
    decide
  · exact Nat.isDigit_of_mem_toDigits (by decide) (by decide) h

/-- The numeral for `n` divided by ten `k` times, with `k` digits behind the point. -/
def ofScaled (negative : Bool) (n k : Nat) : Numeral where
  negative
  whole := (paddedDigits n k).take ((paddedDigits n k).length - k)
  fraction := (paddedDigits n k).drop ((paddedDigits n k).length - k)
  ne_nil := by
    have := lt_length_paddedDigits n k
    rw [← List.length_pos_iff, List.length_take]
    omega
  isDigit_whole c hc := isDigit_paddedDigits (List.mem_of_mem_take hc)
  eq_zero h := by
    rcases Nat.lt_or_ge (k + 1) (Nat.toDigits 10 n).length with hlong | hshort
    · -- no zero was put in front, and the digits of a positive number do not start with one
      have hpadded : paddedDigits n k = Nat.toDigits 10 n := by
        rw [paddedDigits, List.leftpad, Nat.sub_eq_zero_of_le (Nat.le_of_lt hlong),
          List.replicate_zero, List.nil_append]
      rw [hpadded, List.head?_take, if_neg (by omega)] at h
      rcases Nat.eq_zero_or_pos n with rfl | hpos
      · exact absurd hlong (by simp)
      · exact absurd h (head?_toDigits_ne_zero hpos)
    · -- only one digit comes before the point
      have hone : (paddedDigits n k).length - k = 1 := by
        rw [paddedDigits, List.length_leftpad, Nat.max_eq_left hshort]
        omega
      rw [hone] at h ⊢
      cases hcs : paddedDigits n k with
      | nil => simp [hcs] at h
      | cons c cs =>
        rw [hcs] at h
        exact congrArg (fun c => [c]) (Option.some.inj h)
  isDigit_fraction c hc := isDigit_paddedDigits (List.mem_of_mem_drop hc)

/-- The fewest digits behind the point with which `n / 2 ^ q` is written exactly. -/
def places (n q : Nat) : Nat :=
  ((List.range q).find? fun k => n * 10 ^ k % 2 ^ q == 0).getD q

/-- The number that the digits of `n / 2 ^ q` write without the point. -/
def scaled (n q : Nat) : Nat := n * 10 ^ places n q / 2 ^ q

/-- The numeral for `n` times the smallest positive double, which is `1 / 2 ^ 1074`. -/
def ofUnits (negative : Bool) (n : Nat) : Numeral :=
  ofScaled negative (scaled n 1074) (places n 1074)

/-- How many times the smallest positive double it is that the bits `b` stand for, without a sign.
For the bits of infinity it is the least that is too large. -/
def unitsOfBits (b : Nat) : Nat :=
  let e := b / 2 ^ 52 - 1
  (b - e * 2 ^ 52) * 2 ^ e

/-- The numeral for a double: exact if it is finite, and too large for all finite doubles if it is
infinite. -/
def ofFloat (x : Float) : Numeral :=
  ofUnits (decide (2 ^ 63 ≤ x.toBits.toNat)) (unitsOfBits (x.toBits.toNat % 2 ^ 63))

end Numeral

example : (Numeral.ofFloat (-12.5)).text = ['-', '1', '2', '.', '5'] := by decide +kernel

end BoardTrial
