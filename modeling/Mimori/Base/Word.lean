/-
Signed words of 64 bits. A shift to the left loses the bits beyond the word, however far it goes, and a product wraps
around; the word that comes out is the exact value brought back into the range, and keeps its divisors of the range.
-/
import Mathlib.Algebra.Order.Ring.Int
import Mathlib.Tactic.Common

namespace Int64

/-- The shift to the left by any distance; `<<<` takes the distance modulo 64. -/
def shl (x : Int64) (n : Nat) : Int64 := .ofBitVec (x.toBitVec <<< n)

theorem toInt_shl (x : Int64) (n : Nat) : (x.shl n).toInt = (x.toInt * 2 ^ n).bmod (2 ^ 64) := by
  rw [shl, toInt_ofBitVec, BitVec.toInt_shiftLeft, Nat.shiftLeft_eq, ← toInt_toBitVec, BitVec.toInt_eq_toNat_bmod,
    Int.bmod_mul_bmod]
  push_cast
  rfl

theorem toInt_shl_mul (x c : Int64) (n : Nat) : (x.shl n * c).toInt = (x.toInt * 2 ^ n * c.toInt).bmod (2 ^ 64) := by
  rw [toInt_mul, toInt_shl, Int.bmod_mul_bmod]

/-- What divides the value and the range divides the word. -/
theorem dvd_bmod {d z : Int} {m : Nat} (hm : d ∣ (m : Int)) (hz : d ∣ z) : d ∣ z.bmod m := by
  have hdiff : d ∣ z - z.bmod m := Int.dvd_trans hm Int.dvd_self_sub_bmod
  simpa using Int.dvd_sub hz hdiff

end Int64
