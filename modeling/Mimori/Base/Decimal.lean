/-
Decimal integers as text: Go's `strconv.Itoa` and `strconv.Atoi` on 64 bits. Reading back what was
printed gives the number, and only signs and digits are ever read.
-/
import Mathlib.Data.Nat.Digits.Lemmas
import Mathlib.Data.Int.Basic

namespace Decimal

variable {b : UInt8} {d n : Nat} {s : List UInt8} {z : Int}

def isDigit (b : UInt8) : Bool := decide (48 ≤ b) && decide (b ≤ 57)

/-- The character of a digit. -/
def digitByte (d : Nat) : UInt8 := .ofNat (48 + d)

/-- The digit that a character stands for. -/
def digitOf (b : UInt8) : Nat := b.toNat - 48

theorem digit_bounds (h : isDigit b = true) : 48 ≤ b ∧ b ≤ 57 := by
  simpa [isDigit] using h

/-! ## Natural numbers -/

def natText (n : Nat) : List UInt8 :=
  if n = 0 then [48] else (Nat.digits 10 n).reverse.map digitByte

/-- The number that a text of digits stands for, leading zeros allowed. -/
def natValue (s : List UInt8) : Option Nat :=
  if s ≠ [] ∧ s.all isDigit = true then some (Nat.ofDigits 10 (s.reverse.map digitOf)) else none

theorem toNat_digitByte (h : d < 10) : (digitByte d).toNat = 48 + d := by
  rw [digitByte, UInt8.toNat_ofNat']
  omega

theorem digitOf_digitByte (h : d < 10) : digitOf (digitByte d) = d := by
  rw [digitOf, toNat_digitByte h]
  omega

theorem isDigit_digitByte (h : d < 10) : isDigit (digitByte d) = true := by
  have := toNat_digitByte h
  simp only [isDigit, Bool.and_eq_true, decide_eq_true_eq, UInt8.le_iff_toNat_le, this]
  exact ⟨Nat.le_add_right 48 d, by show 48 + d ≤ 57; omega⟩

theorem natText_digits (n : Nat) : ∀ b ∈ natText n, isDigit b = true := by
  intro b hb
  unfold natText at hb
  split at hb
  · rw [List.mem_singleton] at hb
    rw [hb]; rfl
  · obtain ⟨d, hd, rfl⟩ := List.mem_map.1 hb
    exact isDigit_digitByte (Nat.digits_lt_base (by decide) (List.mem_reverse.1 hd))

theorem natText_ne_nil (n : Nat) : natText n ≠ [] := by
  unfold natText
  split
  · exact List.cons_ne_nil _ _
  · rename_i hn
    rw [Ne, List.map_eq_nil_iff, List.reverse_eq_nil_iff]
    exact Nat.digits_ne_nil_iff_ne_zero.2 hn

theorem natText_leading {t : List UInt8} (h : natText n = 48 :: t) : t = [] := by
  unfold natText at h
  split at h
  · exact (List.cons.inj h).2.symm
  · rename_i hn
    exfalso
    have hne : Nat.digits 10 n ≠ [] := Nat.digits_ne_nil_iff_ne_zero.2 hn
    have hlast := Nat.getLast_digit_ne_zero 10 hn
    have hlt := Nat.digits_lt_base (b := 10) (by decide) (List.getLast_mem hne)
    have hhead := congrArg List.head? h
    rw [List.head?_map, List.head?_reverse, List.getLast?_eq_getLast_of_ne_nil hne] at hhead
    have hb := congrArg UInt8.toNat (Option.some.inj hhead)
    rw [toNat_digitByte hlt] at hb
    have h48 : (48 : UInt8).toNat = 48 := rfl
    omega

theorem natValue_natText (n : Nat) : natValue (natText n) = some n := by
  rw [natValue, if_pos ⟨natText_ne_nil n, List.all_eq_true.2 (natText_digits n)⟩]
  unfold natText
  split
  · rename_i hn
    rw [hn]; rfl
  · -- the digits come back one by one, least significant first
    have hback : ((Nat.digits 10 n).reverse.map digitByte).reverse.map digitOf = Nat.digits 10 n := by
      rw [← List.map_reverse, List.reverse_reverse, List.map_map]
      refine (List.map_congr_left fun d hd => ?_).trans (List.map_id _)
      exact digitOf_digitByte (Nat.digits_lt_base (by decide) hd)
    rw [hback, Nat.ofDigits_digits]

theorem natText_injective {m : Nat} (h : natText m = natText n) : m = n := by
  have := natValue_natText m
  rw [h, natValue_natText] at this
  exact (Option.some.inj this).symm

theorem natValue_digits (h : natValue s = some n) : s ≠ [] ∧ ∀ b ∈ s, isDigit b = true := by
  unfold natValue at h
  split at h
  · rename_i hs
    exact ⟨hs.1, List.all_eq_true.1 hs.2⟩
  · cases h

/-! ## Integers of 64 bits -/

/-- What an `int` keeps of a number. -/
def int64 (z : Int) : Int := z.bmod (2 ^ 64)

/-- The number is one of an `int`. -/
def Fits (z : Int) : Prop := -(2 ^ 63) ≤ z ∧ z < 2 ^ 63

theorem int64_of_fits (h : Fits z) : int64 z = z := Int.bmod_eq_of_le (by have := h.1; omega) (by have := h.2; omega)

theorem fits_int64 (z : Int) : Fits (int64 z) :=
  ⟨Int.le_bmod (by decide), Int.bmod_lt (by decide)⟩

/-- `strconv.Itoa`. -/
def itoa (z : Int) : List UInt8 := if z < 0 then 45 :: natText z.natAbs else natText z.natAbs

/-- The sign that a text starts with, and what follows it. -/
def sign : List UInt8 → Bool × List UInt8
  | [] => (false, [])
  | b :: s => if b = 45 then (true, s) else if b = 43 then (false, s) else (false, b :: s)

/-- `strconv.Atoi`: the number, and whether the text was that of one. A number that does not fit is cut to
the nearest that does. -/
def atoi (s : List UInt8) : Int × Bool :=
  match natValue (sign s).2 with
  | none => (0, false)
  | some n =>
    if (sign s).1 then
      if n ≤ 2 ^ 63 then (-n, true) else (-(2 ^ 63), false)
    else if n < 2 ^ 63 then (n, true)
    else (2 ^ 63 - 1, false)

theorem sign_of_digit (h : isDigit b = true) : sign (b :: s) = (false, b :: s) := by
  have hb : b ≠ 45 ∧ b ≠ 43 := by constructor <;> (rintro rfl; cases h)
  rw [sign, if_neg hb.1, if_neg hb.2]

theorem sign_natText (n : Nat) : sign (natText n) = (false, natText n) := by
  obtain ⟨b, s, hs⟩ := List.exists_cons_of_ne_nil (natText_ne_nil n)
  rw [hs]
  exact sign_of_digit (natText_digits n b (by rw [hs]; exact List.mem_cons_self))

/-- A printed number is read as itself. -/
theorem atoi_itoa (h : Fits z) : atoi (itoa z) = (z, true) := by
  obtain ⟨hlo, hhi⟩ := h
  unfold itoa
  split
  · have hs : sign (45 :: natText z.natAbs) = (true, natText z.natAbs) := rfl
    simp only [atoi, hs, natValue_natText, if_true]
    rw [if_pos (by omega)]
    exact Prod.ext (by show -(z.natAbs : Int) = z; omega) rfl
  · simp only [atoi, sign_natText, natValue_natText, Bool.false_eq_true, if_false]
    rw [if_pos (by omega)]
    exact Prod.ext (by show (z.natAbs : Int) = z; omega) rfl

theorem itoa_natCast (n : Nat) : itoa n = natText n := by
  rw [itoa, if_neg (by omega)]
  rfl

theorem itoa_natCast_inj {m : Nat} : itoa m = itoa n ↔ m = n := by
  rw [itoa_natCast, itoa_natCast]
  exact ⟨natText_injective, fun h => by rw [h]⟩

/-- The characters of a number. -/
def isNumeral (b : UInt8) : Bool := isDigit b || b == 45 || b == 43

theorem itoa_numerals (z : Int) : ∀ b ∈ itoa z, isNumeral b = true := by
  have hdigits : ∀ b ∈ natText z.natAbs, isNumeral b = true := fun b hb => by
    rw [isNumeral, natText_digits _ b hb]; rfl
  intro b hb
  unfold itoa at hb
  split at hb
  · rcases List.mem_cons.1 hb with rfl | hb
    · rfl
    · exact hdigits b hb
  · exact hdigits b hb

theorem sign_mem (hb : b ∈ s) : b ∈ (sign s).2 ∨ b = 45 ∨ b = 43 := by
  cases s with
  | nil => cases hb
  | cons c s =>
    rw [sign]
    split
    · rename_i hc
      rcases List.mem_cons.1 hb with rfl | hb
      · exact .inr (.inl hc)
      · exact .inl hb
    · split
      · rename_i hc
        rcases List.mem_cons.1 hb with rfl | hb
        · exact .inr (.inr hc)
        · exact .inl hb
      · exact .inl hb

theorem atoi_numerals (h : atoi s = (z, true)) : ∀ b ∈ s, isNumeral b = true := by
  unfold atoi at h
  rcases hv : natValue (sign s).2 with _ | n
  · rw [hv] at h
    cases h
  · intro b hb
    rcases sign_mem hb with hb | rfl | rfl
    · rw [isNumeral, (natValue_digits hv).2 b hb]; rfl
    · rfl
    · rfl

end Decimal
