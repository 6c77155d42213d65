/-
The standard base64 encoding with padding: three bytes are four digits, and a last group of one or two
bytes is filled up with padding. Reading skips line breaks, as Go's decoder does, and does not look at the
bits that a last group has too many.
-/
import Mathlib.Data.List.Basic

namespace Base64

/-- The padding character `=`. -/
def pad : UInt8 := 61

/-- The digits are the letters, upper case first, the decimal digits, `+` and `/`. -/
def digit (n : Nat) : UInt8 :=
  if n < 26 then .ofNat (65 + n)
  else if n < 52 then .ofNat (97 + (n - 26))
  else if n < 62 then .ofNat (48 + (n - 52))
  else if n = 62 then 43
  else 47

/-- The value of a digit. -/
def value (c : UInt8) : Option Nat :=
  if 65 ≤ c ∧ c ≤ 90 then some (c.toNat - 65)
  else if 97 ≤ c ∧ c ≤ 122 then some (c.toNat - 97 + 26)
  else if 48 ≤ c ∧ c ≤ 57 then some (c.toNat - 48 + 52)
  else if c = 43 then some 62
  else if c = 47 then some 63
  else none

def encode : List UInt8 → List UInt8
  | [] => []
  | [a] => [digit (a.toNat / 4), digit (a.toNat % 4 * 16), pad, pad]
  | [a, b] => [digit (a.toNat / 4), digit (a.toNat % 4 * 16 + b.toNat / 16), digit (b.toNat % 16 * 4), pad]
  | a :: b :: c :: s =>
    digit (a.toNat / 4) :: digit (a.toNat % 4 * 16 + b.toNat / 16) :: digit (b.toNat % 16 * 4 + c.toNat / 64) ::
      digit (c.toNat % 64) :: encode s

/-- The bytes of four digits. -/
def group (c₁ c₂ c₃ c₄ : UInt8) : Option (List UInt8) := do
  let v₁ ← value c₁
  let v₂ ← value c₂
  let v₃ ← value c₃
  let v₄ ← value c₄
  return [.ofNat (v₁ * 4 + v₂ / 16), .ofNat (v₂ % 16 * 16 + v₃ / 4), .ofNat (v₃ % 4 * 64 + v₄)]

/-- The bytes of the last four characters, which may end in padding. -/
def lastGroup (c₁ c₂ c₃ c₄ : UInt8) : Option (List UInt8) :=
  if c₄ ≠ pad then group c₁ c₂ c₃ c₄
  else if c₃ ≠ pad then do
    let v₁ ← value c₁
    let v₂ ← value c₂
    let v₃ ← value c₃
    return [.ofNat (v₁ * 4 + v₂ / 16), .ofNat (v₂ % 16 * 16 + v₃ / 4)]
  else do
    let v₁ ← value c₁
    let v₂ ← value c₂
    return [.ofNat (v₁ * 4 + v₂ / 16)]

def decodeGroups : List UInt8 → Option (List UInt8)
  | [] => some []
  | [c₁, c₂, c₃, c₄] => lastGroup c₁ c₂ c₃ c₄
  | c₁ :: c₂ :: c₃ :: c₄ :: s => do
    let bytes ← group c₁ c₂ c₃ c₄
    let rest ← decodeGroups s
    return bytes ++ rest
  | _ => none

def decode (s : List UInt8) : Option (List UInt8) := decodeGroups (s.filter fun c => c != 10 && c != 13)

/-! ## The round trip -/

theorem value_digit {n : Nat} (h : n < 64) : value (digit n) = some n := by
  revert n
  decide

theorem digit_ne_pad {n : Nat} (h : n < 64) : digit n ≠ pad := by
  revert n
  decide

theorem digit_kept {n : Nat} (h : n < 64) : (digit n != 10 && digit n != 13) = true := by
  revert n
  decide

theorem ofNat_toNat_of_eq {a : UInt8} {n : Nat} (h : n = a.toNat) : UInt8.ofNat n = a := by
  rw [h, UInt8.ofNat_toNat]

theorem group_encode (a b c : UInt8) :
    group (digit (a.toNat / 4)) (digit (a.toNat % 4 * 16 + b.toNat / 16)) (digit (b.toNat % 16 * 4 + c.toNat / 64))
      (digit (c.toNat % 64)) = some [a, b, c] := by
  have ha := a.toNat_lt
  have hb := b.toNat_lt
  have hc := c.toNat_lt
  rw [group, value_digit (by omega), value_digit (by omega), value_digit (by omega), value_digit (by omega)]
  show some [UInt8.ofNat _, UInt8.ofNat _, UInt8.ofNat _] = _
  rw [ofNat_toNat_of_eq (a := a) (by omega), ofNat_toNat_of_eq (a := b) (by omega), ofNat_toNat_of_eq (a := c) (by omega)]

/-- The digits of full groups are read group by group, whatever follows them. -/
theorem decodeGroups_cons {c₁ c₂ c₃ c₄ : UInt8} {bytes rest s : List UInt8} (h₄ : c₄ ≠ pad)
    (hg : group c₁ c₂ c₃ c₄ = some bytes) (hr : decodeGroups s = some rest) :
    decodeGroups (c₁ :: c₂ :: c₃ :: c₄ :: s) = some (bytes ++ rest) := by
  cases s with
  | nil =>
    cases hr
    rw [decodeGroups, lastGroup, if_pos h₄, hg, List.append_nil]
  | cons c s =>
    rw [decodeGroups, hg, hr]
    · rfl
    · simp

theorem decodeGroups_encode : ∀ s : List UInt8, decodeGroups (encode s) = some s
  | [] => rfl
  | [a] => by
    have ha := a.toNat_lt
    rw [encode, decodeGroups, lastGroup, if_neg (by simp), if_neg (by simp), value_digit (by omega),
      value_digit (by omega)]
    show some [UInt8.ofNat _] = _
    rw [ofNat_toNat_of_eq (a := a) (by omega)]
  | [a, b] => by
    have ha := a.toNat_lt
    have hb := b.toNat_lt
    rw [encode, decodeGroups, lastGroup, if_neg (by simp), if_pos (digit_ne_pad (by omega)), value_digit (by omega),
      value_digit (by omega), value_digit (by omega)]
    show some [UInt8.ofNat _, UInt8.ofNat _] = _
    rw [ofNat_toNat_of_eq (a := a) (by omega), ofNat_toNat_of_eq (a := b) (by omega)]
  | a :: b :: c :: s => by
    rw [encode]
    exact decodeGroups_cons (digit_ne_pad (by omega)) (group_encode a b c) (decodeGroups_encode s)

theorem mem_encode : ∀ (s : List UInt8), ∀ c ∈ encode s, c = pad ∨ ∃ n < 64, c = digit n
  | [] => by simp [encode]
  | [a] => by
    have ha := a.toNat_lt
    intro c hc
    simp only [encode, List.mem_cons, List.not_mem_nil, or_false] at hc
    rcases hc with rfl | rfl | rfl | rfl
    · exact .inr ⟨_, by omega, rfl⟩
    · exact .inr ⟨_, by omega, rfl⟩
    · exact .inl rfl
    · exact .inl rfl
  | [a, b] => by
    have ha := a.toNat_lt
    have hb := b.toNat_lt
    intro c hc
    simp only [encode, List.mem_cons, List.not_mem_nil, or_false] at hc
    rcases hc with rfl | rfl | rfl | rfl
    · exact .inr ⟨_, by omega, rfl⟩
    · exact .inr ⟨_, by omega, rfl⟩
    · exact .inr ⟨_, by omega, rfl⟩
    · exact .inl rfl
  | a :: b :: d :: s => by
    have ha := a.toNat_lt
    have hb := b.toNat_lt
    have hd := d.toNat_lt
    intro c hc
    simp only [encode, List.mem_cons] at hc
    rcases hc with rfl | rfl | rfl | rfl | hc
    · exact .inr ⟨_, by omega, rfl⟩
    · exact .inr ⟨_, by omega, rfl⟩
    · exact .inr ⟨_, by omega, rfl⟩
    · exact .inr ⟨_, by omega, rfl⟩
    · exact mem_encode s c hc

theorem encode_ascii (s : List UInt8) : ∀ c ∈ encode s, c < 0x80 := by
  have hdigit : ∀ n < 64, digit n < 0x80 := by decide
  intro c hc
  rcases mem_encode s c hc with rfl | ⟨n, hn, rfl⟩
  · decide
  · exact hdigit n hn

theorem decode_encode (s : List UInt8) : decode (encode s) = some s := by
  have hkeep : (encode s).filter (fun c => c != 10 && c != 13) = encode s := by
    refine List.filter_eq_self.2 fun c hc => ?_
    rcases mem_encode s c hc with rfl | ⟨n, hn, rfl⟩
    · rfl
    · exact digit_kept hn
  rw [decode, hkeep, decodeGroups_encode]

end Base64
