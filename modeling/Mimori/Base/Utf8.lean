/-
UTF-8 as Go reads it. A byte string is cut into pieces: the characters it holds, and the bytes that
belong to none, each on its own. Coercing it to valid UTF-8 puts U+FFFD in the place of each of these, and
changes nothing exactly when there are none.
-/
import Mathlib.Data.List.Basic

namespace Utf8

variable {lo hi a b : UInt8} {n k : Nat} {s c : List UInt8}

/-! ## Characters -/

/-- What a first byte asks for: how many bytes follow it, and the bounds of the first of them. -/
def lead (a : UInt8) : Option (Nat × UInt8 × UInt8) :=
  if a < 0x80 then some (0, 0x80, 0xBF)
  else if a < 0xC2 then none
  else if a ≤ 0xDF then some (1, 0x80, 0xBF)
  else if a = 0xE0 then some (2, 0xA0, 0xBF)
  else if a = 0xED then some (2, 0x80, 0x9F)
  else if a ≤ 0xEF then some (2, 0x80, 0xBF)
  else if a = 0xF0 then some (3, 0x90, 0xBF)
  else if a ≤ 0xF3 then some (3, 0x80, 0xBF)
  else if a = 0xF4 then some (3, 0x80, 0x8F)
  else none

/-- The string starts with `n` continuation bytes, the first of them within bounds of its own. -/
def tails (lo hi : UInt8) : Nat → List UInt8 → Bool
  | 0, _ => true
  | _ + 1, [] => false
  | n + 1, b :: s => decide (lo ≤ b) && decide (b ≤ hi) && tails 0x80 0xBF n s

/-- The size of the character that the string starts with. -/
def charSize : List UInt8 → Option Nat
  | [] => none
  | a :: s =>
    match lead a with
    | none => none
    | some (n, lo, hi) => if tails lo hi n s then some (n + 1) else none

/-- The bytes of one character. -/
def IsChar (c : List UInt8) : Prop := charSize c = some c.length

instance (c : List UInt8) : Decidable (IsChar c) := inferInstanceAs (Decidable (_ = _))

/-- The bytes of the character with this number; surrogates and numbers above U+10FFFF are none and give U+FFFD. -/
def encodeRune (r : Nat) : List UInt8 :=
  if r < 0x80 then [.ofNat r]
  else if r < 0x800 then [.ofNat (0xC0 + r / 64), .ofNat (0x80 + r % 64)]
  else if (0xD800 ≤ r ∧ r < 0xE000) ∨ 0x110000 ≤ r then [0xEF, 0xBF, 0xBD]
  else if r < 0x10000 then [.ofNat (0xE0 + r / 4096), .ofNat (0x80 + r / 64 % 64), .ofNat (0x80 + r % 64)]
  else [.ofNat (0xF0 + r / 262144), .ofNat (0x80 + r / 4096 % 64), .ofNat (0x80 + r / 64 % 64), .ofNat (0x80 + r % 64)]

/-- U+FFFD. -/
def runeError : List UInt8 := encodeRune 0xFFFD

/-! ## Pieces -/

inductive Piece
  | char (bytes : List UInt8)
  | bad (byte : UInt8)
  deriving DecidableEq

def Piece.bytes : Piece → List UInt8
  | .char c => c
  | .bad b => [b]

/-- The piece as valid UTF-8. -/
def Piece.coerced : Piece → List UInt8
  | .char c => c
  | .bad _ => runeError

def Piece.Proper : Piece → Prop
  | .char c => IsChar c
  | .bad _ => True

/-- The pieces of a string of at most `n` bytes. -/
def splitN : Nat → List UInt8 → List Piece
  | 0, _ => []
  | _ + 1, [] => []
  | n + 1, b :: s =>
    match charSize (b :: s) with
    | some k => .char ((b :: s).take k) :: splitN n ((b :: s).drop k)
    | none => .bad b :: splitN n s

def split (s : List UInt8) : List Piece := splitN s.length s

/-- The string with every byte that belongs to no character replaced by U+FFFD. -/
def coerce (s : List UInt8) : List UInt8 := (split s).flatMap Piece.coerced

/-- Every byte belongs to a character. -/
def valid (s : List UInt8) : Bool := (split s).all fun p => p == .char p.bytes

/-! ## Facts -/

theorem tails_length (h : tails lo hi n s = true) : n ≤ s.length := by
  induction n generalizing lo hi s with
  | zero => exact Nat.zero_le _
  | succ n ih =>
    cases s with
    | nil => cases h
    | cons b s =>
      simp only [tails, Bool.and_eq_true] at h
      exact Nat.succ_le_succ (ih h.2)

theorem tails_append (t : List UInt8) (h : n ≤ s.length) : tails lo hi n (s ++ t) = tails lo hi n s := by
  induction n generalizing lo hi s with
  | zero => cases s <;> rfl
  | succ n ih =>
    cases s with
    | nil => cases h
    | cons b s => rw [List.cons_append, tails, tails, ih (Nat.le_of_succ_le_succ h)]

theorem tails_high (hlo : 0x80 ≤ lo) (h : tails lo hi s.length s = true) : ∀ b ∈ s, 0x80 ≤ b := by
  induction s generalizing lo hi with
  | nil => simp
  | cons b s ih =>
    simp only [List.length_cons, tails, Bool.and_eq_true, decide_eq_true_eq] at h
    intro c hc
    rcases List.mem_cons.1 hc with rfl | hc
    · exact UInt8.le_trans hlo h.1.1
    · exact ih (by decide) h.2 c hc

theorem charSize_cons (h : charSize (a :: s) = some k) :
    ∃ n lo hi, lead a = some (n, lo, hi) ∧ tails lo hi n s = true ∧ k = n + 1 := by
  rcases hl : lead a with _ | ⟨n, lo, hi⟩ <;> simp only [charSize, hl] at h
  · cases h
  · by_cases ht : tails lo hi n s = true
    · rw [if_pos ht] at h
      exact ⟨n, lo, hi, rfl, ht, (Option.some.inj h).symm⟩
    · rw [if_neg ht] at h
      cases h

theorem charSize_of_tails (hl : lead a = some (n, lo, hi)) (ht : tails lo hi n s = true) :
    charSize (a :: s) = some (n + 1) := by
  simp only [charSize, hl, ht, if_true]

theorem charSize_pos (h : charSize s = some k) : 0 < k ∧ k ≤ s.length := by
  cases s with
  | nil => cases h
  | cons a s =>
    obtain ⟨n, lo, hi, _, ht, rfl⟩ := charSize_cons h
    exact ⟨Nat.succ_pos n, Nat.succ_le_succ (tails_length ht)⟩

theorem isChar_take (h : charSize s = some k) : IsChar (s.take k) := by
  cases s with
  | nil => cases h
  | cons a s =>
    obtain ⟨n, lo, hi, hl, ht, rfl⟩ := charSize_cons h
    have hlen := tails_length ht
    have htake : tails lo hi n (s.take n) = true := by
      rw [← tails_append (s.drop n) (by rw [List.length_take]; omega), List.take_append_drop]
      exact ht
    rw [IsChar, List.take_succ_cons, charSize_of_tails hl htake, List.length_cons, List.length_take, Nat.min_eq_left hlen]

theorem IsChar.append (h : IsChar c) (t : List UInt8) : charSize (c ++ t) = some c.length := by
  cases c with
  | nil => cases h
  | cons a s =>
    obtain ⟨n, lo, hi, hl, ht, hk⟩ := charSize_cons h
    rw [List.cons_append, hk]
    exact charSize_of_tails hl (by rw [tails_append t (tails_length ht)]; exact ht)

/-- A character is one ASCII byte, or several bytes that are not ASCII. -/
theorem IsChar.ascii_or_high (h : IsChar c) : (∃ a < 0x80, c = [a]) ∨ (2 ≤ c.length ∧ ∀ b ∈ c, 0x80 ≤ b) := by
  cases c with
  | nil => cases h
  | cons a s =>
    obtain ⟨n, lo, hi, hl, ht, hk⟩ := charSize_cons h
    have hn : n = s.length := by simpa using hk.symm
    subst hn
    by_cases ha : a < 0x80
    · have hlead : lead a = some (0, 0x80, 0xBF) := by rw [lead, if_pos ha]
      rw [hlead] at hl
      have hs : s.length = 0 := (congrArg Prod.fst (Option.some.inj hl)).symm
      exact .inl ⟨a, ha, by rw [List.length_eq_zero_iff.1 hs]⟩
    · have hlo : 1 ≤ s.length ∧ 0x80 ≤ lo := by
        unfold lead at hl
        grind
      refine .inr ⟨Nat.succ_le_succ hlo.1, fun b hb => ?_⟩
      rcases List.mem_cons.1 hb with rfl | hb
      · exact UInt8.not_lt.1 ha
      · exact tails_high hlo.2 ht b hb

theorem splitN_proper (n : Nat) (s : List UInt8) : ∀ p ∈ splitN n s, p.Proper := by
  induction n generalizing s with
  | zero => simp [splitN]
  | succ n ih =>
    cases s with
    | nil => simp [splitN]
    | cons b s =>
      intro p hp
      unfold splitN at hp
      split at hp
      · rename_i k hk
        rcases List.mem_cons.1 hp with rfl | hp
        · exact isChar_take hk
        · exact ih _ p hp
      · rcases List.mem_cons.1 hp with rfl | hp
        · trivial
        · exact ih _ p hp

theorem split_proper (s : List UInt8) : ∀ p ∈ split s, p.Proper := splitN_proper _ s

theorem splitN_bytes (h : s.length ≤ n) : (splitN n s).flatMap Piece.bytes = s := by
  induction n generalizing s with
  | zero => rw [List.length_eq_zero_iff.1 (Nat.le_zero.1 h)]; rfl
  | succ n ih =>
    cases s with
    | nil => rfl
    | cons b s =>
      unfold splitN
      split
      · rename_i k hk
        have hlen : ((b :: s).drop k).length ≤ n := by
          have := (charSize_pos hk).1
          rw [List.length_drop]
          omega
        rw [List.flatMap_cons, ih hlen]
        exact List.take_append_drop k (b :: s)
      · rw [List.flatMap_cons, ih (Nat.le_of_succ_le_succ h)]
        rfl

/-- The pieces are the string. -/
theorem split_bytes (s : List UInt8) : (split s).flatMap Piece.bytes = s := splitN_bytes (Nat.le_refl _)

theorem split_ne_nil (h : s ≠ []) : split s ≠ [] := by
  intro hs
  have := split_bytes s
  rw [hs] at this
  exact h this.symm

/-- Valid UTF-8 stays as it is. -/
theorem coerce_of_valid (h : valid s = true) : coerce s = s := by
  have hc : ∀ p ∈ split s, p.coerced = p.bytes := by
    intro p hp
    have := List.all_eq_true.1 h p hp
    rw [beq_iff_eq] at this
    rw [this]; rfl
  rw [coerce, List.flatMap_congr hc, split_bytes]

theorem IsChar.ne_nil (h : IsChar c) : c ≠ [] := by
  rintro rfl
  cases h

theorem isChar_runeError : IsChar runeError := by decide

theorem Piece.Proper.coerced {p : Piece} (h : p.Proper) : IsChar p.coerced := by
  cases p with
  | char c => exact h
  | bad b => exact isChar_runeError

theorem splitN_chars {cs : List (List UInt8)} (h : ∀ c ∈ cs, IsChar c) (hn : cs.flatten.length ≤ n) :
    splitN n cs.flatten = cs.map .char := by
  induction cs generalizing n with
  | nil => cases n <;> rfl
  | cons c cs ih =>
    have hc := h c List.mem_cons_self
    obtain ⟨b, t, rfl⟩ := List.exists_cons_of_ne_nil hc.ne_nil
    rw [List.flatten_cons, List.length_append, List.length_cons] at hn
    obtain ⟨n, rfl⟩ : ∃ m, n = m + 1 := ⟨n - 1, by omega⟩
    have hsize := hc.append cs.flatten
    rw [List.flatten_cons, List.cons_append] at *
    rw [splitN, hsize]
    show Piece.char (List.take _ ((b :: t) ++ cs.flatten)) :: splitN n (List.drop _ ((b :: t) ++ cs.flatten)) = _
    rw [List.take_left, List.drop_left, ih (fun c hc => h c (List.mem_cons_of_mem _ hc)) (by omega), List.map_cons]

theorem isChar_ascii (h : b < 0x80) : IsChar [b] := by
  have hlead : lead b = some (0, 0x80, 0xBF) := by rw [lead, if_pos h]
  exact charSize_of_tails hlead rfl

theorem coerce_ascii (h : ∀ b ∈ s, b < 0x80) : coerce s = s := by
  have hflat : (s.map ([·])).flatten = s := by rw [← List.flatMap_def, List.flatMap_singleton']
  have hch : ∀ c ∈ s.map ([·]), IsChar c := by
    intro c hc
    obtain ⟨b, hb, rfl⟩ := List.mem_map.1 hc
    exact isChar_ascii (h b hb)
  have hs := splitN_chars hch (Nat.le_refl _)
  rw [hflat] at hs
  rw [coerce, split, hs, List.map_map, List.flatMap_map]
  exact List.flatMap_singleton' s

theorem valid_chars {cs : List (List UInt8)} (h : ∀ c ∈ cs, IsChar c) : valid cs.flatten = true := by
  rw [valid, split, splitN_chars h (Nat.le_refl _), List.all_eq_true]
  rintro p hp
  obtain ⟨c, -, rfl⟩ := List.mem_map.1 hp
  exact beq_self_eq_true _

theorem valid_coerce (s : List UInt8) : valid (coerce s) = true := by
  rw [coerce, List.flatMap_def]
  refine valid_chars fun c hc => ?_
  obtain ⟨p, hp, rfl⟩ := List.mem_map.1 hc
  exact (split_proper s p hp).coerced

/-! ## Cutting at an ASCII character -/

theorem splitN_fuel {m : Nat} (hn : s.length ≤ n) (hm : s.length ≤ m) : splitN n s = splitN m s := by
  induction n generalizing m s with
  | zero =>
    rw [List.length_eq_zero_iff.1 (Nat.le_zero.1 hn)]
    cases m <;> rfl
  | succ n ih =>
    cases s with
    | nil => cases m <;> rfl
    | cons b s =>
      obtain ⟨m, rfl⟩ : ∃ k, m = k + 1 := ⟨m - 1, by rw [List.length_cons] at hm; omega⟩
      rw [List.length_cons] at hn hm
      rw [splitN, splitN, ih (Nat.le_of_succ_le_succ hn) (Nat.le_of_succ_le_succ hm)]
      split
      · rename_i k hk
        have hk := (charSize_pos hk).1
        have hlen : ((b :: s).drop k).length ≤ n ∧ ((b :: s).drop k).length ≤ m := by
          rw [List.length_drop, List.length_cons]
          omega
        rw [ih hlen.1 hlen.2]
      · rfl

theorem split_char (h : charSize s = some k) : split s = .char (s.take k) :: split (s.drop k) := by
  cases s with
  | nil => cases h
  | cons b s =>
    have hk := (charSize_pos h).1
    rw [split, List.length_cons, splitN, h]
    exact congrArg _ (splitN_fuel (by rw [List.length_drop, List.length_cons]; omega) (Nat.le_refl _))

theorem split_bad (h : charSize (b :: s) = none) : split (b :: s) = .bad b :: split s := by
  rw [split, List.length_cons, splitN, h]
  rfl

theorem lead_low (h : lead a = some (n, lo, hi)) : 0x80 ≤ lo := by
  unfold lead at h
  grind

theorem tails_append_ascii (t : List UInt8) (hlo : 0x80 ≤ lo) (hb : b < 0x80) :
    tails lo hi n (s ++ b :: t) = tails lo hi n s := by
  induction n generalizing lo hi s with
  | zero => cases s <;> rfl
  | succ n ih =>
    cases s with
    | nil =>
      have hlt : ¬ lo ≤ b := fun h => UInt8.not_le.2 hb (UInt8.le_trans hlo h)
      simp [tails, hlt]
    | cons c s => rw [List.cons_append, tails, tails, ih (by decide)]

theorem charSize_append_ascii (t : List UInt8) (hs : s ≠ []) (hb : b < 0x80) :
    charSize (s ++ b :: t) = charSize s := by
  obtain ⟨a, s, rfl⟩ := List.exists_cons_of_ne_nil hs
  rw [List.cons_append, charSize, charSize]
  rcases hl : lead a with _ | ⟨n, lo, hi⟩
  · rfl
  · simp only [tails_append_ascii t (lead_low hl) hb]

/-- No character spans an ASCII byte, so the pieces before one and the pieces from it on are cut apart. -/
theorem split_append_ascii (s : List UInt8) (t : List UInt8) (hb : b < 0x80) :
    split (s ++ b :: t) = split s ++ split (b :: t) := by
  induction hl : s.length using Nat.strongRecOn generalizing s with
  | _ l ih =>
    rcases eq_or_ne s [] with rfl | hs
    · rfl
    · have hsize := charSize_append_ascii t hs hb
      rcases hc : charSize s with _ | k
      · obtain ⟨a, s, rfl⟩ := List.exists_cons_of_ne_nil hs
        rw [hc] at hsize
        rw [List.cons_append] at hsize ⊢
        rw [split_bad hsize, split_bad hc, List.cons_append, ih s.length (by rw [← hl]; simp) s rfl]
      · have hk := charSize_pos hc
        rw [hc] at hsize
        have hdrop : (s.drop k).length < l := by
          rw [List.length_drop]
          omega
        rw [split_char hsize, split_char hc, List.take_append_of_le_length hk.2, List.drop_append_of_le_length hk.2,
          List.cons_append, ih _ hdrop _ rfl]

theorem split_ascii_cons (s : List UInt8) (hb : b < 0x80) : split (b :: s) = .char [b] :: split s :=
  split_char ((isChar_ascii hb).append s)

theorem split_ascii_append {a : List UInt8} (s : List UInt8) (ha : ∀ b ∈ a, b < 0x80) :
    split (a ++ s) = a.map (fun b => .char [b]) ++ split s := by
  induction a with
  | nil => rfl
  | cons b a ih =>
    rw [List.cons_append, split_ascii_cons _ (ha b List.mem_cons_self), ih fun c hc => ha c (List.mem_cons_of_mem _ hc)]
    rfl

/-! ## The characters of a string -/

theorem toNat_byte (h : k < 256) : (UInt8.ofNat k).toNat = k := by
  rw [UInt8.toNat_ofNat']
  omega

theorem lead_ofNat (hk : k < 256) : lead (.ofNat k) =
    if k < 0x80 then some (0, 0x80, 0xBF) else if k < 0xC2 then none else if k ≤ 0xDF then some (1, 0x80, 0xBF)
      else if k = 0xE0 then some (2, 0xA0, 0xBF) else if k = 0xED then some (2, 0x80, 0x9F)
      else if k ≤ 0xEF then some (2, 0x80, 0xBF) else if k = 0xF0 then some (3, 0x90, 0xBF)
      else if k ≤ 0xF3 then some (3, 0x80, 0xBF) else if k = 0xF4 then some (3, 0x80, 0x8F) else none := by
  simp only [lead, UInt8.lt_iff_toNat_lt, UInt8.le_iff_toNat_le, ← UInt8.toNat_inj, toNat_byte hk, UInt8.reduceToNat]

theorem tails_ofNat (hk : k < 256) (hlo : lo.toNat ≤ k) (hhi : k ≤ hi.toNat) (h : tails 0x80 0xBF n s = true) :
    tails lo hi (n + 1) (.ofNat k :: s) = true := by
  simp only [tails, Bool.and_eq_true, decide_eq_true_eq, UInt8.le_iff_toNat_le, toNat_byte hk]
  exact ⟨⟨hlo, hhi⟩, h⟩

/-- Six bits with the mark of a continuation byte. -/
theorem tails_bits (k : Nat) (h : tails 0x80 0xBF n s = true) :
    tails 0x80 0xBF (n + 1) (.ofNat (k % 64 + 128) :: s) = true :=
  tails_ofNat (by omega) (Nat.le_add_left _ _) (by show _ ≤ 191; omega) h

theorem isChar_utf8EncodeChar (c : Char) : IsChar (String.utf8EncodeChar c) := by
  have hv : c.val.toNat < 0xD800 ∨ 0xDFFF < c.val.toNat ∧ c.val.toNat < 0x110000 := c.valid
  unfold String.utf8EncodeChar
  generalize c.val.toNat = v at hv
  simp only
  split_ifs with h1 h2 h3
  · refine isChar_ascii ?_
    rw [UInt8.lt_iff_toNat_lt, toNat_byte (by omega)]
    exact Nat.lt_succ_of_le h1
  · have hlead := lead_ofNat (k := v / 64 % 32 + 192) (by omega)
    rw [if_neg (by omega), if_neg (by omega), if_pos (by omega)] at hlead
    exact charSize_of_tails hlead (tails_bits v rfl)
  · have hlead := lead_ofNat (k := v / 4096 % 16 + 224) (by omega)
    rw [if_neg (by omega), if_neg (by omega), if_neg (by omega)] at hlead
    split_ifs at hlead with hE0 hED hEF
    · exact charSize_of_tails hlead
        (tails_ofNat (by omega) (by show 160 ≤ _; omega) (by show _ ≤ 191; omega) (tails_bits v rfl))
    · exact charSize_of_tails hlead
        (tails_ofNat (by omega) (by show 128 ≤ _; omega) (by show _ ≤ 159; omega) (tails_bits v rfl))
    · exact charSize_of_tails hlead (tails_bits (v / 64) (tails_bits v rfl))
    all_goals omega
  · have hlead := lead_ofNat (k := v / 262144 % 8 + 240) (by omega)
    rw [if_neg (by omega), if_neg (by omega), if_neg (by omega), if_neg (by omega), if_neg (by omega),
      if_neg (by omega)] at hlead
    have hrest : tails 0x80 0xBF 2 [.ofNat (v / 64 % 64 + 128), .ofNat (v % 64 + 128)] = true :=
      tails_bits (v / 64) (tails_bits v rfl)
    split_ifs at hlead with hF0 hF3 hF4
    · exact charSize_of_tails hlead (tails_ofNat (by omega) (by show 144 ≤ _; omega) (by show _ ≤ 191; omega) hrest)
    · exact charSize_of_tails hlead (tails_bits (v / 4096) hrest)
    · exact charSize_of_tails hlead (tails_ofNat (by omega) (by show 128 ≤ _; omega) (by show _ ≤ 143; omega) hrest)
    · omega

end Utf8
