/-
Go's `strings` on byte strings: searching, cutting, trimming and lower case. White space and lower case are
matters of characters, so these two work on the pieces of a string.
-/
import Mimori.Base.Utf8

namespace Strings

/-- The bytes of a string. -/
def utf8 (s : String) : List UInt8 := s.toByteArray.data.toList

/-- They are valid UTF-8. -/
theorem valid_utf8 (s : String) : Utf8.valid (utf8 s) = true := by
  have hbytes : utf8 s = (s.toList.map String.utf8EncodeChar).flatten := by
    rw [utf8, ← String.utf8Encode_toList, List.utf8Encode, List.flatMap_def]
    simp
  rw [hbytes]
  refine Utf8.valid_chars fun c hc => ?_
  obtain ⟨a, -, rfl⟩ := List.mem_map.1 hc
  exact Utf8.isChar_utf8EncodeChar a

/-! ## Searching and cutting -/

section
variable {α : Type*} [DecidableEq α]

/-- `strings.Index`: where `sub` first stands in the string. -/
def index (sub : List α) : List α → Option Nat
  | [] => if sub.isEmpty then some 0 else none
  | a :: s => if sub.isPrefixOf (a :: s) then some 0 else (index sub s).map (· + 1)

/-- `strings.Contains`. -/
def contains (sub s : List α) : Bool := (index sub s).isSome

/-- `strings.LastIndexByte`. -/
def lastIndex (c : α) : List α → Option Nat
  | [] => none
  | a :: s =>
    match lastIndex c s with
    | some i => some (i + 1)
    | none => if a = c then some 0 else none

/-- `strings.Cut` at a single character: what stands before the first of it and what stands after it. -/
def cut (sep : α) (s : List α) : List α × List α × Bool :=
  if sep ∈ s then (s.takeWhile (· ≠ sep), (s.dropWhile (· ≠ sep)).tail, true) else (s, [], false)

theorem lastIndex_of_notMem {c : α} {s : List α} (h : c ∉ s) : lastIndex c s = none := by
  induction s with
  | nil => rfl
  | cons a s ih =>
    rw [List.mem_cons, not_or] at h
    rw [lastIndex, ih h.2]
    exact if_neg fun e => h.1 e.symm

theorem lastIndex_append {c : α} {b : List α} (a : List α) (h : c ∉ b) : lastIndex c (a ++ c :: b) = some a.length := by
  induction a with
  | nil =>
    rw [List.nil_append, lastIndex, lastIndex_of_notMem h]
    exact if_pos rfl
  | cons x a ih => rw [List.cons_append, lastIndex, ih, List.length_cons]

theorem eq_append_of_lastIndex {c : α} {s : List α} {i : Nat} (h : lastIndex c s = some i) :
    ∃ a b, s = a ++ c :: b ∧ c ∉ b ∧ a.length = i := by
  by_cases hc : c ∈ s
  · obtain ⟨b, a, hs, hb⟩ := List.eq_append_cons_of_mem (List.mem_reverse.2 hc)
    have hs : s = a.reverse ++ c :: b.reverse := by
      rw [← List.reverse_reverse s, hs, List.reverse_append, List.reverse_cons, List.append_assoc]
      rfl
    have hb : c ∉ b.reverse := fun h => hb (List.mem_reverse.1 h)
    rw [hs, lastIndex_append _ hb] at h
    exact ⟨a.reverse, b.reverse, hs, hb, Option.some.inj h⟩
  · rw [lastIndex_of_notMem hc] at h
    cases h

theorem idxOf?_append {c : α} {a : List α} (b : List α) (h : c ∉ a) : (a ++ c :: b).idxOf? c = some a.length := by
  induction a with
  | nil => simp [List.idxOf?_cons]
  | cons x a ih =>
    rw [List.mem_cons, not_or] at h
    have hx : (x == c) = false := beq_eq_false_iff_ne.2 fun e => h.1 e.symm
    rw [List.cons_append, List.idxOf?_cons, hx, ih h.2]
    rfl

/-- `strings.IndexByte`: the first `c` comes after none. -/
theorem eq_append_of_idxOf? {c : α} {s : List α} {i : Nat} (h : s.idxOf? c = some i) :
    ∃ a b, s = a ++ c :: b ∧ c ∉ a ∧ a.length = i := by
  have hc : c ∈ s := by
    by_contra hc
    rw [List.idxOf?_eq_none_iff.2 hc] at h
    cases h
  obtain ⟨a, b, rfl, ha⟩ := List.eq_append_cons_of_mem hc
  rw [idxOf?_append b ha] at h
  exact ⟨a, b, rfl, ha, Option.some.inj h⟩

theorem all_ne_of_notMem {sep : α} {a : List α} (h : sep ∉ a) : ∀ x ∈ a, decide (x ≠ sep) = true := by
  rintro x hx
  refine decide_eq_true ?_
  rintro rfl
  exact h hx

theorem takeWhile_ne_append {sep : α} {a : List α} (b : List α) (h : sep ∉ a) :
    (a ++ sep :: b).takeWhile (· ≠ sep) = a := by
  rw [List.takeWhile_append_of_pos (all_ne_of_notMem h), List.takeWhile_cons_of_neg (by simp), List.append_nil]

theorem dropWhile_ne_append {sep : α} {a : List α} (b : List α) (h : sep ∉ a) :
    (a ++ sep :: b).dropWhile (· ≠ sep) = sep :: b := by
  rw [List.dropWhile_append_of_pos (all_ne_of_notMem h), List.dropWhile_cons_of_neg (by simp)]

theorem cut_append {sep : α} {a : List α} (b : List α) (h : sep ∉ a) : cut sep (a ++ sep :: b) = (a, b, true) := by
  rw [cut, if_pos (by simp), takeWhile_ne_append b h, dropWhile_ne_append b h, List.tail_cons]

theorem cut_of_notMem {sep : α} {s : List α} (h : sep ∉ s) : cut sep s = (s, [], false) := if_neg h

/-- A string is cut at the first `sep` in it. -/
theorem eq_append_of_cut {sep : α} {s a b : List α} (h : cut sep s = (a, b, true)) : s = a ++ sep :: b ∧ sep ∉ a := by
  by_cases hs : sep ∈ s
  · obtain ⟨x, y, rfl, hx⟩ := List.eq_append_cons_of_mem hs
    rw [cut_append y hx] at h
    obtain ⟨rfl, hb⟩ := Prod.mk.inj h
    exact ⟨by rw [(Prod.mk.inj hb).1], hx⟩
  · rw [cut_of_notMem hs] at h
    cases h

/-- `strings.Split` gives a part more than there are separators. -/
theorem length_splitOn (sep : α) (s : List α) : (s.splitOn sep).length = s.count sep + 1 := by
  induction s with
  | nil => rfl
  | cons a s ih =>
    rw [List.splitOn] at ih ⊢
    rw [List.splitOnP_cons_eq_if_modifyHead, List.count_cons]
    by_cases h : a = sep
    · simp [h, ih]
    · simp [h, ih]

theorem splitOn_append {sep : α} {a b : List α} (ha : sep ∉ a) (hb : sep ∉ b) : (a ++ sep :: b).splitOn sep = [a, b] := by
  have hsep : ∀ {l : List α}, sep ∉ l → ∀ x ∈ l, (x == sep) = false := fun h x hx => by
    rw [beq_eq_false_iff_ne]
    rintro rfl
    exact h hx
  rw [List.splitOn, List.splitOnP_append_cons_of_forall_mem (hsep ha) sep (by simp), List.splitOnP_eq_singleton (hsep hb)]

end

/-! ## Trimming -/

/-- The list without the elements at either end that satisfy `p`. -/
def trim {β : Type*} (p : β → Bool) (l : List β) : List β := ((l.dropWhile p).reverse.dropWhile p).reverse

theorem dropWhile_eq_self {β : Type*} {p : β → Bool} {l : List β} (h : ∀ a ∈ l.head?, p a = false) :
    l.dropWhile p = l := by
  cases l with
  | nil => rfl
  | cons a l => exact List.dropWhile_cons_of_neg (by rw [h a rfl]; exact Bool.false_ne_true)

theorem trim_eq_self {β : Type*} {p : β → Bool} {l : List β} (hfirst : ∀ a ∈ l.head?, p a = false)
    (hlast : ∀ a ∈ l.getLast?, p a = false) : trim p l = l := by
  rw [trim, dropWhile_eq_self hfirst, dropWhile_eq_self (by rwa [List.head?_reverse]), List.reverse_reverse]

/-- The characters that `unicode.IsSpace` takes for white space. -/
def spaces : List (List UInt8) :=
  [0x09, 0x0A, 0x0B, 0x0C, 0x0D, 0x20, 0x85, 0xA0, 0x1680, 0x2000, 0x2001, 0x2002, 0x2003, 0x2004, 0x2005, 0x2006,
    0x2007, 0x2008, 0x2009, 0x200A, 0x2028, 0x2029, 0x202F, 0x205F, 0x3000].map Utf8.encodeRune

def isSpace (p : Utf8.Piece) : Bool := spaces.any fun c => p == .char c

/-- `strings.TrimSpace`. -/
def trimSpace (s : List UInt8) : List UInt8 := (trim isSpace (Utf8.split s)).flatMap Utf8.Piece.bytes

theorem trimSpace_eq_self {s : List UInt8} (hfirst : ∀ p ∈ (Utf8.split s).head?, isSpace p = false)
    (hlast : ∀ p ∈ (Utf8.split s).getLast?, isSpace p = false) : trimSpace s = s := by
  rw [trimSpace, trim_eq_self hfirst hlast, Utf8.split_bytes]

theorem trimSpace_of_no_space {s : List UInt8} (h : ∀ p ∈ Utf8.split s, isSpace p = false) : trimSpace s = s :=
  trimSpace_eq_self (fun p hp => h p (List.mem_of_mem_head? hp)) fun p hp => h p (List.mem_of_mem_getLast? hp)

theorem isSpace_ascii {b : UInt8} (hlo : 33 ≤ b) (hhi : b < 0x80) : isSpace (.char [b]) = false := by
  have hall : ∀ c ∈ spaces, ∀ b ∈ c.head?, b < 33 ∨ 0x80 ≤ b := by decide +kernel
  rw [isSpace, List.any_eq_false]
  intro c hc heq
  rw [beq_iff_eq, Utf8.Piece.char.injEq] at heq
  subst heq
  rcases hall [b] hc b rfl with h | h
  · exact UInt8.not_le.2 h hlo
  · exact UInt8.not_le.2 hhi h

theorem trimSpace_ascii {s : List UInt8} (h : ∀ b ∈ s, 33 ≤ b ∧ b < 0x80) : trimSpace s = s := by
  refine trimSpace_of_no_space fun p hp => ?_
  have hs := Utf8.split_ascii_append [] fun b hb => (h b hb).2
  rw [List.append_nil] at hs
  rw [hs, List.mem_append] at hp
  rcases hp with hp | hp
  · obtain ⟨b, hb, rfl⟩ := List.mem_map.1 hp
    exact isSpace_ascii (h b hb).1 (h b hb).2
  · cases hp

/-! ## Lower case -/

/-- The lower case of a piece; `lower` gives it for the characters that are not ASCII. -/
def lowerPiece (lower : List UInt8 → List UInt8) : Utf8.Piece → List UInt8
  | .char [b] => [if 65 ≤ b ∧ b ≤ 90 then b + 32 else b]
  | .char c => lower c
  | .bad _ => Utf8.runeError

/-- `strings.ToLower`. -/
def toLower (lower : List UInt8 → List UInt8) (s : List UInt8) : List UInt8 := (Utf8.split s).flatMap (lowerPiece lower)

/-- A text that is in lower case already, at the start of a string, stays there. -/
theorem toLower_append (lower : List UInt8 → List UInt8) {a : List UInt8} (s : List UInt8)
    (ha : ∀ b ∈ a, b < 0x80 ∧ ¬ (65 ≤ b ∧ b ≤ 90)) : toLower lower (a ++ s) = a ++ toLower lower s := by
  rw [toLower, Utf8.split_ascii_append s fun b hb => (ha b hb).1, List.flatMap_append, List.flatMap_map]
  congr 1
  have hlow : ∀ b ∈ a, lowerPiece lower (.char [b]) = [b] := fun b hb => by rw [lowerPiece, if_neg (ha b hb).2]
  rw [List.flatMap_congr hlow, List.flatMap_singleton']

end Strings
