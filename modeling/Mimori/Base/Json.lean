/-
The JSON texts of flat objects, whose members are strings or null, as Go's `encoding/json` writes and
reads them. A string is written between quotes, escaped, with every byte that is not part of a
character replaced by U+FFFD; so what is read is the string coerced to valid UTF-8. The reader takes the
texts that the writer makes and refuses other JSON (white space between tokens, other values).
-/
import Mimori.Base.Utf8

namespace Json

variable {n : Nat} {b : UInt8} {p : Piece} {ps : List Piece}

open Utf8

/-! ## Writing -/

def hexDigit (n : Nat) : UInt8 := if n < 10 then .ofNat (48 + n) else .ofNat (87 + n)

/-- `\u` and four digits. -/
def unicodeEscape (r : Nat) : List UInt8 :=
  [92, 117, hexDigit (r / 4096), hexDigit (r / 256 % 16), hexDigit (r / 16 % 16), hexDigit (r % 16)]

/-- The ASCII characters that stand for themselves: no control characters, none of `"`, `\`, `<`, `>`, `&`. -/
def htmlSafe (b : UInt8) : Bool := decide (0x20 ≤ b) && b != 34 && b != 92 && b != 60 && b != 62 && b != 38

/-- The characters with an escape of two characters: `\\`, `\"`, `\b`, `\f`, `\n`, `\r`, `\t`. -/
def shortEscapes : List (UInt8 × UInt8) := [(92, 92), (34, 34), (8, 98), (12, 102), (10, 110), (13, 114), (9, 116)]

def escape (b : UInt8) : List UInt8 :=
  if htmlSafe b then [b]
  else
    match shortEscapes.lookup b with
    | some c => [92, c]
    | none => unicodeEscape b.toNat

def quotePiece : Piece → List UInt8
  | .bad _ => unicodeEscape 0xFFFD
  | .char c =>
    match c with
    | [b] => escape b
    | _ =>
      -- the two line separators that JavaScript does not take in a string
      if c = encodeRune 0x2028 then unicodeEscape 0x2028
      else if c = encodeRune 0x2029 then unicodeEscape 0x2029
      else c

def quote (s : List UInt8) : List UInt8 := 34 :: ((split s).flatMap quotePiece ++ [34])

inductive Scalar
  | null
  | str (s : List UInt8)
  deriving DecidableEq

def nullText : List UInt8 := [110, 117, 108, 108]

def Scalar.text : Scalar → List UInt8
  | .null => nullText
  | .str s => quote s

def memberText (m : List UInt8 × Scalar) : List UInt8 := quote m.1 ++ 58 :: m.2.text

def membersText : List (List UInt8 × Scalar) → List UInt8
  | [] => []
  | [m] => memberText m
  | m :: ms => memberText m ++ 44 :: membersText ms

def objectText (ms : List (List UInt8 × Scalar)) : List UInt8 := 123 :: (membersText ms ++ [125])

/-! ## Reading -/

/-- The text of a string up to its closing quote, and what follows. -/
def literal : List UInt8 → Option (List UInt8 × List UInt8)
  | [] => none
  | b :: s =>
    if b = 34 then some ([], s)
    else if b < 0x20 then none
    else if b = 92 then
      match s with
      | [] => none
      | c :: t => (literal t).map fun x => (b :: c :: x.1, x.2)
    else (literal s).map fun x => (b :: x.1, x.2)

def hexValue (c : UInt8) : Option Nat :=
  if 48 ≤ c ∧ c ≤ 57 then some (c.toNat - 48)
  else if 97 ≤ c ∧ c ≤ 102 then some (c.toNat - 87)
  else if 65 ≤ c ∧ c ≤ 70 then some (c.toNat - 55)
  else none

/-- The number that four digits give. -/
def unicodeValue : List UInt8 → Option (Nat × List UInt8)
  | a :: b :: c :: d :: s => do
    let a ← hexValue a
    let b ← hexValue b
    let c ← hexValue c
    let d ← hexValue d
    return (a * 4096 + b * 256 + c * 16 + d, s)
  | _ => none

/-- The character that the surrogate `r` and the escape after it are, if they are a pair. -/
def surrogatePair (r : Nat) : List UInt8 → Option (Nat × List UInt8)
  | 92 :: 117 :: s => do
    let (r', rest) ← unicodeValue s
    if r < 0xDC00 ∧ 0xDC00 ≤ r' ∧ r' < 0xE000 then
      return (0x10000 + (r - 0xD800) * 1024 + (r' - 0xDC00), rest)
    else none
  | _ => none

/-- What an escape stands for, from the character after the backslash on, and what follows it. -/
def unescape : List UInt8 → Option (List UInt8 × List UInt8)
  | [] => none
  | c :: s =>
    if c = 117 then do
      let (r, rest) ← unicodeValue s
      if 0xD800 ≤ r ∧ r < 0xE000 then
        match surrogatePair r rest with
        | some (r', rest') => return (encodeRune r', rest')
        | none => return (runeError, rest)
      else return (encodeRune r, rest)
    else if c = 47 then some ([47], s)
    else (shortEscapes.find? fun x => x.2 == c).map fun x => ([x.1], s)

/-- The string that the text between two quotes is. Each turn of the loop takes at least one byte. -/
def unquoteN : Nat → List UInt8 → Option (List UInt8)
  | _, [] => some []
  | 0, _ :: _ => none
  | n + 1, b :: s =>
    if b = 92 then do
      let (bytes, rest) ← unescape s
      let more ← unquoteN n rest
      return bytes ++ more
    else
      match charSize (b :: s) with
      | some k => (unquoteN n ((b :: s).drop k)).map ((b :: s).take k ++ ·)
      | none => (unquoteN n s).map (runeError ++ ·)

def unquote (s : List UInt8) : Option (List UInt8) := unquoteN s.length s

def readString : List UInt8 → Option (List UInt8 × List UInt8)
  | [] => none
  | b :: s =>
    if b = 34 then do
      let (body, rest) ← literal s
      let str ← unquote body
      return (str, rest)
    else none

def readScalar (s : List UInt8) : Option (Scalar × List UInt8) :=
  if s.take 4 = nullText then some (.null, s.drop 4)
  else (readString s).map fun x => (.str x.1, x.2)

def readMember (s : List UInt8) : Option ((List UInt8 × Scalar) × List UInt8) := do
  let (key, rest) ← readString s
  match rest with
  | [] => none
  | b :: rest =>
    if b = 58 then do
      let (v, rest) ← readScalar rest
      return ((key, v), rest)
    else none

/-- The members up to the brace that ends the text. -/
def readMembers : Nat → List UInt8 → Option (List (List UInt8 × Scalar))
  | 0, _ => none
  | n + 1, s => do
    let (m, rest) ← readMember s
    if rest = [125] then return [m]
    else
      match rest with
      | [] => none
      | b :: rest =>
        if b = 44 then do
          let ms ← readMembers n rest
          return m :: ms
        else none

def readObject : List UInt8 → Option (List (List UInt8 × Scalar))
  | [] => none
  | b :: s =>
    if b = 123 then
      if s = [125] then some [] else readMembers s.length s
    else none

/-- The value with its string coerced to valid UTF-8. -/
def Scalar.coerced : Scalar → Scalar
  | .null => .null
  | .str s => .str (coerce s)

/-! ## Strings -/

theorem hexValue_hexDigit (h : n < 16) : hexValue (hexDigit n) = some n := by
  revert n
  decide

/-- Bytes that `literal` passes over one by one. -/
def Inner (b : UInt8) : Prop := 0x20 ≤ b ∧ b ≠ 34 ∧ b ≠ 92

theorem inner_hexDigit (h : n < 16) : Inner (hexDigit n) := by
  have hc : ∀ m < 16, 0x20 ≤ hexDigit m ∧ hexDigit m ≠ 34 ∧ hexDigit m ≠ 92 := by decide
  exact hc n h

theorem literal_cons (h : Inner b) (t : List UInt8) :
    literal (b :: t) = (literal t).map fun x => (b :: x.1, x.2) := by
  obtain ⟨h1, h2, h3⟩ := h
  rw [literal.eq_def]
  show (if b = 34 then _ else if b < 0x20 then _ else if b = 92 then _ else _) = _
  rw [if_neg h2, if_neg (UInt8.not_lt.2 h1), if_neg h3]

theorem literal_inner {l : List UInt8} (h : ∀ b ∈ l, Inner b) (t : List UInt8) :
    literal (l ++ t) = (literal t).map fun x => (l ++ x.1, x.2) := by
  induction l with
  | nil => exact Option.map_id'.symm
  | cons b l ih =>
    rw [List.cons_append, literal_cons (h b List.mem_cons_self), ih fun c hc => h c (List.mem_cons_of_mem _ hc),
      Option.map_map]
    rfl

theorem literal_escape (c : UInt8) (t : List UInt8) :
    literal (92 :: c :: t) = (literal t).map fun x => (92 :: c :: x.1, x.2) := rfl

theorem literal_unicodeEscape (r : Nat) (hr : r < 65536) (t : List UInt8) :
    literal (unicodeEscape r ++ t) = (literal t).map fun x => (unicodeEscape r ++ x.1, x.2) := by
  have hin : ∀ b ∈ [hexDigit (r / 4096), hexDigit (r / 256 % 16), hexDigit (r / 16 % 16), hexDigit (r % 16)], Inner b := by
    intro b hb
    simp only [List.mem_cons, List.not_mem_nil, or_false] at hb
    rcases hb with rfl | rfl | rfl | rfl
    · exact inner_hexDigit (by omega)
    · exact inner_hexDigit (by omega)
    · exact inner_hexDigit (by omega)
    · exact inner_hexDigit (by omega)
  show literal (92 :: 117 :: (_ ++ t)) = _
  rw [literal_escape, literal_inner hin, Option.map_map]
  rfl

theorem htmlSafe_inner (h : htmlSafe b = true) : Inner b := by
  simp only [htmlSafe, Bool.and_eq_true, decide_eq_true_eq, bne_iff_ne, ne_eq] at h
  exact ⟨h.1.1.1.1.1, h.1.1.1.1.2, h.1.1.1.2⟩

theorem literal_ascii (b : UInt8) (t : List UInt8) :
    literal (escape b ++ t) = (literal t).map fun x => (escape b ++ x.1, x.2) := by
  unfold escape
  by_cases hs : htmlSafe b = true
  · rw [if_pos hs]
    exact literal_inner (by simpa using htmlSafe_inner hs) t
  · rw [if_neg hs]
    split
    · exact literal_escape _ t
    · exact literal_unicodeEscape _ (Nat.lt_trans b.toNat_lt (by decide)) t

theorem inner_of_high (h : 0x80 ≤ b) : Inner b := by
  refine ⟨UInt8.le_trans (by decide) h, ?_, ?_⟩
  · rintro rfl
    exact absurd h (by decide)
  · rintro rfl
    exact absurd h (by decide)

theorem quotePiece_high {c : List UInt8} (h : 2 ≤ c.length) :
    quotePiece (.char c) = if c = encodeRune 0x2028 then unicodeEscape 0x2028
      else if c = encodeRune 0x2029 then unicodeEscape 0x2029 else c := by
  match c, h with
  | _ :: _ :: _, _ => rfl

/-- A piece of a string stays inside the literal. -/
theorem literal_quotePiece (hp : p.Proper) (t : List UInt8) :
    literal (quotePiece p ++ t) = (literal t).map fun x => (quotePiece p ++ x.1, x.2) := by
  cases p with
  | bad b => exact literal_unicodeEscape _ (by decide) t
  | char c =>
    rcases IsChar.ascii_or_high hp with ⟨a, _, rfl⟩ | ⟨hlen, hhigh⟩
    · exact literal_ascii a t
    · rw [quotePiece_high hlen]
      split
      · exact literal_unicodeEscape _ (by decide) t
      · split
        · exact literal_unicodeEscape _ (by decide) t
        · exact literal_inner (fun b hb => inner_of_high (hhigh b hb)) t

theorem unicodeValue_hexDigits {r : Nat} (hr : r < 65536) (t : List UInt8) :
    unicodeValue (hexDigit (r / 4096) :: hexDigit (r / 256 % 16) :: hexDigit (r / 16 % 16) :: hexDigit (r % 16) :: t) =
      some (r, t) := by
  rw [unicodeValue, hexValue_hexDigit (by omega), hexValue_hexDigit (by omega), hexValue_hexDigit (by omega),
    hexValue_hexDigit (by omega)]
  show some (_, t) = _
  congr 2
  omega

theorem unquoteN_escape {s bytes rest : List UInt8} (h : unescape s = some (bytes, rest)) (n : Nat) :
    unquoteN (n + 1) (92 :: s) = (unquoteN n rest).map (bytes ++ ·) := by
  rw [unquoteN, if_pos rfl, h]
  show (unquoteN n rest).bind (fun more => some (bytes ++ more)) = _
  rw [Option.map_eq_bind]
  rfl

theorem unquoteN_unicodeEscape {r : Nat} (hr : r < 65536) (hs : ¬(0xD800 ≤ r ∧ r < 0xE000)) (n : Nat) (t : List UInt8) :
    unquoteN (n + 1) (unicodeEscape r ++ t) = (unquoteN n t).map (encodeRune r ++ ·) := by
  have hu : unescape (117 :: hexDigit (r / 4096) :: hexDigit (r / 256 % 16) :: hexDigit (r / 16 % 16) ::
      hexDigit (r % 16) :: t) = some (encodeRune r, t) := by
    rw [unescape, if_pos rfl, unicodeValue_hexDigits hr]
    show (if 0xD800 ≤ r ∧ r < 0xE000 then _ else _) = _
    rw [if_neg hs]
    rfl
  exact unquoteN_escape hu n

theorem unquoteN_char {c : List UInt8} (hc : IsChar c) (h : ∀ b ∈ c, b ≠ 92) (n : Nat) (t : List UInt8) :
    unquoteN (n + 1) (c ++ t) = (unquoteN n t).map (c ++ ·) := by
  obtain ⟨b, s, rfl⟩ := List.exists_cons_of_ne_nil hc.ne_nil
  have hsize := hc.append t
  rw [List.cons_append] at hsize ⊢
  rw [unquoteN, if_neg (h b List.mem_cons_self), hsize]
  show Option.map _ (unquoteN n (List.drop _ ((b :: s) ++ t))) = _
  rw [List.drop_left, ← List.cons_append, List.take_left]

theorem unescape_short {c : UInt8} (h : shortEscapes.lookup b = some c) (t : List UInt8) :
    unescape (c :: t) = some ([b], t) := by
  have hall : ∀ x ∈ shortEscapes, ∀ t, unescape (x.2 :: t) = some ([x.1], t) := by
    intro x hx t
    simp only [shortEscapes, List.mem_cons, List.not_mem_nil, or_false] at hx
    rcases hx with rfl | rfl | rfl | rfl | rfl | rfl | rfl <;> rfl
  obtain ⟨l₁, l₂, hl, _⟩ := List.lookup_eq_some_iff.1 h
  exact hall (b, c) (hl ▸ List.mem_append_right l₁ List.mem_cons_self) t

theorem unquoteN_ascii (hb : b < 0x80) (n : Nat) (t : List UInt8) :
    unquoteN (n + 1) (escape b ++ t) = (unquoteN n t).map ([b] ++ ·) := by
  unfold escape
  by_cases hs : htmlSafe b = true
  · rw [if_pos hs]
    exact unquoteN_char (isChar_ascii hb) (by simpa using (htmlSafe_inner hs).2.2) n t
  · rw [if_neg hs]
    split
    · rename_i c hc
      exact unquoteN_escape (unescape_short hc t) n
    · have hlt : b.toNat < 0x80 := hb
      have hr : encodeRune b.toNat = [b] := by rw [encodeRune, if_pos hlt, UInt8.ofNat_toNat]
      rw [unquoteN_unicodeEscape (by omega) (by omega), hr]

/-- Reading a piece back gives it as valid UTF-8. -/
theorem unquoteN_quotePiece (hp : p.Proper) (n : Nat) (t : List UInt8) :
    unquoteN (n + 1) (quotePiece p ++ t) = (unquoteN n t).map (p.coerced ++ ·) := by
  cases p with
  | bad b => exact unquoteN_unicodeEscape (by decide) (by decide) n t
  | char c =>
    rcases IsChar.ascii_or_high hp with ⟨a, ha, rfl⟩ | ⟨hlen, hhigh⟩
    · exact unquoteN_ascii ha n t
    · rw [quotePiece_high hlen]
      split
      · rename_i hc
        rw [unquoteN_unicodeEscape (by decide) (by decide), ← hc]
        rfl
      · split
        · rename_i hc
          rw [unquoteN_unicodeEscape (by decide) (by decide), ← hc]
          rfl
        · exact unquoteN_char hp (fun b hb => (inner_of_high (hhigh b hb)).2.2) n t

theorem literal_pieces (h : ∀ p ∈ ps, p.Proper) (t : List UInt8) :
    literal (ps.flatMap quotePiece ++ 34 :: t) = some (ps.flatMap quotePiece, t) := by
  induction ps with
  | nil =>
    rw [List.flatMap_nil, List.nil_append, literal.eq_def]
    rfl
  | cons p ps ih =>
    rw [List.flatMap_cons, List.append_assoc, literal_quotePiece (h p List.mem_cons_self),
      ih fun q hq => h q (List.mem_cons_of_mem _ hq)]
    rfl

theorem unquoteN_pieces (h : ∀ p ∈ ps, p.Proper) (hn : ps.length ≤ n) :
    unquoteN n (ps.flatMap quotePiece) = some (ps.flatMap Piece.coerced) := by
  induction ps generalizing n with
  | nil => cases n <;> rfl
  | cons p ps ih =>
    obtain ⟨n, rfl⟩ : ∃ m, n = m + 1 := ⟨n - 1, by rw [List.length_cons] at hn; omega⟩
    rw [List.flatMap_cons, unquoteN_quotePiece (h p List.mem_cons_self),
      ih (fun q hq => h q (List.mem_cons_of_mem _ hq)) (Nat.le_of_succ_le_succ hn)]
    rfl

theorem quotePiece_pos (hp : p.Proper) : 0 < (quotePiece p).length := by
  rw [List.length_pos_iff]
  intro h
  -- an empty text would be read back as a piece without bytes
  have hread := unquoteN_quotePiece hp 0 []
  rw [h, List.append_nil] at hread
  have hnil : [] = p.coerced ++ [] := Option.some.inj hread
  rw [List.append_nil] at hnil
  exact hp.coerced.ne_nil hnil.symm

theorem length_le_flatMap (h : ∀ p ∈ ps, p.Proper) : ps.length ≤ (ps.flatMap quotePiece).length := by
  induction ps with
  | nil => exact Nat.zero_le _
  | cons p ps ih =>
    have h1 := quotePiece_pos (h p List.mem_cons_self)
    have h2 := ih fun q hq => h q (List.mem_cons_of_mem _ hq)
    rw [List.flatMap_cons, List.length_append, List.length_cons]
    omega

/-- A string that was written is read as the same string, coerced to valid UTF-8. -/
theorem readString_quote (s t : List UInt8) : readString (quote s ++ t) = some (coerce s, t) := by
  have hp := split_proper s
  have hlit : literal (((split s).flatMap quotePiece ++ [34]) ++ t) = some ((split s).flatMap quotePiece, t) := by
    rw [List.append_assoc]
    exact literal_pieces hp t
  show readString (34 :: (((split s).flatMap quotePiece ++ [34]) ++ t)) = _
  rw [readString, if_pos rfl, hlit]
  show (unquote ((split s).flatMap quotePiece)).bind (fun str => some (str, t)) = _
  rw [unquote, unquoteN_pieces hp (length_le_flatMap hp)]
  rfl

/-! ## Objects -/

theorem readScalar_text (v : Scalar) (t : List UInt8) : readScalar (v.text ++ t) = some (v.coerced, t) := by
  cases v with
  | null => rfl
  | str s =>
    have hq : ¬(quote s ++ t).take 4 = nullText := by
      intro h
      have := congrArg List.head? h
      simp [quote, nullText] at this
    show readScalar (quote s ++ t) = _
    rw [readScalar, if_neg hq, readString_quote]
    rfl

theorem readMember_text (m : List UInt8 × Scalar) (t : List UInt8) :
    readMember (memberText m ++ t) = some ((coerce m.1, m.2.coerced), t) := by
  rw [memberText, List.append_assoc, readMember, readString_quote]
  show (readScalar (m.2.text ++ t)).bind (fun x => some ((coerce m.1, x.1), x.2)) = _
  rw [readScalar_text]
  rfl

theorem readMembers_text {ms : List (List UInt8 × Scalar)} (h : ms ≠ []) (hn : ms.length ≤ n) :
    readMembers n (membersText ms ++ [125]) = some (ms.map fun m => (coerce m.1, m.2.coerced)) := by
  induction ms generalizing n with
  | nil => exact absurd rfl h
  | cons m ms ih =>
    obtain ⟨n, rfl⟩ : ∃ k, n = k + 1 := ⟨n - 1, by rw [List.length_cons] at hn; omega⟩
    cases ms with
    | nil =>
      show readMembers (n + 1) (memberText m ++ [125]) = _
      rw [readMembers, readMember_text]
      rfl
    | cons m' ms =>
      have htext : membersText (m :: m' :: ms) ++ [125] = memberText m ++ 44 :: (membersText (m' :: ms) ++ [125]) := by
        simp [membersText]
      rw [htext, readMembers, readMember_text]
      show (readMembers n (membersText (m' :: ms) ++ [125])).bind (fun l => some (_ :: l)) = _
      rw [ih (List.cons_ne_nil _ _) (Nat.le_of_succ_le_succ hn)]
      rfl

theorem memberText_pos (m : List UInt8 × Scalar) : 0 < (memberText m).length := Nat.succ_pos _

theorem length_le_membersText (ms : List (List UInt8 × Scalar)) : ms.length ≤ (membersText ms).length := by
  induction ms with
  | nil => exact Nat.zero_le _
  | cons m ms ih =>
    cases ms with
    | nil => exact memberText_pos m
    | cons m' ms =>
      simp only [membersText, List.length_append, List.length_cons] at ih ⊢
      omega

/-- An object that was written is read member by member, each string coerced to valid UTF-8. -/
theorem readObject_objectText (ms : List (List UInt8 × Scalar)) :
    readObject (objectText ms) = some (ms.map fun m => (coerce m.1, m.2.coerced)) := by
  rw [objectText, readObject, if_pos rfl]
  cases ms with
  | nil => rfl
  | cons m ms =>
    have hne : ¬membersText (m :: ms) ++ [125] = [125] := by
      intro h
      have hlen := congrArg List.length h
      have hpos := length_le_membersText (m :: ms)
      simp only [List.length_append, List.length_cons, List.length_nil] at hlen hpos
      omega
    have hn : (m :: ms).length ≤ (membersText (m :: ms) ++ [125]).length := by
      have := length_le_membersText (m :: ms)
      rw [List.length_append]
      omega
    rw [if_neg hne, readMembers_text (List.cons_ne_nil _ _) hn]

end Json
