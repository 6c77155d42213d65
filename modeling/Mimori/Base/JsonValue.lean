/-
JSON in full, as Go's `encoding/json` reads it: white space between tokens, every kind of value, and decoding an
object into a struct (names matched exactly or up to case, unknown members dropped, `null` leaving a field as it
is). A text that was written member by member is read back as these members, whatever the texts of the values, as
long as each is read as its value.
-/
import Mimori.Base.Base64
import Mimori.Base.Decimal
import Mimori.Base.Json

namespace Json

open Utf8 Decimal

/-- A JSON value; a number is kept as its text. -/
inductive Value
  | null
  | bool (b : Bool)
  | num (text : List UInt8)
  | str (s : List UInt8)
  | arr (vs : List Value)
  | obj (ms : List (List UInt8 × Value))

/-! ## Reading values -/

def isBlank (b : UInt8) : Bool := b == 32 || b == 9 || b == 10 || b == 13

/-- The text from the next token on. -/
def skip (s : List UInt8) : List UInt8 := s.dropWhile isBlank

/-- The digits that the text starts with, at least one. -/
def readDigits (s : List UInt8) : Option (List UInt8 × List UInt8) :=
  if s.takeWhile isDigit = [] then none else some (s.takeWhile isDigit, s.dropWhile isDigit)

/-- The integer part of a number: no leading zeros. -/
def readWhole : List UInt8 → Option (List UInt8 × List UInt8)
  | [] => none
  | b :: s => if b = 48 then some ([48], s) else readDigits (b :: s)

/-- The fraction, if there is a point. -/
def readFraction : List UInt8 → Option (List UInt8 × List UInt8)
  | [] => some ([], [])
  | b :: s => if b = 46 then (readDigits s).map fun x => (46 :: x.1, x.2) else some ([], b :: s)

/-- The digits of an exponent, after its sign. -/
def readPower : List UInt8 → Option (List UInt8 × List UInt8)
  | [] => none
  | b :: s => if b = 43 ∨ b = 45 then (readDigits s).map fun x => (b :: x.1, x.2) else readDigits (b :: s)

/-- The exponent, if there is one. -/
def readExponent : List UInt8 → Option (List UInt8 × List UInt8)
  | [] => some ([], [])
  | b :: s => if b = 101 ∨ b = 69 then (readPower s).map fun x => (b :: x.1, x.2) else some ([], b :: s)

/-- A number: its text and what follows it. -/
def readNumber (s : List UInt8) : Option (List UInt8 × List UInt8) := do
  let minus := if s.head? = some 45 then [45] else []
  let (whole, s) ← readWhole (s.drop minus.length)
  let (fraction, s) ← readFraction s
  let (exponent, s) ← readExponent s
  return (minus ++ whole ++ fraction ++ exponent, s)

def readWord (word : List UInt8) (v : Value) (s : List UInt8) : Option (Value × List UInt8) :=
  if word.isPrefixOf s then some (v, s.drop word.length) else none

mutual

/-- The next value and what follows it. Every call takes at least one byte, so the length of the text is fuel enough. -/
def readValue : Nat → List UInt8 → Option (Value × List UInt8)
  | 0, _ => none
  | n + 1, s =>
    match skip s with
    | [] => none
    | b :: t =>
      if b = 34 then (readString (b :: t)).map fun x => (.str x.1, x.2)
      else if b = 123 then
        if (skip t).head? = some 125 then some (.obj [], (skip t).tail)
        else (readFields n t).map fun x => (.obj x.1, x.2)
      else if b = 91 then
        if (skip t).head? = some 93 then some (.arr [], (skip t).tail)
        else (readElements n t).map fun x => (.arr x.1, x.2)
      else if b = 110 then readWord nullText .null (b :: t)
      else if b = 116 then readWord [116, 114, 117, 101] (.bool true) (b :: t)
      else if b = 102 then readWord [102, 97, 108, 115, 101] (.bool false) (b :: t)
      else (readNumber (b :: t)).map fun x => (.num x.1, x.2)

/-- The members up to the brace that ends the object. -/
def readFields : Nat → List UInt8 → Option (List (List UInt8 × Value) × List UInt8)
  | 0, _ => none
  | n + 1, s =>
    match readString (skip s) with
    | none => none
    | some (name, rest) =>
      match skip rest with
      | [] => none
      | b :: rest =>
        if b = 58 then
          match readValue n rest with
          | none => none
          | some (v, rest) =>
            match skip rest with
            | [] => none
            | c :: rest =>
              if c = 125 then some ([(name, v)], rest)
              else if c = 44 then (readFields n rest).map fun x => ((name, v) :: x.1, x.2)
              else none
        else none

/-- The elements up to the bracket that ends the array. -/
def readElements : Nat → List UInt8 → Option (List Value × List UInt8)
  | 0, _ => none
  | n + 1, s =>
    match readValue n s with
    | none => none
    | some (v, rest) =>
      match skip rest with
      | [] => none
      | c :: rest =>
        if c = 93 then some ([v], rest)
        else if c = 44 then (readElements n rest).map fun x => (v :: x.1, x.2)
        else none

end

/-- The value that a whole text is. -/
def parse (s : List UInt8) : Option Value :=
  match readValue (s.length + 1) s with
  | some (v, rest) => if skip rest = [] then some v else none
  | none => none

/-! ## Decoding into a struct -/

/-- A character of a name without its case; the Kelvin sign is a `k`, the long s an `s`. -/
def foldPiece : Piece → List UInt8
  | .char [b] => [if 65 ≤ b ∧ b ≤ 90 then b + 32 else b]
  | .char c => if c = encodeRune 0x212A then [107] else if c = encodeRune 0x17F then [115] else c
  | .bad _ => runeError

def foldName (s : List UInt8) : List UInt8 := (split s).flatMap foldPiece

section
variable {σ : Type}

/-- How the fields of a struct are called, and how each takes a value; `none` is a type error. -/
abbrev Fields (σ : Type) := List (List UInt8 × (σ → Value → Option σ))

/-- The field for a name: the one so called, else the first so called up to case. -/
def Fields.find (fields : Fields σ) (name : List UInt8) : Option (σ → Value → Option σ) :=
  match fields.find? fun f => f.1 == name with
  | some f => some f.2
  | none => (fields.find? fun f => foldName f.1 == foldName name).map Prod.snd

/-- A member goes to its field, if there is one. -/
def Fields.take (fields : Fields σ) (s : σ) (m : List UInt8 × Value) : Option σ :=
  match fields.find m.1 with
  | some set => set s m.2
  | none => some s

/-- `json.Unmarshal` into a struct. -/
def unmarshal (fields : Fields σ) (zero : σ) (data : List UInt8) : Option σ :=
  match parse data with
  | some .null => some zero
  | some (.obj ms) => ms.foldlM fields.take zero
  | _ => none

/-- A field of type `int`. -/
def intField (set : σ → Int → σ) (s : σ) : Value → Option σ
  | .null => some s
  | .num text => if (atoi text).2 then some (set s (atoi text).1) else none
  | _ => none

/-- A field of type `string`. -/
def stringField (set : σ → List UInt8 → σ) (s : σ) : Value → Option σ
  | .null => some s
  | .str t => some (set s t)
  | _ => none

/-- An element of a `[]byte` that is written as an array. -/
def byteValue : Value → Option UInt8
  | .null => some 0
  | .num text =>
    match natValue text with
    | some n => if n < 256 then some (.ofNat n) else none
    | none => none
  | _ => none

/-- A field of type `[]byte`; `none` is nil. -/
def bytesField (set : σ → Option (List UInt8) → σ) (s : σ) : Value → Option σ
  | .null => some (set s none)
  | .str t => (Base64.decode t).map fun b => set s (some b)
  | .arr vs => (vs.mapM byteValue).map fun b => set s (some b)
  | _ => none

/-- An element of a slice of structs. -/
def structValue (fields : Fields σ) (zero : σ) : Value → Option σ
  | .null => some zero
  | .obj ms => ms.foldlM fields.take zero
  | _ => none

/-- An element of a `[]string`. -/
def stringValue : Value → Option (List UInt8)
  | .null => some []
  | .str t => some t
  | _ => none

/-- A field of a slice type. -/
def sliceField {β : Type} (element : Value → Option β) (set : σ → List β → σ) (s : σ) : Value → Option σ
  | .null => some (set s [])
  | .arr vs => (vs.mapM element).map (set s)
  | _ => none

/-- `json.Unmarshal` into a slice. -/
def unmarshalSlice {β : Type} (element : Value → Option β) (data : List UInt8) : Option (List β) :=
  match parse data with
  | some .null => some []
  | some (.arr vs) => vs.mapM element
  | _ => none

end

/-! ## Writing objects -/

/-- Members given by their names and the texts of their values. -/
def fieldsText : List (List UInt8 × List UInt8) → List UInt8
  | [] => []
  | [m] => quote m.1 ++ 58 :: m.2
  | m :: ms => quote m.1 ++ 58 :: (m.2 ++ 44 :: fieldsText ms)

def structText (ms : List (List UInt8 × List UInt8)) : List UInt8 := 123 :: (fieldsText ms ++ [125])

/-- Elements given by their texts. -/
def elementsText : List (List UInt8) → List UInt8
  | [] => []
  | [t] => t
  | t :: ts => t ++ 44 :: elementsText ts

def arrayText (ts : List (List UInt8)) : List UInt8 := 91 :: (elementsText ts ++ [93])

/-! ## Reading what was written -/

theorem skip_cons {b : UInt8} (s : List UInt8) (h : isBlank b = false) : skip (b :: s) = b :: s :=
  List.dropWhile_cons_of_neg (by rw [h]; exact Bool.false_ne_true)

/-- A value of an object or array ends here. -/
def Ends (rest : List UInt8) : Prop := ∀ b ∈ rest.head?, b = 44 ∨ b = 93 ∨ b = 125

/-- The text is read as the value, wherever it stands in a larger text. -/
def Reads (t : List UInt8) (v : Value) : Prop :=
  ∀ n, t.length ≤ n → ∀ rest, Ends rest → readValue (n + 1) (t ++ rest) = some (v, rest)

theorem parse_of_reads {t : List UInt8} {v : Value} (h : Reads t v) : parse t = some v := by
  have := h t.length (Nat.le_refl _) [] (fun b hb => (by cases hb))
  rw [List.append_nil] at this
  simp only [parse, this]
  rfl

theorem reads_null : Reads nullText .null := by
  intro n _ rest _
  rfl

theorem reads_quote (s : List UInt8) : Reads (quote s) (.str (coerce s)) := by
  intro n _ rest _
  have hread := readString_quote s rest
  obtain ⟨t, ht⟩ : ∃ t, quote s ++ rest = 34 :: t := ⟨_, rfl⟩
  rw [ht] at hread ⊢
  rw [readValue, skip_cons t rfl]
  simp only [if_true, hread, Option.map_some]

/-- What ends a value does not go on with a number. -/
theorem Ends.not_digit {rest : List UInt8} (h : Ends rest) : ∀ b ∈ rest.head?, isDigit b = false := by
  intro b hb
  rcases h b hb with rfl | rfl | rfl <;> rfl

theorem takeWhile_digits {s rest : List UInt8} (hs : ∀ b ∈ s, isDigit b = true) (h : Ends rest) :
    (s ++ rest).takeWhile isDigit = s ∧ (s ++ rest).dropWhile isDigit = rest := by
  rw [List.takeWhile_append_of_pos hs, List.dropWhile_append_of_pos hs]
  cases rest with
  | nil => exact ⟨List.append_nil s, rfl⟩
  | cons b rest =>
    have hb : ¬ isDigit b = true := by rw [h.not_digit b rfl]; exact Bool.false_ne_true
    rw [List.takeWhile_cons_of_neg hb, List.dropWhile_cons_of_neg hb]
    exact ⟨List.append_nil s, rfl⟩

theorem readWhole_natText (n : Nat) {rest : List UInt8} (h : Ends rest) :
    readWhole (natText n ++ rest) = some (natText n, rest) := by
  obtain ⟨b, t, hbt⟩ := List.exists_cons_of_ne_nil (natText_ne_nil n)
  have hdigits := natText_digits n
  rw [hbt] at hdigits ⊢
  obtain ⟨htake, hdrop⟩ := takeWhile_digits hdigits h
  rw [List.cons_append] at htake hdrop ⊢
  rw [readWhole]
  split
  · rename_i hb
    subst hb
    rw [natText_leading hbt]
    rfl
  · rw [readDigits, htake, hdrop, if_neg (List.cons_ne_nil _ _)]

theorem Ends.readFraction {rest : List UInt8} (h : Ends rest) : readFraction rest = some ([], rest) := by
  cases rest with
  | nil => rfl
  | cons b rest =>
    refine if_neg ?_
    rintro rfl
    exact absurd (h 46 rfl) (by decide)

theorem Ends.readExponent {rest : List UInt8} (h : Ends rest) : readExponent rest = some ([], rest) := by
  cases rest with
  | nil => rfl
  | cons b rest =>
    refine if_neg ?_
    rintro (rfl | rfl)
    · exact absurd (h 101 rfl) (by decide)
    · exact absurd (h 69 rfl) (by decide)

theorem readNumber_natText (n : Nat) {rest : List UInt8} (h : Ends rest) :
    readNumber (natText n ++ rest) = some (natText n, rest) := by
  have hminus : (natText n ++ rest).head? ≠ some 45 := by
    obtain ⟨b, t, hbt⟩ := List.exists_cons_of_ne_nil (natText_ne_nil n)
    have hb := natText_digits n b (by rw [hbt]; exact List.mem_cons_self)
    rw [hbt]
    rintro ⟨⟩
    cases hb
  simp only [readNumber, if_neg hminus, List.length_nil, List.drop_zero, readWhole_natText n h, h.readFraction,
    h.readExponent, Option.bind_eq_bind, Option.bind_some, List.nil_append, List.append_nil]
  rfl

theorem reads_natText (k : Nat) : Reads (natText k) (.num (natText k)) := by
  intro n _ rest h
  have hread := readNumber_natText k h
  obtain ⟨b, t, hbt⟩ := List.exists_cons_of_ne_nil (natText_ne_nil k)
  have hb := digit_bounds (natText_digits k b (by rw [hbt]; exact List.mem_cons_self))
  rw [hbt, List.cons_append] at hread ⊢
  have hblank : isBlank b = false := by
    simp only [isBlank, Bool.or_eq_false_iff, beq_eq_false_iff_ne]
    refine ⟨⟨⟨?_, ?_⟩, ?_⟩, ?_⟩ <;> (rintro rfl; exact absurd hb (by decide))
  have hne : b ≠ 34 ∧ b ≠ 123 ∧ b ≠ 91 ∧ b ≠ 110 ∧ b ≠ 116 ∧ b ≠ 102 := by
    refine ⟨?_, ?_, ?_, ?_, ?_, ?_⟩ <;> (rintro rfl; exact absurd hb (by decide))
  rw [readValue, skip_cons _ hblank]
  simp only [if_neg hne.1, if_neg hne.2.1, if_neg hne.2.2.1, if_neg hne.2.2.2.1, if_neg hne.2.2.2.2.1,
    if_neg hne.2.2.2.2.2, hread, Option.map_some]

/-- One member, up to the comma or the brace after it. -/
theorem readFields_member (name : List UInt8) {t : List UInt8} {v : Value} (hv : Reads t v) {n : Nat} (hn : t.length < n)
    {c : UInt8} (hc : c = 44 ∨ c = 125) (rest : List UInt8) :
    readFields (n + 1) (quote name ++ 58 :: (t ++ c :: rest)) =
      if c = 125 then some ([(coerce name, v)], rest)
      else if c = 44 then (readFields n rest).map fun x => ((coerce name, v) :: x.1, x.2)
      else none := by
  have hskip : skip (quote name ++ 58 :: (t ++ c :: rest)) = quote name ++ 58 :: (t ++ c :: rest) := skip_cons _ rfl
  have hends : Ends (c :: rest) := by
    rintro b ⟨⟩
    rcases hc with rfl | rfl
    · exact .inl rfl
    · exact .inr (.inr rfl)
  have hcskip : skip (c :: rest) = c :: rest := by rcases hc with rfl | rfl <;> exact skip_cons _ rfl
  obtain ⟨n, rfl⟩ : ∃ k, n = k + 1 := ⟨n - 1, by omega⟩
  have hval := hv n (Nat.le_of_lt_succ hn) (c :: rest) hends
  have hcolon : skip (58 :: (t ++ c :: rest)) = 58 :: (t ++ c :: rest) := skip_cons _ rfl
  rw [readFields, hskip, readString_quote]
  simp only [hcolon, if_true, hval, hcskip]

/-- Members whose values are read as such are read as these members. -/
theorem readFields_text {ms : List (List UInt8 × List UInt8 × Value)} (hms : ms ≠ []) (h : ∀ m ∈ ms, Reads m.2.1 m.2.2)
    (rest : List UInt8) {n : Nat} (hn : (fieldsText (ms.map fun m => (m.1, m.2.1))).length ≤ n) :
    readFields (n + 1) (fieldsText (ms.map fun m => (m.1, m.2.1)) ++ 125 :: rest) =
      some (ms.map fun m => (coerce m.1, m.2.2), rest) := by
  induction ms generalizing n with
  | nil => exact absurd rfl hms
  | cons m ms ih =>
    obtain ⟨name, t, v⟩ := m
    have hv : Reads t v := h _ List.mem_cons_self
    cases ms with
    | nil =>
      simp only [List.map_cons, List.map_nil, fieldsText, List.length_append, List.length_cons] at hn ⊢
      rw [List.append_assoc, List.cons_append, readFields_member name hv (by omega) (.inr rfl) rest]
      rfl
    | cons m' ms =>
      have htext : fieldsText (((name, t, v) :: m' :: ms).map fun m => (m.1, m.2.1)) =
          quote name ++ 58 :: (t ++ 44 :: fieldsText ((m' :: ms).map fun m => (m.1, m.2.1))) := rfl
      rw [htext] at hn ⊢
      simp only [List.length_append, List.length_cons] at hn
      obtain ⟨n, rfl⟩ : ∃ k, n = k + 1 := ⟨n - 1, by omega⟩
      rw [List.append_assoc, List.cons_append, List.append_assoc, List.cons_append,
        readFields_member name hv (by omega) (.inl rfl), if_neg (by decide), if_pos rfl,
        ih (List.cons_ne_nil _ _) (fun m hm => h m (List.mem_cons_of_mem _ hm)) (by omega)]
      rfl

/-- A struct that was written is read as an object of its members. -/
theorem reads_structText {ms : List (List UInt8 × List UInt8 × Value)} (hms : ms ≠ []) (h : ∀ m ∈ ms, Reads m.2.1 m.2.2) :
    Reads (structText (ms.map fun m => (m.1, m.2.1))) (.obj (ms.map fun m => (coerce m.1, m.2.2))) := by
  intro n hn rest _
  rw [structText, List.length_cons, List.length_append, List.length_singleton] at hn
  obtain ⟨n, rfl⟩ : ∃ k, n = k + 1 := ⟨n - 1, by omega⟩
  have hread := readFields_text hms h rest (n := n) (by omega)
  -- the first member starts with a quote, so the object is not empty
  have hquote : ∃ t, fieldsText (ms.map fun m => (m.1, m.2.1)) ++ 125 :: rest = 34 :: t := by
    cases ms with
    | nil => exact absurd rfl hms
    | cons m ms => cases ms <;> exact ⟨_, rfl⟩
  have happ : structText (ms.map fun m => (m.1, m.2.1)) ++ rest =
      123 :: (fieldsText (ms.map fun m => (m.1, m.2.1)) ++ 125 :: rest) := by
    rw [structText, List.cons_append, List.append_assoc]
    rfl
  obtain ⟨t, ht⟩ := hquote
  rw [happ]
  rw [ht] at hread ⊢
  have hskip : skip (34 :: t) = 34 :: t := skip_cons t rfl
  have hbrace : skip (123 :: 34 :: t) = 123 :: 34 :: t := skip_cons _ rfl
  rw [readValue, hbrace]
  simp only [hskip, hread, List.head?_cons, Option.map_some]
  rfl

def Scalar.value : Scalar → Value
  | .null => .null
  | .str s => .str s

theorem reads_scalar (v : Scalar) : Reads v.text v.coerced.value := by
  cases v with
  | null => exact reads_null
  | str s => exact reads_quote s

theorem membersText_eq (ms : List (List UInt8 × Scalar)) :
    membersText ms = fieldsText (ms.map fun m => (m.1, m.2.text)) := by
  induction ms with
  | nil => rfl
  | cons m ms ih =>
    cases ms with
    | nil => rfl
    | cons m' ms =>
      rw [membersText, ih]
      simp only [memberText, List.map_cons, fieldsText, List.append_assoc, List.cons_append]
      exact fun h => by cases h

/-- An object of scalars that was written, read as any JSON text is. -/
theorem parse_objectText (ms : List (List UInt8 × Scalar)) :
    parse (objectText ms) = some (.obj (ms.map fun m => (coerce m.1, m.2.coerced.value))) := by
  by_cases hms : ms = []
  · subst hms
    rfl
  · have hreads := parse_of_reads (@reads_structText (ms.map fun m => (m.1, m.2.text, m.2.coerced.value))
      (by simpa using hms) fun m hm => by
        obtain ⟨x, _, rfl⟩ := List.mem_map.1 hm
        exact reads_scalar x.2)
    rw [List.map_map, List.map_map] at hreads
    rw [objectText, membersText_eq]
    exact hreads

/-- Decoding a struct that was written takes its members one after the other. -/
theorem unmarshal_structText {σ : Type} (fields : Fields σ) (zero : σ) {ms : List (List UInt8 × List UInt8 × Value)}
    (hms : ms ≠ []) (h : ∀ m ∈ ms, Reads m.2.1 m.2.2) :
    unmarshal fields zero (structText (ms.map fun m => (m.1, m.2.1))) =
      (ms.map fun m => (coerce m.1, m.2.2)).foldlM fields.take zero := by
  simp only [unmarshal, parse_of_reads (reads_structText hms h)]

/-! ## Integers and arrays that were written -/

theorem readNumber_itoa (z : Int) {rest : List UInt8} (h : Ends rest) :
    readNumber (itoa z ++ rest) = some (itoa z, rest) := by
  unfold itoa
  split
  · simp only [readNumber, List.cons_append, List.head?_cons, if_true, List.length_singleton, List.drop_succ_cons,
      List.drop_zero, readWhole_natText z.natAbs h, h.readFraction, h.readExponent, Option.bind_eq_bind, Option.bind_some,
      List.nil_append, List.append_nil]
    rfl
  · exact readNumber_natText z.natAbs h

theorem reads_itoa (z : Int) : Reads (itoa z) (.num (itoa z)) := by
  by_cases hz : z < 0
  · intro n _ rest h
    have hread := readNumber_itoa z h
    obtain ⟨t, ht⟩ : ∃ t, itoa z = 45 :: t := ⟨natText z.natAbs, if_pos hz⟩
    rw [ht, List.cons_append] at hread ⊢
    rw [readValue, skip_cons _ rfl]
    simp only [hread, Option.map_some]
    rfl
  · have h := reads_natText z.natAbs
    rwa [show natText z.natAbs = itoa z from (if_neg hz).symm] at h

theorem intField_itoa {σ : Type} (set : σ → Int → σ) (s : σ) {z : Int} (h : Fits z) :
    intField set s (.num (itoa z)) = some (set s z) := by
  simp only [intField, atoi_itoa h, if_true]

theorem not_bracket {n : Nat} {s : List UInt8} {x : Value × List UInt8} (h : readValue (n + 1) s = some x) :
    (skip s).head? ≠ some 93 := by
  intro hb
  obtain ⟨t, ht⟩ : ∃ t, skip s = 93 :: t := by
    cases hs : skip s with
    | nil => rw [hs] at hb; cases hb
    | cons b t =>
      rw [hs] at hb
      cases hb
      exact ⟨t, rfl⟩
  rw [readValue, ht] at h
  cases h

/-- One element, up to the comma or the bracket after it. -/
theorem readElements_element {t : List UInt8} {v : Value} (hv : Reads t v) {n : Nat} (hn : t.length < n) {c : UInt8}
    (hc : c = 44 ∨ c = 93) (rest : List UInt8) :
    readElements (n + 1) (t ++ c :: rest) =
      if c = 93 then some ([v], rest)
      else if c = 44 then (readElements n rest).map fun x => (v :: x.1, x.2)
      else none := by
  have hends : Ends (c :: rest) := by
    rintro b ⟨⟩
    rcases hc with rfl | rfl
    · exact .inl rfl
    · exact .inr (.inl rfl)
  have hskip : skip (c :: rest) = c :: rest := by rcases hc with rfl | rfl <;> exact skip_cons _ rfl
  obtain ⟨n, rfl⟩ : ∃ k, n = k + 1 := ⟨n - 1, by omega⟩
  have hval := hv n (Nat.le_of_lt_succ hn) (c :: rest) hends
  rw [readElements, hval]
  simp only [hskip]

theorem readElements_text {vs : List (List UInt8 × Value)} (hvs : vs ≠ []) (h : ∀ v ∈ vs, Reads v.1 v.2)
    (rest : List UInt8) {n : Nat} (hn : (elementsText (vs.map Prod.fst)).length < n) :
    readElements (n + 1) (elementsText (vs.map Prod.fst) ++ 93 :: rest) = some (vs.map Prod.snd, rest) := by
  induction vs generalizing n with
  | nil => exact absurd rfl hvs
  | cons v vs ih =>
    obtain ⟨t, v⟩ := v
    have hv : Reads t v := h _ List.mem_cons_self
    cases vs with
    | nil => exact readElements_element hv hn (.inr rfl) rest
    | cons v' vs =>
      have htext : elementsText (((t, v) :: v' :: vs).map Prod.fst) =
          t ++ 44 :: elementsText ((v' :: vs).map Prod.fst) := rfl
      rw [htext] at hn ⊢
      simp only [List.length_append, List.length_cons] at hn
      obtain ⟨n, rfl⟩ : ∃ k, n = k + 1 := ⟨n - 1, by omega⟩
      rw [List.append_assoc, List.cons_append, readElements_element hv (by omega) (.inl rfl), if_neg (by decide), if_pos rfl,
        ih (List.cons_ne_nil _ _) (fun x hx => h x (List.mem_cons_of_mem _ hx)) (by omega)]
      rfl

/-- An array that was written is read as an array of its elements. -/
theorem reads_arrayText (l : List (List UInt8 × Value)) (h : ∀ v ∈ l, Reads v.1 v.2) :
    Reads (arrayText (l.map Prod.fst)) (.arr (l.map Prod.snd)) := by
  intro n hn rest hrest
  have hopen : ∀ t, skip (91 :: t) = 91 :: t := fun t => skip_cons t rfl
  cases l with
  | nil => rfl
  | cons v vs =>
    rw [arrayText, List.length_cons, List.length_append, List.length_singleton] at hn
    obtain ⟨n, rfl⟩ : ∃ k, n = k + 1 := ⟨n - 1, by omega⟩
    have hread := readElements_text (List.cons_ne_nil v vs) h rest (n := n) (by omega)
    have happ : arrayText ((v :: vs).map Prod.fst) ++ rest =
        91 :: (elementsText ((v :: vs).map Prod.fst) ++ 93 :: rest) := by
      rw [arrayText, List.cons_append, List.append_assoc]
      rfl
    generalize elementsText ((v :: vs).map Prod.fst) ++ 93 :: rest = text at hread happ
    -- the first element is a value, so the array is not empty
    have hne : ¬ (skip text).head? = some 93 := by
      rw [readElements] at hread
      split at hread
      · cases hread
      · rename_i hv
        obtain ⟨n, rfl⟩ : ∃ k, n = k + 1 := by
          cases n with
          | zero => cases hv
          | succ k => exact ⟨k, rfl⟩
        exact not_bracket hv
    rw [happ, readValue, hopen]
    simp only [if_neg hne, hread, Option.map_some]
    rfl

theorem mapM_of_forall {β γ : Type} {f : β → Value} {p : Value → Option γ} {g : β → γ} {l : List β}
    (h : ∀ x ∈ l, p (f x) = some (g x)) : (l.map f).mapM p = some (l.map g) := by
  induction l with
  | nil => rfl
  | cons x l ih =>
    rw [List.map_cons, List.mapM_cons, h x List.mem_cons_self, ih fun y hy => h y (List.mem_cons_of_mem _ hy)]
    rfl

end Json
