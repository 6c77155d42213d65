/-
Logs whose entries carry a term, and the histories they come from. `LL t` is the log of the leader of
term `t`; a log is a path of `LL` when every entry `x` of it, at its place, ends the same prefix as in
the log of the leader of `x`'s term. Two paths that share an entry's term at a place share everything
up to it, and writing a segment of a leader's log over a path that agrees with it gives a path again.
-/
import Mathlib.Data.List.TakeDrop
import Mathlib.Data.List.Infix
import Mathlib.Order.Lattice

namespace TermLog

variable {α τ : Type} {m k b : Nat}

/-! ## Overwriting -/

section Splice

variable [DecidableEq τ] (term : α → τ)

/-- Write `es` into `log` from position `k` on: an entry with the term of the one in its place is
already there; one that differs cuts the log off; one past the end is appended. -/
def splice (log : List α) (k : Nat) : List α → List α
  | [] => log
  | e :: es =>
    match log[k]? with
    | some old => if term old ≠ term e then splice (log.take k ++ [e]) (k + 1) es else splice log (k + 1) es
    | none => splice (log ++ [e]) (k + 1) es

end Splice

/-! ## Paths -/

variable {term : α → τ} {LL LL' : τ → List α} {p q : List α}

theorem take_eq_of_le {j : Nat} (h : p.take m = q.take m) (hj : j ≤ m) : p.take j = q.take j := by
  have := congrArg (List.take j) h
  rwa [List.take_take, List.take_take, Nat.min_eq_left hj] at this

/-- Every entry of `p` ends, in the log of the leader of its term, the prefix it ends in `p`. -/
def Path (term : α → τ) (LL : τ → List α) (p : List α) : Prop :=
  ∀ (i : Nat) (x : α), p[i]? = some x → (LL (term x)).take (i + 1) = p.take (i + 1)

theorem Path.nil : Path term LL [] := by
  intro i x h; simp at h

theorem Path.take (h : Path term LL p) (k : Nat) : Path term LL (p.take k) := by
  intro i x hx
  rw [List.getElem?_take] at hx
  split at hx
  · rename_i hi
    rw [h i x hx, List.take_take, Nat.min_eq_left hi]
  · cases hx

theorem Path.mono (h : Path term LL p) (hLL : ∀ t, LL t <+: LL' t) : Path term LL' p := by
  intro i x hx
  have hi : i < p.length := (List.getElem?_eq_some_iff.1 hx).1
  have hlen : i + 1 ≤ (LL (term x)).length := by
    have := congrArg List.length (h i x hx)
    simp only [List.length_take] at this
    omega
  obtain ⟨rest, hrest⟩ := hLL (term x)
  rw [← h i x hx, ← hrest, List.take_append_of_le_length hlen]

/-- Two paths with entries of one term at one place agree up to that place. -/
theorem Path.agree (hp : Path term LL p) (hq : Path term LL q) {i : Nat} {x y : α} (hx : p[i]? = some x)
    (hy : q[i]? = some y) (ht : term x = term y) : p.take (i + 1) = q.take (i + 1) := by
  rw [← hp i x hx, ← hq i y hy, ht]

theorem Path.ne_nil (hp : Path term LL p) {x : α} (hx : x ∈ p) : LL (term x) ≠ [] := by
  obtain ⟨i, hi, rfl⟩ := List.getElem_of_mem hx
  intro hnil
  have h := hp i _ (List.getElem?_eq_getElem hi)
  rw [hnil, List.take_nil] at h
  have := congrArg List.length h
  simp only [List.length_nil, List.length_take] at this
  omega

theorem Path.mem_log (hp : Path term LL p) {x : α} (hx : x ∈ p) : x ∈ LL (term x) := by
  obtain ⟨i, hi⟩ := List.mem_iff_getElem?.1 hx
  have hget := congrArg (fun l => l[i]?) (hp i x hi)
  simp only [List.getElem?_take, if_pos (Nat.lt_succ_self i), hi] at hget
  exact List.mem_of_getElem? hget

/-- A path with one more entry, at the end of the log of its term's leader. -/
theorem Path.concat (hp : Path term LL p) {x : α} (hx : LL (term x) = p ++ [x]) : Path term LL (p ++ [x]) := by
  intro i y hy
  rcases Nat.lt_or_ge i p.length with hi | hi
  · rw [List.getElem?_append_left hi] at hy
    rw [hp i y hy, List.take_append_of_le_length (by omega)]
  · rw [List.getElem?_append_right hi] at hy
    have h0 : i - p.length = 0 := by
      have := (List.getElem?_eq_some_iff.1 hy).1
      simpa using this
    rw [h0] at hy
    simp only [List.getElem?_cons_zero, Option.some.injEq] at hy
    rw [← hy, hx]

/-- The entries of a segment: the first one stands in its place, the others follow it. -/
theorem segment_cons {q es : List α} {e : α} (h : (q.drop k).take (e :: es).length = e :: es) :
    q[k]? = some e ∧ (q.drop (k + 1)).take es.length = es := by
  cases hd : q.drop k with
  | nil => rw [hd] at h; simp at h
  | cons x xs =>
    rw [hd, List.length_cons, List.take_succ_cons] at h
    injection h with h1 h2
    refine ⟨?_, by rw [← List.tail_drop, hd]; exact h2⟩
    rw [← h1, ← List.head?_drop, hd]; rfl

/-- `p'` is `p`, if it holds the first `m` entries of `q`, and otherwise just these entries. -/
def Overwritten (p q : List α) (m : Nat) (p' : List α) : Prop :=
  (p' = p ∧ p.take m = q.take m) ∨ (p' = q.take m ∧ p.take m ≠ q.take m)

theorem Overwritten.take {p' : List α} (h : Overwritten p q m p') : p'.take m = q.take m := by
  rcases h with ⟨rfl, h⟩ | ⟨rfl, _⟩
  · exact h
  · rw [List.take_take, Nat.min_self]

theorem Overwritten.keeps {p' : List α} (h : Overwritten p q m p') (hk : p.take k = q.take k) :
    p'.take k = q.take k := by
  rcases h with ⟨rfl, _⟩ | ⟨rfl, hne⟩
  · exact hk
  · have hlt : k < m := by
      by_contra hle
      have := congrArg (List.take m) hk
      rw [List.take_take, List.take_take, Nat.min_eq_left (by omega)] at this
      exact hne this
    rw [List.take_take, Nat.min_eq_left (by omega)]

/-- Where the two logs have entries of one term at one place, they agree up to it. -/
def Matching (term : α → τ) (p q : List α) : Prop :=
  ∀ (i : Nat) (x y : α), p[i]? = some x → q[i]? = some y → term x = term y → p.take (i + 1) = q.take (i + 1)

theorem Path.matching (hp : Path term LL p) (hq : Path term LL q) : Matching term p q :=
  fun _ _ _ hx hy ht => hp.agree hq hx hy ht

theorem Matching.of_take (k : Nat) : Matching term (q.take k) q := by
  intro i x y hx _ _
  rw [List.getElem?_take] at hx
  split at hx
  · rename_i hi
    rw [List.take_take, Nat.min_eq_left hi]
  · cases hx

theorem Matching.overwritten {p' : List α} (h : Matching term p q) (ho : Overwritten p q m p') :
    Matching term p' q := by
  rcases ho with ⟨rfl, _⟩ | ⟨rfl, _⟩
  · exact h
  · exact .of_take m

/-- Writing a segment of `q` into a log that matches `q` and agrees with it below the segment changes
nothing, if the log holds the segment already, or leaves `q` up to the end of the segment. -/
theorem splice_matching [DecidableEq τ] {q : List α} :
    ∀ {es : List α} {k : Nat} {p : List α}, Matching term p q → p.take k = q.take k →
      (q.drop k).take es.length = es → Overwritten p q (k + es.length) (splice term p k es)
  | [], k, p, hp, hk, _ => .inl ⟨rfl, by simpa using hk⟩
  | e :: es, k, p, hp, hk, hes => by
    obtain ⟨he, hrest⟩ := segment_cons hes
    have hsum : k + (e :: es).length = k + 1 + es.length := by rw [List.length_cons]; omega
    -- a log that is cut off at `k` goes on with `q` from there
    have hcut : ∀ p' : List α, p'.length ≤ k → p'.take k = q.take k →
        splice term (p' ++ [e]) (k + 1) es = q.take (k + 1 + es.length) := by
      intro p' hlen hp'
      have heq : p' ++ [e] = q.take (k + 1) := by
        rw [List.take_add_one, he, ← hp', List.take_of_length_le hlen]; rfl
      rw [heq]
      rcases splice_matching (.of_take (k + 1)) (by rw [List.take_take, Nat.min_self]) hrest with ⟨h1, h2⟩ | ⟨h, _⟩
      · rw [h1, ← h2]
        exact (List.take_of_length_le (by simp only [List.length_take]; omega)).symm
      · exact h
    -- and it did not hold the segment
    have hdiff : p[k]? ≠ some e → p.take (k + 1 + es.length) ≠ q.take (k + 1 + es.length) := by
      intro hne heq
      have hk' := congrArg (fun l => l[k]?) heq
      simp only [List.getElem?_take, if_pos (by omega : k < k + 1 + es.length)] at hk'
      exact hne (hk'.trans he)
    rw [hsum]
    cases hold : p[k]? with
    | none =>
      have hlen : p.length ≤ k := List.getElem?_eq_none_iff.1 hold
      right
      simp only [splice, hold]
      exact ⟨hcut p hlen hk, hdiff (by rw [hold]; simp)⟩
    | some old =>
      simp only [splice, hold]
      by_cases ht : term old = term e
      · rw [if_neg (not_not.2 ht)]
        exact splice_matching hp (hp k old e hold he ht) hrest
      · rw [if_pos ht]
        right
        refine ⟨hcut _ (by simp only [List.length_take]; omega) ?_, hdiff ?_⟩
        · rw [List.take_take, Nat.min_self, hk]
        · rw [hold]
          intro h
          cases h
          exact ht rfl

/-- Only terms decide what is overwritten. -/
theorem splice_map [DecidableEq τ] :
    ∀ (es : List α) (k : Nat) (log : List α),
      (splice term log k es).map term = splice id (log.map term) k (es.map term)
  | [], _, _ => rfl
  | e :: es, k, log => by
    simp only [splice, List.map_cons, List.getElem?_map]
    cases log[k]? with
    | none => simpa using splice_map es (k + 1) (log ++ [e])
    | some old =>
      simp only [Option.map_some, id_eq]
      split
      · simpa using splice_map es (k + 1) (log.take k ++ [e])
      · exact splice_map es (k + 1) log

/-- Two lists of terms with equal terms at a place agree up to it. -/
def TermsMatch (p q : List τ) : Prop :=
  ∀ (i : Nat) (t : τ), p[i]? = some t → q[i]? = some t → p.take (i + 1) = q.take (i + 1)

theorem termsMatch_iff {p q : List τ} : TermsMatch p q ↔ Matching id p q := by
  constructor
  · intro h i x y hx hy hxy
    exact h i x hx (by rw [hy, show x = y from hxy])
  · intro h i t hp hq
    exact h i t t hp hq rfl

theorem TermsMatch.overwritten {p q p' : List τ} (h : TermsMatch p q) (ho : Overwritten p q m p') :
    TermsMatch p' q := termsMatch_iff.2 ((termsMatch_iff.1 h).overwritten ho)

/-- The terms of a log after a segment with the terms of `q` was written into it. -/
theorem TermsMatch.splice [DecidableEq τ] {p es : List α} {q : List τ} (h : TermsMatch (p.map term) q)
    (hk : (p.map term).take k = q.take k) (hes : (q.drop k).take es.length = es.map term) :
    Overwritten (p.map term) q (k + es.length) ((TermLog.splice term p k es).map term) := by
  rw [splice_map]
  have hes' : (q.drop k).take (es.map term).length = es.map term := by
    rw [List.length_map]; exact hes
  have ho := splice_matching (termsMatch_iff.1 h) hk hes'
  rwa [List.length_map] at ho

/-! ## Terms by position -/

/-- The term of the entry that ends the first `k` entries; `d` stands before the first one. -/
def termAt (term : α → τ) (d : τ) (p : List α) : Nat → τ
  | 0 => d
  | k + 1 => (p[k]?.map term).getD d

variable {d : τ}

theorem termAt_succ {x : α} (h : p[k]? = some x) : termAt term d p (k + 1) = term x := by
  simp only [termAt, h, Option.map_some, Option.getD_some]

theorem termAt_take (h : k ≤ m) : termAt term d (p.take m) k = termAt term d p k := by
  cases k with
  | zero => rfl
  | succ k => simp only [termAt, List.getElem?_take, if_pos (by omega : k < m)]

theorem termAt_append (h : k ≤ p.length) : termAt term d (p ++ q) k = termAt term d p k := by
  cases k with
  | zero => rfl
  | succ k => simp only [termAt, List.getElem?_append_left (by omega : k < p.length)]

/-- Two paths that end their first `k` entries in one term agree on them. -/
theorem Path.agree_termAt (hp : Path term LL p) (hq : Path term LL q) (hkp : k ≤ p.length) (hkq : k ≤ q.length)
    (ht : termAt term d p k = termAt term d q k) : p.take k = q.take k := by
  cases k with
  | zero => simp
  | succ k =>
    have hx := List.getElem?_eq_getElem (by omega : k < p.length)
    have hy := List.getElem?_eq_getElem (by omega : k < q.length)
    rw [termAt_succ hx, termAt_succ hy] at ht
    exact hp.agree hq hx hy ht

/-! ## Compacted logs -/

/-- `log` is what is left of `p` when its first `b` entries are compacted into one of the last one's term. -/
structure Window (term : α → τ) (d : τ) (p : List α) (b : Nat) (log : List α) : Prop where
  len : b ≤ p.length
  log : ∃ x, log = x :: p.drop b ∧ term x = termAt term d p b

theorem Window.getElem? {log : List α} (h : Window term d p b log) : log[k + 1]? = p[b + k]? := by
  obtain ⟨x, rfl, _⟩ := h.log
  rw [List.getElem?_cons_succ, List.getElem?_drop]

/-- Cutting off a path behind its compacted part and going on with `e`. -/
theorem Window.cut {log : List α} (h : Window term d p b log) (hk : b ≤ k) (hkl : k ≤ p.length) (e : α) :
    Window term d (p.take k ++ [e]) b (log.take (k + 1 - b) ++ [e]) := by
  obtain ⟨x, hlog, hx⟩ := h.log
  have hlen : (p.take k).length = k := by rw [List.length_take]; omega
  refine ⟨by rw [List.length_append, hlen]; omega, x, ?_, ?_⟩
  · rw [hlog, show k + 1 - b = k - b + 1 by omega, List.take_succ_cons, List.drop_append_of_le_length (by omega),
      List.drop_take]
    rfl
  · rw [hx, termAt_append (by omega), termAt_take hk]

/-- Overwriting from a position behind the compacted part, or at its last entry. -/
theorem Window.splice [DecidableEq τ] :
    ∀ (es : List α) {p log : List α} {k : Nat}, Window term d p b log → b ≤ k + 1 → k ≤ p.length →
      Window term d (TermLog.splice term p k es) b (TermLog.splice term log (k + 1 - b) es)
  | [], _, _, _, h, _, _ => h
  | e :: es, p, log, k, h, hb, hk => by
    obtain ⟨x, hlog, hx⟩ := h.log
    have hrec : ∀ p' log', Window term d p' b log' → k + 1 ≤ p'.length →
        Window term d (TermLog.splice term p' (k + 1) es) b (TermLog.splice term log' (k + 1 - b + 1) es) := by
      intro p' log' h' hlen
      have := h'.splice es (by omega : b ≤ k + 1 + 1) hlen
      rwa [show k + 1 + 1 - b = k + 1 - b + 1 by omega] at this
    rcases Nat.lt_or_ge k b with hkb | hkb
    · -- the entry stands where the log was compacted: only its term is known there
      obtain rfl : b = k + 1 := by omega
      have hlen := h.len
      have hold := List.getElem?_eq_getElem (by omega : k < p.length)
      have hterm : term x = term p[k] := by rw [hx, termAt_succ hold]
      rw [Nat.sub_self] at hrec ⊢
      simp only [TermLog.splice, hold, hlog, List.getElem?_cons_zero, hterm]
      rw [← hlog]
      split
      · have hl : (p.take k).length = k := by rw [List.length_take]; omega
        refine hrec _ _ ⟨by rw [List.length_append, hl]; simp, e, ?_, ?_⟩ (by rw [List.length_append, hl]; simp)
        · rw [List.drop_of_length_le (by rw [List.length_append, hl]; simp)]; rfl
        · rw [termAt_succ]
          rw [List.getElem?_append_right (by omega), hl]; simp
      · exact hrec _ _ h (by omega)
    · -- behind the compacted part both have the same entry
      have hget : log[k + 1 - b]? = p[k]? := by
        rw [show k + 1 - b = k - b + 1 by omega, h.getElem?, show b + (k - b) = k by omega]
      simp only [TermLog.splice, hget]
      cases hold : p[k]? with
      | none =>
        have hlen : p.length ≤ k := List.getElem?_eq_none_iff.1 hold
        have hw := h.cut hkb hk e
        rw [List.take_of_length_le hlen, List.take_of_length_le (by rw [hlog]; simp; omega)] at hw
        exact hrec _ _ hw (by rw [List.length_append, List.length_singleton]; omega)
      | some old =>
        have hlen : k < p.length := (List.getElem?_eq_some_iff.1 hold).1
        simp only
        split
        · refine hrec _ _ (h.cut hkb hk e) ?_
          rw [List.length_append, List.length_take, List.length_singleton]; omega
        · exact hrec _ _ h (by omega)

/-- Overwriting a compacted path by a segment of `q` that starts behind the compacted part: nothing
changes, if the path holds the segment already, or the log becomes that of `q` up to the end of the
segment. -/
theorem Window.overwrite [DecidableEq τ] (hp : Path term LL p) (hq : Path term LL q) {log es : List α}
    (h : Window term d p b log) (hb : b ≤ k + 1) (hk : k ≤ p.length) (hpre : p.take k = q.take k)
    (hes : (q.drop k).take es.length = es) :
    ∃ p', Window term d p' b (TermLog.splice term log (k + 1 - b) es) ∧ Overwritten p q (k + es.length) p' :=
  ⟨_, h.splice es hb hk, splice_matching (hp.matching hq) hpre hes⟩

/-- The same for a segment that starts at the last compacted entry, when nothing need be known about the
entries below it. -/
theorem Window.overwrite_base [DecidableEq τ] (hp : Path term LL p) (hq : Path term LL q) {log es : List α}
    (h : Window term d p (k + 1) log) (hes : (q.drop k).take es.length = es) :
    ∃ p', Window term d p' (k + 1) (TermLog.splice term log 0 es) ∧ (p' = p ∨ p' = q.take (k + es.length)) ∧
      (p.take (k + 1) = q.take (k + 1) → Overwritten p q (k + es.length) p') := by
  cases es with
  | nil => exact ⟨p, h, .inl rfl, fun hpre => .inl ⟨rfl, take_eq_of_le hpre (Nat.le_succ k)⟩⟩
  | cons e es =>
    obtain ⟨he, hrest⟩ := segment_cons hes
    have hlen := h.len
    have hold := List.getElem?_eq_getElem (by omega : k < p.length)
    by_cases ht : term p[k] = term e
    · have hpre : p.take k = q.take k := take_eq_of_le (hp.agree hq hold he ht) (Nat.le_succ k)
      obtain ⟨p', hw, hp'⟩ := h.overwrite hp hq (le_refl _) (by omega) hpre hes
      rw [Nat.sub_self] at hw
      exact ⟨p', hw, hp'.imp And.left And.left, fun _ => hp'⟩
    · -- the compacted entry is replaced, and the log goes on with `q`
      obtain ⟨x, hlog, hx⟩ := h.log
      have hqlen : k < q.length := (List.getElem?_eq_some_iff.1 he).1
      have hw : Window term d (q.take (k + 1)) (k + 1) [e] := by
        refine ⟨by rw [List.length_take]; omega, e, ?_, ?_⟩
        · rw [List.drop_of_length_le (by rw [List.length_take]; omega)]
        · rw [termAt_take (le_refl _), termAt_succ he]
      have hsplice : TermLog.splice term log 0 (e :: es) = TermLog.splice term [e] 1 es := by
        simp only [TermLog.splice, hlog, List.getElem?_cons_zero]
        rw [if_pos (by rw [hx, termAt_succ hold]; exact ht)]; rfl
      obtain ⟨p', hw', hp'⟩ := hw.overwrite (hq.take (k + 1)) hq (by omega : k + 1 ≤ k + 1 + 1)
        (by rw [List.length_take]; omega) (by rw [List.take_take, Nat.min_self]) hrest
      rw [show k + 1 + 1 - (k + 1) = 1 by omega] at hw'
      refine ⟨p', by rw [hsplice]; exact hw', .inr ?_, fun hpre => absurd ?_ ht⟩
      · rw [List.length_cons, show k + (es.length + 1) = k + 1 + es.length by omega]
        rcases hp' with ⟨h1, h2⟩ | ⟨h1, _⟩
        · rw [h1, ← h2]; exact (List.take_of_length_le (by rw [List.length_take]; omega)).symm
        · exact h1
      · have hk := congrArg (fun l => l[k]?) hpre
        simp only [List.getElem?_take, if_pos (Nat.lt_succ_self k), hold, he, Option.some.injEq] at hk
        rw [hk]

/-- A compacted log determines the path it comes from. -/
theorem Window.unique {log : List α} (hp : Path term LL p) (hq : Path term LL (q.take b)) (h : Window term d p b log)
    (h' : Window term d q b log) : p = q := by
  obtain ⟨x, hlog, hx⟩ := h.log
  obtain ⟨y, hlog', hy⟩ := h'.log
  have hlen := h'.len
  rw [hlog] at hlog'
  injection hlog' with hxy hdrop
  have htake : p.take b = (q.take b).take b := by
    refine hp.agree_termAt (d := d) hq h.len (by rw [List.length_take]; omega) ?_
    rw [termAt_take (le_refl _), ← hx, ← hy, hxy]
  rw [List.take_take, Nat.min_self] at htake
  rw [← List.take_append_drop b p, ← List.take_append_drop b q, htake, hdrop]

/-! ## Leader completeness -/

section Order

variable [LinearOrder τ] {a u : List α}

/-- The terms of a path do not decrease, when no leader's log has an entry of a later term. -/
theorem Path.sorted (hb : ∀ t, ∀ x ∈ LL t, term x ≤ t) (hp : Path term LL p) {i j : Nat} {x y : α}
    (hx : p[i]? = some x) (hy : p[j]? = some y) (hij : i ≤ j) : term x ≤ term y := by
  refine hb _ x (List.mem_of_mem_take (i := j + 1) ?_)
  rw [hp j y hy]
  refine List.mem_of_getElem? (i := i) ?_
  rw [List.getElem?_take, if_pos (by omega), hx]

/-- The path `p` holds the first `k + 1` entries of the path `a`, and the path `u` is at least as up to
date as `p`: its last term is later, or the same and it is not shorter. Then `u` holds them too, if the
leader of its last term does whenever that term is later than theirs. -/
theorem Path.carries (hb : ∀ t, ∀ x ∈ LL t, term x ≤ t) (hp : Path term LL p) (hc : Path term LL u) (ha : Path term LL a)
    {k : Nat} {x : α} (hx : a[k]? = some x) (hd : d ≤ term x) (hpa : p.take (k + 1) = a.take (k + 1))
    (hup : termAt term d p p.length < termAt term d u u.length ∨
      (termAt term d p p.length = termAt term d u u.length ∧ p.length ≤ u.length))
    (hlater : ∀ z ∈ u, term x < term z → (LL (term z)).take (k + 1) = a.take (k + 1)) :
    u.take (k + 1) = a.take (k + 1) := by
  have hpx : p[k]? = some x := by
    have := congrArg (fun l => l[k]?) hpa
    simp only [List.getElem?_take, if_pos (Nat.lt_succ_self k)] at this
    rw [this, hx]
  have hpl : k < p.length := (List.getElem?_eq_some_iff.1 hpx).1
  obtain ⟨m, hm⟩ : ∃ m, p.length = m + 1 := ⟨p.length - 1, by omega⟩
  have hy := List.getElem?_eq_getElem (by omega : m < p.length)
  rw [hm, termAt_succ hy] at hup
  have hxy : term x ≤ term p[m] := hp.sorted hb hpx hy (by omega)
  cases hcl : u.length with
  | zero =>
    rw [hcl] at hup
    rcases hup with h | ⟨_, h⟩
    · exact absurd (lt_of_le_of_lt hxy h) (not_lt.2 hd)
    · omega
  | succ n =>
    obtain ⟨z, hz⟩ : ∃ z, u[n]? = some z := ⟨_, List.getElem?_eq_getElem (by omega)⟩
    rw [hcl, termAt_succ hz] at hup
    have hcall : (LL (term z)).take (n + 1) = u := by
      rw [hc n _ hz, List.take_of_length_le (by omega)]
    rcases hup with hlt | ⟨heq, hle⟩
    · have hlead := hlater z (List.mem_of_getElem? hz) (lt_of_le_of_lt hxy hlt)
      rcases Nat.lt_or_ge n k with hnk | hnk
      · -- a log that ends before the prefix does would end in one of its terms
        have hza : a[n]? = some z := by
          have h1 := congrArg (fun l => l[n]?) hlead
          have h2 := congrArg (fun l => l[n]?) hcall
          simp only [List.getElem?_take, if_pos (by omega : n < k + 1), if_pos (Nat.lt_succ_self n)] at h1 h2
          rw [← h1, h2, hz]
        exact absurd (lt_of_le_of_lt hxy hlt) (not_lt.2 (ha.sorted hb hza hx (by omega)))
      · rw [← hcall, List.take_take, Nat.min_eq_left (by omega)]; exact hlead
    · -- with the same last term both are prefixes of the log of that term
      have hpall : (LL (term z)).take (m + 1) = p := by
        rw [← heq, hp m _ hy, List.take_of_length_le (by omega)]
      rw [← hpa, ← hpall, ← hcall, List.take_take, List.take_take, Nat.min_eq_left (by omega), Nat.min_eq_left (by omega)]

end Order

end TermLog
