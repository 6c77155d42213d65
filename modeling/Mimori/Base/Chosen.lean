/-
Entries chosen by a majority, when each term has at most one leader and a leader's log only grows. A prefix of
the log of a term's leader that ends in an entry of this term is chosen once a majority of the voters holds it,
and choosable as long as a majority holds it or has not passed the term. Being choosable is only ever lost,
being chosen is never lost. When the leaders of later terms have every choosable prefix in their logs, two
chosen prefixes agree.
-/
import Mimori.Base.Quorum
import Mimori.Base.TermLog

namespace TermLog

variable {N α τ : Type} {term : α → τ} {t : τ} {m j : Nat} {p q : List α}

/-! ## Prefixes -/

/-- The first `m` entries of the log of the leader of `t` end in an entry of term `t`. -/
def Tip (term : α → τ) (log : τ → List α) (t : τ) (m : Nat) : Prop :=
  ∃ k x, m = k + 1 ∧ (log t)[k]? = some x ∧ term x = t

theorem Tip.le_length {log : τ → List α} (h : Tip term log t m) : m ≤ (log t).length := by
  obtain ⟨k, x, rfl, hx, _⟩ := h
  exact (List.getElem?_eq_some_iff.1 hx).1

theorem Tip.mono {log log' : τ → List α} (h : Tip term log t m) (hlog : log t <+: log' t) : Tip term log' t m := by
  obtain ⟨k, x, rfl, hx, ht⟩ := h
  obtain ⟨rest, hrest⟩ := hlog
  refine ⟨k, x, rfl, ?_, ht⟩
  rw [← hrest, List.getElem?_append_left (List.getElem?_eq_some_iff.1 hx).1]; exact hx

/-- A prefix that ends in an entry of its term and was there before did so before. -/
theorem Tip.of_le {log log' : τ → List α} (h : Tip term log' t m) (hlog : log t <+: log' t) (hm : m ≤ (log t).length) :
    Tip term log t m := by
  obtain ⟨k, x, rfl, hx, ht⟩ := h
  obtain ⟨rest, hrest⟩ := hlog
  refine ⟨k, x, rfl, ?_, ht⟩
  rwa [← hrest, List.getElem?_append_left (by omega)] at hx

theorem take_of_isPrefix (h : p <+: q) (hm : m ≤ p.length) : q.take m = p.take m := by
  obtain ⟨rest, rfl⟩ := h
  exact List.take_append_of_le_length hm

theorem le_length_of_take_eq (h : p.take m = q.take m) (hm : m ≤ q.length) : m ≤ p.length := by
  have := congrArg List.length h
  rw [List.length_take, List.length_take] at this
  omega

/-! ## Views -/

/-- What is looked at: the term of each node, the terms that have had a leader, the logs of the leaders, and
how much of the log of a term's leader a node has held in that term. -/
structure View (N α τ : Type) where
  now : N → τ
  led : τ → Prop
  log : τ → List α
  holds : N → τ → Nat → Prop

variable [LinearOrder τ] {v v' : View N α τ} {V : Finset N} {t' T T' : τ} {c : Nat}

/-- A majority holds the first `m` entries of the log of the leader of `t`, or may still come to hold them. -/
structure Choosable (term : α → τ) (v : View N α τ) (V : Finset N) (t : τ) (m : Nat) : Prop where
  tip : Tip term v.log t m
  quorum : ∃ Q, IsMajority V Q ∧ ∀ n ∈ Q, v.holds n t m ∨ v.now n ≤ t

structure Chosen (term : α → τ) (v : View N α τ) (V : Finset N) (t : τ) (m : Nat) : Prop where
  tip : Tip term v.log t m
  quorum : ∃ Q, IsMajority V Q ∧ ∀ n ∈ Q, v.holds n t m

/-- Later leaders have every choosable prefix. -/
def Complete (term : α → τ) (v : View N α τ) (V : Finset N) : Prop :=
  ∀ t t' m, t < t' → v.led t' → Choosable term v V t m → (v.log t').take m = (v.log t).take m

/-- The first `c` entries of `p` are chosen, in a term up to `T`. -/
def Settled (term : α → τ) (v : View N α τ) (V : Finset N) (T : τ) (c : Nat) (p : List α) : Prop :=
  c = 0 ∨ ∃ t m, t ≤ T ∧ Chosen term v V t m ∧ c ≤ m ∧ p.take c = (v.log t).take c

/-! ## Steps -/

/-- What may happen from one view to the next: terms and leaders' logs grow, and a node that comes to hold a
prefix of the log of a term's leader has not passed this term. -/
structure Advances (v v' : View N α τ) : Prop where
  now : ∀ n, v.now n ≤ v'.now n
  log : ∀ t, v.log t <+: v'.log t
  holds : ∀ n t m, v.holds n t m → v'.holds n t m
  back : ∀ n t m, v'.holds n t m → v.holds n t m ∨ v.now n ≤ t

theorem Choosable.back (h : Choosable term v' V t m) (ha : Advances v v') (htip : Tip term v.log t m) :
    Choosable term v V t m := by
  obtain ⟨Q, hQ, hq⟩ := h.quorum
  refine ⟨htip, Q, hQ, fun n hn => ?_⟩
  rcases hq n hn with h | h
  · exact ha.back n t m h
  · exact .inr (le_trans (ha.now n) h)

theorem Chosen.choosable (h : Chosen term v V t m) : Choosable term v V t m := by
  obtain ⟨Q, hQ, hq⟩ := h.quorum
  exact ⟨h.tip, Q, hQ, fun n hn => .inl (hq n hn)⟩

theorem Chosen.mono (h : Chosen term v V t m) (ha : Advances v v') : Chosen term v' V t m := by
  obtain ⟨Q, hQ, hq⟩ := h.quorum
  exact ⟨h.tip.mono (ha.log t), Q, hQ, fun n hn => ha.holds n t m (hq n hn)⟩

/-- A step keeps `Complete`, if it does for new leaders and new entries. -/
theorem Complete.step (h : Complete term v V) (ha : Advances v v')
    (hnew : ∀ t t' m, t < t' → v'.led t' → Choosable term v' V t m → ¬ (v.led t' ∧ Tip term v.log t m) →
      (v'.log t').take m = (v'.log t).take m) : Complete term v' V := by
  intro t t' m htt hled hc
  by_cases hold : v.led t' ∧ Tip term v.log t m
  · obtain ⟨hled, htip⟩ := hold
    have heq := h t t' m htt hled (hc.back ha htip)
    rw [take_of_isPrefix (ha.log t) htip.le_length, ← heq]
    exact take_of_isPrefix (ha.log t') (le_length_of_take_eq heq htip.le_length)
  · exact hnew t t' m htt hled hc hold

/-- Any majority that has passed the term has a member that holds a choosable prefix. -/
theorem Choosable.voter [DecidableEq N] (h : Choosable term v V t m) {Q : Finset N} (hQ : IsMajority V Q)
    (hnow : ∀ n ∈ Q, t < v.now n) : ∃ n ∈ Q, v.holds n t m := by
  obtain ⟨Q', hQ', hq⟩ := h.quorum
  obtain ⟨n, hn, hn'⟩ := hQ.meet hQ'
  rcases hq n hn' with h | h
  · exact ⟨n, hn, h⟩
  · exact absurd h (not_le.2 (hnow n hn))

/-! ## Chosen prefixes -/

/-- What is chosen up to a term is in the log of this term's leader and of every later one. -/
theorem Complete.settled (h : Complete term v V) (hs : Settled term v V T c p) (hT : T ≤ T') (hled : v.led T') :
    (v.log T').take c = p.take c := by
  rcases hs with rfl | ⟨t, m, ht, hch, hcm, hp⟩
  · simp
  · rw [hp]
    rcases lt_or_eq_of_le (le_trans ht hT) with hlt | rfl
    · exact take_eq_of_le (h t T' m hlt hled hch.choosable) hcm
    · rfl

theorem Settled.le_length (hs : Settled term v V T c p) : c ≤ p.length := by
  rcases hs with rfl | ⟨t, m, _, hch, hcm, hp⟩
  · omega
  · exact le_length_of_take_eq hp (le_trans hcm hch.tip.le_length)

theorem Settled.le (hs : Settled term v V T c p) (hj : j ≤ c) : Settled term v V T j p := by
  rcases hs with rfl | ⟨t, m, ht, hch, hcm, hp⟩
  · exact .inl (by omega)
  · exact .inr ⟨t, m, ht, hch, le_trans hj hcm, take_eq_of_le hp hj⟩

theorem Settled.congr (hs : Settled term v V T c p) (hT : T ≤ T') (hpq : q.take c = p.take c) :
    Settled term v V T' c q := by
  rcases hs with rfl | ⟨t, m, ht, hch, hcm, hp⟩
  · exact .inl rfl
  · exact .inr ⟨t, m, le_trans ht hT, hch, hcm, hpq.trans hp⟩

theorem Settled.mono (hs : Settled term v V T c p) (ha : Advances v v') : Settled term v' V T c p := by
  rcases hs with rfl | ⟨t, m, ht, hch, hcm, hp⟩
  · exact .inl rfl
  · refine .inr ⟨t, m, ht, hch.mono ha, hcm, hp.trans ?_⟩
    exact (take_of_isPrefix (ha.log t) (le_trans hcm hch.tip.le_length)).symm

/-- Two chosen prefixes agree, if only leaders have logs. -/
theorem Complete.agree (h : Complete term v V) (hled : ∀ t, v.log t ≠ [] → v.led t) (hp : Settled term v V T c p)
    {c' : Nat} (hq : Settled term v V T' c' q) (hj : j ≤ c) (hj' : j ≤ c') : p.take j = q.take j := by
  have hlog : ∀ {t : τ} {m : Nat}, Chosen term v V t m → v.led t := by
    rintro t m ⟨⟨k, x, _, hx, _⟩, _⟩
    exact hled t (List.ne_nil_of_mem (List.mem_of_getElem? hx))
  rcases hp with rfl | ⟨t, m, _, hch, hcm, hp⟩
  · simp [Nat.le_zero.1 hj]
  rcases hq with rfl | ⟨t', m', _, hch', hcm', hq⟩
  · simp [Nat.le_zero.1 hj']
  have heq : (v.log t).take j = (v.log t').take j := by
    rcases lt_trichotomy t t' with hlt | rfl | hlt
    · exact (take_eq_of_le (h t t' m hlt (hlog hch') hch.choosable) (by omega)).symm
    · rfl
    · exact take_eq_of_le (h t' t m' hlt (hlog hch) hch'.choosable) (by omega)
  rw [take_eq_of_le hp hj, take_eq_of_le hq hj', heq]

end TermLog
