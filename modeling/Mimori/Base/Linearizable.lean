/-
Linearizability. A history lists the invocations and answers of operations on one object, in the order in which they
happened. It is linearizable when the operations can be put in one order that keeps real time and in which the
object, taking them one after the other, gives every answer that was given. An operation that was never answered may
have its place in this order or not.

A log gives such an order: the writes as they stand in it, and each read behind the entries it has seen.
-/
import Mathlib.Data.List.Nodup
import Mathlib.Data.List.Infix

variable {σ ω ρ : Type}

/-- An object that takes one operation after the other. -/
structure SeqObject (σ ω ρ : Type) where
  init : σ
  apply : σ → ω → σ
  answer : σ → ω → ρ

/-- Operations go by numbers. -/
inductive Event (ω ρ : Type)
  | invoke (i : Nat) (op : ω)
  | respond (i : Nat) (ans : ρ)
  deriving DecidableEq

namespace Linear

variable {O : SeqObject σ ω ρ} {H : List (Event ω ρ)} {i j k : Nat} {op : ω} {ans : ρ}

/-! ## Real time -/

/-- Operation `i` was answered before `j` was invoked. -/
def Precedes (H : List (Event ω ρ)) (i j : Nat) : Prop :=
  ∃ H₁ H₂ ans op, H = H₁ ++ H₂ ∧ .respond i ans ∈ H₁ ∧ .invoke j op ∈ H₂

theorem not_precedes_nil : ¬ Precedes ([] : List (Event ω ρ)) i j := by
  rintro ⟨H₁, H₂, ans, op, h, h1, _⟩
  rw [(List.append_eq_nil_iff.1 h.symm).1] at h1
  cases h1

theorem Precedes.responded (h : Precedes H i j) : ∃ ans, .respond i ans ∈ H := by
  obtain ⟨H₁, H₂, ans, _, rfl, h1, _⟩ := h
  exact ⟨ans, List.mem_append_left _ h1⟩

/-- Operation `i` was answered. -/
def answered (H : List (Event ω ρ)) (i : Nat) : Bool :=
  H.any fun
    | .respond j _ => j == i
    | .invoke _ _ => false

theorem answered_iff : answered H i = true ↔ ∃ ans, .respond i ans ∈ H := by
  rw [answered, List.any_eq_true]
  constructor
  · rintro ⟨ev, hm, he⟩
    cases ev with
    | invoke => cases he
    | respond j ans =>
      obtain rfl := beq_iff_eq.1 he
      exact ⟨ans, hm⟩
  · rintro ⟨ans, hm⟩
    exact ⟨_, hm, beq_self_eq_true i⟩

theorem concat_eq_append {α : Type} {l l₁ l₂ : List α} {x : α} (h : l ++ [x] = l₁ ++ l₂) :
    (l₁ = l ++ [x] ∧ l₂ = []) ∨ ∃ l', l₂ = l' ++ [x] ∧ l = l₁ ++ l' := by
  rcases List.eq_nil_or_concat' l₂ with rfl | ⟨l', y, rfl⟩
  · exact .inl ⟨by simpa using h.symm, rfl⟩
  · rw [← List.append_assoc] at h
    obtain ⟨h1, h2⟩ := List.append_inj' h rfl
    cases h2
    exact .inr ⟨l', rfl, h1⟩

/-- An answer comes after every invocation so far. -/
theorem precedes_respond : Precedes (H ++ [.respond k ans]) i j ↔ Precedes H i j := by
  constructor
  · rintro ⟨H₁, H₂, ans', op, h, h1, h2⟩
    rcases concat_eq_append h with ⟨_, rfl⟩ | ⟨H', rfl, rfl⟩
    · cases h2
    · refine ⟨H₁, H', ans', op, rfl, h1, ?_⟩
      rcases List.mem_append.1 h2 with h2 | h2
      · exact h2
      · cases List.mem_singleton.1 h2
  · rintro ⟨H₁, H₂, ans', op, rfl, h1, h2⟩
    exact ⟨H₁, H₂ ++ [_], ans', op, List.append_assoc .., h1, List.mem_append_left _ h2⟩

/-- An operation that is invoked comes after all that were answered. -/
theorem precedes_invoke :
    Precedes (H ++ [.invoke k op]) i j ↔ Precedes H i j ∨ j = k ∧ ∃ ans, .respond i ans ∈ H := by
  constructor
  · rintro ⟨H₁, H₂, ans, op', h, h1, h2⟩
    rcases concat_eq_append h with ⟨_, rfl⟩ | ⟨H', rfl, rfl⟩
    · cases h2
    · rcases List.mem_append.1 h2 with h2 | h2
      · exact .inl ⟨H₁, H', ans, op', rfl, h1, h2⟩
      · cases List.mem_singleton.1 h2
        exact .inr ⟨rfl, ans, List.mem_append_left _ h1⟩
  · rintro (⟨H₁, H₂, ans, op', rfl, h1, h2⟩ | ⟨rfl, ans, h⟩)
    · exact ⟨H₁, H₂ ++ [_], ans, op', List.append_assoc .., h1, List.mem_append_left _ h2⟩
    · exact ⟨H, [_], ans, op, rfl, h, List.mem_singleton_self _⟩

/-! ## Linearizations -/

/-- The object takes the operations from state `x` on, and each gets the answer it was given, if any. -/
def Explains (O : SeqObject σ ω ρ) (H : List (Event ω ρ)) : σ → List (Nat × ω) → Prop
  | _, [] => True
  | x, (i, op) :: rest =>
    (∀ ans, .respond i ans ∈ H → ans = O.answer x op) ∧ Explains O H (O.apply x op) rest

/-- The state after some operations. -/
def after (O : SeqObject σ ω ρ) (x : σ) (ops : List (Nat × ω)) : σ := ops.foldl (fun x p => O.apply x p.2) x

theorem explains_append : ∀ (x : σ) (l l' : List (Nat × ω)),
    Explains O H x (l ++ l') ↔ Explains O H x l ∧ Explains O H (after O x l) l'
  | x, [], l' => by simp [Explains, after]
  | x, (i, op) :: l, l' => by
    rw [List.cons_append]
    simp only [Explains, explains_append (O.apply x op) l l', and_assoc]
    rfl

/-- `order` has every operation that was answered, keeps real time, and explains the answers. -/
structure Linearization (O : SeqObject σ ω ρ) (H : List (Event ω ρ)) (order : List (Nat × ω)) : Prop where
  nodup : (order.map Prod.fst).Nodup
  invoked : ∀ i op, (i, op) ∈ order → .invoke i op ∈ H
  answered : ∀ i ans, .respond i ans ∈ H → ∃ op, (i, op) ∈ order
  realTime : order.Pairwise fun x y => ¬ Precedes H y.1 x.1
  legal : Explains O H O.init order

def Linearizable (O : SeqObject σ ω ρ) (H : List (Event ω ρ)) : Prop := ∃ order, Linearization O H order

/-! ## The order of a log -/

/-- The reads of `reads k` stand behind the first `k` writes. -/
def weave (reads : Nat → List (Nat × ω)) : Nat → List (Nat × ω) → List (Nat × ω)
  | k, [] => reads k
  | k, w :: ws => reads k ++ w :: weave reads (k + 1) ws

variable {reads : Nat → List (Nat × ω)} {x : Nat × ω}

theorem mem_weave : ∀ {ws : List (Nat × ω)} {k : Nat},
    x ∈ weave reads k ws ↔ x ∈ ws ∨ ∃ j, k ≤ j ∧ j ≤ k + ws.length ∧ x ∈ reads j
  | [], k => by
    constructor
    · intro h
      exact .inr ⟨k, le_refl _, le_refl _, h⟩
    · rintro (h | ⟨j, h1, h2, h⟩)
      · cases h
      · obtain rfl : j = k := by simp only [List.length_nil] at h2; omega
        exact h
  | w :: ws, k => by
    simp only [weave, List.mem_append, List.mem_cons, mem_weave, List.length_cons]
    constructor
    · rintro (h | rfl | h | ⟨j, h1, h2, h⟩)
      · exact .inr ⟨k, le_refl _, by omega, h⟩
      · exact .inl (.inl rfl)
      · exact .inl (.inr h)
      · exact .inr ⟨j, by omega, by omega, h⟩
    · rintro ((rfl | h) | ⟨j, h1, h2, h⟩)
      · exact .inr (.inl rfl)
      · exact .inr (.inr (.inl h))
      · rcases Nat.eq_or_lt_of_le h1 with rfl | hlt
        · exact .inl h
        · exact .inr (.inr (.inr ⟨j, hlt, by omega, h⟩))

/-- A relation between reads and writes in the order of their places holds all along. -/
theorem weave_pairwise {R : Nat × ω → Nat × ω → Prop} (hsame : ∀ k, (reads k).Pairwise R)
    (hreads : ∀ j k, j < k → ∀ x ∈ reads j, ∀ y ∈ reads k, R x y) :
    ∀ (ws : List (Nat × ω)) (k : Nat), ws.Pairwise R →
      (∀ a w, ws[a]? = some w → ∀ j, ∀ r ∈ reads j, if j ≤ k + a then R r w else R w r) → (weave reads k ws).Pairwise R
  | [], k, _, _ => hsame k
  | w :: ws, k, hws, hmix => by
    rw [List.pairwise_cons] at hws
    rw [weave, List.pairwise_append, List.pairwise_cons]
    have hw := hmix 0 w rfl
    refine ⟨hsame k, ⟨fun y hy => ?_, weave_pairwise hsame hreads ws (k + 1) hws.2 fun a v hv j r hr => ?_⟩,
      fun r hr y hy => ?_⟩
    · rcases mem_weave.1 hy with hy | ⟨j, hj, _, hy⟩
      · exact hws.1 y hy
      · have := hw j y hy
        rwa [if_neg (by omega)] at this
    · have := hmix (a + 1) v (by simpa using hv) j r hr
      rwa [show k + (a + 1) = k + 1 + a by omega] at this
    · rcases List.mem_cons.1 hy with rfl | hy
      · have := hw k r hr
        rwa [if_pos (by omega)] at this
      · rcases mem_weave.1 hy with hy | ⟨j, hj, _, hy⟩
        · obtain ⟨a, ha⟩ := List.mem_iff_getElem?.1 hy
          have := hmix (a + 1) y (by simpa using ha) k r hr
          rwa [if_pos (by omega)] at this
        · exact hreads k j (by omega) r hr y hy

theorem after_idle {x : σ} {l : List (Nat × ω)} (h : ∀ r ∈ l, ∀ x, O.apply x r.2 = x) : after O x l = x := by
  induction l with
  | nil => rfl
  | cons r l ih =>
    rw [after, List.foldl_cons, h r List.mem_cons_self]
    exact ih fun r hr => h r (List.mem_cons_of_mem _ hr)

/-- Operations that leave the object alone are explained one by one. -/
theorem explains_idle {x : σ} {l : List (Nat × ω)} (h : ∀ r ∈ l, ∀ x, O.apply x r.2 = x)
    (hans : ∀ r ∈ l, ∀ ans, .respond r.1 ans ∈ H → ans = O.answer x r.2) : Explains O H x l := by
  induction l with
  | nil => exact trivial
  | cons r l ih =>
    refine ⟨hans r List.mem_cons_self, ?_⟩
    rw [h r List.mem_cons_self]
    exact ih (fun r hr => h r (List.mem_cons_of_mem _ hr)) fun r hr => hans r (List.mem_cons_of_mem _ hr)

theorem explains_weave (hidle : ∀ k, ∀ r ∈ reads k, ∀ x, O.apply x r.2 = x) :
    ∀ (ws : List (Nat × ω)) (k : Nat) (x : σ),
      (∀ w ∈ ws, ∀ ans, .respond w.1 ans ∈ H → ∀ x, ans = O.answer x w.2) →
      (∀ j, k ≤ j → ∀ r ∈ reads j, ∀ ans, .respond r.1 ans ∈ H → ans = O.answer (after O x (ws.take (j - k))) r.2) →
      Explains O H x (weave reads k ws)
  | [], k, x, _, hr => explains_idle (hidle k) fun r hm ans ha => by simpa [after] using hr k (le_refl _) r hm ans ha
  | w :: ws, k, x, hw, hr => by
    rw [weave, explains_append, after_idle (hidle k)]
    refine ⟨explains_idle (hidle k) fun r hm ans ha => by simpa [after] using hr k (le_refl _) r hm ans ha,
      fun ans ha => hw w List.mem_cons_self ans ha x,
      explains_weave hidle ws (k + 1) _ (fun v hv => hw v (List.mem_cons_of_mem _ hv)) fun j hj r hm ans ha => ?_⟩
    have := hr j (by omega) r hm ans ha
    rwa [show j - k = j - (k + 1) + 1 by omega, List.take_succ_cons] at this

/-- Operation `x` may stand before `y`. -/
def MayPrecede (H : List (Event ω ρ)) (x y : Nat × ω) : Prop := x.1 ≠ y.1 ∧ ¬ Precedes H y.1 x.1

/-- What a log has to give for a history: the writes `ws` in it, and the reads `rs k` that saw its first `k` entries. -/
structure LogOrder (O : SeqObject σ ω ρ) (H : List (Event ω ρ)) (ws : List (Nat × ω)) (rs : Nat → List (Nat × ω)) :
    Prop where
  invokedWrite : ∀ w ∈ ws, .invoke w.1 w.2 ∈ H
  invokedRead : ∀ k, ∀ r ∈ rs k, .invoke r.1 r.2 ∈ H
  answered : ∀ i ans, .respond i ans ∈ H → ∃ op, (i, op) ∈ ws ∨ ∃ k ≤ ws.length, (i, op) ∈ rs k
  writes : ws.Pairwise (MayPrecede H)
  together : ∀ k, (rs k).Pairwise (MayPrecede H)
  reads : ∀ j k, j < k → ∀ x ∈ rs j, ∀ y ∈ rs k, MayPrecede H x y
  mixed : ∀ a w, ws[a]? = some w → ∀ k, ∀ r ∈ rs k, if k ≤ a then MayPrecede H r w else MayPrecede H w r
  idle : ∀ k, ∀ r ∈ rs k, ∀ x, O.apply x r.2 = x
  write : ∀ w ∈ ws, ∀ ans, .respond w.1 ans ∈ H → ∀ x, ans = O.answer x w.2
  read : ∀ k, ∀ r ∈ rs k, ∀ ans, .respond r.1 ans ∈ H → ans = O.answer (after O O.init (ws.take k)) r.2

theorem LogOrder.linearizable {ws : List (Nat × ω)} (h : LogOrder O H ws reads) : Linearizable O H := by
  have hpair := weave_pairwise h.together h.reads ws 0 h.writes fun a w hw j r hr => by
    rw [Nat.zero_add]; exact h.mixed a w hw j r hr
  refine ⟨weave reads 0 ws, ?_, fun i op hm => ?_, fun i ans ha => ?_, hpair.imp fun h => h.2, ?_⟩
  · rw [List.Nodup, List.pairwise_map]
    exact hpair.imp fun h => h.1
  · rcases mem_weave.1 hm with hm | ⟨k, _, _, hm⟩
    · exact h.invokedWrite _ hm
    · exact h.invokedRead k _ hm
  · obtain ⟨op, hm | ⟨k, hk, hm⟩⟩ := h.answered i ans ha
    · exact ⟨op, mem_weave.2 (.inl hm)⟩
    · exact ⟨op, mem_weave.2 (.inr ⟨k, Nat.zero_le k, by omega, hm⟩)⟩
  · exact explains_weave h.idle ws 0 O.init h.write fun j _ r hr ans ha => h.read j r hr ans ha

end Linear
