/-
Quorums: majorities of a finite set of voters. Two majorities of one set share a member.
-/
import Mathlib.Data.Finset.Card

variable {N : Type} [DecidableEq N]

/-- `Q` is a strict majority of `V`. -/
structure IsMajority (V Q : Finset N) : Prop where
  sub : Q ⊆ V
  card : V.card < 2 * Q.card

theorem IsMajority.meet {V Q Q' : Finset N} (h : IsMajority V Q) (h' : IsMajority V Q') :
    ∃ v, v ∈ Q ∧ v ∈ Q' := by
  have hc : V.card < Q.card + Q'.card := by
    have h1 := h.card
    have h2 := h'.card
    omega
  obtain ⟨v, hv⟩ := Finset.inter_nonempty_of_card_lt_card_add_card h.sub h'.sub hc
  exact ⟨v, Finset.mem_inter.1 hv⟩

/-- Any two majorities of the two voter sets share a member. -/
def Overlap (V V' : Finset N) : Prop :=
  ∀ Q Q', IsMajority V Q → IsMajority V' Q' → ∃ v, v ∈ Q ∧ v ∈ Q'

theorem Overlap.refl (V : Finset N) : Overlap V V := fun _ _ h h' => h.meet h'
