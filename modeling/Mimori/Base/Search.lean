/-
Loops that walk through values in decreasing order and stop at the first one that passes a test. The value
they find is the greatest that passes, and they find none only if none passes.
-/
import Mathlib.Order.Bounds.Basic

variable {α : Type} [LinearOrder α] {l : List α} {p : α → Bool} {a : α}

theorem isGreatest_of_find? (hl : l.Pairwise (· > ·)) (h : l.find? p = some a) :
    IsGreatest {x | x ∈ l ∧ p x = true} a := by
  obtain ⟨ha, before, after, rfl, hbefore⟩ := List.find?_eq_some_iff_append.1 h
  refine ⟨⟨by simp, ha⟩, ?_⟩
  rintro x ⟨hx, hpx⟩
  rcases List.mem_append.1 hx with hx | hx
  · have hno := hbefore x hx
    simp [hpx] at hno
  · rcases List.mem_cons.1 hx with rfl | hx
    · exact le_refl _
    · exact le_of_lt (List.rel_of_pairwise_cons (List.pairwise_append.1 hl).2.1 hx)
