/-
States made of cells, and operations that overwrite some of the cells. The last operation that writes a
cell decides what the cell holds, so operations whose last writes are all in force may be replayed over
the state they led to.
-/
import Mathlib.Data.List.Induction

namespace Mimori

/-- Operations `Op` on states `S` with cells `X`: each operation writes some cells and leaves the others. -/
structure Overwrite (S Op X V : Type*) where
  apply : S → Op → S
  read : S → X → V
  writes : Op → X → Option V
  read_apply : ∀ s op x, read (apply s op) x = (writes op x).getD (read s x)

namespace Overwrite

variable {S Op X V : Type*} (O : Overwrite S Op X V)

def replay (s : S) (ops : List Op) : S := ops.foldl O.apply s

/-- What the last of the operations that write cell `x` writes there. -/
def lastWrite (x : X) (ops : List Op) : Option V := ops.foldl (fun w op => (O.writes op x).or w) none

/-- The two states hold the same in every cell. -/
def Same (s s' : S) : Prop := ∀ x, O.read s x = O.read s' x

/-- Every cell that the operations write holds what the last of them wrote. -/
def InForce (ops : List Op) (s : S) : Prop := ∀ x v, O.lastWrite x ops = some v → O.read s x = v

variable {O} {s s' s'' : S} {ops ops' : List Op} {op : Op} {x : X}

theorem lastWrite_concat : O.lastWrite x (ops ++ [op]) = (O.writes op x).or (O.lastWrite x ops) := by
  rw [lastWrite, List.foldl_append]; rfl

theorem lastWrite_append : O.lastWrite x (ops ++ ops') = (O.lastWrite x ops').or (O.lastWrite x ops) := by
  induction ops' using List.reverseRecOn with
  | nil => rw [List.append_nil]; rfl
  | append_singleton l op ih => rw [← List.append_assoc, lastWrite_concat, lastWrite_concat, ih, Option.or_assoc]

theorem replay_concat : O.replay s (ops ++ [op]) = O.apply (O.replay s ops) op := by
  rw [replay, List.foldl_append]; rfl

theorem read_replay : O.read (O.replay s ops) x = (O.lastWrite x ops).getD (O.read s x) := by
  induction ops using List.reverseRecOn with
  | nil => rfl
  | append_singleton l op ih =>
    rw [replay_concat, O.read_apply, ih, lastWrite_concat]
    cases O.writes op x <;> rfl

/-- A cell that some operation writes is written last by one of them. -/
theorem lastWrite_of_mem (hop : op ∈ ops) {v : V} (hw : O.writes op x = some v) : ∃ w, O.lastWrite x ops = some w := by
  induction ops using List.reverseRecOn with
  | nil => cases hop
  | append_singleton l op' ih =>
    rw [lastWrite_concat]
    cases hw' : O.writes op' x with
    | some w => exact ⟨w, rfl⟩
    | none =>
      rcases List.mem_append.1 hop with hop | hop
      · exact ih hop
      · rw [List.mem_singleton.1 hop, hw'] at hw; cases hw

theorem Same.refl (s : S) : O.Same s s := fun _ => rfl

theorem Same.trans (h : O.Same s s') (h' : O.Same s' s'') : O.Same s s'' := fun x => (h x).trans (h' x)

theorem Same.apply (h : O.Same s s') (op : Op) : O.Same (O.apply s op) (O.apply s' op) := by
  intro x
  rw [O.read_apply, O.read_apply, h x]

theorem InForce.nil (s : S) : O.InForce [] s := fun _ _ h => by cases h

/-- Operations are in force where they lead to. -/
theorem inForce_replay (s : S) (ops : List Op) : O.InForce ops (O.replay s ops) := by
  intro x v hv
  rw [read_replay, hv]
  rfl

/-- Operations in force change nothing when they are replayed, and only they. -/
theorem inForce_iff : O.InForce ops s ↔ O.Same (O.replay s ops) s := by
  constructor
  · intro h x
    rw [read_replay]
    cases hw : O.lastWrite x ops with
    | none => rfl
    | some v => exact (h x v hw).symm
  · intro h x v hw
    rw [← h x, read_replay, hw]; rfl

theorem InForce.concat (h : O.InForce ops s) (op : Op) : O.InForce (ops ++ [op]) (O.apply s op) := by
  intro x v hv
  rw [lastWrite_concat] at hv
  rw [O.read_apply]
  cases hw : O.writes op x with
  | some w => rw [hw] at hv; cases hv; rfl
  | none => rw [hw] at hv; exact h x v hv

theorem InForce.append (h : O.InForce ops s) (h' : O.InForce ops' s) : O.InForce (ops ++ ops') s := by
  intro x v hv
  rw [lastWrite_append] at hv
  cases hw : O.lastWrite x ops' with
  | some w => rw [hw] at hv; cases hv; exact h' x v hw
  | none => rw [hw] at hv; exact h x v hv

end Overwrite

end Mimori
