/-
`InstallSnapshot` restores a snapshot into the store under the lock while entries may be on their way to it: in
`applyCh`, or with the applier between its two locked sections. Nothing crosses when the apply loop has
caught up and the snapshot does not lie behind what was applied.
-/
import Mimori.Apply.Executed

namespace Mimori

open Raft

namespace Cluster

/-! ## The condition -/

/-- Node `n` installs a snapshot only when its apply loop has caught up, and none that lies behind what
it has applied. -/
def restoresDrained (n : NodeID) (s : Cluster) (a : Action) : Bool :=
  match restores n s a with
  | some k => (s.app n).drained && decide ((s.raft n).lastApplied ≤ k)
  | none => true

def restoresKept (n : NodeID) (s : Cluster) (a : Action) : Bool := s.inPlace a && restoresDrained n s a

/-! ## What is taken after a snapshot -/

/-- After a snapshot at index `k`, when the first `c` entries were taken: the others lie beyond `k`, in
order, and not beyond `lastApplied`. -/
structure Beyond (s : Cluster) (n : NodeID) (k : Int) (c : Nat) : Prop where
  count : c ≤ (s.app n).taken.length
  applied : k ≤ (s.raft n).lastApplied
  above : ∀ e ∈ (s.app n).taken.drop c, k < e.index ∧ e.index ≤ (s.raft n).lastApplied
  order : ((s.app n).taken.drop c).Pairwise fun e e' => e.index < e'.index

/-- As long as no other snapshot is installed, they are the entries right after `k`. -/
structure Straight (s : Cluster) (n : NodeID) (k : Int) (c : Nat) : Prop where
  count : c ≤ (s.app n).taken.length
  applied : (s.raft n).lastApplied = k + ((s.app n).taken.drop c).length
  numbered : Numbered (k + 1) ((s.app n).taken.drop c)

variable {s s' : Cluster} {a : Action} {n : NodeID} {k : Int} {c : Nat}

theorem Beyond.step (h : Beyond s n k c) (hi : IndexInv s) (hok : restoresDrained n s a = true)
    (hs : s.step a = some s') : Beyond s' n k c := by
  obtain ⟨hcount, happ, habove, horder⟩ := h
  cases step_takes hi hs n with
  | idle ht hl => exact ⟨by rw [ht]; exact hcount, by omega, by rw [ht, hl]; exact habove, by rw [ht]; exact horder⟩
  | take x ht hl hx =>
    have hidx := ((hi.node n).entryAt_some hx).1
    have hdrop : (s'.app n).taken.drop c = (s.app n).taken.drop c ++ [x] := by
      rw [ht, List.drop_append_of_le_length hcount]
    refine ⟨by rw [ht, List.length_append]; omega, by omega, ?_, ?_⟩
    · intro e he
      rw [hdrop, List.mem_append, List.mem_singleton] at he
      rcases he with he | rfl
      · have := habove e he
        omega
      · omega
    · rw [hdrop, List.pairwise_append]
      refine ⟨horder, List.pairwise_singleton .., fun e he y hy => ?_⟩
      rw [List.mem_singleton] at hy
      subst hy
      have := habove e he
      omega
  | install call io src req ha hp hterm ht hl =>
    simp only [restoresDrained, restores_of_install ha hp hterm, Bool.and_eq_true, decide_eq_true_eq] at hok
    refine ⟨by rw [ht]; exact hcount, by omega, ?_, by rw [ht]; exact horder⟩
    intro e he
    rw [ht] at he
    have := habove e he
    omega

theorem Straight.step (h : Straight s n k c) (hi : IndexInv s) (hno : restores n s a = none)
    (hs : s.step a = some s') : Straight s' n k c := by
  obtain ⟨hcount, happ, hnum⟩ := h
  cases step_takes hi hs n with
  | idle ht hl => exact ⟨by rw [ht]; exact hcount, by rw [ht, hl]; exact happ, by rw [ht]; exact hnum⟩
  | take x ht hl hx =>
    have hidx := ((hi.node n).entryAt_some hx).1
    have hdrop : (s'.app n).taken.drop c = (s.app n).taken.drop c ++ [x] := by
      rw [ht, List.drop_append_of_le_length hcount]
    refine ⟨by rw [ht, List.length_append]; omega, ?_, ?_⟩
    · rw [hdrop, hl, List.length_append, List.length_singleton]; push_cast; omega
    · rw [hdrop]; exact hnum.concat (by omega)
  | install call io src req ha hp hterm =>
    rw [restores_of_install ha hp hterm] at hno
    cases hno

theorem step_restores (hr : restores n s a = some k) (hs : s.step a = some s') :
    (s'.app n).taken = (s.app n).taken ∧ (s'.raft n).lastApplied = k := by
  obtain ⟨call, io, src, req, rfl, hp, hterm, rfl⟩ := restores_some hr
  constructor
  · cases step_applies hs n with
    | idle ht => exact ht
    | take _ _ _ _ ha => cases ha
    | install _ _ _ _ _ _ _ ht => exact ht
  · obtain ⟨p, hp', _, rfl⟩ := step_deliver hs
    rw [hp] at hp'
    cases hp'
    rw [handle_installSnapshot, reply_raft, setApp_raft, setRaft_raft_self]
    have hnot : ¬ req.term < (s.raft n).term := by omega
    simp [installSnapshot, hnot]

/-- Right after the snapshot nothing is left to take. -/
theorem restored_start (hr : restores n s a = some k) (hok : restoresDrained n s a = true)
    (hs : s.step a = some s') : Beyond s' n k (s.app n).received ∧ Straight s' n k (s.app n).received := by
  rw [restoresDrained, hr] at hok
  simp only [Bool.and_eq_true, decide_eq_true_eq] at hok
  have hlen : (s.app n).taken.length = (s.app n).received := by simpa [App.drained] using hok.1
  obtain ⟨ht, hl⟩ := step_restores hr hs
  have hnil : (s'.app n).taken.drop (s.app n).received = [] := by rw [ht, List.drop_eq_nil_of_le (by omega)]
  constructor
  · refine ⟨by rw [ht]; omega, by omega, ?_, by rw [hnil]; exact .nil⟩
    intro e he
    rw [hnil] at he
    cases he
  · refine ⟨by rw [ht]; omega, ?_, by rw [hnil]; exact .nil⟩
    rw [hnil, hl]
    simp

end Cluster

/-- The entries executed after the first `c`. -/
def App.executedSince (a : App) (c : Nat) : List LogEntry := a.executed.drop c

namespace Cluster

/-- Restore and apply do not cross: in every run in which node `n` installs snapshots only when its apply
loop has caught up and none behind what it has applied, once it has installed a snapshot at index `k`, the
store executes only entries beyond `k`, in increasing order, and up to the next snapshot exactly the
entries `k + 1`, `k + 2`, … -/
theorem restored_in_order {h₂ h₁ : List (Cluster × Action)} {x s : Cluster} {a : Action} {n : NodeID} {k : Int}
    (hr : machine.Run (fun s a => restoresKept n s a = true) (h₂ ++ (x, a) :: h₁) s)
    (hx : restores n x a = some k) :
    (∀ e ∈ (s.app n).executedSince (x.app n).received, k < e.index) ∧
      ((s.app n).executedSince (x.app n).received).Pairwise (fun e e' => e.index < e'.index) ∧
      ((∀ y b, (y, b) ∈ h₂ → restores n y b = none) →
        Numbered (k + 1) ((s.app n).executedSince (x.app n).received)) := by
  have hok : ∀ s a, restoresKept n s a = true → s.inPlace a = true ∧ restoresDrained n s a = true := fun s a h => by
    simpa [restoresKept] using h
  have hp : (s.app n).executedSince (x.app n).received <+: (s.app n).taken.drop (x.app n).received :=
    (s.app n).executed_prefix_taken.drop _
  have hbeyond : Beyond s n k (x.app n).received := by
    refine Machine.Run.since (I := fun s => Beyond s n k (x.app n).received) ?_ hr ?_
    · intro s' _ hax hs
      exact (restored_start hx (hok _ _ hax).2 hs).1
    · intro h y b y' hy _ hi hby hs
      exact hi.step (IndexInv.run hy fun s a h => (hok s a h).1) (hok _ _ hby).2 hs
  refine ⟨fun e he => (hbeyond.above e (hp.subset he)).1, hbeyond.order.sublist hp.sublist, fun hno => ?_⟩
  have hstraight : Straight s n k (x.app n).received := by
    refine Machine.Run.since (I := fun s => Straight s n k (x.app n).received) ?_ hr ?_
    · intro s' _ hax hs
      exact (restored_start hx (hok _ _ hax).2 hs).2
    · intro h y b y' hy hm hi hby hs
      exact hi.step (IndexInv.run hy fun s a h => (hok s a h).1) (hno y b hm) hs
  rw [List.prefix_iff_eq_take.1 hp]
  exact hstraight.numbered.take _

/-- C has entry 1 on its way to the store when A, which has committed and executed entry 2, sends it the
snapshot at 2. -/
def snapshotForC : List Action :=
  electA ++ [.propose "A" (.put [1] [2]) {}, .run 1 .go {}, .run 1 .go {}, .run 1 .go {}, .run 1 .go {}, .run 2 .go {},
    .run 2 .go {}, .run 3 .go {}, .deliver 1 {}, .run 4 (.reply 1) {}, .run 2 .go {}, .run 3 .go {}, .run 3 .go {},
    .run 3 .go {}, .run 4 .go {}, .run 4 .go {}, .deliver 2 {}, .applierTake "C" {}, .applierSend "C",
    .applierTake "A" {}, .applierSend "A", .consume "A" true, .applierDone "A" {}, .propose "A" (.put [1] [3]) {},
    .run 4 .go {}, .run 5 .go {}, .run 5 .go {}, .run 6 .go {}, .run 6 .go {}, .deliver 3 {}, .run 7 (.reply 3) {},
    .applierTake "A" {}, .applierSend "A", .consume "A" true, .applierDone "A" {}, .forceSnapshot "A" {}, .run 5 .go {},
    .run 7 .go {}, .run 7 .go {}]

/-- C executes entry 1, installs the snapshot and goes on with entry 3. -/
def restoredThenAppended : List Action :=
  snapshotForC ++ [.consume "C" true, .applierDone "C" {}, .deliver 4 {}, .run 7 (.reply 4) {},
    .propose "A" (.put [5] [6]) {}, .run 6 .go {}, .run 6 .go {}, .run 6 .go {}, .run 6 .go {}, .run 6 .go {},
    .run 7 .go {}, .run 6 .go {}, .run 6 .go {}, .run 9 .go {}, .deliver 5 {}, .run 10 (.reply 5) {}, .run 6 .go {},
    .run 9 .go {}, .run 9 .go {}, .run 9 .go {}, .run 11 .go {}, .deliver 6 {}, .applierTake "C" {}, .applierSend "C",
    .consume "C" true]

theorem restored_in_order_restoredThenAppended :
    ∃ h s, machine.Run (fun s a => restoresKept "C" s a = true) h s ∧
      (s.app "C").executedSince 1 = [⟨3, 1, .put [5] [6]⟩] ∧ ∀ e ∈ (s.app "C").executedSince 1, 2 < e.index := by
  obtain ⟨h, s, hr, ⟨⟨x, a⟩, hm, hx, hc⟩, hlater⟩ := Machine.exists_run (fun s a => restoresKept "C" s a = true)
    (fun h s => (∃ y ∈ h, restores "C" y.1 y.2 = some 2 ∧ (y.1.app "C").received = 1) ∧
      (s.app "C").executedSince 1 = [⟨3, 1, .put [5] [6]⟩])
    (machine_init threeNodes true true) restoredThenAppended (by decide +kernel)
  obtain ⟨h₂, h₁, rfl⟩ := List.append_of_mem hm
  have hall := (restored_in_order hr hx).1
  rw [hc] at hall
  exact ⟨_, s, hr, hlater, hall⟩

/-- Entry 1 is executed after the snapshot at 2 was restored and takes the key back to its old value. -/
theorem queuedEntry_crosses_restore :
    ∃ h s, machine.Run (fun s a => s.inPlace a = true) h s ∧
      (∃ y ∈ h, restores "C" y.1 y.2 = some 2 ∧ (y.1.app "C").received = 0) ∧
      (s.app "C").executedSince 0 = [⟨1, 1, .put [1] [2]⟩] ∧ (s.app "C").store.get [1] = some [2] :=
  Machine.exists_run (fun s a => s.inPlace a = true)
    (fun h s => (∃ y ∈ h, restores "C" y.1 y.2 = some 2 ∧ (y.1.app "C").received = 0) ∧
      (s.app "C").executedSince 0 = [⟨1, 1, .put [1] [2]⟩] ∧ (s.app "C").store.get [1] = some [2])
    (machine_init threeNodes true true) (snapshotForC ++ [.deliver 4 {}, .consume "C" true]) (by decide +kernel)

end Cluster

end Mimori
