/-
What a snapshot contains. `createSnapshotLocked` labels the content of the store with `lastApplied`,
which the applier moves before it hands the entry over. The label is right when the apply loop has
caught up at the moment the snapshot is taken.
-/
import Mimori.Apply.Executed

namespace Mimori

open Raft

namespace Cluster

/-- Node `n` takes a snapshot only when its apply loop has caught up. -/
def snapshotsDrained (n : NodeID) (s : Cluster) (a : Action) : Bool := !takesSnapshot n s a || (s.app n).drained

/-- Node `n` takes a snapshot only when every key of its store is valid UTF-8, so that the JSON text has them all. -/
def snapshotsText (n : NodeID) (s : Cluster) (a : Action) : Bool := !takesSnapshot n s a || (s.app n).store.textKeys

def snapshotsKept (n : NodeID) (s : Cluster) (a : Action) : Bool :=
  s.inPlace a && keepsStore n s a && writesStored n a && snapshotsDrained n s a && snapshotsText n s a

/-- The snapshot holds what the first entries make, up to the index it names. -/
structure HoldsPrefix (snap : Snapshot) (taken : List LogEntry) : Prop where
  nonneg : 0 ≤ snap.lastIncludedIndex
  le : snap.lastIncludedIndex ≤ taken.length
  data : ∃ kv : Store, snap.data = .state kv ∧ kv.Holds (taken.take snap.lastIncludedIndex.toNat)

structure SnapInv (s : Cluster) (n : NodeID) : Prop where
  index : IndexInv s
  store : StoreInv s n
  count : ((s.app n).taken.length : Int) = (s.raft n).lastApplied
  numbered : Numbered 1 (s.app n).taken
  saved : ∀ snap, ((s.raft n).snapshot = some snap ∨ (s.raft n).disk.snapFile = some snap) →
    HoldsPrefix snap (s.app n).taken

variable {s s' : Cluster} {a : Action} {n : NodeID}

theorem HoldsPrefix.mono {snap : Snapshot} {taken taken' : List LogEntry} (h : HoldsPrefix snap taken)
    (hp : taken <+: taken') : HoldsPrefix snap taken' := by
  obtain ⟨rest, rfl⟩ := hp
  have hle := h.le
  refine ⟨h.nonneg, ?_, ?_⟩
  · rw [List.length_append]; omega
  · rw [List.take_append_of_le_length (by omega)]; exact h.data

/-- The snapshotter returns the text of the store. -/
theorem snapshotted_store {r : Raft} {io : Io} {snap : Snapshot} (hs : Snapshotted (s.raft n) r (s.envOf n io) snap) :
    snap.data = .state (s.app n).store.dumped := by
  have hio := hs.data
  simp only [envOf] at hio
  obtain ⟨_, _, hpay⟩ := Option.map_eq_some_iff.1 hio
  exact hpay.symm

theorem StoreInv.holds (h : StoreInv s n) : (s.app n).store.Holds (s.app n).executed := by
  rw [h.store]
  exact .replay _

/-- The label of a snapshot is right when the apply loop has caught up, and nothing is lost when the keys are text. -/
theorem SnapInv.own (h : SnapInv s n) {r : Raft} {io : Io} {snap : Snapshot}
    (hs : Snapshotted (s.raft n) r (s.envOf n io) snap) (hd : (s.app n).drained = true)
    (ht : (s.app n).store.textKeys = true) : HoldsPrefix snap (s.app n).taken := by
  have hcount := h.count
  have hindex := hs.own.index
  refine ⟨by omega, by omega, _, snapshotted_store hs, ?_⟩
  have hholds := h.store.holds.dumped ht
  rw [App.drained_executed hd h.store.received] at hholds
  rw [List.take_of_length_le (by omega)]
  exact hholds

theorem SnapInv.takenStep (h : SnapInv s n) (hk : keepsStore n s a = true) (hs : s.step a = some s') :
    (s.app n).taken <+: (s'.app n).taken ∧ ((s'.app n).taken.length : Int) = (s'.raft n).lastApplied ∧
      Numbered 1 (s'.app n).taken := by
  have hcount := h.count
  cases step_takes h.index hs n with
  | idle ht hl => rw [ht, hl]; exact ⟨List.prefix_refl _, hcount, h.numbered⟩
  | take e ht hl he =>
    have hidx := ((h.index.node n).entryAt_some he).1
    rw [ht, hl, List.length_append, List.length_singleton]
    exact ⟨List.prefix_append .., by push_cast; omega, h.numbered.concat (by omega)⟩
  | install _ _ _ _ ha hp hterm =>
    have := keepsStore_term hk ha hp
    omega

theorem SnapInv.step (h : SnapInv s n) (hok : snapshotsKept n s a = true) (hs : s.step a = some s') :
    SnapInv s' n := by
  simp only [snapshotsKept, Bool.and_eq_true] at hok
  obtain ⟨⟨⟨⟨hplace, hkeep⟩, hstored⟩, hdrain⟩, htext⟩ := hok
  obtain ⟨hgrows, hcount, hnum⟩ := h.takenStep hkeep hs
  refine ⟨h.index.step hplace hs, h.store.step hkeep hstored hs, hcount, hnum, fun snap hsnap => ?_⟩
  apply HoldsPrefix.mono _ hgrows
  rcases step_at hs n with heq | ⟨_, hm⟩
  · rw [heq] at hsnap; exact h.saved snap hsnap
  · generalize s'.raft n = r at hm hsnap
    cases hm.saveStep with
    | same _ _ hsame hfile => rw [hsame, hfile] at hsnap; exact h.saved snap hsnap
    | own _ own hl ht =>
      rw [hl.compacts.snapshot, hl.file, or_self, Option.some.injEq] at hsnap
      subst hsnap
      simp only [snapshotsDrained, snapshotsText, ht, Bool.not_true, Bool.false_or] at hdrain htext
      exact h.own hl hdrain htext
    | install call io src req hp _ ht =>
      have := keepsStore_term hkeep rfl hp
      omega

theorem SnapInv.start (procs : List NodeID) (peersOf : NodeID → List NodeID) (snapshotter restorer : Bool) :
    SnapInv (Cluster.start procs peersOf snapshotter restorer) n := by
  refine ⟨.start .., .start .., rfl, .nil, fun snap hsnap => ?_⟩
  rcases hsnap with hsnap | hsnap <;> cases hsnap

/-- A snapshot contains what its index says: in every run in which node `n` accepts no snapshot from
others, its store takes every write, and it takes its own snapshots only when its apply loop has caught up and the
keys of its store are valid UTF-8, every snapshot it has saved, in memory or in the file, is read back as what
executing the entries 1, …, `lastIncludedIndex` makes. -/
theorem snapshot_content {h : List (Cluster × Action)} {s : Cluster} {n : NodeID}
    (hr : machine.Run (fun s a => snapshotsKept n s a = true) h s) {snap : Snapshot}
    (hsnap : (s.raft n).snapshot = some snap ∨ (s.raft n).disk.snapFile = some snap) :
    Numbered 1 (s.app n).taken ∧ 0 ≤ snap.lastIncludedIndex ∧ snap.lastIncludedIndex ≤ (s.app n).taken.length ∧
      ∃ kv : Store, snap.data = .state kv ∧ (kv.map Prod.fst).Nodup ∧
        ∀ key, kv.get key = (Store.replay [] ((s.app n).taken.take snap.lastIncludedIndex.toNat)).get key := by
  have hi : SnapInv s n := by
    refine Machine.Run.invariant (I := fun s => SnapInv s n) ?_ (fun s a s' hi hok hs => hi.step hok hs) hr
    rintro s ⟨procs, peersOf, snapshotter, restorer, _, rfl⟩
    exact .start procs peersOf snapshotter restorer
  have hsaved := hi.saved snap hsnap
  obtain ⟨kv, hdata, hnodup, hvalue⟩ := hsaved.data
  exact ⟨hi.numbered, hsaved.nonneg, hsaved.le, kv, hdata, hnodup, hvalue⟩

theorem snapshot_content_firstApplied :
    ∃ h s, machine.Run (fun s a => snapshotsKept "A" s a = true) h s ∧
      (s.raft "A").snapshot = some ⟨1, 1, .state [([1], [2])]⟩ ∧
      (Store.replay [] ((s.app "A").taken.take 1)).get [1] = some [2] := by
  obtain ⟨h, s, hr, hsnap⟩ := Machine.exists_run (fun s a => snapshotsKept "A" s a = true)
    (fun _ s => (s.raft "A").snapshot = some ⟨1, 1, .state [([1], [2])]⟩) (machine_init threeNodes true false)
    (firstApplied ++ [.applierSend "A", .consume "A" true, .forceSnapshot "A" {}]) (by decide +kernel)
  obtain ⟨_, _, _, kv, hdata, _, hvalue⟩ := snapshot_content hr (.inl hsnap)
  cases hdata
  exact ⟨h, s, hr, hsnap, (hvalue [1]).symm⟩

/-- A commits a write of a key that is no UTF-8, executes it and takes a snapshot. -/
def rawSnapshot : List Action :=
  electA ++ [.propose "A" (.put [0xFF] [2]) {}, .run 1 .go {}, .run 1 .go {}, .run 1 .go {}, .run 2 .go {}, .run 2 .go {},
    .deliver 1 {}, .run 3 (.reply 1) {}, .applierTake "A" {}, .applierSend "A", .consume "A" true, .forceSnapshot "A" {}]

/-- `ForceSnapshot` between the applier and the apply loop: the snapshot names entry 1, which writes a
key, and holds an empty store. Taken after the apply loop, it holds the value under another key when the key is no
UTF-8. -/
theorem earlySnapshot_misses_entry :
    (∃ h s, machine.Run (fun s a =>
        (s.inPlace a && keepsStore "A" s a && writesStored "A" a && snapshotsText "A" s a) = true) h s ∧
      (s.raft "A").disk.snapFile = some ⟨1, 1, .state []⟩ ∧ (s.app "A").taken = [⟨1, 1, .put [1] [2]⟩]) ∧
    ∃ h s, machine.Run (fun s a =>
        (s.inPlace a && keepsStore "A" s a && writesStored "A" a && snapshotsDrained "A" s a) = true) h s ∧
      (s.raft "A").disk.snapFile = some ⟨1, 1, .state [([0xEF, 0xBF, 0xBD], [2])]⟩ ∧
      (s.app "A").taken = [⟨1, 1, .put [0xFF] [2]⟩] :=
  ⟨Machine.exists_run (fun s a =>
      (s.inPlace a && keepsStore "A" s a && writesStored "A" a && snapshotsText "A" s a) = true)
    (fun _ s => (s.raft "A").disk.snapFile = some ⟨1, 1, .state []⟩ ∧ (s.app "A").taken = [⟨1, 1, .put [1] [2]⟩])
    (machine_init threeNodes true false) (firstApplied ++ [.applierSend "A", .forceSnapshot "A" {}])
    (by decide +kernel),
  Machine.exists_run (fun s a =>
      (s.inPlace a && keepsStore "A" s a && writesStored "A" a && snapshotsDrained "A" s a) = true)
    (fun _ s => (s.raft "A").disk.snapFile = some ⟨1, 1, .state [([0xEF, 0xBF, 0xBD], [2])]⟩ ∧
      (s.app "A").taken = [⟨1, 1, .put [0xFF] [2]⟩])
    (machine_init threeNodes true false) rawSnapshot (by decide +kernel)⟩

end Cluster

end Mimori
