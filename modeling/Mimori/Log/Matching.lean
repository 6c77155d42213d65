/-
Log matching. Two logs that hold an entry of one index and term hold the same entry there, and agree below
it wherever neither is compacted. It fails when a snapshot older than the base of the log is installed:
`InstallSnapshot` keeps what stands after the snapshot, and the entry that marks the old base becomes an
entry of the log.
-/
import Mimori.Log.History

namespace Mimori

open Raft TermLog

namespace Raft

/-- The entries a node's log holds uncompacted; the first one only marks the base. -/
def uncompacted (r : Raft) : List LogEntry := r.log.filter fun e => decide (r.logBaseIndex < e.index)

theorem Whole.uncompacted {r : Raft} {p : List LogEntry} (h : Whole r p) (hi : Indexed r) {x : LogEntry}
    (hx : x ∈ r.uncompacted) : x ∈ p := by
  obtain ⟨hx, hb⟩ := List.mem_filter.1 hx
  obtain ⟨b, hlog, _⟩ := h.log
  have hbase : b.index = r.logBaseIndex := by
    have := hi.numbered 0 b (by rw [hlog]; rfl)
    simpa using this
  rw [hlog] at hx
  rcases List.mem_cons.1 hx with rfl | hx
  · rw [hbase] at hb; simp at hb
  · exact List.mem_of_mem_drop hx

end Raft

/-- An entry stands in a sound log at its index. -/
theorem Ledger.Sound.getElem? {L : Ledger} {T : Int} {p : List LogEntry} (h : L.Sound T p) {x : LogEntry} (hx : x ∈ p) :
    ∃ k : Nat, x.index = 1 + k ∧ p[k]? = some x := by
  obtain ⟨k, hk, rfl⟩ := List.getElem_of_mem hx
  have hget := List.getElem?_eq_getElem hk
  exact ⟨k, h.numbered k _ hget, hget⟩

/-- Two sound logs with entries of one index and term have the same entries up to there. -/
theorem Ledger.Sound.agree {L : Ledger} {T T' : Int} {p q : List LogEntry} (hp : L.Sound T p) (hq : L.Sound T' q)
    {x y x' y' : LogEntry} (hx : x ∈ p) (hy : y ∈ q) (hi : x.index = y.index) (ht : x.term = y.term) (hx' : x' ∈ p)
    (hy' : y' ∈ q) (hi' : x'.index = y'.index) (hle : x'.index ≤ x.index) : x' = y' := by
  obtain ⟨k, hk, hxk⟩ := hp.getElem? hx
  obtain ⟨l, hl, hyl⟩ := hq.getElem? hy
  obtain ⟨k', hk', hxk'⟩ := hp.getElem? hx'
  obtain ⟨l', hl', hyl'⟩ := hq.getElem? hy'
  obtain rfl : l = k := by omega
  obtain rfl : l' = k' := by omega
  have hagree := congrArg (fun z => z[l']?) (hp.path.agree hq.path hxk hyl ht)
  simp only [List.getElem?_take, if_pos (by omega : l' < l + 1), hxk', hyl'] at hagree
  exact Option.some.inj hagree

namespace Cluster

theorem LogInv.run {M : Members} {h : List (Cluster × Action)} {s : Cluster}
    (hr : M.machine.Run (fun s a => s.logsKept a = true) h s) : ∃ L full, LogInv M L full s := by
  refine Machine.Run.invariant (I := fun s => ∃ L full, LogInv M L full s) ?_ ?_ hr
  · rintro s ⟨snapshotter, restorer, rfl⟩
    exact ⟨_, _, .start M snapshotter restorer⟩
  · rintro s a s' ⟨L, full, hl⟩ hok hs
    obtain ⟨L', full', _, hl'⟩ := hl.step hok hs
    exact ⟨L', full', hl'⟩

/-- Log matching: in every run of a cluster with fixed membership that keeps the conditions `logsKept`, if two
logs hold an entry of the same index and term, its data is the same in both, and so are term and data of
every entry below it that both hold. -/
theorem logs_match (M : Members) {h : List (Cluster × Action)} {s : Cluster}
    (hr : M.machine.Run (fun s a => s.logsKept a = true) h s) {n m : NodeID} {x y : LogEntry}
    (hx : x ∈ (s.raft n).uncompacted) (hy : y ∈ (s.raft m).uncompacted) (hi : x.index = y.index)
    (ht : x.term = y.term) :
    x.data = y.data ∧ ∀ x' ∈ (s.raft n).uncompacted, ∀ y' ∈ (s.raft m).uncompacted, x'.index = y'.index →
      x'.index < x.index → x'.term = y'.term ∧ x'.data = y'.data := by
  obtain ⟨L, full, hl⟩ := LogInv.run hr
  have hmem : ∀ {k : NodeID} {z : LogEntry}, z ∈ (s.raft k).uncompacted → z ∈ full k :=
    fun hz => (hl.nodes.whole _).uncompacted (hl.stable.index.node _) hz
  have hagree : ∀ x' ∈ (s.raft n).uncompacted, ∀ y' ∈ (s.raft m).uncompacted, x'.index = y'.index →
      x'.index ≤ x.index → x' = y' := fun x' hx' y' hy' hi' hle =>
    (hl.nodes.sound n).agree (hl.nodes.sound m) (hmem hx) (hmem hy) hi ht (hmem hx') (hmem hy') hi' hle
  constructor
  · rw [hagree x hx y hy hi (le_refl _)]
  · intro x' hx' y' hy' hi' hlt
    rw [hagree x' hx' y' hy' hi' (le_of_lt hlt)]
    exact ⟨rfl, rfl⟩

/-- The leader A sends two entries to B. -/
def twoAppended : List Action :=
  electA ++ [.propose "A" (.put [1] [2]) {}, .propose "A" (.put [3] [4]) {}, .run 1 .go {}, .run 1 .go {},
    .run 1 .go {}, .run 1 .go {}, .run 1 .go {}, .run 3 .go {}, .deliver 1 {}]

theorem logs_match_twoAppended :
    ∃ h s, threeNodes.machine.Run (fun s a => s.logsKept a = true) h s ∧
      ⟨2, 1, .put [3] [4]⟩ ∈ (s.raft "A").uncompacted ∧ ⟨2, 1, .put [3] [4]⟩ ∈ (s.raft "B").uncompacted ∧
      ∀ x' ∈ (s.raft "A").uncompacted, ∀ y' ∈ (s.raft "B").uncompacted, x'.index = y'.index → x'.index < 2 →
        x'.term = y'.term ∧ x'.data = y'.data := by
  obtain ⟨h, s, hr, hA, hB⟩ := Machine.exists_run (fun s a => Cluster.logsKept s a = true)
    (fun _ s => ⟨2, 1, .put [3] [4]⟩ ∈ (s.raft "A").uncompacted ∧ ⟨2, 1, .put [3] [4]⟩ ∈ (s.raft "B").uncompacted)
    (threeNodes.machine_init true false) twoAppended (by decide +kernel)
  exact ⟨h, s, hr, hA, hB, (logs_match threeNodes hr hA hB rfl rfl).2⟩

/-- A compacts its log at the first entry and builds a snapshot request for C, then at the second and builds
another. The second request reaches C first. -/
def staleSnapshot : List Action :=
  twoAppended ++ [.run 4 (.reply 1) {}, .applierTake "A" {}, .forceSnapshot "A" {}, .run 1 .go {}, .run 3 .go {},
    .run 3 .go {}, .run 3 .go {}, .run 3 .go {}, .run 5 .go {}, .run 5 .go {}, .applierSend "A", .applierDone "A" {},
    .forceSnapshot "A" {}, .run 4 .go {}, .run 5 .go {}, .run 5 .go {}, .run 5 .go {}, .run 5 .go {}, .run 7 .go {},
    .run 7 .go {}, .deliver 3 {}, .deliver 2 {}]

/-- Then C holds the mark of the second snapshot as entry 2, with no data. -/
theorem staleSnapshot_logs_differ :
    ∃ h s, threeNodes.machine.Run (fun s a => (s.fairElections a && s.noGap a && s.indicesFit &&
        s.matchingSnapshot a && s.speaksInOffice a) = true) h s ∧
      ∃ x ∈ (s.raft "B").uncompacted, ∃ y ∈ (s.raft "C").uncompacted,
        x.index = y.index ∧ x.term = y.term ∧ x.data ≠ y.data :=
  Machine.exists_run (fun s a => (Cluster.fairElections s a && Cluster.noGap s a && Cluster.indicesFit s &&
      Cluster.matchingSnapshot s a && Cluster.speaksInOffice s a) = true)
    (fun _ s => ∃ x ∈ (s.raft "B").uncompacted, ∃ y ∈ (s.raft "C").uncompacted,
      x.index = y.index ∧ x.term = y.term ∧ x.data ≠ y.data)
    (threeNodes.machine_init true false) staleSnapshot (by decide +kernel)

end Cluster

end Mimori
