/-
State machine safety. What a node has committed is chosen, so two nodes that hand an entry of the same index to
`applyCh` hand over the same entry. A follower takes over the commit index of the leader as far as its own log
goes, also where the request says nothing about this log; and two leaders of one term may each count the same
peers.
-/
import Mimori.Commit.Quorum
import Mimori.Commit.Committed

namespace Mimori

open Raft TermLog

namespace Cluster

variable {M : Members} {s s' : Cluster} {a : Action}

/-- The conditions under which only chosen entries are applied. -/
def commitsKept (s : Cluster) (a : Action) : Bool := s.countsKept a && s.commitWithin a

theorem Plain.choicesKept (h : Plain s) (hok : s.commitsKept a = true) : s.choicesKept a = true := by
  simp only [commitsKept, Bool.and_eq_true] at hok
  simp only [Cluster.choicesKept, h.acksKept hok.1, hok.2, Bool.and_self]

theorem CommitInv.plain_run {h : List (Cluster × Action)}
    (hr : M.machine.Run (fun s a => s.commitsKept a = true) h s) : Plain s ∧ ∃ L full, CommitInv M L full s := by
  refine Machine.Run.invariant (I := fun s => Plain s ∧ ∃ L full, CommitInv M L full s) ?_ ?_ hr
  · rintro s ⟨snapshotter, restorer, rfl⟩
    exact ⟨.start M snapshotter restorer, _, _, .start M snapshotter restorer⟩
  · rintro s a s' ⟨hp, L, full, hc⟩ hok hs
    obtain ⟨L', full', _, hc'⟩ := hc.step (hp.choicesKept hok) hs
    simp only [commitsKept, countsKept, plainLogs, Bool.and_eq_true] at hok
    exact ⟨hp.step hc.inv.inv.logs.stable.index hok.1.1.2 hs, L', full', hc'⟩

/-- State machine safety: in every run of a cluster with fixed membership and without snapshots that keeps the
conditions `commitsKept`, two entries of the same index that nodes have handed to `applyCh` have the same term
and the same data. -/
theorem applied_entries_agree (M : Members) {h : List (Cluster × Action)} {s : Cluster}
    (hr : M.machine.Run (fun s a => s.commitsKept a = true) h s) {n m : NodeID} {x y : LogEntry}
    (hx : x ∈ (s.app n).sent) (hy : y ∈ (s.app m).sent) (hi : x.index = y.index) :
    x.term = y.term ∧ x.data = y.data := by
  obtain ⟨_, L, full, hc⟩ := CommitInv.plain_run hr
  have hsent : ∀ {k : NodeID} {e : LogEntry}, e ∈ (s.app k).sent → e ∈ (s.app k).taken :=
    fun he => List.mem_append_left _ he
  obtain rfl := hc.taken_eq (hsent hx) (hsent hy) hi
  exact ⟨rfl, rfl⟩

/-- A hands its first entry to `applyCh`; its next heartbeat tells B, which does so too. -/
def bothApplied : List Action :=
  firstApplied ++ ([.applierSend "A", .run 1 .go {}, .run 2 .go {}, .run 3 .go {}, .run 3 .go {}, .run 3 .go {},
    .run 4 .go {}, .deliver 2 {}, .applierTake "B" {}, .applierSend "B"] : List Action)

theorem applied_entries_agree_bothApplied :
    ∃ h s, threeNodes.machine.Run (fun s a => s.commitsKept a = true) h s ∧
      ⟨1, 1, .put [1] [2]⟩ ∈ (s.app "A").sent ∧ (∃ y ∈ (s.app "B").sent, y.index = 1) ∧
      ∀ y ∈ (s.app "B").sent, y.index = 1 → y.term = 1 ∧ y.data = .put [1] [2] := by
  obtain ⟨h, s, hr, hA, hB⟩ := Machine.exists_run (fun s a => Cluster.commitsKept s a = true)
    (fun _ s => ⟨1, 1, .put [1] [2]⟩ ∈ (s.app "A").sent ∧ ∃ y ∈ (s.app "B").sent, y.index = 1)
    (threeNodes.machine_init false false) bothApplied (by decide +kernel)
  refine ⟨h, s, hr, hA, hB, fun y hy hi => ?_⟩
  obtain ⟨ht, hd⟩ := applied_entries_agree threeNodes hr hA hy hi.symm
  exact ⟨ht.symm, hd.symm⟩

/-- A and C, both leaders of term 2, append an entry each. B accepts the one of A; it accepts the one of C as
well and keeps what it has, since the terms are the same. Both leaders count B. -/
def twoLeadersApply : List Action :=
  lateVote ++ ([.propose "A" (.put [1] [1]) {}, .propose "C" (.put [2] [2]) {}, .run 5 .go {}, .run 5 .go {},
    .run 5 .go {}, .run 6 .go {}, .run 6 .go {}, .deliver 2 {}, .run 7 (.reply 2) {}, .applierTake "A" {},
    .applierSend "A", .run 4 .go {}, .run 6 .go {}, .run 6 .go {}, .run 6 .go {}, .run 8 .go {}, .run 8 .go {},
    .deliver 3 {}, .run 9 (.reply 3) {}, .applierTake "C" {}, .applierSend "C"] : List Action)

theorem twoLeadersApply_entries_differ :
    ∃ h s, threeNodes.machine.Run (fun s a => (noConfigChange a && s.termsFit && s.noGap a && s.indicesFit &&
        s.speaksInOffice a && s.noSnapshot a && s.timelyAck a && s.commitWithin a) = true) h s ∧
      ∃ x ∈ (s.app "A").sent, ∃ y ∈ (s.app "C").sent, x.index = y.index ∧ x.data ≠ y.data :=
  Machine.exists_run (fun s a => (noConfigChange a && Cluster.termsFit s && Cluster.noGap s a &&
      Cluster.indicesFit s && Cluster.speaksInOffice s a && Cluster.noSnapshot s a && Cluster.timelyAck s a &&
      Cluster.commitWithin s a) = true)
    (fun _ s => ∃ x ∈ (s.app "A").sent, ∃ y ∈ (s.app "C").sent, x.index = y.index ∧ x.data ≠ y.data)
    (threeNodes.machine_init false false) twoLeadersApply (by decide +kernel)

end Cluster

end Mimori
