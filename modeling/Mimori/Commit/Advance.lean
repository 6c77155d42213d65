/-
Commit advancement. `updateCommitIndexLocked` walks down from the end of the log to the commit index and stops
at the first entry of the leader's own term that enough members hold. So the index it finds is the greatest
such index, whatever terms lie in between and however much of the log is compacted.
-/
import Mimori.Base.Search
import Mimori.Log.Index
import Mathlib.Data.Finset.Filter

namespace Mimori

namespace Raft

variable {r : Raft} {N : Int}

/-- Index `N` lies in the log beyond the commit index, its entry is of the current term, and the leader and the
peers that have acknowledged it are a majority. -/
structure QuorumIndex (r : Raft) (N : Int) : Prop where
  beyond : r.commitIndex < N
  le : N ≤ r.lastLogIndex
  entry : ∃ e ∈ r.log, e.index = N ∧ e.term = r.term
  quorum : (r.peers.length + 1) / 2 + 1 ≤ 1 + (r.peers.toFinset.filter fun p => N ≤ r.matchIndex.get p).card

/-! ## The loop -/

theorem mem_commitCandidates : N ∈ r.commitCandidates ↔ r.commitIndex < N ∧ N ≤ r.lastLogIndex := by
  simp only [commitCandidates, List.mem_map, List.mem_range]
  constructor
  · rintro ⟨k, hk, rfl⟩
    omega
  · rintro ⟨h1, h2⟩
    exact ⟨(r.lastLogIndex - N).toNat, by omega, by omega⟩

theorem commitCandidates_decreasing (r : Raft) : r.commitCandidates.Pairwise (· > ·) := by
  unfold commitCandidates
  rw [List.pairwise_map]
  refine List.pairwise_lt_range.imp fun {i j} hij => ?_
  show r.lastLogIndex - (j : Int) < r.lastLogIndex - (i : Int)
  omega

theorem entryAt_iff (hlog : Numbered r.logBaseIndex r.log) {e : LogEntry} :
    r.entryAt N = some e ↔ e ∈ r.log ∧ e.index = N := by
  constructor
  · intro he
    have hb := base_le_of_entryAt he
    rw [entryAt_getElem? hb] at he
    have hidx := hlog _ e he
    exact ⟨List.mem_of_getElem? he, by omega⟩
  · rintro ⟨hm, rfl⟩
    obtain ⟨k, hk⟩ := List.mem_iff_getElem?.1 hm
    have hidx := hlog k e hk
    rw [entryAt_getElem? (by omega), show (e.index - r.logBaseIndex).toNat = k by omega]
    exact hk

/-- The test of the loop: the entry is of the current term, and the count reaches the majority. -/
theorem committable_iff (hlog : Numbered r.logBaseIndex r.log) (hpeers : r.peers.Nodup) :
    r.committable N = true ↔ (∃ e ∈ r.log, e.index = N ∧ e.term = r.term) ∧
      (r.peers.length + 1) / 2 + 1 ≤ 1 + (r.peers.toFinset.filter fun p => N ≤ r.matchIndex.get p).card := by
  -- the loop counts the peers of a list, in which each stands once
  have hcount : (r.peers.toFinset.filter fun p => N ≤ r.matchIndex.get p).card =
      (r.peers.filter fun p => decide (N ≤ r.matchIndex.get p)).length := by
    rw [← List.toFinset_card_of_nodup (hpeers.filter _), List.toFinset_filter]
    simp only [decide_eq_true_eq]
  have hquorum : r.majority ≤ r.replicas N ↔ (r.peers.length + 1) / 2 + 1 ≤
      1 + (r.peers.toFinset.filter fun p => N ≤ r.matchIndex.get p).card := by
    rw [hcount]
    unfold majority replicas
    omega
  rw [← hquorum]
  unfold committable
  split
  · rename_i hnone
    constructor
    · intro h; cases h
    · rintro ⟨⟨e, hm, hi, _⟩, _⟩
      rw [(entryAt_iff hlog).2 ⟨hm, hi⟩] at hnone
      cases hnone
  · rename_i e he
    rw [Bool.and_eq_true, beq_iff_eq, decide_eq_true_eq]
    obtain ⟨hm, hi⟩ := (entryAt_iff hlog).1 he
    refine and_congr_left fun _ => ⟨fun ht => ⟨e, hm, hi, ht⟩, ?_⟩
    rintro ⟨x, hx, hxi, ht⟩
    rw [hlog.unique hm hx (hi.trans hxi.symm)]; exact ht

theorem quorumIndex_iff (hlog : Numbered r.logBaseIndex r.log) (hpeers : r.peers.Nodup) :
    r.QuorumIndex N ↔ N ∈ r.commitCandidates ∧ r.committable N = true := by
  rw [mem_commitCandidates, committable_iff hlog hpeers]
  constructor
  · intro h; exact ⟨⟨h.beyond, h.le⟩, h.entry, h.quorum⟩
  · rintro ⟨⟨h1, h2⟩, h3, h4⟩; exact ⟨h1, h2, h3, h4⟩

/-! ## The result -/

/-- Commit advancement computes the quorum maximum: a leader with a well-indexed log and distinct peers moves its
commit index to the greatest index that a majority holds in an entry of the current term, and changes nothing
else; without such an index, and on any other node, nothing changes. -/
theorem updateCommitIndexLocked_greatest (r : Raft) (hlog : Numbered r.logBaseIndex r.log) (hpeers : r.peers.Nodup) :
    (r.state = .leader →
      (∃ N, IsGreatest {N | r.QuorumIndex N} N ∧ r.updateCommitIndexLocked = { r with commitIndex := N }) ∨
        ((∀ N, ¬ r.QuorumIndex N) ∧ r.updateCommitIndexLocked = r)) ∧
      (r.state ≠ .leader → r.updateCommitIndexLocked = r) := by
  have hset : {N | r.QuorumIndex N} = {N | N ∈ r.commitCandidates ∧ r.committable N = true} :=
    Set.ext fun N => quorumIndex_iff hlog hpeers
  constructor
  · intro hl
    unfold updateCommitIndexLocked
    rw [if_neg (not_not.2 hl)]
    split
    · rename_i N hfind
      refine .inl ⟨N, ?_, rfl⟩
      rw [hset]
      exact isGreatest_of_find? r.commitCandidates_decreasing hfind
    · rename_i hfind
      refine .inr ⟨fun N hN => ?_, rfl⟩
      obtain ⟨hm, hc⟩ := (quorumIndex_iff hlog hpeers).1 hN
      exact List.find?_eq_none.1 hfind N hm hc
  · intro hl
    unfold updateCommitIndexLocked
    rw [if_pos hl]

/-- The leader of four members in term 2 with a compacted log and an entry of term 1 after the base: B has
acknowledged index 5, C index 4 and D nothing. -/
def evenCluster : Raft where
  id := "A"
  peers := ["B", "C", "D"]
  state := .leader
  term := 2
  log := [boundary 2 1, ⟨3, 1, .delete [1]⟩, ⟨4, 2, .put [1] [2]⟩, ⟨5, 2, .put [1] [3]⟩]
  logBaseIndex := 2
  commitIndex := 2
  matchIndex p := if p = "B" then some 5 else if p = "C" then some 4 else none

theorem updateCommitIndexLocked_greatest_evenCluster :
    Numbered evenCluster.logBaseIndex evenCluster.log ∧ evenCluster.peers.Nodup ∧
      evenCluster.updateCommitIndexLocked.commitIndex = 4 ∧ IsGreatest {N | evenCluster.QuorumIndex N} 4 := by
  have hc : evenCluster.updateCommitIndexLocked.commitIndex = 4 := by decide
  refine ⟨by decide, by decide, hc, ?_⟩
  rcases (updateCommitIndexLocked_greatest evenCluster (by decide) (by decide)).1 rfl with ⟨N, hN, he⟩ | ⟨_, he⟩
  · rw [he] at hc
    rw [← show N = 4 from hc]; exact hN
  · rw [he] at hc
    exact absurd hc (by decide)

end Raft

end Mimori
