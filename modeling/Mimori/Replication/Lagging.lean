/-
Peers behind the snapshot. `sendHeartbeats` and a refused batch send the snapshot when `nextIndex` is at
most the snapshot's index, but `becomeLeaderLocked` and `applyConfigChangeLocked` set `nextIndex` to the
end of the log, and a refused batch moves it back only to the first index after the snapshot. So a peer
gets the snapshot if the log was compacted after its next index was set, and never otherwise.
-/
import Mimori.Replication.Rounds

namespace Mimori

open Raft TermLog

/-- The round starts a transfer of the snapshot to `p`. -/
def RoundResult.sendsSnapshot (p : NodeID) : RoundResult → Bool
  | .snapshot => true
  | .sent _ started => started.contains (.sendSnapshot p)
  | _ => false

namespace Raft

/-- The next index of `p` in `l` is the one that `becomeLeaderLocked`, or `applyConfigChangeLocked` when
it added `p`, assigned in state `l₀`. -/
inductive Assigned (l₀ l : Raft) (p : NodeID) : Prop
  | elected (hp : p ∈ l₀.peers) (h : l.nextIndex p = l₀.becomeLeaderLocked.1.nextIndex p)
  | added (io : Io) (hp : p ∉ l₀.peers) (hid : p ≠ l₀.id)
      (h : l.nextIndex p = (l₀.applyConfigChangeLocked true p io).nextIndex p)

theorem Assigned.next {l₀ l : Raft} {p : NodeID} (h : Assigned l₀ l p) :
    l.nextIndex p = some (l₀.lastLogIndex + 1) := by
  cases h with
  | elected hp h =>
    rw [h]
    simp [becomeLeaderLocked, IndexMap.setAll, hp]
  | added io hp hid h =>
    rw [h]
    simp [applyConfigChangeLocked, hid, hp, (saveMeta_progress _ _).next, IndexMap.setAll]

end Raft

namespace Pair

variable {x : Pair} {snap : Snapshot} {a : AppendArgs}

/-- A follower behind the snapshot is caught up: a leader whose log was compacted beyond the index at which
its log ended when it set the peer's next index sends the peer its snapshot in the first round. -/
theorem lagging_peer_gets_snapshot {l₀ : Raft} (h0 : Indexed l₀) (hsnap : x.leader.snapshot = some snap)
    (hassigned : Assigned l₀ x.leader x.follower.id) (hnamed : x.follower.id ≠ "")
    (hok : l₀.lastLogIndex < snap.lastIncludedIndex) (io : Nat → Io) :
    ∃ k, (x.result io k).sendsSnapshot x.follower.id = true ∧
      (x.after io k).leader.snapshotToSend = some snap := by
  have hnext : x.leader.nextIdx x.follower.id = l₀.lastLogIndex + 1 := by
    have hlast := Cluster.Indexed.last_nonneg h0
    unfold nextIdx IndexMap.get
    rw [hassigned.next, Option.getD_some, if_neg (by omega)]
  have hbehind : x.leader.behindSnapshot (x.leader.nextIdx x.follower.id) = true := by
    rw [hnext]
    simp only [behindSnapshot, hsnap, decide_eq_true_eq]
    omega
  have hbeat : x.leader.heartbeatTo x.leader.term x.leader.id x.follower.id = .snapshot := by
    unfold heartbeatTo
    simp only [hbehind, if_true]
  refine ⟨0, ?_, ?_⟩
  · show ((x.round (io 0)).2).sendsSnapshot x.follower.id = true
    unfold Pair.round
    rw [if_neg hnamed, hbeat]
    rfl
  · show x.leader.snapshotToSend = some snap
    simp [snapshotToSend, hsnap]

/-- A is elected with an empty log, and later compacts its log at index 2 while B has nothing. -/
def compactedLater : Pair where
  leader := { (Cluster.start threeNodes.ids threeNodes.peersOf true true).raft "A" with
    state := .leader
    term := 1
    log := [boundary 2 1]
    logBaseIndex := 2
    snapshot := some ⟨2, 1, .state []⟩
    nextIndex := IndexMap.setAll (fun _ => none) ["B", "C"] 1 }
  follower := (Cluster.start threeNodes.ids threeNodes.peersOf true true).raft "B"

theorem lagging_peer_gets_snapshot_compactedLater :
    ∃ k, (compactedLater.result (fun _ => {}) k).sendsSnapshot "B" = true ∧
      (compactedLater.after (fun _ => {}) k).leader.snapshotToSend = some ⟨2, 1, .state []⟩ := by
  have h0 : Indexed ((Cluster.start threeNodes.ids threeNodes.peersOf true true).raft "A") :=
    (Cluster.IndexInv.start ..).node "A"
  exact lagging_peer_gets_snapshot (x := compactedLater) h0 rfl (.elected (by decide) rfl) (by decide) (by decide)
    fun _ => {}

/-! ## The floor of the next index -/

/-- The leader's log starts at its snapshot, the peer's log ends before it, and the peer's next index lies
behind it. -/
structure Starving (snap : Snapshot) (B : NodeID) (x : Pair) : Prop where
  indexed : Indexed x.leader
  snapshot : x.leader.snapshot = some snap
  pos : 1 ≤ snap.lastIncludedIndex
  fits : Fits x.leader.lastLogIndex
  next : snap.lastIncludedIndex < x.leader.nextIndex.get B
  peer : x.follower.id = B
  placed : Indexed x.follower
  lags : x.follower.lastLogIndex < snap.lastIncludedIndex

/-- A batch for a peer behind the snapshot starts at the snapshot or beyond it. -/
structure Above (snap : Snapshot) (B : NodeID) (a : AppendArgs) : Prop where
  peer : a.peer = B
  prev : snap.lastIncludedIndex ≤ a.prevLogIndex
  consecutive : Cluster.Consecutive a.prevLogIndex a.entries

theorem Above.batchesFrom {B : NodeID} :
    ∀ {fuel : Nat} {a : AppendArgs}, Above snap B a → ∀ b ∈ batchesFrom fuel a, Above snap B b
  | 0, _, _, b, hb => by cases hb
  | fuel + 1, a, h, b, hb => by
    rw [Mimori.batchesFrom] at hb
    split at hb
    · cases hb
    · rename_i hne
      rcases List.mem_cons.1 hb with rfl | hb
      · exact ⟨h.peer, h.prev, h.consecutive.batch⟩
      · have hprev := (Cluster.afterSent_prev h.consecutive.numbered hne).1
        refine Above.batchesFrom ⟨(afterSent_peer a).trans h.peer, ?_, h.consecutive.sent hne⟩ b hb
        have := h.prev
        omega

theorem Above.batches {B : NodeID} (h : Above snap B a) : ∀ b ∈ batches a, Above snap B b := by
  intro b hb
  unfold Mimori.batches at hb
  split at hb
  · rw [List.mem_singleton.1 hb]; exact h
  · exact h.batchesFrom b hb

/-- The peer refuses such a batch, and the answer starts no transfer and leaves the next index behind the
snapshot. -/
theorem Starving.exchange {B : NodeID} (h : Starving snap B x) (ha : Above snap B a) (io : Io) :
    Starving snap B (x.exchange a io).1 ∧ (x.exchange a io).2.2 = [] := by
  have hprev : (appendEntriesRequest a).prevLogIndex = a.prevLogIndex := int32_of_fits ha.consecutive.fits
  have hpos := h.pos
  have hge := ha.prev
  have hlag := h.lags
  -- the previous index lies beyond the peer's log
  have hinc : x.follower.logConsistent (appendEntriesRequest a).prevLogIndex (appendEntriesRequest a).prevLogTerm =
      false := by
    by_contra hc
    rcases logConsistent_cases (by simpa using hc) with hz | ⟨e, he, _⟩
    · omega
    · have := (h.placed.entryAt_some he).2.2
      omega
  obtain ⟨hfalse, hsame⟩ : (x.follower.appendEntries (appendEntriesRequest a) io).2.success = false ∧
      SameLog x.follower (x.follower.appendEntries (appendEntriesRequest a) io).1 := by
    rcases appendEntries_merges x.follower (appendEntriesRequest a) io with ⟨hf, hr⟩ | ⟨_, hm⟩
    · exact ⟨hf, hr.toSameLog⟩
    · rw [hm.consistent] at hinc; cases hinc
  have hid := (appendEntries_move x.follower (appendEntriesRequest a) io).members.id
  unfold Pair.exchange
  simp only
  generalize x.follower.appendEntries (appendEntriesRequest a) io = answer at *
  have hlog := (handleAppendResponse_data x.leader a answer.2 io).toSameLog
  have hbase := h.indexed.snapshot snap h.snapshot
  have hbehind : x.leader.behindSnapshot (x.leader.nextIndex.get a.peer) = false := by
    rw [ha.peer]
    have := h.next
    simp only [behindSnapshot, h.snapshot, decide_eq_false_iff_not]
    omega
  obtain ⟨hnext, hnil⟩ : snap.lastIncludedIndex < (x.leader.handleAppendResponse a answer.2 io).1.nextIndex.get B ∧
      (x.leader.handleAppendResponse a answer.2 io).2 = [] := by
    have hn := h.next
    rcases Int.lt_or_le x.leader.term answer.2.term with ht | ht
    · unfold handleAppendResponse
      rw [if_pos ht]
      refine ⟨?_, rfl⟩
      rw [(saveMeta_progress _ _).next]
      exact hn
    · obtain ⟨h1, h2⟩ := handleAppendResponse_refused ht hfalse hbehind io
      rw [ha.peer] at h1
      exact ⟨by omega, h2⟩
  refine ⟨⟨h.indexed.of_sameLog hlog, hlog.snapshot.trans h.snapshot, h.pos, ?_, hnext, hid.trans h.peer,
    h.placed.of_sameLog hsame, ?_⟩, hnil⟩
  · rw [hlog.lastLogIndex]; exact h.fits
  · rw [hsame.lastLogIndex]; exact h.lags

theorem Starving.exchangeAll {B : NodeID} (io : Io) :
    ∀ {as : List AppendArgs} {x : Pair}, Starving snap B x → (∀ a ∈ as, Above snap B a) →
      Starving snap B (exchangeAll io x as).1 ∧ (exchangeAll io x as).2.2 = []
  | [], _, h, _ => ⟨h, rfl⟩
  | a :: as, x, h, ha => by
    obtain ⟨h1, h2⟩ := h.exchange (ha a List.mem_cons_self) io
    obtain ⟨h3, h4⟩ := Starving.exchangeAll io h1 fun b hb => ha b (List.mem_cons_of_mem a hb)
    refine ⟨h3, ?_⟩
    show (x.exchange a io).2.2 ++ (Pair.exchangeAll io (x.exchange a io).1 as).2.2 = []
    rw [h2, h4]; rfl

/-- A round sends no snapshot and leaves the peer as far behind. -/
theorem Starving.round {B : NodeID} (h : Starving snap B x) (io : Io) :
    Starving snap B (x.round io).1 ∧ (x.round io).2.sendsSnapshot B = false := by
  have hn := h.next
  have hpos := h.pos
  have hbase := h.indexed.snapshot snap h.snapshot
  have hnext : x.leader.nextIdx B = x.leader.nextIndex.get B := by
    unfold nextIdx
    rw [if_neg (by omega)]
  unfold Pair.round
  rw [h.peer]
  split
  · exact ⟨h, rfl⟩
  · cases hbeat : x.leader.heartbeatTo x.leader.term x.leader.id B with
    | panic => exact ⟨h, rfl⟩
    | snapshot =>
      unfold heartbeatTo at hbeat
      simp only [behindSnapshot, h.snapshot, hnext] at hbeat
      rw [if_neg (by simp only [decide_eq_true_eq]; omega)] at hbeat
      split at hbeat <;> cases hbeat
    | batches args =>
      have hget : ∀ v, x.leader.nextIndex B = some v → 1 ≤ v := by
        intro v hv
        rw [IndexMap.get, hv, Option.getD_some] at hn
        omega
      obtain ⟨hr, hpeer, _, _⟩ := heartbeatTo_reads h.indexed hget hbeat
      have habove : Above snap B args :=
        ⟨hpeer, by rw [hbase]; exact hr.base, Cluster.Consecutive.of_reads h.indexed h.fits hr⟩
      obtain ⟨h1, h2⟩ := Starving.exchangeAll io h habove.batches
      refine ⟨h1, ?_⟩
      show ((Pair.exchangeAll io x (Mimori.batches args)).2.2).contains (.sendSnapshot B) = false
      rw [h2]; rfl

/-- However many rounds follow, the peer is not sent the snapshot. -/
theorem Starving.never {B : NodeID} (h : Starving snap B x) (io : Nat → Io) :
    ∀ k, Starving snap B (x.after io k) ∧ (x.result io k).sendsSnapshot B = false
  | 0 => ⟨h, (h.round (io 0)).2⟩
  | k + 1 => by
    have hk := ((h.never io k).1.round (io k)).1
    exact ⟨hk, (hk.round (io (k + 1))).2⟩

/-- Node A with a log compacted at index 2. -/
def compacted : Raft := { (Cluster.start threeNodes.ids threeNodes.peersOf true true).raft "A" with
  term := 1
  log := [boundary 2 1]
  logBaseIndex := 2
  commitIndex := 2
  lastApplied := 2
  snapshot := some ⟨2, 1, .state []⟩ }

/-- A becomes leader, and its peer B has an empty log. -/
def electedCompacted : Pair where
  leader := compacted.becomeLeaderLocked.1
  follower := (Cluster.start threeNodes.ids threeNodes.peersOf true true).raft "B"

/-- A applies the entry that adds D, which has an empty log. -/
def addedToCompacted : Pair where
  leader := { compacted.applyConfigChangeLocked true "D" {} with state := .leader }
  follower := { id := "D", peers := ["A", "B", "C"], log := [boundary 0 0] }

/-- A leader that has its log compacted when it sets the next index never sends the snapshot. -/
theorem lagging_peers_starve :
    Assigned compacted electedCompacted.leader "B" ∧ electedCompacted.follower.lastLogIndex < 2 ∧
      Assigned compacted addedToCompacted.leader "D" ∧ addedToCompacted.follower.lastLogIndex < 2 ∧
      ∀ io k, (electedCompacted.result io k).sendsSnapshot "B" = false ∧
        (addedToCompacted.result io k).sendsSnapshot "D" = false := by
  have hplaced : Indexed compacted := by
    refine ⟨by decide, by decide, by decide, fun snap h => ?_, fun h => by cases h⟩
    cases h; rfl
  have hfresh : Indexed ((Cluster.start threeNodes.ids threeNodes.peersOf true true).raft "B") :=
    (Cluster.IndexInv.start ..).node "B"
  have hB : Starving ⟨2, 1, .state []⟩ "B" electedCompacted :=
    ⟨hplaced.of_sameLog ⟨rfl, rfl, rfl, rfl⟩, rfl, by decide, by decide, by decide, rfl, hfresh, by decide⟩
  have hD : Starving ⟨2, 1, .state []⟩ "D" addedToCompacted :=
    ⟨hplaced.of_sameLog ⟨rfl, rfl, rfl, rfl⟩, rfl, by decide, by decide, by decide, rfl,
      hfresh.of_sameLog ⟨rfl, rfl, rfl, rfl⟩, by decide⟩
  exact ⟨.elected (by decide) rfl, by decide, .added {} (by decide) (by decide) rfl, by decide,
    fun io k => ⟨(hB.never io k).2, (hD.never io k).2⟩⟩

end Pair

end Mimori
