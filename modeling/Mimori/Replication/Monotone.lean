/-
Replication progress. Up to three batches, heartbeats and snapshots are on their way to a peer at once, and each answer
overwrites `matchIndex` with its own end, whatever stood there. So the progress of a peer goes on only where answers come
in the order of their ends. In a leadership in which they do, and in which nothing is sent that ends before what is known
of the peer, it never goes back.
-/
import Mimori.Replication.NextIndex
import Mimori.Storage.Removed

namespace Mimori

open Raft

namespace Raft

/-! ## What the functions record -/

@[simp] theorem IndexMap.get_setAll (m : IndexMap) (q : NodeID) (x : Int) (p : NodeID) :
    (m.setAll [q] x).get p = if p = q then x else m.get p := by
  unfold IndexMap.get IndexMap.setAll
  by_cases h : p = q <;> simp [h]

/-- A successful answer is recorded: it is not from a newer term, its peer is still there, and a heartbeat was not
sent from below the base of the log. -/
def records (r : Raft) (args : AppendArgs) (resp : AppendEntriesResponse) : Bool :=
  decide (resp.term ≤ r.term) && resp.success && r.peers.contains args.peer &&
    !(decide (args.entries = []) && decide (args.prevLogIndex < r.logBaseIndex))

theorem handleAppendResponse_match (r : Raft) (args : AppendArgs) (resp : AppendEntriesResponse) (io : Io) :
    (r.handleAppendResponse args resp io).1.matchIndex =
      if r.records args resp then r.matchIndex.setAll [args.peer] (ackedIndex args) else r.matchIndex := by
  unfold handleAppendResponse records
  by_cases hterm : resp.term > r.term
  · rw [if_pos hterm, if_neg (by simp [Int.not_le.2 hterm])]
    exact (saveMeta_progress ..).matched
  · rw [if_neg hterm]
    by_cases hs : resp.success = true
    · by_cases hp : r.peers.contains args.peer = true
      · simp only [hs, hp, Bool.not_true, Bool.false_eq_true, if_false]
        rw [updateCommitIndexLocked_matched]
        unfold recordProgress
        by_cases hb : args.entries = [] ∧ args.prevLogIndex < r.logBaseIndex
        · rw [if_pos hb, if_neg (by simp [hb.1, hb.2])]
        · rw [if_neg hb, if_pos (by simpa [Int.not_lt.1 hterm, imp_iff_not_or] using hb)]
      · rw [Bool.not_eq_true] at hp
        simp only [hs, hp, Bool.not_true, Bool.not_false, Bool.false_eq_true, if_false, if_true, Bool.and_false,
          Bool.false_and]
    · rw [Bool.not_eq_true] at hs
      simp only [hs, Bool.not_false, if_true, Bool.and_false, Bool.false_and, Bool.false_eq_true, if_false]
      split
      · rfl
      · split <;> rfl

/-- A configuration entry leaves the index of a peer that stays alone, and nothing is known of one that it adds. -/
theorem applyConfigChangeLocked_match {r : Raft} {isAdd : Bool} {nodeID p : NodeID} {io : Io}
    (hp : p ∈ (r.applyConfigChangeLocked isAdd nodeID io).peers) :
    (r.applyConfigChangeLocked isAdd nodeID io).matchIndex.get p = if p ∈ r.peers then r.matchIndex.get p else 0 := by
  have ho := applyConfigChangeLocked_outcome r isAdd nodeID io
  generalize r.applyConfigChangeLocked isAdd nodeID io = out at hp ho ⊢
  cases ho with
  | self => exact (if_pos hp).symm
  | leaves =>
    rw [saveMeta_peers] at hp
    cases hp
  | known =>
    rw [saveMeta_peers] at hp
    rw [(saveMeta_progress ..).matched]
    exact (if_pos hp).symm
  | added _ hc =>
    have hno : nodeID ∉ r.peers := by simpa using hc
    rw [saveMeta_peers] at hp
    rw [(saveMeta_progress ..).matched]
    rcases List.mem_append.1 hp with hp | hp
    · have hne : p ≠ nodeID := ne_of_mem_of_not_mem hp hno
      simp [hne, show p ∈ r.peers from hp]
    · obtain rfl := List.mem_singleton.1 hp
      simp [hno]
  | dropped =>
    rw [saveMeta_peers, List.mem_filter] at hp
    have hne : p ≠ nodeID := by simpa using hp.2
    rw [(saveMeta_progress ..).matched]
    simp [IndexMap.get, hne, hp.1]

theorem takeNext_match {r : Raft} {p : NodeID} {io : Io} (hp : p ∈ (r.takeNext io).1.peers) :
    (r.takeNext io).1.matchIndex.get p = if p ∈ r.peers then r.matchIndex.get p else 0 := by
  rw [takeNext_eq] at hp ⊢
  cases he : r.pendingEntry with
  | none =>
    rw [he] at hp
    exact (if_pos hp).symm
  | some e =>
    rw [he] at hp
    simp only at hp ⊢
    unfold handleConfigChangeIfNeeded at hp ⊢
    split at hp
    · exact applyConfigChangeLocked_match hp
    · exact (if_pos hp).symm

theorem new_follower (n : NodeID) (peers : List NodeID) (d : Disk) (io : Io) : (new n peers d io).state = .follower := by
  rw [new_eq, replayConfigChanges_eq]
  refine List.foldlRecOn (motive := fun r : Raft => r.state = .follower) _ _ rfl fun r hr e _ => ?_
  rcases (handleConfigChangeIfNeeded_reconfigured r e io).votes with ⟨hs, _⟩ | ⟨hs, _⟩
  · exact hs.trans hr
  · exact hs

end Raft

namespace Cluster

variable {s s' : Cluster} {a : Action} {n p : NodeID} {r : Raft}

/-! ## A step -/

/-- The index that a step records for a peer: the node, the peer and the index. -/
def recordsMatch (s : Cluster) : Action → Option (NodeID × NodeID × Int)
  | .run i c _ =>
    match s.tasks[i]?, c with
    | some (n, .awaitAppend args call), .reply j =>
      match s.replyTo call j with
      | some (.appendEntries resp) => if (s.raft n).records args resp then some (n, args.peer, ackedIndex args) else none
      | _ => none
    | some (n, .awaitSnapshot peer snap _), _ => some (n, peer, snap.lastIncludedIndex)
    | _, _ => none
  | _ => none

/-- What a step records for peer `p` of node `n`. -/
def recorded (s : Cluster) (n p : NodeID) (a : Action) : Option Int :=
  match s.recordsMatch a with
  | some (m, q, v) => if m = n ∧ q = p then some v else none
  | none => none

/-- A leader with the peer before and after a step has for it what the step records, or what it had. -/
theorem NodeStep.match_eq (h : NodeStep s a n r) (hl : (s.raft n).state = .leader) (hl' : r.state = .leader)
    (hp : p ∈ (s.raft n).peers) (hp' : p ∈ r.peers) :
    r.matchIndex.get p = (s.recorded n p a).getD ((s.raft n).matchIndex.get p) := by
  have hne : (s.raft n).peers ≠ [] := List.ne_nil_of_mem hp
  have hsame : ∀ {m : IndexMap} {b : Action}, s.recorded n p b = none → m = (s.raft n).matchIndex →
      m.get p = (s.recorded n p b).getD ((s.raft n).matchIndex.get p) := by
    rintro m b hrec rfl
    rw [hrec]
    rfl
  cases h with
  | electionTick _ timeout io => exact hsame rfl (by rw [electionTick_leads hne hl'])
  | requestVote => exact hsame rfl (requestVote_progress ..).matched
  | appendEntries call io src _ req hp =>
    rcases appendEntries_follows (s.raft n) req (s.envOf n io) with ⟨_, h⟩ | ⟨_, h⟩
    · exact hsame rfl h.matched
    · exact hsame rfl h.matched
  | installSnapshot call io src _ req hp =>
    rcases installSnapshot_progress (s.raft n) req (s.envOf n io) with ⟨_, h⟩ | ⟨_, _, _, h⟩
    · exact hsame rfl (by rw [h])
    · exact hsame rfl h
  | timeoutNow call io src _ req =>
    refine hsame rfl ?_
    rcases timeoutNow_leads hne hl' with h | h <;> rw [h]
    exact (adoptTerm_progress ..).matched
  | voteAnswer i j io _ p' T call resp hx =>
    -- a leader counts no votes
    have ho := handleVoteResponse_outcome (s.raft n) resp
    generalize (s.raft n).handleVoteResponse resp = out at ho hl' hp' ⊢
    have hrec : s.recorded n p (.run i (.reply j) io) = none := by simp [recorded, recordsMatch, hx]
    cases ho with
    | newer => cases hl'
    | ignored => exact hsame hrec rfl
    | counted _ hs => rw [hl] at hs; cases hs
    | elected _ hs => rw [hl] at hs; cases hs
  | appendAnswer i j io _ args call resp hx hr =>
    rw [handleAppendResponse_match]
    simp only [recorded, recordsMatch, hx, hr]
    by_cases hrec : (s.raft n).records args resp = true
    · rw [if_pos hrec, if_pos hrec, IndexMap.get_setAll]
      by_cases hq : p = args.peer
      · simp [hq]
      · simp [hq, Ne.symm hq]
    · rw [if_neg hrec, if_neg hrec]
      rfl
  | transferAnswer i j io _ target call resp hx hr =>
    exact hsame (by simp [recorded, recordsMatch, hx]) (handleTimeoutNowResponse_progress ..).matched
  | snapshotAnswer i c io _ peer snap call hx =>
    have hrec : s.recordsMatch (.run i c io) = some (n, peer, snap.lastIncludedIndex) := by simp [recordsMatch, hx]
    simp only [recorded, hrec, snapshotSent, IndexMap.get_setAll]
    by_cases hq : p = peer
    · simp [hq]
    · simp [hq, Ne.symm hq]
  | alone i io _ ret hx => exact hsame (by simp [recorded, recordsMatch, hx]) (updateCommitIndexLocked_matched _)
  | wait i io _ t index hx ht =>
    have hrec : s.recorded n p (.run i .go io) = none := by
      cases t with
      | awaitSnapshot => cases ht
      | _ => simp [recorded, recordsMatch, hx]
    exact hsame hrec (appliedWait_rest ..).matched
  | propose => exact hsame rfl (propose_rest ..).matched
  | proposeTask i io _ cmd hx => exact hsame (by simp [recorded, recordsMatch, hx]) (propose_rest ..).matched
  | configChange => exact hsame rfl (proposeConfigChange_rest ..).matched
  | forceSnapshot => exact hsame rfl (createSnapshotLocked_rest ..).matched
  | applierTake _ io => exact (takeNext_match hp').trans (if_pos hp)
  | applierDone _ io =>
    have hafter := afterApply_rest (s.raft n) (s.envOf n io)
    rw [takeNext_match hp', hafter.peers, if_pos hp, hafter.matched]
    rfl

theorem step_match (hs : s.step a = some s') (hl : (s.raft n).state = .leader) (hl' : (s'.raft n).state = .leader)
    (hp : p ∈ (s.raft n).peers) (hp' : p ∈ (s'.raft n).peers) :
    (s'.raft n).matchIndex.get p = (s.raft n).matchIndex.get p ∨
      ∃ v, s.recordsMatch a = some (n, p, v) ∧ (s'.raft n).matchIndex.get p = v := by
  rcases step_at hs n with h | ⟨_, h⟩
  · exact .inl (by rw [h])
  · rw [h.match_eq hl hl' hp hp', recorded]
    split
    · split
      · rename_i hrec hmq
        obtain ⟨rfl, rfl⟩ := hmq
        exact .inr ⟨_, hrec, rfl⟩
      · exact .inl rfl
    · exact .inl rfl

/-- A leader that was none before the step is elected by a vote, if it has peers, and knows of them what its log is based
on. It knows nothing of one that the step adds. -/
theorem NodeStep.match_new (h : NodeStep s a n r) (hl' : r.state = .leader) (hp' : p ∈ r.peers)
    (hnew : (s.raft n).state ≠ .leader ∨ p ∉ (s.raft n).peers) :
    r.matchIndex.get p = 0 ∨ (s.elects a = some n ∧ r.matchIndex.get p = (s.raft n).logBaseIndex) := by
  rcases h.applier_cases with ha | ⟨io, _, rfl⟩ | ⟨io, _, rfl⟩
  · have hpeers := (h.members_other ha).peers
    have hl := hnew.resolve_right (by rw [hpeers] at hp'; exact not_not.2 hp')
    rcases h.office with hno | ho
    · exact absurd (hno hl').1 hl
    · rw [hpeers] at hp'
      refine .inr ⟨ho.vote.resolve_right (List.ne_nil_of_mem hp'), ?_⟩
      rw [ho.matched, IndexMap.get, IndexMap.setAll, if_pos hp']
      rfl
  · have hl := ((takeNext_reconfigured (s.raft n) (s.envOf n io)).noNewLeader hl').1
    exact .inl ((takeNext_match hp').trans (if_neg (hnew.resolve_left (not_not.2 hl))))
  · have hsame := afterApply_rest (s.raft n) (s.envOf n io)
    have hl := ((hsame.trans_reconfigured (takeNext_reconfigured _ _)).noNewLeader hl').1
    rw [takeNext_match hp', hsame.peers]
    exact .inl (if_neg (hnew.resolve_left (not_not.2 hl)))

/-! ## What is on its way -/

/-- The entries that end a batch: every hundredth, and the last. -/
def batchEnds (es : List LogEntry) : List LogEntry :=
  (es.zipIdx.filter fun x => (x.2 + 1) % maxEntriesPerBatch == 0 || x.2 + 1 == es.length).map Prod.fst

theorem mem_batchEnds {es : List LogEntry} {e : LogEntry} :
    e ∈ batchEnds es ↔ ∃ k, es[k]? = some e ∧ ((k + 1) % maxEntriesPerBatch = 0 ∨ k + 1 = es.length) := by
  simp only [batchEnds, List.mem_map, List.mem_filter, Bool.or_eq_true, beq_iff_eq, Prod.exists, exists_and_right,
    exists_eq_right, List.mem_zipIdx_iff_getElem?]

theorem mem_batchEnds_of_drop {es : List LogEntry} {e : LogEntry} (h : e ∈ batchEnds (es.drop maxEntriesPerBatch)) :
    e ∈ batchEnds es := by
  obtain ⟨k, hk, hend⟩ := mem_batchEnds.1 h
  rw [List.getElem?_drop] at hk
  refine mem_batchEnds.2 ⟨maxEntriesPerBatch + k, hk, ?_⟩
  have hlt := (List.getElem?_eq_some_iff.1 hk).1
  rw [List.length_drop] at hend
  unfold maxEntriesPerBatch at *
  omega

/-- The batch that the loop is at ends with one of them. -/
theorem ackedIndex_currentBatch {args : AppendArgs} (h : args.entries ≠ []) :
    ∃ e ∈ batchEnds args.entries, ackedIndex (currentBatch args) = e.index := by
  have hpos := List.length_pos_iff.2 h
  have hlen : (args.entries.take maxEntriesPerBatch).length = min maxEntriesPerBatch args.entries.length :=
    List.length_take
  have hget : (args.entries.take maxEntriesPerBatch).getLast? =
      args.entries[min maxEntriesPerBatch args.entries.length - 1]? := by
    rw [List.getLast?_eq_getElem?, hlen, List.getElem?_take, if_pos (by unfold maxEntriesPerBatch; omega)]
  have hlt : min maxEntriesPerBatch args.entries.length - 1 < args.entries.length := by omega
  rw [List.getElem?_eq_getElem hlt] at hget
  refine ⟨_, mem_batchEnds.2 ⟨_, List.getElem?_eq_getElem hlt, ?_⟩, ?_⟩
  · unfold maxEntriesPerBatch
    omega
  · simp only [ackedIndex, currentBatch, hget]

/-- The indices that a goroutine may record for a peer: the ends of its batches, or that of its snapshot. -/
def ends : Task → List (NodeID × Int)
  | .pipeline args => (batchEnds args.entries).map fun e => (args.peer, e.index)
  | .sendAppend args => [(args.peer, ackedIndex args)]
  | .awaitAppend args _ => [(args.peer, ackedIndex args)]
  | .sendSnapshotLoaded peer snap => [(peer, snap.lastIncludedIndex)]
  | .awaitSnapshot peer snap _ => [(peer, snap.lastIncludedIndex)]
  | _ => []

/-- What a step begins to send: the node, the peer and an index that may be recorded for it. -/
def begins (s : Cluster) : Action → List (NodeID × NodeID × Int)
  | .run i .go _ =>
    match s.tasks[i]? with
    | some (n, .heartbeatPeers _ term leaderID (p :: _)) =>
      match (s.raft n).heartbeatTo term leaderID p with
      | .batches args => (ends (if args.entries = [] then .sendAppend args else .pipeline args)).map (Prod.mk n)
      | _ => []
    | some (n, .sendSnapshot p) => (s.raft n).snapshotToSend.toList.map fun snap => (n, p, snap.lastIncludedIndex)
    | _ => []
  | _ => []

/-- A leader sends nothing to a peer that ends before what it knows of it, and no node sends anything that ends before
index 0. -/
def sendsAhead (s : Cluster) (a : Action) : Bool :=
  (s.begins a).all fun x => decide (0 ≤ x.2.2) &&
    ((s.raft x.1).state != .leader || decide ((s.raft x.1).matchIndex.get x.2.1 ≤ x.2.2))

/-- A leader records an answer only when nothing else that is on its way to the peer ends before it. -/
def recordsInTurn (s : Cluster) (a : Action) : Bool :=
  match s.recordsMatch a with
  | some (n, p, v) => (s.raft n).state != .leader ||
    (s.bystanders a).all fun x => x.1 != n || (ends x.2).all fun y => y.1 != p || decide (v ≤ y.2)
  | none => true

/-- Nothing that a candidate has sent, in an earlier time in office, ends before the base of its log when a vote brings it
into office. -/
def officeClear (s : Cluster) (a : Action) : Bool :=
  match s.elects a with
  | some n => s.tasks.all fun x => x.1 != n || (ends x.2).all fun y => decide ((s.raft n).logBaseIndex ≤ y.2)
  | none => true

/-- What is sent ends ahead of what is known, and the answers are recorded in the order of their ends. -/
def inTurn (s : Cluster) : RestartAction → Bool
  | .life (.step a) => s.sendsAhead a && s.recordsInTurn a && s.officeClear a
  | _ => true

/-- What is read from beyond the known progress ends beyond it, where the log is in place. Only refusals bring the next
index back to where it is not. -/
theorem heartbeatTo_ends {r : Raft} {T : Int} {leaderID : NodeID} {args : AppendArgs} (hi : Indexed r)
    (hfit : Fits r.lastLogIndex) (hn : ∀ v, r.nextIndex p = some v → 1 ≤ v)
    (hb : r.heartbeatTo T leaderID p = .batches args) (hlt : r.matchIndex.get p < r.nextIdx p) :
    ∀ y ∈ ends (if args.entries = [] then .sendAppend args else .pipeline args),
      0 ≤ y.2 ∧ r.matchIndex.get p ≤ y.2 := by
  have hprev : args.prevLogIndex = r.nextIdx p - 1 := by rw [(heartbeatTo_batches hb).2.2]
  have hc := Consecutive.of_reads hi hfit (heartbeatTo_reads hi hn hb).1
  intro y hy
  split at hy
  · rename_i he
    have h0 := hc.nonneg
    rw [List.mem_singleton.1 hy]
    simp only [ackedIndex, he, List.getLast?_nil]
    omega
  · obtain ⟨e, he, rfl⟩ := List.mem_map.1 hy
    obtain ⟨k, hk, _⟩ := mem_batchEnds.1 he
    have hidx := hc.numbered k e hk
    have h0 := hc.nonneg
    simp only
    omega

/-- Where what a new goroutine may record comes from: an earlier goroutine, or what the step begins to send. -/
theorem NewTask.ends_from {u : Task} {v : Int} (h : NewTask s a n u) (hv : (p, v) ∈ ends u) :
    s.recordsMatch a = none ∧ ((∃ t, (n, t) ∈ s.tasks ∧ (p, v) ∈ ends t) ∨ (n, p, v) ∈ s.begins a) := by
  cases h with
  | next i c io _ t _ hx h =>
    have hm := List.mem_of_getElem? hx
    cases h with
    | peerHeartbeat ret T leaderID q rest args h he =>
      refine ⟨by simp [recordsMatch, hx], .inr ?_⟩
      simp only [begins, hx, h, he, if_true]
      exact List.mem_map_of_mem hv
    | peerBatches ret T leaderID q rest args h he =>
      refine ⟨by simp [recordsMatch, hx], .inr ?_⟩
      simp only [begins, hx, h, he, if_false]
      exact List.mem_map_of_mem hv
    | batch args h =>
      refine ⟨by simp [recordsMatch, hx], .inl ⟨_, hm, ?_⟩⟩
      obtain ⟨e, he, hend⟩ := ackedIndex_currentBatch h
      rw [ends, List.mem_singleton, hend] at hv
      exact List.mem_map.2 ⟨e, he, hv.symm⟩
    | batchSent args h =>
      refine ⟨by simp [recordsMatch, hx], .inl ⟨_, hm, ?_⟩⟩
      rw [ends, afterSent_entries, afterSent_peer] at hv
      obtain ⟨e, he, heq⟩ := List.mem_map.1 hv
      exact List.mem_map.2 ⟨e, mem_batchEnds_of_drop he, heq⟩
    | batchRefused args h =>
      refine ⟨by simp [recordsMatch, hx], .inl ⟨_, hm, ?_⟩⟩
      obtain ⟨e, he, heq⟩ := List.mem_map.1 hv
      exact List.mem_map.2 ⟨e, mem_batchEnds_of_drop he, heq⟩
    | awaitAppend args => exact ⟨by simp [recordsMatch, hx], .inl ⟨_, hm, hv⟩⟩
    | loaded peer snap h =>
      refine ⟨by simp [recordsMatch, hx], .inr ?_⟩
      rw [ends, List.mem_singleton] at hv
      cases hv
      simp [begins, hx, h]
    | awaitSnapshot peer snap => exact ⟨by simp [recordsMatch, hx], .inl ⟨_, hm, hv⟩⟩
    | _ => cases hv
  | _ => cases hv

theorem begins_raft {x : NodeID × NodeID × Int} (hs : s.step a = some s') (hx : x ∈ s.begins a) (m : NodeID) :
    s'.raft m = s.raft m := by
  rcases step_at hs m with h | ⟨_, h⟩
  · exact h
  · exfalso
    generalize s'.raft m = r at h
    cases h with
    | alone i io _ ret ht => simp [begins, ht] at hx
    | wait i io _ t index ht hw => cases t <;> first | (cases hw; done) | simp [begins, ht] at hx
    | proposeTask i io _ cmd ht => simp [begins, ht] at hx
    | snapshotAnswer i c io _ peer snap call ht => cases c <;> simp [begins, ht] at hx
    | _ => simp [begins] at hx

/-- Index `v` is on its way from node `n` to `p`, and is not behind what `n`, in office, knows of `p`. -/
structure NotBehind (s : Cluster) (n p : NodeID) (v : Int) : Prop where
  nonneg : 0 ≤ v
  known : (s.raft n).state = .leader → p ∈ (s.raft n).peers → (s.raft n).matchIndex.get p ≤ v

theorem NotBehind.step {v : Int} (h : NotBehind s n p v) (hs : s.step a = some s')
    (hrec : ∀ w, s.recordsMatch a = some (n, p, w) → (s.raft n).state = .leader → w ≤ v)
    (hoff : s.elects a = some n → (s.raft n).logBaseIndex ≤ v) : NotBehind s' n p v := by
  refine ⟨h.nonneg, fun hl' hp' => ?_⟩
  by_cases hold : (s.raft n).state = .leader ∧ p ∈ (s.raft n).peers
  · obtain ⟨hl, hp⟩ := hold
    rcases step_match hs hl hl' hp hp' with heq | ⟨w, hw, heq⟩
    · rw [heq]; exact h.known hl hp
    · rw [heq]; exact hrec w hw hl
  · rcases step_at hs n with heq | ⟨_, hstep⟩
    · rw [heq] at hl' hp'
      exact absurd ⟨hl', hp'⟩ hold
    · rcases hstep.match_new hl' hp' (not_and_or.1 hold) with h0 | ⟨he, hb⟩
      · rw [h0]; exact h.nonneg
      · rw [hb]; exact hoff he

/-- Nothing on its way is behind what its sender knows. -/
def FlightInv (s : Cluster) : Prop := ∀ n t, (n, t) ∈ s.tasks → ∀ p v, (p, v) ∈ ends t → NotBehind s n p v

theorem FlightInv.step (h : FlightInv s) (hok : s.inTurn (.life (.step a)) = true) (hs : s.step a = some s') :
    FlightInv s' := by
  simp only [inTurn, Bool.and_eq_true] at hok
  obtain ⟨⟨hsends, hturn⟩, hclear⟩ := hok
  have hoff : ∀ {m t}, (m, t) ∈ s.tasks → ∀ {p v}, (p, v) ∈ ends t → s.elects a = some m →
      (s.raft m).logBaseIndex ≤ v := by
    intro m t ht p v hv he
    simp only [officeClear, he, List.all_eq_true, Bool.or_eq_true, bne_iff_ne, decide_eq_true_eq] at hclear
    exact (hclear (m, t) ht).resolve_left (not_not.2 rfl) (p, v) hv
  intro m u hu p v hv
  cases step_tasksLeft hs with
  | spawn n new htasks _ hnew =>
    rw [htasks, List.mem_append, List.mem_map] at hu
    rcases hu with hu | ⟨_, hu, heq⟩
    · -- it was on its way before, and what the step records does not overtake it
      have hmem : (m, u) ∈ s.tasks := by
        cases a with
        | run i c io => exact List.mem_of_mem_eraseIdx hu
        | _ => exact hu
      refine (h m u hmem p v hv).step hs (fun w hw hl => ?_) (hoff hmem hv)
      simp only [recordsInTurn, hw, hl, bne_self_eq_false, Bool.false_or, List.all_eq_true, Bool.or_eq_true, bne_iff_ne,
        decide_eq_true_eq] at hturn
      simpa using (hturn (m, u) hu).resolve_left (by simp) (p, v) hv
    · cases heq
      obtain ⟨hrec, ⟨t, ht, hvt⟩ | hbeg⟩ := (hnew u hu).2.ends_from hv
      · exact (h m t ht p v hvt).step hs (fun w hw => by rw [hrec] at hw; cases hw) (hoff ht hvt)
      · simp only [sendsAhead, List.all_eq_true, Bool.and_eq_true, Bool.or_eq_true, bne_iff_ne, decide_eq_true_eq]
          at hsends
        obtain ⟨h0, hk⟩ := hsends _ hbeg
        refine ⟨h0, fun hl _ => ?_⟩
        rw [begins_raft hs hbeg] at hl ⊢
        exact hk.resolve_left (not_not.2 hl)
  | panic i c io n t ha hx hn hs' =>
    subst hs'
    have hold := h m u (List.mem_of_mem_eraseIdx (List.mem_filter.1 hu).1) p v hv
    exact ⟨hold.nonneg, hold.known⟩

/-! ## Runs -/

/-- What a leader records for a peer is not behind what it knows of the peer. -/
def recordsForward (s : Cluster) : RestartAction → Bool
  | .life (.step a) =>
    match s.recordsMatch a with
    | some (n, p, v) =>
      (s.raft n).state != .leader || !(s.raft n).peers.contains p || decide ((s.raft n).matchIndex.get p ≤ v)
    | none => true
  | _ => true

theorem recordsMatch_ends {v : Int} (h : s.recordsMatch a = some (n, p, v)) :
    ∃ t, (n, t) ∈ s.tasks ∧ (p, v) ∈ ends t := by
  unfold recordsMatch at h
  split at h
  · split at h
    · rename_i hx
      split at h
      · split at h
        · cases h
          exact ⟨_, List.mem_of_getElem? hx, List.mem_singleton_self _⟩
        · cases h
      · cases h
    · rename_i hx
      cases h
      exact ⟨_, List.mem_of_getElem? hx, List.mem_singleton_self _⟩
    · cases h
  · cases h

theorem FlightInv.recordsForward (h : FlightInv s) (l : RestartAction) : s.recordsForward l = true := by
  unfold Cluster.recordsForward
  split
  · split
    · rename_i n p v hrec
      obtain ⟨t, ht, hv⟩ := recordsMatch_ends hrec
      have hk := (h n t ht p v hv).known
      by_cases hl : (s.raft n).state = .leader
      · by_cases hp : p ∈ (s.raft n).peers
        · simp [hk hl hp]
        · simp [hp]
      · simp [hl]
    · rfl
  · rfl

theorem FlightInv.restartStep {l : RestartAction} (h : FlightInv s) (hok : s.inTurn l = true)
    (hs : s.restartStep l = some s') : FlightInv s' := by
  rcases restartStep_cases hs with ⟨a, rfl, hs⟩ | ⟨m, d, start, _, rfl⟩
  · exact h.step hok hs
  · intro n t ht p v hv
    have hold := h n t (restart_tasks ht) p v hv
    refine ⟨hold.nonneg, fun hl hp => ?_⟩
    -- a process that starts again does not lead
    rw [restart_raft] at hl hp ⊢
    split at hl
    · rw [show (Raft.new _ _ _ _).state = _ from new_follower ..] at hl
      cases hl
    · rename_i hm
      rw [if_neg hm] at hp ⊢
      exact hold.known hl hp

theorem FlightInv.run {h : List (Cluster × RestartAction)}
    (hr : restartMachine.Run (fun s l => s.inTurn l = true) h s) : FlightInv s := by
  refine hr.invariant (I := FlightInv) ?_ fun _ _ _ hi hok hs => hi.restartStep hok hs
  rintro _ ⟨_, _, _, _, _, rfl⟩ n t ht
  cases ht

theorem restartStep_match {l : RestartAction} (hs : s.restartStep l = some s') (hok : s.recordsForward l = true)
    (hl : (s.raft n).state = .leader) (hl' : (s'.raft n).state = .leader) (hp : p ∈ (s.raft n).peers)
    (hp' : p ∈ (s'.raft n).peers) : (s.raft n).matchIndex.get p ≤ (s'.raft n).matchIndex.get p := by
  rcases restartStep_cases hs with ⟨a, rfl, hs⟩ | ⟨m, d, start, _, rfl⟩
  · rcases step_match hs hl hl' hp hp' with h | ⟨v, hrec, h⟩
    · exact h.ge
    · simp only [recordsForward, hrec, hl, List.contains_iff_mem.2 hp, Bool.not_true, bne_self_eq_false, Bool.false_or,
        decide_eq_true_eq] at hok
      rw [h]
      exact hok
  · -- a process that starts again does not lead
    rw [restart_raft] at hl' ⊢
    split at hl'
    · rw [show (Raft.new _ _ _ _).state = _ from new_follower ..] at hl'
      cases hl'
    · rename_i hm
      rw [if_neg hm]

/-- The node leads and has the peer, from the state `x` on that a run with history `h` left. -/
def LeadsSince (n p : NodeID) (x : Cluster) (h : List (Cluster × RestartAction)) (s : Cluster) : Prop :=
  ∀ y ∈ s :: (h.map Prod.fst ++ [x]), (y.raft n).state = .leader ∧ p ∈ (y.raft n).peers

/-- As long as a node leads and keeps a peer, what it knows of the peer's progress does not go back, in every run in which
leaders send nothing that ends before what they know of the peer, and record answers in the order of their ends. -/
theorem progress_monotone {h₁ h₂ : List (Cluster × RestartAction)} {x s : Cluster} {l : RestartAction} {n p : NodeID}
    (hr : restartMachine.Run (fun s l => s.inTurn l = true) (h₂ ++ (x, l) :: h₁) s)
    (hlead : LeadsSince n p x h₂ s) : (x.raft n).matchIndex.get p ≤ (s.raft n).matchIndex.get p := by
  induction h₂ generalizing s with
  | nil =>
    obtain ⟨hl', hp'⟩ := hlead s List.mem_cons_self
    obtain ⟨hl, hp⟩ := hlead x (by simp)
    cases hr with
    | next hr hok hs => exact restartStep_match hs ((FlightInv.run hr).recordsForward l) hl hl' hp hp'
  | cons y h₂ ih =>
    obtain ⟨y, b⟩ := y
    obtain ⟨hl', hp'⟩ := hlead s List.mem_cons_self
    obtain ⟨hl, hp⟩ := hlead y (by simp)
    cases hr with
    | next hr hok hs =>
      have hback := ih hr fun z hz => hlead z (List.mem_cons_of_mem _ hz)
      exact hback.trans (restartStep_match hs ((FlightInv.run hr).recordsForward b) hl hl' hp hp')

/-- A sends B a heartbeat and then its first entry, and B answers both. -/
def twoSent : List Action :=
  electA ++ [.run 1 .go {}, .run 1 .go {}, .run 1 .go {}, .run 2 .go {}, .run 1 .go {}, .run 2 .go {}, .deliver 1 {},
    .propose "A" (.put [1] [2]) {}, .run 3 .go {}, .run 3 .go {}, .run 3 .go {}, .run 4 .go {}, .run 4 .go {}, .deliver 2 {}]

/-- The answer to the heartbeat comes first. -/
def inOrder : List RestartAction :=
  (twoSent ++ [Action.run 1 (.reply 1) {}, .run 4 (.reply 2) {}]).map fun a => .life (.step a)

/-- Node A has led with peer B in the last three states, and the last step has brought the index of B from 0 to 1. -/
def advancedB : List (Cluster × RestartAction) → Cluster → Bool
  | y :: x :: _, s =>
    [s, y.1, x.1].all (fun z => (z.raft "A").state == .leader && (z.raft "A").peers.contains "B") &&
      (x.1.raft "A").matchIndex.get "B" == 0 && (s.raft "A").matchIndex.get "B" == 1
  | _, _ => false

theorem progress_monotone_inOrder :
    ∃ h₁ h₂ x l s, restartMachine.Run (fun s l => s.inTurn l = true) (h₂ ++ (x, l) :: h₁) s ∧
      (x.raft "A").matchIndex.get "B" ≤ (s.raft "A").matchIndex.get "B" ∧ (s.raft "A").matchIndex.get "B" = 1 := by
  obtain ⟨h, s, hr, hadv⟩ := Machine.exists_run (S := restartMachine) (fun s l => s.inTurn l = true)
    (fun h s => advancedB h s = true) (machine_init threeNodes true true) inOrder (by decide +kernel)
  obtain _ | ⟨y, _ | ⟨⟨x, l⟩, h₁⟩⟩ := h
  · cases hadv
  · cases hadv
  · have hr' : restartMachine.Run (fun s l => s.inTurn l = true) ([y] ++ (x, l) :: h₁) s := hr
    simp only [advancedB, Bool.and_eq_true, List.all_eq_true, beq_iff_eq] at hadv
    refine ⟨h₁, [y], x, l, s, hr', progress_monotone hr' fun z hz => ?_, hadv.2⟩
    have hz := hadv.1.1 z hz
    exact ⟨hz.1, List.contains_iff_mem.1 hz.2⟩

/-- The answer to the heartbeat comes last. -/
def overtaken : List RestartAction :=
  (twoSent ++ [Action.run 5 (.reply 2) {}, .run 1 (.reply 1) {}]).map fun a => .life (.step a)

/-- A leads all the time, and its index of B goes back from 1 to 0. -/
def setBackB : List (Cluster × RestartAction) → Cluster → Bool
  | x :: _, s =>
    [s, x.1].all (fun z => (z.raft "A").state == .leader && (z.raft "A").peers.contains "B" && (z.raft "A").term == 1) &&
      (x.1.raft "A").matchIndex.get "B" == 1 && (s.raft "A").matchIndex.get "B" == 0
  | _, _ => false

theorem late_heartbeat_sets_back :
    ∃ h s, restartMachine.Run (fun _ _ => True) h s ∧ setBackB h s = true :=
  Machine.exists_run (fun _ _ => True) (fun h s => setBackB h s = true) (machine_init threeNodes true true) overtaken
    (by decide +kernel)

end Cluster

end Mimori
