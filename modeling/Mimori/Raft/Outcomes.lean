/-
The outcomes of the functions of a node. A function takes one of a few ways from its first check to its return; the
relations here list these ways once, with the checks that lead to them and the node they leave. The modules that follow
some field of the node through the program go by them, so that none of them opens the functions again.
-/
import Mimori.Raft.RpcClient

namespace Mimori

namespace Raft

/-! ## RequestVote -/

inductive RequestVoteOutcome (r : Raft) (req : RequestVoteRequest) (io : Io) : Raft × RequestVoteResponse → Prop
  | ignored : RequestVoteOutcome r req io (r, ⟨int32 r.term, false⟩)
  | refused (hk : r.isKnownNode req.candidateId = true) (ht : r.term ≤ req.term) :
      RequestVoteOutcome r req io (r.adoptTerm req.term io, ⟨int32 r.term, false⟩)
  | granted (hk : r.isKnownNode req.candidateId = true) (ht : r.term ≤ req.term)
      (hu : (r.adoptTerm req.term io).upToDate req = true)
      (hv : (r.adoptTerm req.term io).votedFor = "" ∨ (r.adoptTerm req.term io).votedFor = req.candidateId) :
      RequestVoteOutcome r req io
        (({ r.adoptTerm req.term io with votedFor := req.candidateId, electionReset := io.now }).saveMeta io.saveVote,
          ⟨int32 r.term, true⟩)

theorem requestVote_outcome (r : Raft) (req : RequestVoteRequest) (io : Io) :
    RequestVoteOutcome r req io (r.requestVote req io) := by
  unfold requestVote
  simp only
  split
  · exact .ignored
  · rename_i hk
    have hk : r.isKnownNode req.candidateId = true := by simpa using hk
    split
    · exact .ignored
    · rename_i ht
      split
      · exact .refused hk (by omega)
      · rename_i hu
        split
        · rename_i hv
          exact .granted hk (by omega) (by simpa using hu) hv
        · exact .refused hk (by omega)

/-- The checks of `RequestVote`: the candidate is known, not of an older term and its log is up to date, and the node
has not voted for another in its term. -/
def grantsVote (r : Raft) (req : RequestVoteRequest) : Bool :=
  r.isKnownNode req.candidateId && decide (r.term ≤ req.term) && r.upToDate req &&
    (decide (r.term < req.term) || r.votedFor == "" || r.votedFor == req.candidateId)

theorem requestVote_voteGranted (r : Raft) (req : RequestVoteRequest) (io : Io) :
    (r.requestVote req io).2.voteGranted = r.grantsVote req := by
  have hlog : (r.adoptTerm req.term io).upToDate req = r.upToDate req := by
    unfold adoptTerm saveMeta
    split
    · cases io.saveTerm <;> rfl
    · rfl
  have hvote : (r.adoptTerm req.term io).votedFor = if req.term > r.term then "" else r.votedFor := by
    unfold adoptTerm saveMeta
    split
    · cases io.saveTerm <;> rfl
    · rfl
  unfold requestVote grantsVote
  simp only [hlog, hvote]
  cases r.isKnownNode req.candidateId with
  | false => rfl
  | true =>
    by_cases hlt : req.term < r.term
    · simp [hlt, Int.not_le.2 hlt]
    have hle : r.term ≤ req.term := by omega
    cases r.upToDate req with
    | false => simp [hlt]
    | true =>
      by_cases hgt : r.term < req.term
      · simp [hlt, hgt, hle]
      · by_cases hv : r.votedFor = "" ∨ r.votedFor = req.candidateId
        · simp [hlt, hgt, hv, hle]
        · simp [hlt, hgt, not_or.1 hv]

/-! ## AppendEntries -/

/-- The node once it has recognised the leader. -/
def afterHearing (r : Raft) (req : AppendEntriesRequest) (io : Io) : Raft :=
  { r.adoptTerm req.term io with leader := req.leaderId, electionReset := io.now }

/-- The node with the entries of the request in its log, before it saves it. -/
def afterMerging (r : Raft) (req : AppendEntriesRequest) (io : Io) : Raft :=
  { r.afterHearing req io with
    log := mergeEntries (r.adoptTerm req.term io).logBaseIndex (r.adoptTerm req.term io).log req.entries }

inductive AppendEntriesOutcome (r : Raft) (req : AppendEntriesRequest) (io : Io) : Raft × AppendEntriesResponse → Prop
  | ignored (h : r.isKnownNode req.leaderId = false ∨ req.term < r.term) :
      AppendEntriesOutcome r req io (r, ⟨int32 r.term, false⟩)
  | refused (hk : r.isKnownNode req.leaderId = true) (ht : r.term ≤ req.term)
      (hc : (r.afterHearing req io).logConsistent req.prevLogIndex req.prevLogTerm = false) :
      AppendEntriesOutcome r req io (r.afterHearing req io, ⟨int32 r.term, false⟩)
  | accepted (hk : r.isKnownNode req.leaderId = true) (ht : r.term ≤ req.term)
      (hc : (r.afterHearing req io).logConsistent req.prevLogIndex req.prevLogTerm = true) :
      AppendEntriesOutcome r req io
        (((r.afterMerging req io).saveLog io.saveLog).advanceCommit req.leaderCommit, ⟨int32 r.term, true⟩)

theorem appendEntries_outcome (r : Raft) (req : AppendEntriesRequest) (io : Io) :
    AppendEntriesOutcome r req io (r.appendEntries req io) := by
  unfold appendEntries
  simp only
  split
  · rename_i hk
    exact .ignored (.inl (by simpa using hk))
  · rename_i hk
    have hk : r.isKnownNode req.leaderId = true := by simpa using hk
    split
    · rename_i ht
      exact .ignored (.inr ht)
    · rename_i ht
      split
      · rename_i hc
        exact .refused hk (by omega) (by simpa [afterHearing] using hc)
      · rename_i hc
        exact .accepted hk (by omega) (by simpa [afterHearing] using hc)

/-! ## InstallSnapshot -/

/-- The node with the snapshot in place of the log up to it, before it saves the log. -/
def afterInstalling (r : Raft) (req : InstallSnapshotRequest) (io : Io) : Raft :=
  { r.adoptTerm req.term io with
    disk.snapFile := if io.saveSnap then some ⟨req.lastIncludedIndex, req.lastIncludedTerm, req.data⟩
      else (r.adoptTerm req.term io).disk.snapFile
    snapshot := some ⟨req.lastIncludedIndex, req.lastIncludedTerm, req.data⟩
    log := compact (r.adoptTerm req.term io).log req.lastIncludedIndex req.lastIncludedTerm
    logBaseIndex := req.lastIncludedIndex }

inductive InstallSnapshotOutcome (r : Raft) (req : InstallSnapshotRequest) (io : Io) :
    Raft × Option Payload × InstallSnapshotResponse → Prop
  | stale (h : req.term < r.term) : InstallSnapshotOutcome r req io (r, none, ⟨int32 r.term⟩)
  | installed (h : r.term ≤ req.term) :
      InstallSnapshotOutcome r req io
        ({ (r.afterInstalling req io).saveLog io.saveLog with
            commitIndex := req.lastIncludedIndex
            lastApplied := req.lastIncludedIndex },
          if ((r.afterInstalling req io).saveLog io.saveLog).restorer then some req.data else none, ⟨int32 r.term⟩)

theorem installSnapshot_outcome (r : Raft) (req : InstallSnapshotRequest) (io : Io) :
    InstallSnapshotOutcome r req io (r.installSnapshot req io) := by
  have hnode : ∀ b : Bool, { (if b then { r.adoptTerm req.term io with
        disk.snapFile := some ⟨req.lastIncludedIndex, req.lastIncludedTerm, req.data⟩ } else r.adoptTerm req.term io) with
      snapshot := some ⟨req.lastIncludedIndex, req.lastIncludedTerm, req.data⟩
      log := compact (if b then { r.adoptTerm req.term io with
        disk.snapFile := some ⟨req.lastIncludedIndex, req.lastIncludedTerm, req.data⟩ }
        else r.adoptTerm req.term io).log req.lastIncludedIndex req.lastIncludedTerm
      logBaseIndex := req.lastIncludedIndex } = r.afterInstalling req { io with saveSnap := b } := by
    intro b
    cases b <;> rfl
  unfold installSnapshot
  simp only
  split
  · rename_i h
    exact .stale h
  · rename_i h
    rw [hnode]
    exact .installed (by omega)

/-! ## Elections -/

/-- The candidate of a new term, with its own vote. -/
def standing (r : Raft) (io : Io) : Raft :=
  { ({ r with state := .candidate, term := r.term + 1, votedFor := r.id }).saveMeta io.saveVote with
    electionReset := io.now
    votes := 1 }

inductive StartElectionOutcome (r : Raft) (io : Io) : Raft × List Task → Prop
  | removed (h : r.removedFromCluster = true) : StartElectionOutcome r io (r, [])
  | elected (h : r.removedFromCluster = false) (hv : (r.standing io).majority ≤ (r.standing io).votes) :
      StartElectionOutcome r io (r.standing io).becomeLeaderLocked
  | asks (h : r.removedFromCluster = false) :
      StartElectionOutcome r io (r.standing io, [.broadcastRequestVote (r.standing io).term])

theorem startElectionLocked_outcome (r : Raft) (io : Io) : StartElectionOutcome r io (r.startElectionLocked io) := by
  unfold startElectionLocked
  split
  · rename_i h
    exact .removed h
  · rename_i h
    have h : r.removedFromCluster = false := by simpa using h
    simp only
    split
    · rename_i hv
      exact .elected h hv
    · exact .asks h

inductive TimeoutNowOutcome (r : Raft) (req : TimeoutNowRequest) (io : Io) :
    Raft × List Task × TimeoutNowResponse → Prop
  | ignored (h : req.leaderId ≠ r.leader ∨ req.term < r.term) : TimeoutNowOutcome r req io (r, [], ⟨int32 r.term, false⟩)
  | starts (hl : req.leaderId = r.leader) (ht : r.term ≤ req.term) :
      TimeoutNowOutcome r req io (((r.adoptTerm req.term io).startElectionLocked io).1,
        ((r.adoptTerm req.term io).startElectionLocked io).2,
        ⟨int32 ((r.adoptTerm req.term io).startElectionLocked io).1.term, true⟩)

theorem timeoutNow_outcome (r : Raft) (req : TimeoutNowRequest) (io : Io) :
    TimeoutNowOutcome r req io (r.timeoutNow req io) := by
  unfold timeoutNow
  split
  · rename_i hl
    exact .ignored (.inl hl)
  · rename_i hl
    split
    · rename_i ht
      exact .ignored (.inr ht)
    · exact .starts (not_not.1 hl) (by omega)

inductive VoteAnswerOutcome (r : Raft) (resp : RequestVoteResponse) : Raft × List Task → Prop
  | newer (h : r.term < resp.term) :
      VoteAnswerOutcome r resp ({ r with term := resp.term, state := .follower, votedFor := "" }, [])
  | ignored (h : resp.term ≤ r.term) : VoteAnswerOutcome r resp (r, [])
  | counted (h : resp.term ≤ r.term) (hs : r.state = .candidate) (hg : resp.voteGranted = true) :
      VoteAnswerOutcome r resp ({ r with votes := r.votes + 1 }, [])
  | elected (h : resp.term ≤ r.term) (hs : r.state = .candidate) (hg : resp.voteGranted = true)
      (hv : r.majority ≤ r.votes + 1) :
      VoteAnswerOutcome r resp ({ r with votes := r.votes + 1 }).becomeLeaderLocked

theorem handleVoteResponse_outcome (r : Raft) (resp : RequestVoteResponse) :
    VoteAnswerOutcome r resp (r.handleVoteResponse resp) := by
  unfold handleVoteResponse
  split
  · rename_i h
    exact .newer h
  · rename_i h
    have h : resp.term ≤ r.term := by omega
    split
    · exact .ignored h
    · rename_i hs
      split
      · rename_i hg
        simp only
        split
        · rename_i hv
          exact .elected h (not_not.1 hs) hg hv
        · exact .counted h (not_not.1 hs) hg
      · exact .ignored h

/-! ## Answers to AppendEntries -/

inductive AppendAnswerOutcome (r : Raft) (a : AppendArgs) (resp : AppendEntriesResponse) (io : Io) :
    Raft × List Task → Prop
  | newer (h : r.term < resp.term) :
      AppendAnswerOutcome r a resp io
        (({ r with term := resp.term, state := .follower, votedFor := "" }).saveMeta io.saveTerm, [])
  | transfer (h : resp.term ≤ r.term) (hs : resp.success = false)
      (hb : r.behindSnapshot (r.nextIndex.get a.peer) = true) :
      AppendAnswerOutcome r a resp io (r, [.sendSnapshot a.peer])
  | backed (h : resp.term ≤ r.term) (hs : resp.success = false) (hn : r.logBaseIndex + 1 < r.nextIndex.get a.peer) :
      AppendAnswerOutcome r a resp io
        ({ r with nextIndex := r.nextIndex.setAll [a.peer] (r.nextIndex.get a.peer - 1) }, [])
  | ignored (h : resp.term ≤ r.term) : AppendAnswerOutcome r a resp io (r, [])
  | counted (h : resp.term ≤ r.term) (hs : resp.success = true) (hp : a.peer ∈ r.peers) :
      AppendAnswerOutcome r a resp io ((r.recordProgress a).updateCommitIndexLocked, [])

theorem handleAppendResponse_outcome (r : Raft) (a : AppendArgs) (resp : AppendEntriesResponse) (io : Io) :
    AppendAnswerOutcome r a resp io (r.handleAppendResponse a resp io) := by
  unfold handleAppendResponse
  split
  · rename_i h
    exact .newer h
  · rename_i h
    have h : resp.term ≤ r.term := by omega
    split
    · rename_i hs
      have hs : resp.success = false := by simpa using hs
      split
      · rename_i hb
        exact .transfer h hs hb
      · split
        · rename_i hn
          exact .backed h hs hn
        · exact .ignored h
    · rename_i hs
      split
      · exact .ignored h
      · rename_i hp
        exact .counted h (by simpa using hs) (by simpa using hp)

/-! ## Snapshots -/

/-- The checks of `createSnapshotLocked`, with the outcomes of the snapshotter and of the save. -/
def snapshots (r : Raft) (io : Io) : Bool :=
  r.snapshotter && (r.entryAt r.lastApplied).isSome && io.snapshot.isSome && decide (0 ≤ r.lastApplied) && io.saveSnap

inductive CreateSnapshotOutcome (r : Raft) (io : Io) : Raft → Prop
  | kept (h : r.snapshots io = false) : CreateSnapshotOutcome r io r
  | taken (entry : LogEntry) (stateBytes : Payload) (he : r.entryAt r.lastApplied = some entry)
      (hs : io.snapshot = some stateBytes) (h0 : 0 ≤ r.lastApplied) (h : r.snapshots io = true) :
      CreateSnapshotOutcome r io (({ r with
        disk.snapFile := some ⟨r.lastApplied, entry.term, stateBytes⟩
        snapshot := some ⟨r.lastApplied, entry.term, stateBytes⟩
        log := compact r.log r.lastApplied entry.term
        logBaseIndex := r.lastApplied }).saveLog io.saveLog)

theorem createSnapshotLocked_outcome (r : Raft) (io : Io) : CreateSnapshotOutcome r io (r.createSnapshotLocked io) := by
  unfold createSnapshotLocked
  split
  · rename_i hr
    exact .kept (by simp_all [snapshots])
  · split
    · rename_i entry stateBytes he hs
      split
      · rename_i h0
        exact .kept (by simp [snapshots, Int.not_le.2 h0])
      · rename_i h0
        split
        · exact .kept (by simp_all [snapshots])
        · exact .taken entry stateBytes he hs (by omega) (by simp_all [snapshots])
    · rename_i hno
      refine .kept (Bool.eq_false_iff.2 fun h => ?_)
      simp only [snapshots, Bool.and_eq_true, Option.isSome_iff_exists] at h
      obtain ⟨⟨⟨⟨_, e, he⟩, b, hb⟩, _⟩, _⟩ := h
      exact hno e b he hb

/-! ## Configuration changes -/

inductive ProposeChangeOutcome (r : Raft) (changeType : ConfigChangeType) (nodeID : NodeID) (io : Io) :
    Raft × Except String Int → Prop
  | refused (e : String) : ProposeChangeOutcome r changeType nodeID io (r, .error e)
  | unsaved (hl : r.state = .leader) (hp : changeType = .removeNode → r.peers.contains nodeID = true)
      (hs : io.saveLog = false) :
      ProposeChangeOutcome r changeType nodeID io
        (r.appendOwn (.configChange changeType.name nodeID), .error "log persist failed")
  | appended (hl : r.state = .leader) (hp : changeType = .removeNode → r.peers.contains nodeID = true)
      (hs : io.saveLog = true) :
      ProposeChangeOutcome r changeType nodeID io
        ((r.appendOwn (.configChange changeType.name nodeID)).saveLog io.saveLog, .ok (r.lastLogIndex + 1))

theorem proposeConfigChange_outcome (r : Raft) (changeType : ConfigChangeType) (nodeID : NodeID) (io : Io) :
    ProposeChangeOutcome r changeType nodeID io (r.proposeConfigChange changeType nodeID io) := by
  unfold proposeConfigChange
  split
  · exact .refused _
  · rename_i hl
    split
    · exact .refused _
    · split
      · exact .refused _
      · rename_i hno
        have hp : changeType = .removeNode → r.peers.contains nodeID = true := by
          intro ht
          simpa [ht] using hno
        simp only
        split
        · rename_i hs
          exact .unsaved (not_not.1 hl) hp (by simpa using hs)
        · rename_i hs
          exact .appended (not_not.1 hl) hp (by simpa using hs)

inductive ApplyChangeOutcome (r : Raft) (isAdd : Bool) (nodeID : NodeID) (io : Io) : Raft → Prop
  | self (hid : nodeID = r.id) (ha : isAdd = true) : ApplyChangeOutcome r isAdd nodeID io r
  | leaves (hid : nodeID = r.id) (ha : isAdd = false) :
      ApplyChangeOutcome r isAdd nodeID io (({ r with
        removedFromCluster := true
        state := .follower
        leader := ""
        votedFor := ""
        votes := 0
        electionReset := io.now
        peers := []
        nextIndex := fun _ => none
        matchIndex := fun _ => none }).saveMeta io.saveTerm)
  | known (hid : nodeID ≠ r.id) (hc : r.peers.contains nodeID = true) (ha : isAdd = true) :
      ApplyChangeOutcome r isAdd nodeID io (r.saveMeta io.saveTerm)
  | added (hid : nodeID ≠ r.id) (hc : r.peers.contains nodeID = false) (ha : isAdd = true) :
      ApplyChangeOutcome r isAdd nodeID io (({ r with
        peers := r.peers ++ [nodeID]
        nextIndex := r.nextIndex.setAll [nodeID] (r.lastLogIndex + 1)
        matchIndex := r.matchIndex.setAll [nodeID] 0 }).saveMeta io.saveTerm)
  | dropped (hid : nodeID ≠ r.id) (ha : isAdd = false) :
      ApplyChangeOutcome r isAdd nodeID io (({ r with
        peers := r.peers.filter (· ≠ nodeID)
        nextIndex := fun p => if p = nodeID then none else r.nextIndex p
        matchIndex := fun p => if p = nodeID then none else r.matchIndex p }).saveMeta io.saveTerm)

theorem applyConfigChangeLocked_outcome (r : Raft) (isAdd : Bool) (nodeID : NodeID) (io : Io) :
    ApplyChangeOutcome r isAdd nodeID io (r.applyConfigChangeLocked isAdd nodeID io) := by
  unfold applyConfigChangeLocked
  split
  · rename_i hid
    cases isAdd with
    | true => exact .self hid rfl
    | false => exact .leaves hid rfl
  · rename_i hid
    cases isAdd with
    | true =>
      simp only [if_true]
      split
      · rename_i hc
        exact .known hid hc rfl
      · rename_i hc
        exact .added hid (by simpa using hc) rfl
    | false => exact .dropped hid rfl

/-- An entry that is applied is none that changes the configuration, or brings its change. -/
theorem handleConfigChangeIfNeeded_outcome (r : Raft) (entry : LogEntry) (io : Io) :
    r.handleConfigChangeIfNeeded entry io = r ∨
      ∃ isAdd nodeID, ApplyChangeOutcome r isAdd nodeID io (r.handleConfigChangeIfNeeded entry io) := by
  unfold handleConfigChangeIfNeeded
  split
  · exact .inr ⟨_, _, applyConfigChangeLocked_outcome ..⟩
  · exact .inl rfl

end Raft

end Mimori
