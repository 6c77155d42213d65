/-
The RPC handlers of `internal/raft/rpc.go`. Every handler holds `r.mu` from its first read to its
return, so each is one atomic section: the new node state, the goroutines it starts and its answer.
-/
import Mimori.Raft.Core

namespace Mimori

namespace Raft

/-- The step down to a newer term that every handler starts with. -/
def adoptTerm (r : Raft) (term : Int) (io : Io) : Raft :=
  if term > r.term then
    ({ r with term := term, votedFor := "", state := .follower }).saveMeta io.saveTerm
  else r

/-! ## RequestVote -/

/-- The log up-to-date rule: is the candidate's last entry at least as recent as ours? -/
def upToDate (r : Raft) (req : RequestVoteRequest) : Bool :=
  decide (req.lastLogTerm > r.lastLogTerm) ||
    (req.lastLogTerm == r.lastLogTerm && decide (req.lastLogIndex ≥ r.lastLogIndex))

def requestVote (r : Raft) (req : RequestVoteRequest) (io : Io) : Raft × RequestVoteResponse :=
  -- the answer carries the term from before the step down
  let respTerm := int32 r.term
  if !r.isKnownNode req.candidateId then (r, ⟨respTerm, false⟩)
  else if req.term < r.term then (r, ⟨respTerm, false⟩)
  else
    let r := r.adoptTerm req.term io
    if !r.upToDate req then (r, ⟨respTerm, false⟩)
    else if r.votedFor = "" ∨ r.votedFor = req.candidateId then
      (({ r with votedFor := req.candidateId, electionReset := io.now }).saveMeta io.saveVote,
        ⟨respTerm, true⟩)
    else (r, ⟨respTerm, false⟩)

/-! ## AppendEntries -/

/-- The log consistency check; index 0 is not checked. -/
def logConsistent (r : Raft) (prevLogIndex prevLogTerm : Int) : Bool :=
  if prevLogIndex > 0 then
    if prevLogIndex < r.logBaseIndex then false
    else
      match r.entryAt prevLogIndex with
      | none => false
      | some entry => entry.term == prevLogTerm
  else true

/-- One turn of the loop "append or overwrite entries". -/
def mergeEntry (logBaseIndex : Int) (log : List LogEntry) (e : LogEntry) : List LogEntry :=
  let offset := e.index - logBaseIndex
  if offset < 0 then log
  else
    match log[offset.toNat]? with
    | some old =>
      if old.term ≠ e.term then log.take offset.toNat ++ [e] else log
    | none => log ++ [e]

def mergeEntries (logBaseIndex : Int) (log entries : List LogEntry) : List LogEntry :=
  entries.foldl (mergeEntry logBaseIndex) log

/-- The follower's commit rule: the smaller of the leader's commit index and the last log index. -/
def advanceCommit (r : Raft) (leaderCommit : Int) : Raft :=
  if leaderCommit > r.commitIndex then
    let last := r.lastLogIndex
    { r with commitIndex := if leaderCommit < last then leaderCommit else last }
  else r

def appendEntries (r : Raft) (req : AppendEntriesRequest) (io : Io) : Raft × AppendEntriesResponse :=
  let respTerm := int32 r.term
  if !r.isKnownNode req.leaderId then (r, ⟨respTerm, false⟩)
  else if req.term < r.term then (r, ⟨respTerm, false⟩)
  else
    let r := r.adoptTerm req.term io
    let r := { r with leader := req.leaderId, electionReset := io.now }
    if !r.logConsistent req.prevLogIndex req.prevLogTerm then (r, ⟨respTerm, false⟩)
    else
      let r := { r with log := mergeEntries r.logBaseIndex r.log req.entries }
      let r := r.saveLog io.saveLog
      (r.advanceCommit req.leaderCommit, ⟨respTerm, true⟩)

/-! ## InstallSnapshot -/

/-- `InstallSnapshot`, with the payload handed to the restorer. A failed save is logged and ignored,
and the sender is not checked against the configuration. -/
def installSnapshot (r : Raft) (req : InstallSnapshotRequest) (io : Io) :
    Raft × Option Payload × InstallSnapshotResponse :=
  let respTerm := int32 r.term
  if req.term < r.term then (r, none, ⟨respTerm⟩)
  else
    let r := r.adoptTerm req.term io
    let snap : Snapshot := ⟨req.lastIncludedIndex, req.lastIncludedTerm, req.data⟩
    let r := if io.saveSnap then { r with disk.snapFile := some snap } else r
    let r := { r with
      snapshot := some snap
      log := compact r.log snap.lastIncludedIndex snap.lastIncludedTerm
      logBaseIndex := snap.lastIncludedIndex }
    let r := r.saveLog io.saveLog
    let r := { r with commitIndex := snap.lastIncludedIndex, lastApplied := snap.lastIncludedIndex }
    (r, if r.restorer then some snap.data else none, ⟨respTerm⟩)

/-! ## TimeoutNow -/

def timeoutNow (r : Raft) (req : TimeoutNowRequest) (io : Io) : Raft × List Task × TimeoutNowResponse :=
  if req.leaderId ≠ r.leader then (r, [], ⟨int32 r.term, false⟩)
  else if req.term < r.term then (r, [], ⟨int32 r.term, false⟩)
  else
    let r := r.adoptTerm req.term io
    let (r, started) := r.startElectionLocked io
    (r, started, ⟨int32 r.term, true⟩)

end Raft

end Mimori
