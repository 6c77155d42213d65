/-
The sending side, `internal/raft/rpc_client.go`: vote requests, heartbeat rounds, batches with
pipelining, snapshot transfer, and what a node does with each answer. A function here is one
section between two points where the goroutine holds no lock.
-/
import Mimori.Raft.Rpc

namespace Mimori

/-- `maxEntriesPerBatch`. -/
def maxEntriesPerBatch : Nat := 100

/-- A log entry as it is put on the wire. -/
def LogEntry.toWire (e : LogEntry) : LogEntry := ⟨int32 e.index, int32 e.term, e.data⟩

namespace Raft

/-! ## Vote requests -/

/-- The loop of `broadcastRequestVote` over the current peers. -/
def broadcastRequestVote (r : Raft) (term : Int) : List Task :=
  (r.peers.filter (· ≠ "")).map (Task.requestVote term)

/-- The request of one peer's goroutine: the term of the election, the log metadata of now. -/
def requestVoteRequest (r : Raft) (term : Int) : RequestVoteRequest :=
  ⟨r.id, int32 term, int32 r.lastLogIndex, int32 r.lastLogTerm⟩

/-! ## Heartbeat rounds -/

/-- What `sendHeartbeats` does for one peer. -/
inductive HeartbeatResult
  /-- `make` is called with a negative capacity and the process dies. -/
  | panic
  | snapshot
  | batches (args : AppendArgs)
  deriving DecidableEq

/-- `nextIndex[p]`, or the first index after the base when there is none. -/
def nextIdx (r : Raft) (p : NodeID) : Int :=
  if r.nextIndex.get p = 0 then r.logBaseIndex + 1 else r.nextIndex.get p

/-- The peer is behind the snapshot. -/
def behindSnapshot (r : Raft) (next : Int) : Bool :=
  match r.snapshot with
  | none => false
  | some snap => decide (next ≤ snap.lastIncludedIndex)

def heartbeatTo (r : Raft) (term : Int) (leaderID p : NodeID) : HeartbeatResult :=
  let next := r.nextIdx p
  if r.behindSnapshot next then .snapshot
  else
    let prevLogIndex := next - 1
    let prevLogTerm := ((r.entryAt prevLogIndex).map LogEntry.term).getD 0
    if r.lastLogIndex - prevLogIndex < 0 then .panic
    else .batches {
      peer := p
      term, leaderID, prevLogIndex, prevLogTerm
      entries := ((indices next r.lastLogIndex).filterMap r.entryAt).map LogEntry.toWire
      freshCommit := r.commitIndex }

/-- What `sendHeartbeats` reads for a peer that is neither behind the snapshot nor beyond the log. -/
theorem heartbeatTo_batches {r : Raft} {term : Int} {leaderID p : NodeID} {args : AppendArgs}
    (h : r.heartbeatTo term leaderID p = .batches args) :
    r.behindSnapshot (r.nextIdx p) = false ∧ r.nextIdx p - 1 ≤ r.lastLogIndex ∧ args = {
      peer := p
      term, leaderID
      prevLogIndex := r.nextIdx p - 1
      prevLogTerm := ((r.entryAt (r.nextIdx p - 1)).map LogEntry.term).getD 0
      entries := ((indices (r.nextIdx p) r.lastLogIndex).filterMap r.entryAt).map LogEntry.toWire
      freshCommit := r.commitIndex } := by
  unfold heartbeatTo at h
  simp only at h
  split at h
  · cases h
  · rename_i hbehind
    split at h
    · cases h
    · cases h
      exact ⟨Bool.eq_false_iff.2 hbehind, by omega, rfl⟩

/-! ## Batches -/

/-- The batch the loop of `sendBatchesWithPipeline` is at. -/
def currentBatch (a : AppendArgs) : AppendArgs := { a with entries := a.entries.take maxEntriesPerBatch }

/-- The loop after a batch got its permit: the next batch follows the last entry sent. -/
def afterSent (a : AppendArgs) : AppendArgs :=
  let rest := a.entries.drop maxEntriesPerBatch
  match (a.entries.take maxEntriesPerBatch).getLast? with
  | none => { a with entries := rest }
  | some e => { a with entries := rest, prevLogIndex := e.index, prevLogTerm := e.term }

theorem afterSent_eq (a : AppendArgs) : ∃ i t, afterSent a =
    { a with entries := a.entries.drop maxEntriesPerBatch, prevLogIndex := i, prevLogTerm := t } := by
  unfold afterSent
  simp only
  split
  · exact ⟨_, _, rfl⟩
  · exact ⟨_, _, rfl⟩

section Fields

variable (a : AppendArgs)

@[simp] theorem afterSent_peer : (afterSent a).peer = a.peer := by
  obtain ⟨i, t, h⟩ := afterSent_eq a
  rw [h]

@[simp] theorem afterSent_term : (afterSent a).term = a.term := by
  obtain ⟨i, t, h⟩ := afterSent_eq a
  rw [h]

@[simp] theorem afterSent_leaderID : (afterSent a).leaderID = a.leaderID := by
  obtain ⟨i, t, h⟩ := afterSent_eq a
  rw [h]

@[simp] theorem afterSent_freshCommit : (afterSent a).freshCommit = a.freshCommit := by
  obtain ⟨i, t, h⟩ := afterSent_eq a
  rw [h]

@[simp] theorem afterSent_entries : (afterSent a).entries = a.entries.drop maxEntriesPerBatch := by
  obtain ⟨i, t, h⟩ := afterSent_eq a
  rw [h]

end Fields

/-- The loop after a batch got no permit: `continue` moves on to the next batch, and the previous
index and term stay. -/
def afterRefused (a : AppendArgs) : AppendArgs := { a with entries := a.entries.drop maxEntriesPerBatch }

/-- The request of `sendAppendEntriesBatch`. -/
def appendEntriesRequest (a : AppendArgs) : AppendEntriesRequest :=
  ⟨int32 a.term, a.leaderID, int32 a.prevLogIndex, int32 a.prevLogTerm, a.entries, int32 a.freshCommit⟩

/-- The index a successful answer stands for: the last entry sent, or the previous index. -/
def ackedIndex (a : AppendArgs) : Int :=
  match a.entries.getLast? with
  | some e => e.index
  | none => a.prevLogIndex

/-- The progress a successful answer records. -/
def recordProgress (r : Raft) (a : AppendArgs) : Raft :=
  if a.entries = [] ∧ a.prevLogIndex < r.logBaseIndex then r
  else { r with
    matchIndex := r.matchIndex.setAll [a.peer] (ackedIndex a)
    nextIndex := r.nextIndex.setAll [a.peer] (ackedIndex a + 1) }

/-- The end of `sendAppendEntriesBatch`: what the node does with the answer. -/
def handleAppendResponse (r : Raft) (a : AppendArgs) (resp : AppendEntriesResponse) (io : Io) :
    Raft × List Task :=
  if resp.term > r.term then
    (({ r with term := resp.term, state := .follower, votedFor := "" }).saveMeta io.saveTerm, [])
  else if !resp.success then
    if r.behindSnapshot (r.nextIndex.get a.peer) then (r, [.sendSnapshot a.peer])
    else if r.nextIndex.get a.peer > r.logBaseIndex + 1 then
      ({ r with nextIndex := r.nextIndex.setAll [a.peer] (r.nextIndex.get a.peer - 1) }, [])
    else (r, [])
  else if !r.peers.contains a.peer then (r, [])
  else ((r.recordProgress a).updateCommitIndexLocked, [])

/-! ## Snapshot transfer -/

/-- The snapshot `sendSnapshotToFollower` sends: the one in memory, else the one on disk. -/
def snapshotToSend (r : Raft) : Option Snapshot := r.snapshot.orElse fun _ => r.disk.snapFile

/-- The request; `r.term` is read when it is sent. -/
def installSnapshotRequest (r : Raft) (snap : Snapshot) : InstallSnapshotRequest :=
  ⟨int32 r.term, r.id, int32 snap.lastIncludedIndex, int32 snap.lastIncludedTerm, snap.data⟩

/-- The end of `sendSnapshotToFollower`, whatever the call returned. -/
def snapshotSent (r : Raft) (p : NodeID) (snap : Snapshot) : Raft :=
  { r with
    matchIndex := r.matchIndex.setAll [p] snap.lastIncludedIndex
    nextIndex := r.nextIndex.setAll [p] (snap.lastIncludedIndex + 1) }

/-! ## Leadership transfer -/

def timeoutNowRequest (r : Raft) : TimeoutNowRequest := ⟨int32 r.term, r.id⟩

end Raft

end Mimori
