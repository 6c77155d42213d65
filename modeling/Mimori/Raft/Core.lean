/-
The functions of `internal/raft/raft.go`: log indexing, snapshots, elections, proposals, commit
advancement, waiters, configuration changes, leadership transfer and the constructor `New`.
Each definition is one section that holds `r.mu`; a `go` statement is an element of the returned
list of goroutines.
-/
import Mimori.Raft.Types

namespace Mimori

/-- `snapshotCheckThreshold`. -/
def snapshotCheckThreshold : Int := 50

/-- The entry that stands for everything up to the base of a log. -/
def boundary (index term : Int) : LogEntry := ⟨index, term, .nil⟩

namespace Raft

/-! ## Log index helpers -/

def lastLogIndex (r : Raft) : Int :=
  match r.log.getLast? with
  | none => r.logBaseIndex
  | some e => e.index

def lastLogTerm (r : Raft) : Int :=
  match r.log.getLast? with
  | none => 0
  | some e => e.term

/-- The log entry with the given absolute index if present. -/
def entryAt (r : Raft) (idx : Int) : Option LogEntry :=
  if r.log.isEmpty then none
  else if idx < r.logBaseIndex then none
  else
    let offset := idx - r.logBaseIndex
    if offset < 0 ∨ (r.log.length : Int) ≤ offset then none else r.log[offset.toNat]?

/-! ## Persistence -/

/-- `r.meta.Save(r.term, r.votedFor, r.peers)`. -/
def saveMeta (r : Raft) (ok : Bool) : Raft :=
  if ok then { r with disk.metaFile := some ⟨r.term, r.votedFor, r.peers⟩ } else r

/-- `r.logStore.SaveAll(r.log)`. -/
def saveLog (r : Raft) (ok : Bool) : Raft :=
  if ok then { r with disk.logFile := some r.log } else r

/-! ## Snapshot creation -/

/-- The log after compaction up to `index`: the boundary and the entries beyond it. -/
def compact (log : List LogEntry) (index term : Int) : List LogEntry :=
  boundary index term :: log.filter fun e => index < e.index

def createSnapshotLocked (r : Raft) (io : Io) : Raft :=
  if !r.snapshotter then r
  else
    match r.entryAt r.lastApplied, io.snapshot with
    | some entry, some stateBytes =>
      if r.lastApplied < 0 then r
      else if !io.saveSnap then r
      else
        let snap : Snapshot := ⟨r.lastApplied, entry.term, stateBytes⟩
        let r := { r with
          disk.snapFile := some snap
          snapshot := some snap
          log := compact r.log snap.lastIncludedIndex snap.lastIncludedTerm
          logBaseIndex := snap.lastIncludedIndex }
        r.saveLog io.saveLog
    | _, _ => r

/-! ## Query helpers -/

def isLeader (r : Raft) : Bool := r.state == .leader && !r.removedFromCluster

/-- Whether `id` is in the current configuration. -/
def isKnownNode (r : Raft) (id : NodeID) : Bool :=
  if id == "" then false else id == r.id || r.peers.contains id

/-- `time.Since(r.electionReset) < maxLeaseAge` for a follower with a leader; always for a leader. -/
def hasReadLease (r : Raft) (now : Int) : Bool :=
  if r.removedFromCluster then false
  else if r.state == .leader then true
  else if r.state == .follower && r.leader != "" then decide (now - r.electionReset < 4000)
  else false

/-! ## Elections -/

/-- `total/2 + 1` with `total := len(r.peers) + 1`. -/
def majority (r : Raft) : Int := ((r.peers.length : Int) + 1) / 2 + 1

def becomeLeaderLocked (r : Raft) : Raft × List Task :=
  let lastIdx := r.lastLogIndex + 1
  ({ r with
      state := .leader
      leader := r.id
      nextIndex := r.nextIndex.setAll r.peers lastIdx
      matchIndex := r.matchIndex.setAll r.peers r.logBaseIndex },
    [.heartbeatLoop])

def startElectionLocked (r : Raft) (io : Io) : Raft × List Task :=
  if r.removedFromCluster then (r, [])
  else
    let r := { r with state := .candidate, term := r.term + 1, votedFor := r.id }
    let r := r.saveMeta io.saveVote
    let r := { r with electionReset := io.now, votes := 1 }
    if r.votes ≥ r.majority then r.becomeLeaderLocked
    else (r, [.broadcastRequestVote r.term])

/-- The shortest election timeout, in milliseconds; `randomElectionTimeout` adds up to 1499. -/
def minElectionTimeout : Int := 1500

/-- One tick of `runElectionTimer`, with the timeout it drew. -/
def electionTick (r : Raft) (timeout : Int) (io : Io) : Raft × List Task :=
  if r.removedFromCluster then (r, [])
  else if r.state = .leader then (r, [])
  else if timeout ≤ io.now - r.electionReset then r.startElectionLocked io
  else (r, [])

def handleVoteResponse (r : Raft) (resp : RequestVoteResponse) : Raft × List Task :=
  if resp.term > r.term then
    ({ r with term := resp.term, state := .follower, votedFor := "" }, [])
  else if r.state ≠ .candidate then (r, [])
  else if resp.voteGranted then
    let r := { r with votes := r.votes + 1 }
    if r.votes ≥ r.majority then r.becomeLeaderLocked else (r, [])
  else (r, [])

/-! ## Proposals and commit advancement -/

def errNotLeader : String := "not leader"

/-- The append of `Propose` and `proposeConfigChange`. -/
def appendOwn (r : Raft) (data : Command) : Raft :=
  { r with log := r.log ++ [⟨r.lastLogIndex + 1, r.term, data⟩] }

/-- `Propose`; a failed save is logged and ignored. -/
def propose (r : Raft) (cmdData : Command) (io : Io) : Raft × Except String Int :=
  if r.state ≠ .leader then (r, .error errNotLeader)
  else ((r.appendOwn cmdData).saveLog io.saveLog, .ok (r.lastLogIndex + 1))

/-- How many members hold index `n`, as the leader counts them. -/
def replicas (r : Raft) (n : Int) : Int :=
  1 + ((r.peers.filter fun p => decide (n ≤ r.matchIndex.get p)).length : Int)

/-- The test of one turn of the loop of `updateCommitIndexLocked`. -/
def committable (r : Raft) (n : Int) : Bool :=
  match r.entryAt n with
  | none => false
  | some entry => entry.term == r.term && decide (r.majority ≤ r.replicas n)

/-- The indices the loop visits: from the last one down to `commitIndex + 1`. -/
def commitCandidates (r : Raft) : List Int :=
  (List.range (r.lastLogIndex - r.commitIndex).toNat).map fun k : Nat => r.lastLogIndex - (k : Int)

def updateCommitIndexLocked (r : Raft) : Raft :=
  if r.state ≠ .leader then r
  else
    match r.commitCandidates.find? r.committable with
    | some n => { r with commitIndex := n }
    | none => r

/-! ## Waiters -/

/-- `AppliedWait`: the channel is closed at once when the index is applied already. -/
def appliedWait (r : Raft) (index : Int) : Raft × Nat :=
  if index ≤ r.lastApplied then ({ r with chans := r.chans ++ [true] }, r.chans.length)
  else
    ({ r with
        chans := r.chans ++ [false]
        waiters := fun i => if i = index then some r.chans.length else r.waiters i },
      r.chans.length)

/-- Closing and deleting the waiter of `r.lastApplied`. -/
def closeWaiter (r : Raft) : Raft :=
  match r.waiters r.lastApplied with
  | none => r
  | some ch =>
    { r with
      chans := r.chans.set ch true
      waiters := fun i => if i = r.lastApplied then none else r.waiters i }

/-! ## Configuration management -/

def applyConfigChangeLocked (r : Raft) (isAdd : Bool) (nodeID : NodeID) (io : Io) : Raft :=
  if nodeID = r.id then
    if isAdd then r
    else
      let r := { r with
        removedFromCluster := true
        state := .follower
        leader := ""
        votedFor := ""
        votes := 0
        electionReset := io.now
        peers := []
        nextIndex := fun _ => none
        matchIndex := fun _ => none }
      r.saveMeta io.saveTerm
  else
    let r :=
      if isAdd then
        if r.peers.contains nodeID then r
        else { r with
          peers := r.peers ++ [nodeID]
          nextIndex := r.nextIndex.setAll [nodeID] (r.lastLogIndex + 1)
          matchIndex := r.matchIndex.setAll [nodeID] 0 }
      else { r with
        peers := r.peers.filter (· ≠ nodeID)
        nextIndex := fun p => if p = nodeID then none else r.nextIndex p
        matchIndex := fun p => if p = nodeID then none else r.matchIndex p }
    r.saveMeta io.saveTerm

/-- `handleConfigChangeIfNeeded`, and the body of the loop of `replayConfigChanges`. -/
def handleConfigChangeIfNeeded (r : Raft) (entry : LogEntry) (io : Io) : Raft :=
  match entry.data with
  | .configChange type nodeID => r.applyConfigChangeLocked (type == "add") nodeID io
  | _ => r

/-- The first half of a turn of `runApplier`: the next committed entry, if the log has it. -/
def takeNext (r : Raft) (io : Io) : Raft × Option LogEntry :=
  if r.commitIndex > r.lastApplied then
    match r.entryAt (r.lastApplied + 1) with
    | none => (r, none)
    | some entry =>
      (({ r with lastApplied := r.lastApplied + 1 }).handleConfigChangeIfNeeded entry io, some entry)
  else (r, none)

/-- The second half, after the entry was sent: close its waiter and maybe take a snapshot. -/
def afterApply (r : Raft) (io : Io) : Raft :=
  let r := r.closeWaiter
  if r.state = .leader ∧ r.lastApplied - r.logBaseIndex ≥ snapshotCheckThreshold then
    r.createSnapshotLocked io
  else r

/-- The absolute indices `lo`, …, `hi`. -/
def indices (lo hi : Int) : List Int := (List.range (hi - lo + 1).toNat).map fun k : Nat => lo + (k : Int)

def replayConfigChanges (r : Raft) (io : Io) : Raft :=
  let startIdx := if r.logBaseIndex + 1 < 1 then 1 else r.logBaseIndex + 1
  (indices startIdx r.lastLogIndex).foldl (fun r idx =>
    match r.entryAt idx with
    | none => r
    | some entry => r.handleConfigChangeIfNeeded entry io) r

inductive ConfigChangeType
  | addNode
  | removeNode
  deriving DecidableEq

def ConfigChangeType.name : ConfigChangeType → String
  | .addNode => "add"
  | .removeNode => "remove"

/-- `proposeConfigChange`; unlike `Propose` it returns the error of a failed save, with the entry
already in the log. -/
def proposeConfigChange (r : Raft) (changeType : ConfigChangeType) (nodeID : NodeID) (io : Io) :
    Raft × Except String Int :=
  if r.state ≠ .leader then (r, .error errNotLeader)
  else if changeType = .removeNode ∧ r.peers.length ≤ 0 then (r, .error "cannot remove last peer")
  else if changeType = .removeNode ∧ !r.peers.contains nodeID then (r, .error "node not in cluster")
  else
    let r' := r.appendOwn (.configChange changeType.name nodeID)
    if !io.saveLog then (r', .error "log persist failed")
    else (r'.saveLog io.saveLog, .ok (r.lastLogIndex + 1))

/-! ## Leader transfer -/

def transferLeadershipInternal (r : Raft) (target : NodeID) : Except String (List Task) :=
  if r.state ≠ .leader then .error errNotLeader
  else if target = r.id then .error "cannot transfer leadership to self"
  else if !r.peers.contains target then .error "target node not in cluster"
  else
    match r.matchIndex target with
    | none => .error "target node not tracked"
    | some matchIdx =>
      if matchIdx < r.commitIndex then .error "target node is not caught up"
      else .ok [.timeoutNow target]

/-- The end of the transfer goroutine: a higher term in the answer deposes the node. -/
def handleTimeoutNowResponse (r : Raft) (target : NodeID) (resp : TimeoutNowResponse) (io : Io) : Raft :=
  if resp.term > r.term then
    ({ r with term := resp.term, state := .follower, votedFor := "", leader := target }).saveMeta io.saveTerm
  else r

/-! ## The constructor -/

/-- The log and base index `New` computes from the files. -/
def loadLog (disk : Disk) : List LogEntry × Int :=
  let loaded := disk.logFile.getD []
  let entries := if loaded.isEmpty then [boundary 0 0] else loaded
  match disk.snapFile with
  | none => (entries, (entries.head?.map LogEntry.index).getD 0)
  | some snap =>
    match entries with
    | e :: rest =>
      if e.index ≠ snap.lastIncludedIndex then
        (boundary snap.lastIncludedIndex snap.lastIncludedTerm :: entries, snap.lastIncludedIndex)
      else
        ({ e with index := snap.lastIncludedIndex, term := snap.lastIncludedTerm } :: rest,
          snap.lastIncludedIndex)
    | [] => ([boundary snap.lastIncludedIndex snap.lastIncludedTerm], snap.lastIncludedIndex)

/-- `New(id, peers, dataDir)` on the files `disk`. -/
def new (id : NodeID) (peers : List NodeID) (disk : Disk) (io : Io) : Raft :=
  let md := disk.metaFile.getD ⟨0, "", []⟩
  let peers := if md.peers.isEmpty then peers else md.peers
  let (entries, logBaseIndex) := loadLog disk
  let r : Raft := {
    id, peers
    term := md.term
    votedFor := md.votedFor
    electionReset := io.now
    log := entries
    logBaseIndex
    snapshot := disk.snapFile
    disk }
  let r := r.replayConfigChanges io
  let r := { r with
    nextIndex := r.nextIndex.setAll r.peers (r.lastLogIndex + 1)
    matchIndex := r.matchIndex.setAll r.peers 0 }
  match disk.snapFile with
  | none => r
  | some snap => { r with commitIndex := snap.lastIncludedIndex, lastApplied := snap.lastIncludedIndex }

end Raft

end Mimori
