/-
The data of the consensus layer (`internal/raft/types.go`, `snapshot.go`, `meta.go`, `storage.go`,
the messages of `proto/raft.proto` and the `Raft` struct of `raft.go`), and the goroutines a node
has between two sections that hold its mutex.

Go's `int` is `Int`; the `int32` conversions at the wire are explicit. A `map[K]V` is a partial
function, a channel of `waiters` is a number, and a `Data []byte` is the command that the JSON
readers of the repository make of it.
-/
import Mathlib.Algebra.Group.Nat.Defs
import Mathlib.Algebra.Ring.Int.Defs
import Mathlib.Data.Int.Init
import Mathlib.Data.List.Basic

namespace Mimori

/-! ## Commands and log entries -/

abbrev NodeID := String
abbrev Bytes := List UInt8

/-- The role of a node. -/
inductive RaftState
  | follower
  | candidate
  | leader
  deriving DecidableEq

/-- The content of a log entry: what `encodePutCmd`, `encodeDeleteCmd` and `proposeConfigChange`
write, and any other bytes, which no reader decodes to one of these. -/
inductive Command
  | put (key value : Bytes)
  | delete (key : Bytes)
  | configChange (type : String) (nodeID : NodeID)
  | other (data : Bytes)
  deriving DecidableEq

/-- The command is a configuration change. -/
def Command.isConfig : Command → Bool
  | .configChange _ _ => true
  | _ => false

/-- A nil `Data`. -/
def Command.nil : Command := .other []

structure LogEntry where
  index : Int
  term : Int
  data : Command
  deriving DecidableEq

/-- The key-value pairs of a store. -/
abbrev Store := List (Bytes × Bytes)

/-- The payload of a snapshot: the store content that `Restore` decodes, or bytes it cannot. -/
inductive Payload
  | state (store : Store)
  | other (data : Bytes)
  deriving DecidableEq

structure Snapshot where
  lastIncludedIndex : Int
  lastIncludedTerm : Int
  data : Payload
  deriving DecidableEq

/-! ## The data directory -/

/-- The content of `raft-meta.json`. -/
structure MetaData where
  term : Int
  votedFor : NodeID
  peers : List NodeID
  deriving DecidableEq

/-- The three files of a data directory; a missing file is `none`. Each is replaced by a rename,
so it holds the old or the new content. -/
structure Disk where
  metaFile : Option MetaData := none
  logFile : Option (List LogEntry) := none
  snapFile : Option Snapshot := none
  deriving DecidableEq

/-- What the environment answers while one section runs: the clock in milliseconds, whether each
save succeeds, what the snapshotter returns (`none` is an error), whether the restorer succeeds. -/
structure Io where
  now : Int := 0
  saveTerm : Bool := true
  saveVote : Bool := true
  saveLog : Bool := true
  saveSnap : Bool := true
  snapshot : Option Payload := some (.state [])
  restore : Bool := true
  deriving DecidableEq

/-! ## Messages -/

/-- The conversion `int32(x)`. -/
def int32 (x : Int) : Int := x.bmod (2 ^ 32)

/-- A value that fits the wire. -/
def Fits (x : Int) : Prop := -2 ^ 31 ≤ x ∧ x < 2 ^ 31

instance (x : Int) : Decidable (Fits x) := inferInstanceAs (Decidable (_ ∧ _))

theorem int32_of_fits {x : Int} (h : Fits x) : int32 x = x := by
  obtain ⟨hlo, hhi⟩ := h
  unfold int32
  rw [Int.bmod_eq_of_le] <;> omega

theorem fits_int32 (x : Int) : Fits (int32 x) :=
  ⟨Int.le_bmod (m := 2 ^ 32) (by decide), Int.bmod_lt (m := 2 ^ 32) (by decide)⟩

/-- The conversion makes no number greater that is not below all those that fit. -/
theorem int32_le {x y : Int} (h : int32 y ≤ x) : int32 x ≤ x := by
  have hy := (fits_int32 y).1
  rcases Int.lt_or_le x (2 ^ 31) with hx | hx
  · exact Int.le_of_eq (int32_of_fits ⟨by omega, hx⟩)
  · have := (fits_int32 x).2
    omega

structure RequestVoteRequest where
  candidateId : NodeID
  term : Int
  lastLogIndex : Int
  lastLogTerm : Int
  deriving DecidableEq

structure RequestVoteResponse where
  term : Int
  voteGranted : Bool
  deriving DecidableEq

structure AppendEntriesRequest where
  term : Int
  leaderId : NodeID
  prevLogIndex : Int
  prevLogTerm : Int
  entries : List LogEntry
  leaderCommit : Int
  deriving DecidableEq

structure AppendEntriesResponse where
  term : Int
  success : Bool
  deriving DecidableEq

structure InstallSnapshotRequest where
  term : Int
  leaderId : NodeID
  lastIncludedIndex : Int
  lastIncludedTerm : Int
  data : Payload
  deriving DecidableEq

structure InstallSnapshotResponse where
  term : Int
  deriving DecidableEq

structure TimeoutNowRequest where
  term : Int
  leaderId : NodeID
  deriving DecidableEq

structure TimeoutNowResponse where
  term : Int
  success : Bool
  deriving DecidableEq

inductive Request
  | requestVote (req : RequestVoteRequest)
  | appendEntries (req : AppendEntriesRequest)
  | installSnapshot (req : InstallSnapshotRequest)
  | timeoutNow (req : TimeoutNowRequest)
  deriving DecidableEq

inductive Response
  | requestVote (resp : RequestVoteResponse)
  | appendEntries (resp : AppendEntriesResponse)
  | installSnapshot (resp : InstallSnapshotResponse)
  | timeoutNow (resp : TimeoutNowResponse)
  deriving DecidableEq

/-! ## The node -/

/-- A `map[NodeID]int`. -/
abbrev IndexMap := NodeID → Option Int

/-- Go's `m[p]`: the zero value when the key is missing. -/
def IndexMap.get (m : IndexMap) (p : NodeID) : Int := (m p).getD 0

/-- Assigning `v` to every key of a list. -/
def IndexMap.setAll (m : IndexMap) (ps : List NodeID) (v : Int) : IndexMap :=
  fun p => if p ∈ ps then some v else m p

/-- The `Raft` struct, with the node's data directory. `waiters` maps an index to a channel and
`chans` says of every channel handed out whether it is closed; `snapshotter` and `restorer` say
whether the callback is set. -/
structure Raft where
  id : NodeID
  peers : List NodeID
  state : RaftState := .follower
  term : Int := 0
  votes : Int := 0
  votedFor : NodeID := ""
  electionReset : Int := 0
  log : List LogEntry
  commitIndex : Int := 0
  lastApplied : Int := 0
  nextIndex : IndexMap := fun _ => none
  matchIndex : IndexMap := fun _ => none
  waiters : Int → Option Nat := fun _ => none
  chans : List Bool := []
  leader : NodeID := ""
  logBaseIndex : Int := 0
  snapshot : Option Snapshot := none
  snapshotter : Bool := false
  restorer : Bool := false
  removedFromCluster : Bool := false
  disk : Disk := {}

/-! ## Goroutines -/

/-- The arguments of `sendBatchesWithPipeline` and `sendAppendEntriesBatch`. -/
structure AppendArgs where
  peer : NodeID
  term : Int
  leaderID : NodeID
  prevLogIndex : Int
  prevLogTerm : Int
  entries : List LogEntry
  freshCommit : Int
  deriving DecidableEq

/-- Who runs `sendHeartbeats`: the goroutine of `becomeLeaderLocked`, or `AddNodeInternal` /
`RemoveNodeInternal` after proposing the entry at `index`. -/
inductive Caller
  | heartbeatLoop
  | configChange (index : Int)
  deriving DecidableEq

/-- The client calls of the `KV` service. -/
inductive ClientRequest
  | put (key value : Bytes)
  | delete (key : Bytes)
  | get (key : Bytes) (allowStale : Bool)
  deriving DecidableEq

/-- A goroutine waiting to run its next section, with the local variables that section reads. -/
inductive Task
  /-- `broadcastRequestVote` before its loop over `r.peers`. -/
  | broadcastRequestVote (term : Int)
  /-- The goroutine for one peer before it reads the log metadata. -/
  | requestVote (term : Int) (peer : NodeID)
  /-- The same goroutine inside `client.RequestVote`. -/
  | awaitVote (term : Int) (peer : NodeID) (call : Nat)
  /-- The goroutine of `becomeLeaderLocked` at its ticker. -/
  | heartbeatLoop
  /-- `sendHeartbeats` before it reads the term and the peers. -/
  | sendHeartbeats (ret : Caller)
  /-- `sendHeartbeats` in its loop over the peers. -/
  | heartbeatPeers (ret : Caller) (term : Int) (leaderID : NodeID) (rest : List NodeID)
  /-- `sendHeartbeats` without peers, before `updateCommitIndexLocked`. -/
  | heartbeatAlone (ret : Caller)
  /-- `sendBatchesWithPipeline` in its loop; `entries` are those not reached yet. -/
  | pipeline (args : AppendArgs)
  /-- `sendAppendEntriesBatch` before it dials. -/
  | sendAppend (args : AppendArgs)
  /-- `sendAppendEntriesBatch` inside `client.AppendEntries`. -/
  | awaitAppend (args : AppendArgs) (call : Nat)
  /-- `sendSnapshotToFollower` before it reads the snapshot. -/
  | sendSnapshot (peer : NodeID)
  /-- `sendSnapshotToFollower` with the snapshot, before it dials and reads `r.term`. -/
  | sendSnapshotLoaded (peer : NodeID) (snap : Snapshot)
  /-- `sendSnapshotToFollower` inside `client.InstallSnapshot`. -/
  | awaitSnapshot (peer : NodeID) (snap : Snapshot) (call : Nat)
  /-- `AddNodeInternal` / `RemoveNodeInternal` before `AppliedWait`. -/
  | awaitConfig (index : Int)
  /-- The goroutine of `TransferLeadershipInternal` before it dials and reads the term. -/
  | timeoutNow (target : NodeID)
  /-- The same goroutine inside `client.TimeoutNow`. -/
  | awaitTimeoutNow (target : NodeID) (call : Nat)
  /-- A client call before its `IsLeader` check. -/
  | serve (req : ClientRequest)
  /-- `Server.Put` / `Server.Delete` before `Propose`. -/
  | propose (cmd : Command)
  /-- `Server.Put` / `Server.Delete` before `AppliedWait`. -/
  | proposed (index : Int) (cmd : Command)
  /-- `Server.Put` / `Server.Delete` blocked on the channel `ch`. -/
  | waiting (index : Int) (cmd : Command) (ch : Nat)
  /-- `Server.Get` with `AllowStale` on a follower, before its `HasReadLease` check. -/
  | leaseCheck (key : Bytes)
  /-- `Server.Get` before it reads the store. -/
  | reading (key : Bytes)
  deriving DecidableEq

end Mimori
