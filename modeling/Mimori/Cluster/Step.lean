/-
The running cluster: every node's `Raft`, its goroutines between two locked sections, the applier
with its channel and the store behind it (`cmd/mimorid/main.go`), the client calls of
`internal/api/server.go`, and the network. One step is one section of one goroutine or the handling
of one request.

A request stays in the network once it is sent, so it can be handled late, in any order, repeatedly
or never. Its number is its position in `requests`. An answer is consumed by the goroutine that
waits for it, so it is handled at most once.
-/
import Mimori.Base.Utf8
import Mimori.Raft.RpcClient
import Mathlib.Data.List.Sort
import Mathlib.Logic.Function.Basic

namespace Mimori

/-! ## The application -/

/-- Where `runApplier` stands. -/
inductive Applier
  /-- Before it takes the lock. -/
  | loop
  /-- With an entry taken, before the send on `applyCh`. -/
  | deliver (entry : LogEntry)
  /-- After the send, before it takes the lock again. -/
  | delivered
  deriving DecidableEq

/-- The application side of a node: the applier, the entries ever sent on `applyCh`, how many of
them the apply loop received, and the store. -/
structure App where
  applier : Applier := .loop
  sent : List LogEntry := []
  received : Nat := 0
  store : Store := []

/-- The capacity of `applyCh`. -/
def applyChCap : Nat := 128

namespace Store

def get (kv : Store) (key : Bytes) : Option Bytes := (kv.find? fun p => p.1 == key).map Prod.snd

def put (kv : Store) (key value : Bytes) : Store := (key, value) :: kv.filter fun p => p.1 != key

def delete (kv : Store) (key : Bytes) : Store := kv.filter fun p => p.1 != key

/-- The pairs of `l` put one after the other. -/
def puts (kv l : Store) : Store := l.foldl (fun kv p => kv.put p.1 p.2) kv

/-- Pairs in the order of their keys, byte by byte. -/
def sorted (kv : Store) : Store := kv.insertionSort fun p q => p.1 ≤ q.1

/-- What `Restore` reads from the bytes that `Snapshot` makes of the store. The iterator's pairs are collected in a
map and written in the order of their keys; each key is read back coerced to valid UTF-8, so keys that are not are
changed, and of those that become one the greatest stays. -/
def dumped (kv : Store) : Store := puts [] ((sorted (puts [] (sorted kv))).map fun p => (Utf8.coerce p.1, p.2))

/-- Pebble's `DeleteRange(lo, hi)`: the keys from `lo` up to but not including `hi` go. A nil bound is the
empty key. -/
def deleteRange (kv : Store) (lo hi : Bytes) : Store := kv.filter fun p => !(decide (lo ≤ p.1) && decide (p.1 < hi))

/-- `reset`: no key is below the empty one, so nothing goes. -/
def reset (kv : Store) : Store := kv.deleteRange [] []

/-- One turn of the apply loop. -/
def apply (kv : Store) : Command → Store
  | .put key value => kv.put key value
  | .delete key => kv.delete key
  | .configChange _ _ => kv
  | .other _ => kv

end Store

/-- The apply loop receives the next entry of `applyCh`. When the store returns an error, the loop logs it and goes
on with the next entry. -/
def App.receive (a : App) (stored : Bool) : Option App :=
  match a.sent[a.received]? with
  | none => none
  | some e => some { a with
      received := a.received + 1
      store := if stored then a.store.apply e.data else a.store }

/-- The restorer, `Restore`: a payload that decodes to a map is put over what `reset` leaves. -/
def App.restore (a : App) (payload : Option Payload) (ok : Bool) : App :=
  match payload, ok with
  | some (.state kvs), true => { a with store := a.store.reset.puts kvs }
  | _, _ => a

/-! ## The cluster -/

/-- A request on its way, or already there. -/
structure Packet where
  src : NodeID
  dst : NodeID
  req : Request
  deriving DecidableEq

/-- What a client was told. -/
inductive Answer
  /-- `Server.Put` or `Server.Delete` succeeded for the command proposed at `index`. -/
  | written (node : NodeID) (index : Int) (cmd : Command)
  /-- `Server.Get` returned this value. -/
  | value (node : NodeID) (key : Bytes) (val : Option Bytes)
  deriving DecidableEq

structure Cluster where
  procs : List NodeID
  raft : NodeID → Raft
  app : NodeID → App := fun _ => {}
  tasks : List (NodeID × Task) := []
  requests : List Packet := []
  replies : List (Nat × Response) := []
  answers : List Answer := []
  clock : Int := 0

namespace Cluster

/-- A fresh cluster: every process starts on an empty data directory with its own peer list. -/
def start (procs : List NodeID) (peersOf : NodeID → List NodeID) (snapshotter restorer : Bool) : Cluster where
  procs := procs
  raft n := { Raft.new n (peersOf n) {} {} with snapshotter := snapshotter, restorer := restorer }

def setRaft (s : Cluster) (n : NodeID) (r : Raft) : Cluster := { s with raft := Function.update s.raft n r }

def setApp (s : Cluster) (n : NodeID) (a : App) : Cluster := { s with app := Function.update s.app n a }

/-- Goroutines started by node `n`. -/
def spawn (s : Cluster) (n : NodeID) (ts : List Task) : Cluster :=
  { s with tasks := s.tasks ++ ts.map (Prod.mk n) }

/-- Node `n` sends a request and the goroutine waits for the answer to it. -/
def send (s : Cluster) (n dst : NodeID) (req : Request) (wait : Nat → Task) : Cluster :=
  { s with
    requests := s.requests ++ [⟨n, dst, req⟩]
    tasks := s.tasks ++ [(n, wait s.requests.length)] }

def reply (s : Cluster) (call : Nat) (resp : Response) : Cluster :=
  { s with replies := s.replies ++ [(call, resp)] }

def answer (s : Cluster) (a : Answer) : Cluster := { s with answers := s.answers ++ [a] }

/-- The goroutine at position `i` leaves the list of waiting ones. -/
def dropTask (s : Cluster) (i : Nat) : Cluster := { s with tasks := s.tasks.eraseIdx i }

/-- The process of `n` dies with all its goroutines. -/
def crash (s : Cluster) (n : NodeID) : Cluster :=
  { s with procs := s.procs.filter (· ≠ n), tasks := s.tasks.filter fun t => t.1 ≠ n }

/-- The answer at position `j`, if it answers request `call`. -/
def replyTo (s : Cluster) (call j : Nat) : Option Response :=
  match s.replies[j]? with
  | some (c, resp) => if c = call then some resp else none
  | none => none

end Cluster

/-! ## Actions -/

/-- How a goroutine's section comes out where the environment decides: it goes ahead; it fails (the
dial or the call returns an error, the pipeline has no free permit); or its call returns the answer
at a position. -/
inductive Choice
  | go
  | fail
  | reply (j : Nat)
  deriving DecidableEq

inductive Action
  | tick (ms : Nat)
  | electionTimeout (n : NodeID) (timeout : Int) (io : Io)
  | deliver (call : Nat) (io : Io)
  | run (i : Nat) (choice : Choice) (io : Io)
  | propose (n : NodeID) (cmd : Command) (io : Io)
  | configChange (n : NodeID) (type : Raft.ConfigChangeType) (nodeID : NodeID) (io : Io)
  | transferLeadership (n target : NodeID)
  | forceSnapshot (n : NodeID) (io : Io)
  | applierTake (n : NodeID) (io : Io)
  | applierSend (n : NodeID)
  | applierDone (n : NodeID) (io : Io)
  | consume (n : NodeID) (stored : Bool)
  | client (n : NodeID) (req : ClientRequest)
  deriving DecidableEq

namespace Cluster

/-- The environment of a section on node `n`: the cluster's clock, and a snapshotter that returns
the JSON text of the store unless it fails. -/
def envOf (s : Cluster) (n : NodeID) (io : Io) : Io :=
  { io with now := s.clock, snapshot := io.snapshot.map fun _ => .state (s.app n).store.dumped }

/-- What the caller of `sendHeartbeats` does next. -/
def resume : Caller → Task
  | .heartbeatLoop => .heartbeatLoop
  | .configChange index => .awaitConfig index

/-- `sendHeartbeats` for the first of the remaining peers. -/
def heartbeatPeer (s : Cluster) (n : NodeID) (ret : Caller) (term : Int) (leaderID p : NodeID)
    (rest : List NodeID) : Cluster :=
  let next := Task.heartbeatPeers ret term leaderID rest
  if p = "" then s.spawn n [next]
  else
    match (s.raft n).heartbeatTo term leaderID p with
    | .panic => s.crash n
    | .snapshot => s.spawn n [next, .sendSnapshot p]
    | .batches args => s.spawn n [next, if args.entries = [] then .sendAppend args else .pipeline args]

/-- The next section of goroutine `t` of node `n`, which has left `s.tasks`. -/
def runTask (s : Cluster) (n : NodeID) (t : Task) (c : Choice) (io : Io) : Option Cluster :=
  let r := s.raft n
  match t, c with
  | .broadcastRequestVote term, .go => some (s.spawn n (r.broadcastRequestVote term))
  | .requestVote term peer, .go =>
    some (s.send n peer (.requestVote (r.requestVoteRequest term)) (.awaitVote term peer))
  | .requestVote _ _, .fail => some s
  | .awaitVote _ _ call, .reply j =>
    match s.replyTo call j with
    | some (.requestVote resp) =>
      let (r, started) := r.handleVoteResponse resp
      some ((s.setRaft n r).spawn n started)
    | _ => none
  | .awaitVote _ _ _, .fail => some s
  | .heartbeatLoop, .go =>
    if r.state ≠ .leader then some s else some (s.spawn n [.sendHeartbeats .heartbeatLoop])
  | .sendHeartbeats ret, .go =>
    if r.peers = [] then some (s.spawn n [.heartbeatAlone ret])
    else some (s.spawn n [.heartbeatPeers ret r.term r.id r.peers])
  | .heartbeatPeers ret _ _ [], .go => some (s.spawn n [resume ret])
  | .heartbeatPeers ret term leaderID (p :: rest), .go => some (s.heartbeatPeer n ret term leaderID p rest)
  | .heartbeatAlone ret, .go => some ((s.setRaft n r.updateCommitIndexLocked).spawn n [resume ret])
  | .pipeline args, .go =>
    if args.entries = [] then some s
    else some (s.spawn n [.sendAppend (Raft.currentBatch args), .pipeline (Raft.afterSent args)])
  | .pipeline args, .fail =>
    if args.entries = [] then none else some (s.spawn n [.pipeline (Raft.afterRefused args)])
  | .sendAppend args, .go =>
    some (s.send n args.peer (.appendEntries (Raft.appendEntriesRequest args)) (.awaitAppend args))
  | .sendAppend _, .fail => some s
  | .awaitAppend args call, .reply j =>
    match s.replyTo call j with
    | some (.appendEntries resp) =>
      let (r, started) := r.handleAppendResponse args resp (s.envOf n io)
      some ((s.setRaft n r).spawn n started)
    | _ => none
  | .awaitAppend _ _, .fail => some s
  | .sendSnapshot peer, .go =>
    match r.snapshotToSend with
    | none => some s
    | some snap => some (s.spawn n [.sendSnapshotLoaded peer snap])
  | .sendSnapshot _, .fail => if r.snapshot = none then some s else none
  | .sendSnapshotLoaded peer snap, .go =>
    some (s.send n peer (.installSnapshot (r.installSnapshotRequest snap)) (.awaitSnapshot peer snap))
  | .sendSnapshotLoaded _ _, .fail => some s
  | .awaitSnapshot peer snap call, .reply j =>
    match s.replyTo call j with
    | some (.installSnapshot _) => some (s.setRaft n (r.snapshotSent peer snap))
    | _ => none
  | .awaitSnapshot peer snap _, .fail => some (s.setRaft n (r.snapshotSent peer snap))
  | .awaitConfig index, .go => some (s.setRaft n (r.appliedWait index).1)
  | .timeoutNow target, .go =>
    some (s.send n target (.timeoutNow r.timeoutNowRequest) (.awaitTimeoutNow target))
  | .timeoutNow _, .fail => some s
  | .awaitTimeoutNow target call, .reply j =>
    match s.replyTo call j with
    | some (.timeoutNow resp) => some (s.setRaft n (r.handleTimeoutNowResponse target resp (s.envOf n io)))
    | _ => none
  | .awaitTimeoutNow _ _, .fail => some s
  | .serve (.put key value), .go =>
    if r.isLeader then some (s.spawn n [.propose (.put key value)]) else some s
  | .serve (.delete key), .go =>
    if r.isLeader then some (s.spawn n [.propose (.delete key)]) else some s
  | .serve (.get key allowStale), .go =>
    if r.isLeader then some (s.spawn n [.reading key])
    else if allowStale then some (s.spawn n [.leaseCheck key])
    else some s
  | .leaseCheck key, .go => if r.hasReadLease s.clock then some (s.spawn n [.reading key]) else some s
  | .propose cmd, .go =>
    match r.propose cmd (s.envOf n io) with
    | (r, .ok index) => some ((s.setRaft n r).spawn n [.proposed index cmd])
    | (r, .error _) => some (s.setRaft n r)
  | .proposed index cmd, .go =>
    let (r, ch) := r.appliedWait index
    some ((s.setRaft n r).spawn n [.waiting index cmd ch])
  | .waiting index cmd ch, .go =>
    if r.chans[ch]? = some true then some (s.answer (.written n index cmd)) else none
  | .reading key, .go => some (s.answer (.value n key ((s.app n).store.get key)))
  | _, _ => none

/-- Node `p.dst` handles the request of packet `p`, the one with number `call`. -/
def handle (s : Cluster) (call : Nat) (p : Packet) (io : Io) : Cluster :=
  let n := p.dst
  let r := s.raft n
  match p.req with
  | .requestVote req =>
    let (r, resp) := r.requestVote req (s.envOf n io)
    (s.setRaft n r).reply call (.requestVote resp)
  | .appendEntries req =>
    let (r, resp) := r.appendEntries req (s.envOf n io)
    (s.setRaft n r).reply call (.appendEntries resp)
  | .installSnapshot req =>
    let (r, payload, resp) := r.installSnapshot req (s.envOf n io)
    ((s.setRaft n r).setApp n ((s.app n).restore payload io.restore)).reply call (.installSnapshot resp)
  | .timeoutNow req =>
    let (r, started, resp) := r.timeoutNow req (s.envOf n io)
    ((s.setRaft n r).spawn n started).reply call (.timeoutNow resp)

/-- The applier of node `n` looks for the next entry, holding the lock. -/
def applierNext (s : Cluster) (n : NodeID) (r : Raft) (io : Io) : Cluster :=
  let (r, entry) := r.takeNext (s.envOf n io)
  (s.setRaft n r).setApp n { s.app n with applier := (entry.map Applier.deliver).getD .loop }

/-- One step of the cluster; `none` when the action is not possible in this state. -/
def step (s : Cluster) : Action → Option Cluster
  | .tick ms => some { s with clock := s.clock + ms }
  | .electionTimeout n timeout io =>
    if n ∈ s.procs ∧ Raft.minElectionTimeout ≤ timeout then
      let (r, started) := (s.raft n).electionTick timeout (s.envOf n io)
      some ((s.setRaft n r).spawn n started)
    else none
  | .deliver call io =>
    match s.requests[call]? with
    | some p => if p.dst ∈ s.procs then some (s.handle call p io) else none
    | none => none
  | .run i choice io =>
    match s.tasks[i]? with
    | some (n, t) => if n ∈ s.procs then (s.dropTask i).runTask n t choice io else none
    | none => none
  | .propose n cmd io =>
    if n ∈ s.procs then some (s.setRaft n ((s.raft n).propose cmd (s.envOf n io)).1) else none
  | .configChange n type nodeID io =>
    if n ∈ s.procs then
      match (s.raft n).proposeConfigChange type nodeID (s.envOf n io) with
      | (r, .ok index) => some ((s.setRaft n r).spawn n [.sendHeartbeats (.configChange index)])
      | (r, .error _) => some (s.setRaft n r)
    else none
  | .transferLeadership n target =>
    if n ∈ s.procs then
      match (s.raft n).transferLeadershipInternal target with
      | .ok started => some (s.spawn n started)
      | .error _ => some s
    else none
  | .forceSnapshot n io =>
    if n ∈ s.procs then some (s.setRaft n ((s.raft n).createSnapshotLocked (s.envOf n io))) else none
  | .applierTake n io =>
    if n ∈ s.procs ∧ (s.app n).applier = .loop then some (s.applierNext n (s.raft n) io) else none
  | .applierSend n =>
    match (s.app n).applier with
    | .deliver e =>
      let a := s.app n
      if n ∈ s.procs ∧ a.sent.length - a.received < applyChCap then
        some (s.setApp n { a with sent := a.sent ++ [e], applier := .delivered })
      else none
    | _ => none
  | .applierDone n io =>
    if n ∈ s.procs ∧ (s.app n).applier = .delivered then
      some (s.applierNext n ((s.raft n).afterApply (s.envOf n io)) io)
    else none
  | .consume n stored =>
    match (s.app n).receive stored with
    | some a => if n ∈ s.procs then some (s.setApp n a) else none
    | none => none
  | .client n req => if n ∈ s.procs then some (s.spawn n [.serve req]) else none

/-! ## Fields after an update -/

section Fields

variable (s : Cluster) (n m : NodeID) (r : Raft) (a : App) (ts : List Task) (dst : NodeID) (req : Request)
  (wait : Nat → Task) (call i : Nat) (resp : Response)

theorem setRaft_raft : (s.setRaft n r).raft m = if m = n then r else s.raft m := Function.update_apply ..
@[simp] theorem setRaft_raft_self : (s.setRaft n r).raft n = r := Function.update_self ..
theorem setRaft_raft_ne (h : m ≠ n) : (s.setRaft n r).raft m = s.raft m := Function.update_of_ne h ..
/-- What holds of every node and of the new state of one holds of every node afterwards. -/
theorem setRaft_forall {P : NodeID → Raft → Prop} (hn : P n r) (h : ∀ m, P m (s.raft m)) (m : NodeID) :
    P m ((s.setRaft n r).raft m) := by
  rw [setRaft_raft]
  split
  · rename_i hm; subst hm; exact hn
  · exact h m
theorem setRaft_setRaft (r' : Raft) : (s.setRaft n r).setRaft n r' = s.setRaft n r' := by
  unfold setRaft; simp only [Function.update_idem]
theorem setRaft_self : s.setRaft n (s.raft n) = s := by unfold setRaft; rw [Function.update_eq_self]
@[simp] theorem setRaft_replies : (s.setRaft n r).replies = s.replies := rfl
@[simp] theorem setRaft_app : (s.setRaft n r).app = s.app := rfl
@[simp] theorem setApp_raft : (s.setApp n a).raft = s.raft := rfl
theorem setApp_app : (s.setApp n a).app m = if m = n then a else s.app m := Function.update_apply ..
@[simp] theorem spawn_raft : (s.spawn n ts).raft = s.raft := rfl
@[simp] theorem spawn_tasks : (s.spawn n ts).tasks = s.tasks ++ ts.map (Prod.mk n) := rfl
@[simp] theorem send_tasks :
    (s.send n dst req wait).tasks = s.tasks ++ [(n, wait s.requests.length)] := rfl
@[simp] theorem send_requests : (s.send n dst req wait).requests = s.requests ++ [⟨n, dst, req⟩] := rfl
@[simp] theorem reply_raft : (s.reply call resp).raft = s.raft := rfl
@[simp] theorem reply_requests : (s.reply call resp).requests = s.requests := rfl
@[simp] theorem reply_replies : (s.reply call resp).replies = s.replies ++ [(call, resp)] := rfl
@[simp] theorem reply_app : (s.reply call resp).app = s.app := rfl
@[simp] theorem dropTask_raft : (s.dropTask i).raft = s.raft := rfl
@[simp] theorem dropTask_procs : (s.dropTask i).procs = s.procs := rfl
@[simp] theorem crash_procs : (s.crash n).procs = s.procs.filter (· ≠ n) := rfl

end Fields

/-! ## The requests sent -/

variable {s : Cluster} {n dst : NodeID} {req : Request} {wait : Nat → Task} {call : Nat} {pk : Packet}

theorem send_request_kept (h : s.requests[call]? = some pk) : (s.send n dst req wait).requests[call]? = some pk := by
  rw [send_requests, List.getElem?_append_left (List.getElem?_eq_some_iff.1 h).1]
  exact h

theorem send_request_cases (h : (s.send n dst req wait).requests[call]? = some pk) :
    s.requests[call]? = some pk ∨ (call = s.requests.length ∧ pk = ⟨n, dst, req⟩) := by
  rw [send_requests, List.getElem?_append] at h
  split at h
  · exact .inl h
  · rename_i hlen
    obtain ⟨h1, h2⟩ := List.getElem?_eq_some_iff.1 h
    simp only [List.length_singleton, List.getElem_singleton] at h1 h2
    exact .inr ⟨by omega, h2.symm⟩

end Cluster

end Mimori
