/-
What a step changes, part by part: which function ran on the one node it touches, which goroutines
are new, which request was sent, which answer was given. An invariant about one part needs only the
cases of that part.
-/
import Mimori.Cluster.Cases
import Mimori.Election.Roles

namespace Mimori

open Raft

namespace Cluster

variable {s s' : Cluster} {a : Action} {n : NodeID} {r : Raft} {io : Io} {t : Task} {call i : Nat}

/-! ## The node -/

/-- The index whose waiter a goroutine is about to ask for. -/
def waitsFor : Task → Option Int
  | .awaitConfig index => some index
  | .proposed index _ => some index
  | _ => none

/-- What action `a` makes of the state of the node it runs on, if anything. -/
inductive NodeStep (s : Cluster) : Action → NodeID → Raft → Prop
  | electionTick (n : NodeID) (timeout : Int) (io : Io) :
      NodeStep s (.electionTimeout n timeout io) n ((s.raft n).electionTick timeout (s.envOf n io)).1
  | requestVote (call : Nat) (io : Io) (src n : NodeID) (req : RequestVoteRequest)
      (hp : s.requests[call]? = some ⟨src, n, .requestVote req⟩) :
      NodeStep s (.deliver call io) n ((s.raft n).requestVote req (s.envOf n io)).1
  | appendEntries (call : Nat) (io : Io) (src n : NodeID) (req : AppendEntriesRequest)
      (hp : s.requests[call]? = some ⟨src, n, .appendEntries req⟩) :
      NodeStep s (.deliver call io) n ((s.raft n).appendEntries req (s.envOf n io)).1
  | installSnapshot (call : Nat) (io : Io) (src n : NodeID) (req : InstallSnapshotRequest)
      (hp : s.requests[call]? = some ⟨src, n, .installSnapshot req⟩) :
      NodeStep s (.deliver call io) n ((s.raft n).installSnapshot req (s.envOf n io)).1
  | timeoutNow (call : Nat) (io : Io) (src n : NodeID) (req : TimeoutNowRequest)
      (hp : s.requests[call]? = some ⟨src, n, .timeoutNow req⟩) :
      NodeStep s (.deliver call io) n ((s.raft n).timeoutNow req (s.envOf n io)).1
  | voteAnswer (i j : Nat) (io : Io) (n p : NodeID) (T : Int) (call : Nat) (resp : RequestVoteResponse)
      (hx : s.tasks[i]? = some (n, .awaitVote T p call)) (hr : s.replyTo call j = some (.requestVote resp)) :
      NodeStep s (.run i (.reply j) io) n ((s.raft n).handleVoteResponse resp).1
  | appendAnswer (i j : Nat) (io : Io) (n : NodeID) (args : AppendArgs) (call : Nat) (resp : AppendEntriesResponse)
      (hx : s.tasks[i]? = some (n, .awaitAppend args call)) (hr : s.replyTo call j = some (.appendEntries resp)) :
      NodeStep s (.run i (.reply j) io) n ((s.raft n).handleAppendResponse args resp (s.envOf n io)).1
  | transferAnswer (i j : Nat) (io : Io) (n target : NodeID) (call : Nat) (resp : TimeoutNowResponse)
      (hx : s.tasks[i]? = some (n, .awaitTimeoutNow target call)) (hr : s.replyTo call j = some (.timeoutNow resp)) :
      NodeStep s (.run i (.reply j) io) n ((s.raft n).handleTimeoutNowResponse target resp (s.envOf n io))
  | snapshotAnswer (i : Nat) (c : Choice) (io : Io) (n peer : NodeID) (snap : Snapshot) (call : Nat)
      (hx : s.tasks[i]? = some (n, .awaitSnapshot peer snap call)) :
      NodeStep s (.run i c io) n ((s.raft n).snapshotSent peer snap)
  | alone (i : Nat) (io : Io) (n : NodeID) (ret : Caller) (hx : s.tasks[i]? = some (n, .heartbeatAlone ret)) :
      NodeStep s (.run i .go io) n (s.raft n).updateCommitIndexLocked
  | wait (i : Nat) (io : Io) (n : NodeID) (t : Task) (index : Int) (hx : s.tasks[i]? = some (n, t))
      (ht : waitsFor t = some index) : NodeStep s (.run i .go io) n ((s.raft n).appliedWait index).1
  | propose (n : NodeID) (cmd : Command) (io : Io) :
      NodeStep s (.propose n cmd io) n ((s.raft n).propose cmd (s.envOf n io)).1
  | proposeTask (i : Nat) (io : Io) (n : NodeID) (cmd : Command) (hx : s.tasks[i]? = some (n, .propose cmd)) :
      NodeStep s (.run i .go io) n ((s.raft n).propose cmd (s.envOf n io)).1
  | configChange (n : NodeID) (type : ConfigChangeType) (nodeID : NodeID) (io : Io) :
      NodeStep s (.configChange n type nodeID io) n ((s.raft n).proposeConfigChange type nodeID (s.envOf n io)).1
  | forceSnapshot (n : NodeID) (io : Io) :
      NodeStep s (.forceSnapshot n io) n ((s.raft n).createSnapshotLocked (s.envOf n io))
  | applierTake (n : NodeID) (io : Io) : NodeStep s (.applierTake n io) n ((s.raft n).takeNext (s.envOf n io)).1
  | applierDone (n : NodeID) (io : Io) :
      NodeStep s (.applierDone n io) n (((s.raft n).afterApply (s.envOf n io)).takeNext (s.envOf n io)).1

/-- Nothing happens to any node, or one running node makes its step. -/
def Touches (s : Cluster) (a : Action) (s' : Cluster) : Prop :=
  s'.raft = s.raft ∨
    ∃ n ∈ s.procs, NodeStep s a n (s'.raft n) ∧ ∀ m, m ≠ n → s'.raft m = s.raft m

theorem Touches.of_setRaft (hn : n ∈ s.procs) (hs : s'.raft = (s.setRaft n r).raft) (h : NodeStep s a n r) :
    Touches s a s' := by
  refine .inr ⟨n, hn, ?_, fun m hm => ?_⟩
  · rw [hs, setRaft_raft_self]; exact h
  · rw [hs, setRaft_raft_ne _ _ _ _ hm]

theorem step_node (h : s.step a = some s') : Touches s a s' := by
  cases step_cases h with
  | electionTimeout n timeout io hn => exact .of_setRaft hn rfl (.electionTick ..)
  | deliver call io p hp hn =>
    obtain ⟨src, n, req⟩ := p
    cases req with
    | requestVote req => exact .of_setRaft hn rfl (.requestVote _ _ _ _ _ hp)
    | appendEntries req => exact .of_setRaft hn rfl (.appendEntries _ _ _ _ _ hp)
    | installSnapshot req => exact .of_setRaft hn rfl (.installSnapshot _ _ _ _ _ hp)
    | timeoutNow req => exact .of_setRaft hn rfl (.timeoutNow _ _ _ _ _ hp)
  | run i c io n t _ hx hn ht =>
    cases ht with
    | voteAnswer T p call j resp hr => exact .of_setRaft hn rfl (.voteAnswer _ _ _ _ _ _ _ _ hx hr)
    | appendAnswer args call j resp hr => exact .of_setRaft hn rfl (.appendAnswer _ _ _ _ _ _ _ hx hr)
    | transferAnswer target call j resp hr => exact .of_setRaft hn rfl (.transferAnswer _ _ _ _ _ _ _ hx hr)
    | snapshotAnswer => exact .of_setRaft hn rfl (.snapshotAnswer _ _ _ _ _ _ _ hx)
    | alone => exact .of_setRaft hn rfl (.alone _ _ _ _ hx)
    | configWait index => exact .of_setRaft hn rfl (.wait _ _ _ _ _ hx rfl)
    | wait index cmd => exact .of_setRaft hn rfl (.wait _ _ _ _ _ hx rfl)
    | propose cmd => exact .of_setRaft hn rfl (.proposeTask _ _ _ _ hx)
    | proposeRefused =>
      refine .inl ?_
      rw [setRaft_self]; rfl
    | _ => exact .inl rfl
  | propose n cmd io hn => exact .of_setRaft hn rfl (.propose ..)
  | configChange n type nodeID io r index hn he =>
    have hstep : NodeStep s _ n _ := .configChange n type nodeID io
    rw [he] at hstep
    exact .of_setRaft hn rfl hstep
  | configRefused n type nodeID io r e hn he =>
    have hstep : NodeStep s _ n _ := .configChange n type nodeID io
    rw [he] at hstep
    exact .of_setRaft hn rfl hstep
  | forceSnapshot n io hn => exact .of_setRaft hn rfl (.forceSnapshot ..)
  | applierTake n io hn => exact .of_setRaft hn rfl (.applierTake ..)
  | applierDone n io hn => exact .of_setRaft hn rfl (.applierDone ..)
  | _ => exact .inl rfl

/-- A node after a step: as it was, or after a step of its own. -/
theorem step_at (h : s.step a = some s') (n : NodeID) :
    s'.raft n = s.raft n ∨ (n ∈ s.procs ∧ NodeStep s a n (s'.raft n)) := by
  rcases step_node h with heq | ⟨m, hm, hstep, hother⟩
  · exact .inl (by rw [heq])
  · by_cases hn : n = m
    · subst hn; exact .inr ⟨hm, hstep⟩
    · exact .inl (hother n hn)

/-! ## Goroutines -/

/-- Running goroutine `t` of node `n` with outcome `c` leaves a goroutine `u`. -/
inductive Spawned (s : Cluster) (n : NodeID) (io : Io) : Task → Choice → Task → Prop
  | ask (T : Int) (p : NodeID) (h : Task.requestVote T p ∈ (s.raft n).broadcastRequestVote T) :
      Spawned s n io (.broadcastRequestVote T) .go (.requestVote T p)
  | awaitVote (T : Int) (p : NodeID) :
      Spawned s n io (.requestVote T p) .go (.awaitVote T p s.requests.length)
  | elected (T : Int) (p : NodeID) (call j : Nat) (resp : RequestVoteResponse)
      (hr : s.replyTo call j = some (.requestVote resp))
      (h : Task.heartbeatLoop ∈ ((s.raft n).handleVoteResponse resp).2) :
      Spawned s n io (.awaitVote T p call) (.reply j) .heartbeatLoop
  | beat (h : (s.raft n).state = .leader) : Spawned s n io .heartbeatLoop .go (.sendHeartbeats .heartbeatLoop)
  | roundAlone (ret : Caller) (h : (s.raft n).peers = []) :
      Spawned s n io (.sendHeartbeats ret) .go (.heartbeatAlone ret)
  | roundPeers (ret : Caller) :
      Spawned s n io (.sendHeartbeats ret) .go
        (.heartbeatPeers ret (s.raft n).term (s.raft n).id (s.raft n).peers)
  | nextPeer (ret : Caller) (T : Int) (leaderID p : NodeID) (rest : List NodeID) :
      Spawned s n io (.heartbeatPeers ret T leaderID (p :: rest)) .go (.heartbeatPeers ret T leaderID rest)
  | roundEnd (t : Task) : Spawned s n io t .go .heartbeatLoop
  | changeSent (t : Task) (index : Int) : Spawned s n io t .go (.awaitConfig index)
  | peerSnapshot (ret : Caller) (T : Int) (leaderID p : NodeID) (rest : List NodeID)
      (h : (s.raft n).heartbeatTo T leaderID p = .snapshot) :
      Spawned s n io (.heartbeatPeers ret T leaderID (p :: rest)) .go (.sendSnapshot p)
  | peerHeartbeat (ret : Caller) (T : Int) (leaderID p : NodeID) (rest : List NodeID) (args : AppendArgs)
      (h : (s.raft n).heartbeatTo T leaderID p = .batches args) (he : args.entries = []) :
      Spawned s n io (.heartbeatPeers ret T leaderID (p :: rest)) .go (.sendAppend args)
  | peerBatches (ret : Caller) (T : Int) (leaderID p : NodeID) (rest : List NodeID) (args : AppendArgs)
      (h : (s.raft n).heartbeatTo T leaderID p = .batches args) (he : args.entries ≠ []) :
      Spawned s n io (.heartbeatPeers ret T leaderID (p :: rest)) .go (.pipeline args)
  | batch (args : AppendArgs) (h : args.entries ≠ []) :
      Spawned s n io (.pipeline args) .go (.sendAppend (currentBatch args))
  | batchSent (args : AppendArgs) (h : args.entries ≠ []) :
      Spawned s n io (.pipeline args) .go (.pipeline (afterSent args))
  | batchRefused (args : AppendArgs) (h : args.entries ≠ []) :
      Spawned s n io (.pipeline args) .fail (.pipeline (afterRefused args))
  | awaitAppend (args : AppendArgs) : Spawned s n io (.sendAppend args) .go (.awaitAppend args s.requests.length)
  | refused (args : AppendArgs) (call j : Nat) (resp : AppendEntriesResponse)
      (hr : s.replyTo call j = some (.appendEntries resp))
      (h : Task.sendSnapshot args.peer ∈ ((s.raft n).handleAppendResponse args resp (s.envOf n io)).2) :
      Spawned s n io (.awaitAppend args call) (.reply j) (.sendSnapshot args.peer)
  | loaded (peer : NodeID) (snap : Snapshot) (h : (s.raft n).snapshotToSend = some snap) :
      Spawned s n io (.sendSnapshot peer) .go (.sendSnapshotLoaded peer snap)
  | awaitSnapshot (peer : NodeID) (snap : Snapshot) :
      Spawned s n io (.sendSnapshotLoaded peer snap) .go (.awaitSnapshot peer snap s.requests.length)
  | awaitTimeoutNow (target : NodeID) :
      Spawned s n io (.timeoutNow target) .go (.awaitTimeoutNow target s.requests.length)
  | accepted (req : ClientRequest) (cmd : Command) (hc : IsClientCommand cmd) (h : (s.raft n).isLeader = true) :
      Spawned s n io (.serve req) .go (.propose cmd)
  | reading (t : Task) (key : Bytes) : Spawned s n io t .go (.reading key)
  | lease (req : ClientRequest) (key : Bytes) : Spawned s n io (.serve req) .go (.leaseCheck key)
  | proposed (cmd : Command) (h : (s.raft n).state = .leader) :
      Spawned s n io (.propose cmd) .go (.proposed ((s.raft n).lastLogIndex + 1) cmd)
  | waiting (index : Int) (cmd : Command) :
      Spawned s n io (.proposed index cmd) .go (.waiting index cmd ((s.raft n).appliedWait index).2)

/-- Action `a` starts goroutine `t` on node `n`. -/
inductive NewTask (s : Cluster) : Action → NodeID → Task → Prop
  | lead (n : NodeID) (timeout : Int) (io : Io)
      (h : Task.heartbeatLoop ∈ ((s.raft n).electionTick timeout (s.envOf n io)).2) :
      NewTask s (.electionTimeout n timeout io) n .heartbeatLoop
  | stand (n : NodeID) (timeout : Int) (io : Io) (T : Int)
      (h : Task.broadcastRequestVote T ∈ ((s.raft n).electionTick timeout (s.envOf n io)).2) :
      NewTask s (.electionTimeout n timeout io) n (.broadcastRequestVote T)
  | leadNow (call : Nat) (io : Io) (src n : NodeID) (req : TimeoutNowRequest)
      (hp : s.requests[call]? = some ⟨src, n, .timeoutNow req⟩)
      (h : Task.heartbeatLoop ∈ ((s.raft n).timeoutNow req (s.envOf n io)).2.1) :
      NewTask s (.deliver call io) n .heartbeatLoop
  | standNow (call : Nat) (io : Io) (src n : NodeID) (req : TimeoutNowRequest) (T : Int)
      (hp : s.requests[call]? = some ⟨src, n, .timeoutNow req⟩)
      (h : Task.broadcastRequestVote T ∈ ((s.raft n).timeoutNow req (s.envOf n io)).2.1) :
      NewTask s (.deliver call io) n (.broadcastRequestVote T)
  | next (i : Nat) (c : Choice) (io : Io) (n : NodeID) (t u : Task) (hx : s.tasks[i]? = some (n, t))
      (h : Spawned s n io t c u) : NewTask s (.run i c io) n u
  | configChange (n : NodeID) (type : ConfigChangeType) (nodeID : NodeID) (io : Io) (index : Int)
      (h : ((s.raft n).proposeConfigChange type nodeID (s.envOf n io)).2 = .ok index) :
      NewTask s (.configChange n type nodeID io) n (.sendHeartbeats (.configChange index))
  | transfer (n target : NodeID) : NewTask s (.transferLeadership n target) n (.timeoutNow target)
  | client (n : NodeID) (req : ClientRequest) : NewTask s (.client n req) n (.serve req)

theorem electionTick_tasks {timeout : Int} (h : t ∈ (r.electionTick timeout io).2) :
    t = .heartbeatLoop ∨ t = .broadcastRequestVote (r.term + 1) := by
  rcases electionTick_cases r timeout io with he | he <;> rw [he] at h
  · cases h
  · exact startElectionLocked_tasks h

theorem timeoutNow_tasks {req : TimeoutNowRequest} (h : t ∈ (r.timeoutNow req io).2.1) :
    t = .heartbeatLoop ∨ ∃ T, t = .broadcastRequestVote T := by
  rcases timeoutNow_cases r req io with ⟨_, h2⟩ | ⟨r₁, _, _, h2⟩ <;> rw [h2] at h
  · cases h
  · rcases startElectionLocked_tasks h with h | h
    · exact .inl h
    · exact .inr ⟨_, h⟩

/-- A round of `sendHeartbeats` ends in the goroutine that asked for it. -/
theorem Spawned.resume (t : Task) (ret : Caller) : Spawned s n io t .go (resume ret) := by
  cases ret with
  | heartbeatLoop => exact .roundEnd t
  | configChange index => exact .changeSent t index

/-- The goroutines after running one of them: those it leaves come last, unless the node panics. -/
inductive TaskStep.TasksLeft (s : Cluster) (n : NodeID) (io : Io) (t : Task) (c : Choice) (s' : Cluster) : Prop
  | spawn (new : List Task) (ht : s'.tasks = s.tasks ++ new.map (Prod.mk n)) (hp : s'.procs = s.procs)
      (hnew : ∀ u ∈ new, Spawned s n io t c u)
  | panic (h : s' = s.crash n)

theorem TaskStep.tasksLeft {c : Choice} (h : TaskStep s n io t c s') : TaskStep.TasksLeft s n io t c s' := by
  have hsp : ∀ ts : List Task, (∀ v ∈ ts, Spawned s n io t c v) → s'.tasks = s.tasks ++ ts.map (Prod.mk n) →
      s'.procs = s.procs → TaskStep.TasksLeft s n io t c s' :=
    fun ts hts htasks hprocs => .spawn ts htasks hprocs hts
  have hnil : ∀ v ∈ ([] : List Task), Spawned s n io t c v := by
    intro v hv
    cases hv
  have hend := (List.append_nil s.tasks).symm
  cases h with
  | quit => exact hsp [] hnil hend rfl
  | broadcast T =>
    refine hsp _ (fun v hv => ?_) rfl rfl
    obtain ⟨p, _, rfl⟩ := List.mem_map.1 hv
    exact .ask _ _ hv
  | ask T p => exact hsp [_] (by simpa using .awaitVote ..) rfl rfl
  | voteAnswer T p call j resp hr =>
    refine hsp _ (fun v hv => ?_) rfl rfl
    obtain rfl := handleVoteResponse_tasks hv
    exact .elected _ _ _ _ _ hr hv
  | beat h => exact hsp [_] (by simpa using .beat h) rfl rfl
  | roundAlone ret h => exact hsp [_] (by simpa using .roundAlone _ h) rfl rfl
  | roundPeers ret h => exact hsp [_] (by simpa using .roundPeers _) rfl rfl
  | roundEnd ret => exact hsp [_] (by simpa using .resume _ _) rfl rfl
  | peerSkip => exact hsp [_] (by simpa using .nextPeer ..) rfl rfl
  | peerPanic => exact .panic rfl
  | peerSnapshot ret T leaderID p rest h =>
    exact hsp [_, _] (by simpa using ⟨.nextPeer .., .peerSnapshot _ _ _ _ _ h⟩) rfl rfl
  | peerHeartbeat ret T leaderID p rest args h he =>
    exact hsp [_, _] (by simpa using ⟨.nextPeer .., .peerHeartbeat _ _ _ _ _ _ h he⟩) rfl rfl
  | peerBatches ret T leaderID p rest args h he =>
    exact hsp [_, _] (by simpa using ⟨.nextPeer .., .peerBatches _ _ _ _ _ _ h he⟩) rfl rfl
  | alone ret => exact hsp [_] (by simpa using .resume _ _) rfl rfl
  | batchSent args h => exact hsp [_, _] (by simpa using ⟨.batch _ h, .batchSent _ h⟩) rfl rfl
  | batchRefused args h => exact hsp [_] (by simpa using .batchRefused _ h) rfl rfl
  | append args => exact hsp [_] (by simpa using .awaitAppend _) rfl rfl
  | appendAnswer args call j resp hr =>
    refine hsp _ (fun v hv => ?_) rfl rfl
    have hv' := handleAppendResponse_tasks hv
    subst hv'
    exact .refused _ _ _ _ hr hv
  | loadSnapshot peer snap h => exact hsp [_] (by simpa using .loaded _ _ h) rfl rfl
  | sendSnapshot => exact hsp [_] (by simpa using .awaitSnapshot ..) rfl rfl
  | snapshotAnswer => exact hsp [] hnil hend rfl
  | configWait => exact hsp [] hnil hend rfl
  | transfer => exact hsp [_] (by simpa using .awaitTimeoutNow ..) rfl rfl
  | transferAnswer => exact hsp [] hnil hend rfl
  | accept req cmd hc h => exact hsp [_] (by simpa using .accepted _ _ hc h) rfl rfl
  | acceptRead => exact hsp [_] (by simpa using .reading ..) rfl rfl
  | lease => exact hsp [_] (by simpa using .lease ..) rfl rfl
  | propose cmd h => exact hsp [_] (by simpa using .proposed _ h) rfl rfl
  | proposeRefused => exact hsp [] hnil hend rfl
  | wait => exact hsp [_] (by simpa using .waiting ..) rfl rfl
  | answerWrite => exact hsp [] hnil hend rfl
  | answerRead => exact hsp [] hnil hend rfl

/-- Which goroutines a section leaves does not depend on the list of waiting ones. -/
theorem spawned_dropTask {k : Nat} {u : Task} {c : Choice} :
    Spawned (s.dropTask k) n io t c u ↔ Spawned s n io t c u := by
  constructor <;> intro h <;> cases h <;> constructor <;> assumption

/-- The goroutines that wait on while `a` is taken. -/
def bystanders (s : Cluster) : Action → List (NodeID × Task)
  | .run i _ _ => s.tasks.eraseIdx i
  | _ => s.tasks

/-- The goroutines after a step: those that waited on, then the new ones, unless a node panics. -/
inductive TasksLeft (s : Cluster) (a : Action) (s' : Cluster) : Prop
  | spawn (n : NodeID) (new : List Task) (ht : s'.tasks = s.bystanders a ++ new.map (Prod.mk n))
      (hp : s'.procs = s.procs) (hnew : ∀ u ∈ new, n ∈ s.procs ∧ NewTask s a n u)
  | panic (i : Nat) (c : Choice) (io : Io) (n : NodeID) (t : Task) (ha : a = .run i c io)
      (hx : s.tasks[i]? = some (n, t)) (hn : n ∈ s.procs) (h : s' = (s.dropTask i).crash n)

theorem step_tasksLeft (h : s.step a = some s') : TasksLeft s a s' := by
  have hsp : ∀ (n : NodeID) (ts : List Task), n ∈ s.procs → (∀ v ∈ ts, NewTask s a n v) →
      s'.tasks = s.bystanders a ++ ts.map (Prod.mk n) → s'.procs = s.procs → TasksLeft s a s' :=
    fun n ts hn hts htasks hprocs => .spawn n ts htasks hprocs fun u hu => ⟨hn, hts u hu⟩
  have hsame : s'.tasks = s.bystanders a → s'.procs = s.procs → TasksLeft s a s' := by
    intro htasks hprocs
    refine .spawn "" [] (by rw [htasks]; simp) hprocs fun u hu => ?_
    cases hu
  cases step_cases h with
  | electionTimeout n timeout io hn =>
    refine hsp n _ hn (fun v hv => ?_) rfl rfl
    rcases electionTick_tasks hv with rfl | rfl
    · exact .lead _ _ _ hv
    · exact .stand _ _ _ _ hv
  | deliver call io p hp hn =>
    obtain ⟨src, n, req⟩ := p
    cases req with
    | timeoutNow req =>
      refine hsp n _ hn (fun v hv => ?_) rfl rfl
      rcases timeoutNow_tasks hv with rfl | ⟨T, rfl⟩
      · exact .leadNow _ _ _ _ _ hp hv
      · exact .standNow _ _ _ _ _ _ hp hv
    | _ => exact hsame rfl rfl
  | run i c io n t _ hx hn ht =>
    cases ht.tasksLeft with
    | spawn new htasks hprocs hnew =>
      exact hsp n new hn (fun u hu => .next _ _ _ _ _ _ hx (spawned_dropTask.1 (hnew u hu))) htasks hprocs
    | panic h => exact .panic i c io n t rfl hx hn h
  | configChange n type nodeID io r index hn he =>
    exact hsp n [_] hn (by simpa using .configChange _ _ _ _ _ (by rw [he])) rfl rfl
  | transferLeadership n target started hn he =>
    refine hsp n _ hn (fun v hv => ?_) rfl rfl
    rw [transferLeadershipInternal_tasks he hv]
    exact .transfer ..
  | client n req hn => exact hsp n [_] hn (by simpa using .client ..) rfl rfl
  | _ => exact hsame rfl rfl

theorem step_tasks {m : NodeID} {u : Task} (h : s.step a = some s') (hu : (m, u) ∈ s'.tasks) :
    (m, u) ∈ s.tasks ∨ (m ∈ s.procs ∧ NewTask s a m u) := by
  have hby : ∀ x ∈ s.bystanders a, x ∈ s.tasks := by
    intro x hx
    cases a with
    | run i c io => exact List.mem_of_mem_eraseIdx hx
    | _ => exact hx
  cases step_tasksLeft h with
  | spawn n new htasks _ hnew =>
    rw [htasks, List.mem_append, List.mem_map] at hu
    rcases hu with hu | ⟨v, hv, he⟩
    · exact .inl (hby _ hu)
    · cases he; exact .inr (hnew u hv)
  | panic i c io n t ha _ _ hs' =>
    subst ha hs'
    exact .inl (hby _ (List.mem_filter.1 hu).1)

/-! ## Arguments of AppendEntries -/

/-- The arguments a goroutine of `sendBatchesWithPipeline` or `sendAppendEntriesBatch` carries. -/
def argsOf : Task → Option AppendArgs
  | .pipeline args => some args
  | .sendAppend args => some args
  | .awaitAppend args _ => some args
  | _ => none

/-- Where the arguments of a new goroutine of node `n` come from: `sendHeartbeats` read them, or they
are a part of those of an earlier goroutine. -/
inductive ArgsFrom (s : Cluster) (n : NodeID) : Action → AppendArgs → Prop
  | read (i : Nat) (io : Io) (ret : Caller) (T : Int) (leaderID p : NodeID) (rest : List NodeID) (args : AppendArgs)
      (hx : s.tasks[i]? = some (n, .heartbeatPeers ret T leaderID (p :: rest)))
      (h : (s.raft n).heartbeatTo T leaderID p = .batches args) : ArgsFrom s n (.run i .go io) args
  | batch (a : Action) (args : AppendArgs) (hx : (n, .pipeline args) ∈ s.tasks) : ArgsFrom s n a (currentBatch args)
  | sent (a : Action) (args : AppendArgs) (hx : (n, .pipeline args) ∈ s.tasks) (h : args.entries ≠ []) :
      ArgsFrom s n a (afterSent args)
  | refused (i : Nat) (io : Io) (args : AppendArgs) (hx : s.tasks[i]? = some (n, .pipeline args))
      (h : args.entries ≠ []) : ArgsFrom s n (.run i .fail io) (afterRefused args)
  | same (a : Action) (args : AppendArgs) (hx : (n, .sendAppend args) ∈ s.tasks) : ArgsFrom s n a args

theorem NewTask.args {args : AppendArgs} (h : NewTask s a n t) (ha : argsOf t = some args) : ArgsFrom s n a args := by
  cases h with
  | next i c io _ t _ hx h =>
    have hm := List.mem_of_getElem? hx
    cases h with
    | peerHeartbeat ret T leaderID p rest args h he => cases ha; exact .read _ _ _ _ _ _ _ _ hx h
    | peerBatches ret T leaderID p rest args h he => cases ha; exact .read _ _ _ _ _ _ _ _ hx h
    | batch args h => cases ha; exact .batch _ _ hm
    | batchSent args h => cases ha; exact .sent _ _ hm h
    | batchRefused args h => cases ha; exact .refused _ _ _ hx h
    | awaitAppend args => cases ha; exact .same _ _ hm
    | _ => cases ha
  | _ => cases ha

/-! ## The network -/

/-- Action `a` sends packet `p`. -/
inductive NewPacket (s : Cluster) : Action → Packet → Prop
  | requestVote (i : Nat) (io : Io) (n p : NodeID) (T : Int) (hx : s.tasks[i]? = some (n, .requestVote T p)) :
      NewPacket s (.run i .go io) ⟨n, p, .requestVote ((s.raft n).requestVoteRequest T)⟩
  | appendEntries (i : Nat) (io : Io) (n : NodeID) (args : AppendArgs) (hx : s.tasks[i]? = some (n, .sendAppend args)) :
      NewPacket s (.run i .go io) ⟨n, args.peer, .appendEntries (appendEntriesRequest args)⟩
  | installSnapshot (i : Nat) (io : Io) (n peer : NodeID) (snap : Snapshot)
      (hx : s.tasks[i]? = some (n, .sendSnapshotLoaded peer snap)) :
      NewPacket s (.run i .go io) ⟨n, peer, .installSnapshot ((s.raft n).installSnapshotRequest snap)⟩
  | timeoutNow (i : Nat) (io : Io) (n target : NodeID) (hx : s.tasks[i]? = some (n, .timeoutNow target)) :
      NewPacket s (.run i .go io) ⟨n, target, .timeoutNow (s.raft n).timeoutNowRequest⟩

theorem step_requests (h : s.step a = some s') :
    s'.requests = s.requests ∨ ∃ p, s'.requests = s.requests ++ [p] ∧ p.src ∈ s.procs ∧ NewPacket s a p := by
  cases step_cases h with
  | run i c io n t _ hx hn ht =>
    cases ht with
    | ask T p => exact .inr ⟨_, rfl, hn, .requestVote _ _ _ _ _ hx⟩
    | append args => exact .inr ⟨_, rfl, hn, .appendEntries _ _ _ _ hx⟩
    | sendSnapshot peer snap => exact .inr ⟨_, rfl, hn, .installSnapshot _ _ _ _ _ hx⟩
    | transfer target => exact .inr ⟨_, rfl, hn, .timeoutNow _ _ _ _ hx⟩
    | _ => exact .inl rfl
  | deliver call io p =>
    obtain ⟨src, n, req⟩ := p
    cases req <;> exact .inl rfl
  | _ => exact .inl rfl

/-- The packets after a step: those that were there, and the one it sends. -/
theorem step_packets {p : Packet} (h : s.step a = some s') (hp : p ∈ s'.requests) :
    p ∈ s.requests ∨ (p.src ∈ s.procs ∧ NewPacket s a p) := by
  rcases step_requests h with he | ⟨q, he, hsrc, hq⟩
  · rw [he] at hp; exact .inl hp
  · rw [he, List.mem_append, List.mem_singleton] at hp
    rcases hp with hp | rfl
    · exact .inl hp
    · exact .inr ⟨hsrc, hq⟩

/-- Action `a` answers a request: its number and the answer. -/
inductive NewReply (s : Cluster) : Action → Nat → Response → Prop
  | requestVote (call : Nat) (io : Io) (src n : NodeID) (req : RequestVoteRequest)
      (hp : s.requests[call]? = some ⟨src, n, .requestVote req⟩) :
      NewReply s (.deliver call io) call (.requestVote ((s.raft n).requestVote req (s.envOf n io)).2)
  | appendEntries (call : Nat) (io : Io) (src n : NodeID) (req : AppendEntriesRequest)
      (hp : s.requests[call]? = some ⟨src, n, .appendEntries req⟩) :
      NewReply s (.deliver call io) call (.appendEntries ((s.raft n).appendEntries req (s.envOf n io)).2)
  | installSnapshot (call : Nat) (io : Io) (src n : NodeID) (req : InstallSnapshotRequest)
      (hp : s.requests[call]? = some ⟨src, n, .installSnapshot req⟩) :
      NewReply s (.deliver call io) call (.installSnapshot ((s.raft n).installSnapshot req (s.envOf n io)).2.2)
  | timeoutNow (call : Nat) (io : Io) (src n : NodeID) (req : TimeoutNowRequest)
      (hp : s.requests[call]? = some ⟨src, n, .timeoutNow req⟩) :
      NewReply s (.deliver call io) call (.timeoutNow ((s.raft n).timeoutNow req (s.envOf n io)).2.2)

theorem step_replies (h : s.step a = some s') :
    s'.replies = s.replies ∨ ∃ call resp, s'.replies = s.replies ++ [(call, resp)] ∧ NewReply s a call resp := by
  cases step_cases h with
  | run i c io n t _ hx hn ht => cases ht <;> exact .inl rfl
  | deliver call io p hp =>
    obtain ⟨src, n, req⟩ := p
    cases req with
    | requestVote req => exact .inr ⟨_, _, rfl, .requestVote _ _ _ _ _ hp⟩
    | appendEntries req => exact .inr ⟨_, _, rfl, .appendEntries _ _ _ _ _ hp⟩
    | installSnapshot req => exact .inr ⟨_, _, rfl, .installSnapshot _ _ _ _ _ hp⟩
    | timeoutNow req => exact .inr ⟨_, _, rfl, .timeoutNow _ _ _ _ _ hp⟩
  | _ => exact .inl rfl

/-- The answers after a step: those that were there, and the one it gives. -/
theorem step_reply_new (h : s.step a = some s') {resp : Response} (hr : (call, resp) ∈ s'.replies) :
    (call, resp) ∈ s.replies ∨ NewReply s a call resp := by
  rcases step_replies h with he | ⟨call', resp', he, hnew⟩
  · rw [he] at hr; exact .inl hr
  · rw [he, List.mem_append, List.mem_singleton] at hr
    rcases hr with hr | hr
    · exact .inl hr
    · cases hr; exact .inr hnew

theorem step_request_some (hs : s.step a = some s') {p : Packet} (h : s.requests[call]? = some p) :
    s'.requests[call]? = some p := by
  rcases step_requests hs with he | ⟨q, he, _, _⟩ <;> rw [he]
  · exact h
  · rw [List.getElem?_append_left (List.getElem?_eq_some_iff.1 h).1]; exact h

theorem step_request_of_lt (hs : s.step a = some s') (h : call < s.requests.length) :
    s'.requests[call]? = s.requests[call]? := by
  rw [List.getElem?_eq_getElem h]
  exact step_request_some hs (List.getElem?_eq_getElem h)

theorem step_reply_mem (hs : s.step a = some s') {x : Nat × Response} (h : x ∈ s.replies) : x ∈ s'.replies := by
  rcases step_replies hs with he | ⟨call, resp, he, _⟩ <;> rw [he]
  · exact h
  · exact List.mem_append_left _ h

/-- Action `a` answers a client. -/
inductive NewAnswer (s : Cluster) : Action → Answer → Prop
  | written (i : Nat) (io : Io) (n : NodeID) (index : Int) (cmd : Command) (ch : Nat)
      (hx : s.tasks[i]? = some (n, .waiting index cmd ch)) (h : (s.raft n).chans[ch]? = some true) :
      NewAnswer s (.run i .go io) (.written n index cmd)
  | value (i : Nat) (io : Io) (n : NodeID) (key : Bytes) (hx : s.tasks[i]? = some (n, .reading key)) :
      NewAnswer s (.run i .go io) (.value n key ((s.app n).store.get key))

theorem step_answers (h : s.step a = some s') :
    s'.answers = s.answers ∨ ∃ ans, s'.answers = s.answers ++ [ans] ∧ NewAnswer s a ans := by
  cases step_cases h with
  | run i c io n t _ hx hn ht =>
    cases ht with
    | answerWrite index cmd ch hc => exact .inr ⟨_, rfl, .written _ _ _ _ _ _ hx hc⟩
    | answerRead key => exact .inr ⟨_, rfl, .value _ _ _ _ hx⟩
    | _ => exact .inl rfl
  | deliver call io p =>
    obtain ⟨src, n, req⟩ := p
    cases req <;> exact .inl rfl
  | _ => exact .inl rfl

/-! ## Sections of the write path -/

theorem step_propose {cmd : Command} (hs : s.step (.run i .go io) = some s')
    (hx : s.tasks[i]? = some (n, .propose cmd)) : s'.raft n = ((s.raft n).propose cmd (s.envOf n io)).1 := by
  obtain ⟨_, hrun⟩ := step_runTask hs hx
  simp only [runTask] at hrun
  have henv : (s.dropTask i).envOf n io = s.envOf n io := rfl
  rw [henv, dropTask_raft] at hrun
  split at hrun
  all_goals
    rename_i he
    cases hrun
    simp [he]

theorem step_waitsFor {index : Int} (hs : s.step (.run i .go io) = some s') (hx : s.tasks[i]? = some (n, t))
    (ht : waitsFor t = some index) : s'.raft n = ((s.raft n).appliedWait index).1 := by
  obtain ⟨_, hrun⟩ := step_runTask hs hx
  cases t with
  | awaitConfig =>
    cases ht
    cases hrun
    simp
  | proposed =>
    cases ht
    simp only [runTask] at hrun
    cases hrun
    simp
  | _ => cases ht

theorem step_waiting {index : Int} {cmd : Command} {ch : Nat} (hs : s.step (.run i .go io) = some s')
    (hx : s.tasks[i]? = some (n, .waiting index cmd ch)) : (s.raft n).chans[ch]? = some true := by
  obtain ⟨_, hrun⟩ := step_runTask hs hx
  simp only [runTask] at hrun
  split at hrun
  · rename_i hc; exact hc
  · cases hrun

end Cluster

end Mimori
