/-
What one section of a goroutine can do: an inversion of `Cluster.runTask`, one case for each effect,
and of `Cluster.step`. Every invariant of the cluster is proved by these cases.
-/
import Mimori.Raft.Outcomes
import Mimori.Cluster.Step

namespace Mimori

open Raft

namespace Raft

/-! ## Goroutines a function starts -/

/-- The only goroutine an append answer can start is a snapshot transfer. -/
theorem handleAppendResponse_tasks {r : Raft} {a : AppendArgs} {resp : AppendEntriesResponse} {io : Io} {t : Task}
    (h : t ∈ (r.handleAppendResponse a resp io).2) : t = .sendSnapshot a.peer := by
  have ho := handleAppendResponse_outcome r a resp io
  generalize r.handleAppendResponse a resp io = out at h ho
  cases ho with
  | transfer => exact List.mem_singleton.1 h
  | _ => cases h

theorem transferLeadershipInternal_tasks {r : Raft} {target : NodeID} {ts : List Task} {t : Task}
    (h : r.transferLeadershipInternal target = .ok ts) (ht : t ∈ ts) : t = .timeoutNow target := by
  unfold transferLeadershipInternal at h
  split at h
  · cases h
  · split at h
    · cases h
    · split at h
      · cases h
      · split at h
        · cases h
        · split at h
          · cases h
          · cases h; exact List.mem_singleton.1 ht

end Raft

namespace Cluster

variable {s s' : Cluster} {c : Choice} {io : Io}

/-- A command of a client, as opposed to a configuration change. -/
def IsClientCommand : Command → Prop
  | .put _ _ | .delete _ => True
  | _ => False

/-- The effect of running goroutine `t` of node `n` (which has left `s.tasks`) with outcome `c`. -/
inductive TaskStep (s : Cluster) (n : NodeID) (io : Io) : Task → Choice → Cluster → Prop
  /-- The goroutine ends or gives up. -/
  | quit (t : Task) (c : Choice) : TaskStep s n io t c s
  | broadcast (term : Int) :
      TaskStep s n io (.broadcastRequestVote term) .go (s.spawn n ((s.raft n).broadcastRequestVote term))
  | ask (term : Int) (peer : NodeID) :
      TaskStep s n io (.requestVote term peer) .go
        (s.send n peer (.requestVote ((s.raft n).requestVoteRequest term)) (.awaitVote term peer))
  | voteAnswer (term : Int) (peer : NodeID) (call j : Nat) (resp : RequestVoteResponse)
      (h : s.replyTo call j = some (.requestVote resp)) :
      TaskStep s n io (.awaitVote term peer call) (.reply j)
        ((s.setRaft n ((s.raft n).handleVoteResponse resp).1).spawn n ((s.raft n).handleVoteResponse resp).2)
  | beat (h : (s.raft n).state = .leader) :
      TaskStep s n io .heartbeatLoop .go (s.spawn n [.sendHeartbeats .heartbeatLoop])
  | roundAlone (ret : Caller) (h : (s.raft n).peers = []) :
      TaskStep s n io (.sendHeartbeats ret) .go (s.spawn n [.heartbeatAlone ret])
  | roundPeers (ret : Caller) (h : (s.raft n).peers ≠ []) :
      TaskStep s n io (.sendHeartbeats ret) .go
        (s.spawn n [.heartbeatPeers ret (s.raft n).term (s.raft n).id (s.raft n).peers])
  | roundEnd (ret : Caller) (term : Int) (leaderID : NodeID) :
      TaskStep s n io (.heartbeatPeers ret term leaderID []) .go (s.spawn n [resume ret])
  | peerSkip (ret : Caller) (term : Int) (leaderID : NodeID) (rest : List NodeID) :
      TaskStep s n io (.heartbeatPeers ret term leaderID ("" :: rest)) .go
        (s.spawn n [.heartbeatPeers ret term leaderID rest])
  | peerPanic (ret : Caller) (term : Int) (leaderID p : NodeID) (rest : List NodeID)
      (h : (s.raft n).heartbeatTo term leaderID p = .panic) :
      TaskStep s n io (.heartbeatPeers ret term leaderID (p :: rest)) .go (s.crash n)
  | peerSnapshot (ret : Caller) (term : Int) (leaderID p : NodeID) (rest : List NodeID)
      (h : (s.raft n).heartbeatTo term leaderID p = .snapshot) :
      TaskStep s n io (.heartbeatPeers ret term leaderID (p :: rest)) .go
        (s.spawn n [.heartbeatPeers ret term leaderID rest, .sendSnapshot p])
  | peerHeartbeat (ret : Caller) (term : Int) (leaderID p : NodeID) (rest : List NodeID) (args : AppendArgs)
      (h : (s.raft n).heartbeatTo term leaderID p = .batches args) (he : args.entries = []) :
      TaskStep s n io (.heartbeatPeers ret term leaderID (p :: rest)) .go
        (s.spawn n [.heartbeatPeers ret term leaderID rest, .sendAppend args])
  | peerBatches (ret : Caller) (term : Int) (leaderID p : NodeID) (rest : List NodeID) (args : AppendArgs)
      (h : (s.raft n).heartbeatTo term leaderID p = .batches args) (he : args.entries ≠ []) :
      TaskStep s n io (.heartbeatPeers ret term leaderID (p :: rest)) .go
        (s.spawn n [.heartbeatPeers ret term leaderID rest, .pipeline args])
  | alone (ret : Caller) :
      TaskStep s n io (.heartbeatAlone ret) .go
        ((s.setRaft n (s.raft n).updateCommitIndexLocked).spawn n [resume ret])
  | batchSent (args : AppendArgs) (h : args.entries ≠ []) :
      TaskStep s n io (.pipeline args) .go
        (s.spawn n [.sendAppend (currentBatch args), .pipeline (afterSent args)])
  | batchRefused (args : AppendArgs) (h : args.entries ≠ []) :
      TaskStep s n io (.pipeline args) .fail (s.spawn n [.pipeline (afterRefused args)])
  | append (args : AppendArgs) :
      TaskStep s n io (.sendAppend args) .go
        (s.send n args.peer (.appendEntries (appendEntriesRequest args)) (.awaitAppend args))
  | appendAnswer (args : AppendArgs) (call j : Nat) (resp : AppendEntriesResponse)
      (h : s.replyTo call j = some (.appendEntries resp)) :
      TaskStep s n io (.awaitAppend args call) (.reply j)
        ((s.setRaft n ((s.raft n).handleAppendResponse args resp (s.envOf n io)).1).spawn n
          ((s.raft n).handleAppendResponse args resp (s.envOf n io)).2)
  | loadSnapshot (peer : NodeID) (snap : Snapshot) (h : (s.raft n).snapshotToSend = some snap) :
      TaskStep s n io (.sendSnapshot peer) .go (s.spawn n [.sendSnapshotLoaded peer snap])
  | sendSnapshot (peer : NodeID) (snap : Snapshot) :
      TaskStep s n io (.sendSnapshotLoaded peer snap) .go
        (s.send n peer (.installSnapshot ((s.raft n).installSnapshotRequest snap)) (.awaitSnapshot peer snap))
  | snapshotAnswer (peer : NodeID) (snap : Snapshot) (call : Nat) (c : Choice) :
      TaskStep s n io (.awaitSnapshot peer snap call) c (s.setRaft n ((s.raft n).snapshotSent peer snap))
  | configWait (index : Int) :
      TaskStep s n io (.awaitConfig index) .go (s.setRaft n ((s.raft n).appliedWait index).1)
  | transfer (target : NodeID) :
      TaskStep s n io (.timeoutNow target) .go
        (s.send n target (.timeoutNow (s.raft n).timeoutNowRequest) (.awaitTimeoutNow target))
  | transferAnswer (target : NodeID) (call j : Nat) (resp : TimeoutNowResponse)
      (h : s.replyTo call j = some (.timeoutNow resp)) :
      TaskStep s n io (.awaitTimeoutNow target call) (.reply j)
        (s.setRaft n ((s.raft n).handleTimeoutNowResponse target resp (s.envOf n io)))
  | accept (req : ClientRequest) (cmd : Command) (hc : IsClientCommand cmd) (h : (s.raft n).isLeader = true) :
      TaskStep s n io (.serve req) .go (s.spawn n [.propose cmd])
  | acceptRead (t : Task) (key : Bytes) : TaskStep s n io t .go (s.spawn n [.reading key])
  | lease (req : ClientRequest) (key : Bytes) : TaskStep s n io (.serve req) .go (s.spawn n [.leaseCheck key])
  | propose (cmd : Command) (h : (s.raft n).state = .leader) :
      TaskStep s n io (.propose cmd) .go
        ((s.setRaft n ((s.raft n).propose cmd (s.envOf n io)).1).spawn n
          [.proposed ((s.raft n).lastLogIndex + 1) cmd])
  | proposeRefused (cmd : Command) (h : (s.raft n).state ≠ .leader) :
      TaskStep s n io (.propose cmd) .go (s.setRaft n (s.raft n))
  | wait (index : Int) (cmd : Command) :
      TaskStep s n io (.proposed index cmd) .go
        ((s.setRaft n ((s.raft n).appliedWait index).1).spawn n
          [.waiting index cmd ((s.raft n).appliedWait index).2])
  | answerWrite (index : Int) (cmd : Command) (ch : Nat) (h : (s.raft n).chans[ch]? = some true) :
      TaskStep s n io (.waiting index cmd ch) .go (s.answer (.written n index cmd))
  | answerRead (key : Bytes) :
      TaskStep s n io (.reading key) .go (s.answer (.value n key ((s.app n).store.get key)))

theorem heartbeatPeer_step (s : Cluster) (n : NodeID) (io : Io) (ret : Caller) (term : Int)
    (leaderID p : NodeID) (rest : List NodeID) :
    TaskStep s n io (.heartbeatPeers ret term leaderID (p :: rest)) .go
      (s.heartbeatPeer n ret term leaderID p rest) := by
  unfold heartbeatPeer
  simp only
  by_cases hp : p = ""
  · subst hp; rw [if_pos rfl]; exact .peerSkip ..
  · rw [if_neg hp]
    cases hb : (s.raft n).heartbeatTo term leaderID p with
    | panic => exact .peerPanic _ _ _ _ _ hb
    | snapshot => exact .peerSnapshot _ _ _ _ _ hb
    | batches args =>
      simp only
      by_cases he : args.entries = []
      · rw [if_pos he]; exact .peerHeartbeat _ _ _ _ _ _ hb he
      · rw [if_neg he]; exact .peerBatches _ _ _ _ _ _ hb he

theorem runTask_step {n : NodeID} {t : Task} (h : s.runTask n t c io = some s') : TaskStep s n io t c s' := by
  unfold runTask at h
  split at h
  all_goals try dsimp only at h
  case h_1 => cases h; exact .broadcast _
  case h_2 => cases h; exact .ask _ _
  case h_4 =>
    split at h
    · rename_i hr; cases h; exact .voteAnswer _ _ _ _ _ hr
    · cases h
  case h_6 =>
    split at h
    · cases h; exact .quit _ _
    · rename_i hl; cases h; exact .beat (not_not.1 hl)
  case h_7 =>
    split at h
    · rename_i hp; cases h; exact .roundAlone _ hp
    · rename_i hp; cases h; exact .roundPeers _ hp
  case h_8 => cases h; exact .roundEnd _ _ _
  case h_9 => cases h; exact heartbeatPeer_step ..
  case h_10 => cases h; exact .alone _
  case h_11 =>
    split at h
    · cases h; exact .quit _ _
    · rename_i he; cases h; exact .batchSent _ he
  case h_12 =>
    split at h
    · cases h
    · rename_i he; cases h; exact .batchRefused _ he
  case h_13 => cases h; exact .append _
  case h_15 =>
    split at h
    · rename_i hr; cases h; exact .appendAnswer _ _ _ _ hr
    · cases h
  case h_17 =>
    split at h
    · cases h; exact .quit _ _
    · rename_i hs; cases h; exact .loadSnapshot _ _ hs
  case h_18 =>
    split at h
    · cases h; exact .quit _ _
    · cases h
  case h_19 => cases h; exact .sendSnapshot _ _
  case h_21 =>
    split at h
    · cases h; exact .snapshotAnswer _ _ _ _
    · cases h
  case h_22 => cases h; exact .snapshotAnswer _ _ _ _
  case h_23 => cases h; exact .configWait _
  case h_24 => cases h; exact .transfer _
  case h_26 =>
    split at h
    · rename_i hr; cases h; exact .transferAnswer _ _ _ _ hr
    · cases h
  case h_28 =>
    split at h
    · rename_i hl; cases h; exact .accept _ _ trivial hl
    · cases h; exact .quit _ _
  case h_29 =>
    split at h
    · rename_i hl; cases h; exact .accept _ _ trivial hl
    · cases h; exact .quit _ _
  case h_30 =>
    split at h
    · cases h; exact .acceptRead _ _
    · split at h
      · cases h; exact .lease _ _
      · cases h; exact .quit _ _
  case h_31 =>
    split at h
    · cases h; exact .acceptRead _ _
    · cases h; exact .quit _ _
  case h_32 cmd =>
    by_cases hl : (s.raft n).state = .leader
    · have hp : (s.raft n).propose cmd (s.envOf n io) =
          (((s.raft n).propose cmd (s.envOf n io)).1, .ok ((s.raft n).lastLogIndex + 1)) := by
        unfold Raft.propose; rw [if_neg (not_not.2 hl)]
      rw [hp] at h; cases h; exact .propose _ hl
    · have hp : (s.raft n).propose cmd (s.envOf n io) = (s.raft n, .error errNotLeader) := by
        unfold Raft.propose; rw [if_pos hl]
      rw [hp] at h; cases h; exact .proposeRefused _ hl
  case h_33 => cases h; exact .wait _ _
  case h_34 =>
    split at h
    · rename_i hc; cases h; exact .answerWrite _ _ _ hc
    · cases h
  case h_35 => cases h; exact .answerRead _
  case h_36 => cases h
  all_goals (cases h; exact .quit _ _)

/-! ## The handlers -/

section Handle

variable (s : Cluster) (call : Nat) (src n : NodeID) (io : Io)

theorem handle_requestVote (req : RequestVoteRequest) :
    s.handle call ⟨src, n, .requestVote req⟩ io =
      (s.setRaft n ((s.raft n).requestVote req (s.envOf n io)).1).reply call
        (.requestVote ((s.raft n).requestVote req (s.envOf n io)).2) := rfl

theorem handle_appendEntries (req : AppendEntriesRequest) :
    s.handle call ⟨src, n, .appendEntries req⟩ io =
      (s.setRaft n ((s.raft n).appendEntries req (s.envOf n io)).1).reply call
        (.appendEntries ((s.raft n).appendEntries req (s.envOf n io)).2) := rfl

theorem handle_installSnapshot (req : InstallSnapshotRequest) :
    s.handle call ⟨src, n, .installSnapshot req⟩ io =
      ((s.setRaft n ((s.raft n).installSnapshot req (s.envOf n io)).1).setApp n
        ((s.app n).restore ((s.raft n).installSnapshot req (s.envOf n io)).2.1 io.restore)).reply call
        (.installSnapshot ((s.raft n).installSnapshot req (s.envOf n io)).2.2) := rfl

theorem handle_timeoutNow (req : TimeoutNowRequest) :
    s.handle call ⟨src, n, .timeoutNow req⟩ io =
      ((s.setRaft n ((s.raft n).timeoutNow req (s.envOf n io)).1).spawn n
        ((s.raft n).timeoutNow req (s.envOf n io)).2.1).reply call
        (.timeoutNow ((s.raft n).timeoutNow req (s.envOf n io)).2.2) := rfl

end Handle

/-! ## Steps -/

theorem replyTo_mem {call j : Nat} {resp : Response} (h : s.replyTo call j = some resp) :
    (call, resp) ∈ s.replies := by
  unfold replyTo at h
  split at h
  · rename_i c resp' hj
    split at h
    · rename_i hc
      cases h
      subst hc
      exact List.mem_of_getElem? hj
    · cases h
  · cases h

/-! ## Actions -/

/-- The effect of an action that `step` lets happen, with the guard it passed. -/
inductive ActionStep (s : Cluster) : Action → Cluster → Prop
  | tick (ms : Nat) : ActionStep s (.tick ms) { s with clock := s.clock + ms }
  | electionTimeout (n : NodeID) (timeout : Int) (io : Io) (hn : n ∈ s.procs)
      (ht : minElectionTimeout ≤ timeout) :
      ActionStep s (.electionTimeout n timeout io)
        ((s.setRaft n ((s.raft n).electionTick timeout (s.envOf n io)).1).spawn n
          ((s.raft n).electionTick timeout (s.envOf n io)).2)
  | deliver (call : Nat) (io : Io) (p : Packet) (hp : s.requests[call]? = some p) (hn : p.dst ∈ s.procs) :
      ActionStep s (.deliver call io) (s.handle call p io)
  | run (i : Nat) (c : Choice) (io : Io) (n : NodeID) (t : Task) (s' : Cluster)
      (hx : s.tasks[i]? = some (n, t)) (hn : n ∈ s.procs) (h : TaskStep (s.dropTask i) n io t c s') :
      ActionStep s (.run i c io) s'
  | propose (n : NodeID) (cmd : Command) (io : Io) (hn : n ∈ s.procs) :
      ActionStep s (.propose n cmd io) (s.setRaft n ((s.raft n).propose cmd (s.envOf n io)).1)
  | configChange (n : NodeID) (type : ConfigChangeType) (nodeID : NodeID) (io : Io) (r : Raft) (index : Int)
      (hn : n ∈ s.procs) (h : (s.raft n).proposeConfigChange type nodeID (s.envOf n io) = (r, .ok index)) :
      ActionStep s (.configChange n type nodeID io)
        ((s.setRaft n r).spawn n [.sendHeartbeats (.configChange index)])
  | configRefused (n : NodeID) (type : ConfigChangeType) (nodeID : NodeID) (io : Io) (r : Raft) (e : String)
      (hn : n ∈ s.procs) (h : (s.raft n).proposeConfigChange type nodeID (s.envOf n io) = (r, .error e)) :
      ActionStep s (.configChange n type nodeID io) (s.setRaft n r)
  | transferLeadership (n target : NodeID) (started : List Task) (hn : n ∈ s.procs)
      (h : (s.raft n).transferLeadershipInternal target = .ok started) :
      ActionStep s (.transferLeadership n target) (s.spawn n started)
  | transferRefused (n target : NodeID) (e : String) (hn : n ∈ s.procs)
      (h : (s.raft n).transferLeadershipInternal target = .error e) :
      ActionStep s (.transferLeadership n target) s
  | forceSnapshot (n : NodeID) (io : Io) (hn : n ∈ s.procs) :
      ActionStep s (.forceSnapshot n io) (s.setRaft n ((s.raft n).createSnapshotLocked (s.envOf n io)))
  | applierTake (n : NodeID) (io : Io) (hn : n ∈ s.procs) (h : (s.app n).applier = .loop) :
      ActionStep s (.applierTake n io) (s.applierNext n (s.raft n) io)
  | applierSend (n : NodeID) (e : LogEntry) (hn : n ∈ s.procs) (h : (s.app n).applier = .deliver e)
      (hroom : (s.app n).sent.length - (s.app n).received < applyChCap) :
      ActionStep s (.applierSend n)
        (s.setApp n { s.app n with sent := (s.app n).sent ++ [e], applier := .delivered })
  | applierDone (n : NodeID) (io : Io) (hn : n ∈ s.procs) (h : (s.app n).applier = .delivered) :
      ActionStep s (.applierDone n io) (s.applierNext n ((s.raft n).afterApply (s.envOf n io)) io)
  | consume (n : NodeID) (stored : Bool) (x : App) (hn : n ∈ s.procs) (h : (s.app n).receive stored = some x) :
      ActionStep s (.consume n stored) (s.setApp n x)
  | client (n : NodeID) (req : ClientRequest) (hn : n ∈ s.procs) :
      ActionStep s (.client n req) (s.spawn n [.serve req])

theorem step_runTask {i : Nat} {n : NodeID} {t : Task} (h : s.step (.run i c io) = some s')
    (hx : s.tasks[i]? = some (n, t)) : n ∈ s.procs ∧ (s.dropTask i).runTask n t c io = some s' := by
  simp only [step, hx] at h
  exact Option.ite_none_right_eq_some.1 h

theorem step_cases {a : Action} (h : s.step a = some s') : ActionStep s a s' := by
  cases a with
  | tick ms => cases h; exact .tick ms
  | deliver call io =>
    simp only [step] at h
    split at h
    · rename_i p hp
      split at h
      · rename_i hn; cases h; exact .deliver _ _ _ hp hn
      · cases h
    · cases h
  | run i c io =>
    rcases hx : s.tasks[i]? with _ | ⟨n, t⟩
    · simp only [step, hx] at h
      cases h
    · obtain ⟨hn, hrun⟩ := step_runTask h hx
      exact .run _ _ _ _ _ _ hx hn (runTask_step hrun)
  | configChange n type nodeID io =>
    simp only [step] at h
    split at h
    · rename_i hn
      split at h
      · rename_i r index he; cases h; exact .configChange _ _ _ _ _ _ hn he
      · rename_i r e he; cases h; exact .configRefused _ _ _ _ _ _ hn he
    · cases h
  | transferLeadership n target =>
    simp only [step] at h
    split at h
    · rename_i hn
      split at h
      · rename_i started he; cases h; exact .transferLeadership _ _ _ hn he
      · rename_i e he; cases h; exact .transferRefused _ _ _ hn he
    · cases h
  | applierSend n =>
    simp only [step] at h
    split at h
    · rename_i e he
      split at h
      · rename_i hn; cases h; exact .applierSend _ _ hn.1 he hn.2
      · cases h
    · cases h
  | consume n stored =>
    simp only [step] at h
    split at h
    · rename_i x hx
      split at h
      · rename_i hn; cases h; exact .consume _ _ _ hn hx
      · cases h
    · cases h
  | electionTimeout n timeout io =>
    obtain ⟨hn, ⟨⟩⟩ := Option.ite_none_right_eq_some.1 h
    exact .electionTimeout _ _ _ hn.1 hn.2
  | propose n cmd io =>
    obtain ⟨hn, ⟨⟩⟩ := Option.ite_none_right_eq_some.1 h
    exact .propose _ _ _ hn
  | forceSnapshot n io =>
    obtain ⟨hn, ⟨⟩⟩ := Option.ite_none_right_eq_some.1 h
    exact .forceSnapshot _ _ hn
  | applierTake n io =>
    obtain ⟨hn, ⟨⟩⟩ := Option.ite_none_right_eq_some.1 h
    exact .applierTake _ _ hn.1 hn.2
  | applierDone n io =>
    obtain ⟨hn, ⟨⟩⟩ := Option.ite_none_right_eq_some.1 h
    exact .applierDone _ _ hn.1 hn.2
  | client n req =>
    obtain ⟨hn, ⟨⟩⟩ := Option.ite_none_right_eq_some.1 h
    exact .client _ _ hn

/-- A step of a goroutine: which one it was, and its effect. -/
theorem step_run {i : Nat} (h : s.step (.run i c io) = some s') :
    ∃ n t, s.tasks[i]? = some (n, t) ∧ n ∈ s.procs ∧ TaskStep (s.dropTask i) n io t c s' := by
  cases step_cases h with
  | run _ _ _ n t _ hx hn ht => exact ⟨n, t, hx, hn, ht⟩

/-- A delivery: the packet, and the handler that ran. -/
theorem step_deliver {call : Nat} (h : s.step (.deliver call io) = some s') :
    ∃ p, s.requests[call]? = some p ∧ p.dst ∈ s.procs ∧ s' = s.handle call p io := by
  cases step_cases h with
  | deliver _ _ p hp hn => exact ⟨p, hp, hn, rfl⟩

end Cluster

end Mimori
