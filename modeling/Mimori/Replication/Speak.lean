/-
Who speaks as a leader. `sendHeartbeats` and `sendSnapshotToFollower` check leadership, read the term
and read the log or the snapshot in separate sections. Every AppendEntries and InstallSnapshot request
is built from the log or snapshot its sender had as leader of its term, in every run in which the logs stay
in place and no node loses its office while one of its rounds or transfers is between two sections.
-/
import Mimori.Apply.Taken
import Mimori.Cluster.Fixed

namespace Mimori

open Raft

namespace Raft

variable {r : Raft} {io : Io}

/-! ## How a leader loses its office -/

/-- A request that takes a leader out of its office: it brings a newer term or calls for an election. -/
def deposedBy (r : Raft) : Request → Bool
  | .requestVote req => r.isKnownNode req.candidateId && decide (r.term < req.term)
  | .appendEntries req => r.isKnownNode req.leaderId && decide (r.term < req.term)
  | .installSnapshot req => decide (r.term < req.term)
  | .timeoutNow req => req.leaderId == r.leader && decide (r.term ≤ req.term)

/-- The answer brings a newer term. -/
def outdatedBy (r : Raft) : Response → Bool
  | .requestVote resp => decide (r.term < resp.term)
  | .appendEntries resp => decide (r.term < resp.term)
  | .installSnapshot _ => false
  | .timeoutNow resp => decide (r.term < resp.term)

/-- The entry removes the node itself. -/
def leavesBy (r : Raft) (e : LogEntry) : Bool :=
  match e.data with
  | .configChange type nodeID => type != "add" && nodeID == r.id
  | _ => false

/-- The node has the role and the term it had. -/
structure SameOffice (r r' : Raft) : Prop where
  state : r'.state = r.state
  term : r'.term = r.term

theorem SameVotes.office {r' : Raft} (h : SameVotes r r') : SameOffice r r' := ⟨h.state, h.term⟩

theorem requestVote_office {req : RequestVoteRequest} (h : r.deposedBy (.requestVote req) = false) :
    SameOffice r (r.requestVote req io).1 := by
  have hle : r.isKnownNode req.candidateId = true → req.term ≤ r.term := by
    intro hk
    simpa [deposedBy, hk] using h
  have ho := requestVote_outcome r req io
  generalize r.requestVote req io = out at ho ⊢
  cases ho with
  | ignored => exact (SameVotes.refl r).office
  | refused hk => rw [adoptTerm_of_le (hle hk)]; exact (SameVotes.refl r).office
  | granted hk =>
    rw [adoptTerm_of_le (hle hk)]
    have hs := saveMeta_same { r with votedFor := req.candidateId, electionReset := io.now } io.saveVote
    exact ⟨hs.state, hs.term⟩

theorem appendEntries_office {req : AppendEntriesRequest} (h : r.deposedBy (.appendEntries req) = false) :
    SameOffice r (r.appendEntries req io).1 := by
  have hheard : r.isKnownNode req.leaderId = true → SameVotes r (r.afterHearing req io) := by
    intro hk
    have hle : req.term ≤ r.term := by simpa [deposedBy, hk] using h
    rw [afterHearing, adoptTerm_of_le hle]
    exact ⟨rfl, rfl, rfl, rfl, rfl, rfl, rfl⟩
  have ho := appendEntries_outcome r req io
  generalize r.appendEntries req io = out at ho ⊢
  cases ho with
  | ignored => exact (SameVotes.refl r).office
  | refused hk => exact (hheard hk).office
  | accepted hk =>
    have hmerged : SameVotes (r.afterHearing req io) (r.afterMerging req io) := ⟨rfl, rfl, rfl, rfl, rfl, rfl, rfl⟩
    exact ((((hheard hk).trans hmerged).saveLog io.saveLog).trans (advanceCommit_same _ req.leaderCommit)).office

theorem installSnapshot_office {req : InstallSnapshotRequest} (h : r.deposedBy (.installSnapshot req) = false) :
    SameOffice r (r.installSnapshot req io).1 := by
  have hle : req.term ≤ r.term := by simpa [deposedBy] using h
  rcases installSnapshot_move r req io with hs | hd
  · exact hs.office
  · have ho := installSnapshot_outcome r req io
    generalize r.installSnapshot req io = out at ho hd ⊢
    cases ho with
    | stale => exact (SameVotes.refl r).office
    | installed =>
      have hterm : ((r.afterInstalling req io).saveLog io.saveLog).term = r.term := by
        rw [(saveLog_rest _ _).term]
        show (r.adoptTerm req.term io).term = r.term
        rw [adoptTerm_of_le hle]
      exact absurd hd.term (by rw [show _ = r.term from hterm]; omega)

theorem timeoutNow_office {req : TimeoutNowRequest} (h : r.deposedBy (.timeoutNow req) = false) :
    SameOffice r (r.timeoutNow req io).1 := by
  have ho := timeoutNow_outcome r req io
  generalize r.timeoutNow req io = out at ho ⊢
  cases ho with
  | ignored => exact (SameVotes.refl r).office
  | starts hl ht => simp [deposedBy, hl, ht] at h

theorem handleVoteResponse_office {resp : RequestVoteResponse} (hl : r.state = .leader)
    (h : r.outdatedBy (.requestVote resp) = false) : SameOffice r (r.handleVoteResponse resp).1 := by
  have hle : resp.term ≤ r.term := by simpa [outdatedBy] using h
  have ho := handleVoteResponse_outcome r resp
  generalize r.handleVoteResponse resp = out at ho ⊢
  cases ho with
  | newer ht => omega
  | ignored => exact (SameVotes.refl r).office
  | counted _ hc => rw [hl] at hc; cases hc
  | elected _ hc => rw [hl] at hc; cases hc

theorem handleTimeoutNowResponse_office {target : NodeID} {resp : TimeoutNowResponse}
    (h : r.outdatedBy (.timeoutNow resp) = false) : SameOffice r (r.handleTimeoutNowResponse target resp io) := by
  have hle : resp.term ≤ r.term := by simpa [outdatedBy] using h
  unfold handleTimeoutNowResponse
  rw [if_neg (by omega)]
  exact (SameVotes.refl r).office

/-- The applier leaves the office alone unless it comes to the entry that removes the node. -/
theorem takeNext_office (h : r.pendingEntry.any r.leavesBy = false) : SameOffice r (r.takeNext io).1 := by
  rw [takeNext_eq]
  cases hp : r.pendingEntry with
  | none => exact (SameVotes.refl r).office
  | some e =>
    rw [hp, Option.any_some, leavesBy] at h
    simp only [handleConfigChangeIfNeeded]
    split
    · rename_i type nodeID hd
      simp only [hd] at h
      have ho := applyConfigChangeLocked_outcome { r with lastApplied := r.lastApplied + 1 } (type == "add") nodeID io
      generalize applyConfigChangeLocked { r with lastApplied := r.lastApplied + 1 } (type == "add") nodeID io = out at ho ⊢
      cases ho with
      | self => exact ⟨rfl, rfl⟩
      | leaves hid hadd =>
        rw [show nodeID = r.id from hid] at h
        simp_all
      | _ => exact ⟨(saveMeta_same _ _).state, (saveMeta_same _ _).term⟩
    · exact ⟨rfl, rfl⟩

/-- The snapshot a leader may take between two entries leaves the one to come. -/
theorem Indexed.afterApply_pendingEntry (h : Indexed r) : (r.afterApply io).pendingEntry = r.pendingEntry := by
  have hp := afterApply_rest r io
  unfold pendingEntry
  rw [hp.commit, hp.applied]
  split
  · exact h.afterApply_entryAt io (by omega)
  · rfl

end Raft

namespace Cluster

/-! ## Conditions -/

/-- A goroutine that will read the term, the log or the snapshot of its node to send it as a leader's. -/
def speaks : Task → Bool
  | .sendHeartbeats _ => true
  | .heartbeatPeers _ _ _ (_ :: _) => true
  | .sendSnapshot _ => true
  | .sendSnapshotLoaded _ _ => true
  | _ => false

/-- The call whose answer a goroutine compares its node's term with. -/
def comparedCall : Task → Option Nat
  | .awaitVote _ _ call => some call
  | .awaitAppend _ call => some call
  | .awaitTimeoutNow _ call => some call
  | _ => none

/-- This step takes node `n` out of its office, if it leads: a request does, an answer brings a newer term, or the
applier comes to the entry that removes the node. -/
def deposes (s : Cluster) (n : NodeID) : Action → Bool
  | .deliver call _ =>
    match s.requests[call]? with
    | some p => p.dst == n && (s.raft n).deposedBy p.req
    | none => false
  | .run i (.reply j) _ =>
    match s.tasks[i]? with
    | some (m, t) => m == n && (comparedCall t).any fun call => (s.replyTo call j).any (s.raft n).outdatedBy
    | none => false
  | .applierTake m _ | .applierDone m _ => m == n && (s.raft n).pendingEntry.any (s.raft n).leavesBy
  | _ => false

/-- No node loses its office in this step while one of its goroutines is about to speak for it. -/
def undisturbed (s : Cluster) (a : Action) : Bool :=
  s.procs.all fun n =>
    (s.raft n).state != .leader || !s.deposes n a || s.tasks.all fun x => x.1 != n || !speaks x.2

/-- A refused append answer for a peer that is behind the snapshot, which starts a transfer, is handled only at a
leader. -/
def refusedInOffice (s : Cluster) : Action → Bool
  | .run i (.reply j) _ =>
    match s.tasks[i]? with
    | some (n, .awaitAppend args call) =>
      match s.replyTo call j with
      | some (.appendEntries resp) => (s.raft n).state == .leader || resp.success ||
          decide ((s.raft n).term < resp.term) || !(s.raft n).behindSnapshot ((s.raft n).nextIndex.get args.peer)
      | _ => true
    | _ => true
  | _ => true

/-- What a goroutine reads to send it fits the `int32` of the messages. -/
def readsFit (s : Cluster) : Action → Bool
  | .run i .go _ =>
    match s.tasks[i]? with
    | some (n, .heartbeatPeers _ term leaderID (p :: _)) =>
      match (s.raft n).heartbeatTo term leaderID p with
      | .batches args => decide (Fits term) && decide (Fits args.prevLogIndex) && decide (Fits args.prevLogTerm) &&
          (s.raft n).log.all fun e => decide (Fits e.index) && decide (Fits e.term)
      | _ => true
    | some (n, .sendSnapshotLoaded _ snap) => decide (Fits (s.raft n).term) &&
        decide (Fits snap.lastIncludedIndex) && decide (Fits snap.lastIncludedTerm)
    | _ => true
  | _ => true

/-! ## Steps and roles -/

theorem NodeStep.go_same {s : Cluster} {i : Nat} {io : Io} {n : NodeID} {r : Raft}
    (h : NodeStep s (.run i .go io) n r) : SameVotes (s.raft n) r := by
  cases h with
  | snapshotAnswer => exact snapshotSent_same ..
  | alone => exact updateCommitIndexLocked_same _
  | wait => exact (appliedWait_rest ..).toSameVotes
  | proposeTask => exact (propose_rest ..).toSameVotes

theorem step_go_same {s s' : Cluster} {i : Nat} {io : Io} (h : s.step (.run i .go io) = some s') (n : NodeID) :
    SameVotes (s.raft n) (s'.raft n) := by
  rcases step_at h n with heq | ⟨_, hm⟩
  · rw [heq]; exact .refl _
  · exact hm.go_same

theorem handleAppendResponse_transfer {r : Raft} {a : AppendArgs} {resp : AppendEntriesResponse} {io : Io} {t : Task}
    (h : t ∈ (r.handleAppendResponse a resp io).2) : (r.handleAppendResponse a resp io).1 = r ∧ resp.term ≤ r.term ∧
      resp.success = false ∧ r.behindSnapshot (r.nextIndex.get a.peer) = true := by
  have ho := handleAppendResponse_outcome r a resp io
  generalize r.handleAppendResponse a resp io = out at h ho ⊢
  cases ho with
  | transfer ht hs hb => exact ⟨rfl, ht, hs, hb⟩
  | _ => cases h

/-- A leader that no request, answer or entry deposes stays in office. -/
theorem step_office {s s' : Cluster} {a : Action} (hi : IndexInv s) (hs : s.step a = some s') {n : NodeID}
    (hl : (s.raft n).state = .leader) (hd : s.deposes n a = false) : SameOffice (s.raft n) (s'.raft n) := by
  rcases step_at hs n with heq | ⟨_, hm⟩
  · rw [heq]; exact (SameVotes.refl _).office
  · generalize s'.raft n = r at hm
    cases hm with
    | electionTick _ timeout io =>
      have hsame : (s.raft n).electionTick timeout (s.envOf n io) = (s.raft n, []) := by
        unfold electionTick
        rw [if_pos hl, ite_self]
      rw [hsame]; exact (SameVotes.refl _).office
    | requestVote call io src _ req hp => exact requestVote_office (by simpa [deposes, hp] using hd)
    | appendEntries call io src _ req hp => exact appendEntries_office (by simpa [deposes, hp] using hd)
    | installSnapshot call io src _ req hp => exact installSnapshot_office (by simpa [deposes, hp] using hd)
    | timeoutNow call io src _ req hp => exact timeoutNow_office (by simpa [deposes, hp] using hd)
    | voteAnswer i j io _ p T call resp hx hr =>
      exact handleVoteResponse_office hl (by simpa [deposes, hx, comparedCall, hr] using hd)
    | appendAnswer i j io _ args call resp hx hr =>
      have hle : resp.term ≤ (s.raft n).term := by simpa [deposes, hx, comparedCall, hr, outdatedBy] using hd
      exact (handleAppendResponse_same hle args _).office
    | transferAnswer i j io _ target call resp hx hr =>
      exact handleTimeoutNowResponse_office (by simpa [deposes, hx, comparedCall, hr] using hd)
    | snapshotAnswer => exact (snapshotSent_same ..).office
    | alone => exact (updateCommitIndexLocked_same _).office
    | wait => exact (appliedWait_rest ..).office
    | propose => exact (propose_rest ..).office
    | proposeTask => exact (propose_rest ..).office
    | configChange => exact (proposeConfigChange_rest ..).office
    | forceSnapshot => exact (createSnapshotLocked_rest ..).office
    | applierTake => exact takeNext_office (by simpa [deposes] using hd)
    | applierDone _ io =>
      have hs := afterApply_rest (s.raft n) (s.envOf n io)
      have hleaves : ((s.raft n).afterApply (s.envOf n io)).leavesBy = (s.raft n).leavesBy := by
        funext e
        unfold leavesBy
        rw [hs.id]
      have ht : SameOffice _ (((s.raft n).afterApply (s.envOf n io)).takeNext (s.envOf n io)).1 := takeNext_office
        (by rw [(hi.node n).afterApply_pendingEntry, hleaves]; simpa [deposes] using hd)
      exact ⟨ht.state.trans hs.state, ht.term.trans hs.term⟩

theorem proposeConfigChange_ok {r : Raft} {type : ConfigChangeType} {nodeID : NodeID} {io : Io} {index : Int}
    (h : (r.proposeConfigChange type nodeID io).2 = .ok index) : r.state = .leader := by
  have ho := proposeConfigChange_outcome r type nodeID io
  generalize r.proposeConfigChange type nodeID io = out at h ho
  cases ho with
  | refused => cases h
  | unsaved hl => exact hl
  | appended hl => exact hl

/-! ## The invariant -/

/-- A goroutine that speaks belongs to a leader, and a round is of the leader's term. -/
structure Speaks (r : Raft) (t : Task) : Prop where
  leader : r.state = .leader
  round : ∀ ret T leaderID rest, t = .heartbeatPeers ret T leaderID rest → T = r.term ∧ leaderID = r.id

def SpeakInv (s : Cluster) : Prop := ∀ n t, (n, t) ∈ s.tasks → speaks t = true → Speaks (s.raft n) t

variable {s s' : Cluster} {a : Action} {t : Task} {n : NodeID} {args : AppendArgs}

theorem Speaks.of_same {r r' : Raft} (h : Speaks r t) (hs : r'.state = .leader) (ht : r'.term = r.term)
    (hid : r'.id = r.id) : Speaks r' t :=
  ⟨hs, by rw [ht, hid]; exact h.round⟩

/-- A node keeps its office while it has a goroutine that speaks. -/
theorem SpeakInv.kept (h : SpeakInv s) (hi : IndexInv s) (hu : s.undisturbed a = true) (hs : s.step a = some s')
    (hn : n ∈ s.procs ∨ s'.raft n = s.raft n) (ht : (n, t) ∈ s.tasks) (hsp : speaks t = true) :
    (s'.raft n).state = .leader ∧ (s'.raft n).term = (s.raft n).term := by
  have hl := (h n t ht hsp).leader
  rcases hn with hn | hn
  · have hall := List.all_eq_true.1 hu n hn
    simp only [hl, Bool.or_eq_true, List.all_eq_true, bne_iff_ne, Bool.not_eq_true'] at hall
    rcases hall with (hc | hc) | hc
    · exact absurd rfl hc
    · have hoff := step_office hi hs hl hc
      exact ⟨hoff.state.trans hl, hoff.term⟩
    · rcases hc (n, t) ht with hc | hc
      · exact absurd rfl hc
      · rw [hsp] at hc; cases hc
  · rw [hn]; exact ⟨hl, rfl⟩

/-- A refused answer that starts a transfer leaves the node as it is. -/
theorem step_refused {i j : Nat} {io : Io} {call : Nat} {resp : AppendEntriesResponse}
    (hs : s.step (.run i (.reply j) io) = some s') (hx : s.tasks[i]? = some (n, .awaitAppend args call))
    (hr : s.replyTo call j = some (.appendEntries resp))
    (ht : t ∈ ((s.raft n).handleAppendResponse args resp (s.envOf n io)).2) : s'.raft n = s.raft n := by
  rcases step_at hs n with heq | ⟨_, hm⟩
  · exact heq
  · generalize hr' : s'.raft n = r at hm
    cases hm with
    | voteAnswer _ _ _ _ _ _ _ _ hx' => rw [hx] at hx'; cases hx'
    | transferAnswer _ _ _ _ _ _ _ hx' => rw [hx] at hx'; cases hx'
    | snapshotAnswer _ _ _ _ _ _ _ hx' => rw [hx] at hx'; cases hx'
    | appendAnswer _ _ _ _ _ _ _ hx' hr'' =>
      rw [hx] at hx'; cases hx'
      rw [hr] at hr''; cases hr''
      exact (handleAppendResponse_transfer ht).1

theorem SpeakInv.newTask (h : SpeakInv s) (ho : s.refusedInOffice a = true) (hs : s.step a = some s')
    (hnew : NewTask s a n t) (hsp : speaks t = true) : Speaks (s'.raft n) t := by
  have hid := step_id hs n
  cases hnew with
  | configChange _ type nodeID io index hok =>
    have hl := proposeConfigChange_ok hok
    -- a change is proposed by a leader and leaves it in office
    have hsame : SameVotes (s.raft n) (s'.raft n) := by
      rcases step_at hs n with heq | ⟨_, hm⟩
      · rw [heq]; exact .refl _
      · generalize s'.raft n = r at hm
        cases hm; exact (proposeConfigChange_rest ..).toSameVotes
    exact ⟨hsame.state.trans hl, fun _ _ _ _ he => by cases he⟩
  | next i c io _ u _ hx hspawn =>
    have hm := List.mem_of_getElem? hx
    cases hspawn with
    | beat hl =>
      exact ⟨(step_go_same hs n).state.trans hl, fun _ _ _ _ he => by cases he⟩
    | roundPeers ret =>
      have hl := (h n _ hm rfl).leader
      have hsame := step_go_same hs n
      refine ⟨hsame.state.trans hl, fun _ _ _ _ he => ?_⟩
      cases he; exact ⟨hsame.term.symm, hsame.id.symm⟩
    | nextPeer ret T leaderID p rest =>
      have hold := h n _ hm rfl
      have hsame := step_go_same hs n
      refine ⟨hsame.state.trans hold.leader, fun _ _ _ _ he => ?_⟩
      cases he
      have := hold.round _ _ _ _ rfl
      rw [hsame.term, hsame.id]; exact this
    | peerSnapshot ret T leaderID p rest =>
      exact ⟨(step_go_same hs n).state.trans (h n _ hm rfl).leader, fun _ _ _ _ he => by cases he⟩
    | loaded peer snap =>
      exact ⟨(step_go_same hs n).state.trans (h n _ hm rfl).leader, fun _ _ _ _ he => by cases he⟩
    | refused args call j resp hr ht =>
      -- a refused batch asks for the snapshot without looking at the state: the condition says it leads
      have hl : (s.raft n).state = .leader := by
        obtain ⟨_, hterm, hfail, hbehind⟩ := handleAppendResponse_transfer ht
        simpa [refusedInOffice, hx, hr, Int.not_lt.2 hterm, hfail, hbehind] using ho
      rw [step_refused hs hx hr ht]
      exact ⟨hl, fun _ _ _ _ he => by cases he⟩
    | _ => cases hsp
  | _ => cases hsp

theorem SpeakInv.step (h : SpeakInv s) (hi : IndexInv s) (hu : s.undisturbed a = true) (ho : s.refusedInOffice a = true)
    (hs : s.step a = some s') : SpeakInv s' := by
  intro n t ht hsp
  rcases step_tasks hs ht with ht | ⟨_, ht⟩
  · obtain ⟨h1, h2⟩ := h.kept hi hu hs (step_touched hs n) ht hsp
    exact (h n t ht hsp).of_same h1 h2 (step_id hs n)
  · exact h.newTask ho hs ht hsp

/-! ## Requests -/

/-- The log has an entry with this index and term. -/
def PrevOf (r : Raft) (index term : Int) : Prop := ∃ e ∈ r.log, e.index = index ∧ e.term = term

/-- The parts of an AppendEntries request are parts of the log of a leader of `term`. -/
structure SpokenBy (r : Raft) (term prevLogIndex prevLogTerm : Int) (entries : List LogEntry) : Prop where
  leader : r.state = .leader
  term : r.term = term
  prev : PrevOf r prevLogIndex prevLogTerm
  entries : ∀ e ∈ entries, e ∈ r.log

/-- The snapshot of an InstallSnapshot request is the one a leader of `term` had. -/
structure SnapshotBy (r : Raft) (term : Int) (snap : Snapshot) : Prop where
  leader : r.state = .leader
  term : r.term = term
  snapshot : r.snapshotToSend = some snap

/-- The arguments of a goroutine of `n`, which some state of the history `h` gave it. -/
structure BuiltFrom (h : List (Cluster × Action)) (n : NodeID) (args : AppendArgs) : Prop where
  spoken : ∃ x ∈ h, SpokenBy (x.1.raft n) args.term args.prevLogIndex args.prevLogTerm args.entries
  leaderID : args.leaderID = n
  fits : Fits args.term ∧ Fits args.prevLogIndex ∧ Fits args.prevLogTerm
  entryFits : ∀ e ∈ args.entries, Fits e.index ∧ Fits e.term

theorem BuiltFrom.mono {h : List (Cluster × Action)} {x : Cluster × Action} (hb : BuiltFrom h n args) :
    BuiltFrom (x :: h) n args := by
  obtain ⟨y, hy, hsp⟩ := hb.spoken
  exact { hb with spoken := ⟨y, List.mem_cons_of_mem _ hy, hsp⟩ }

/-- Everything a run has sent or is about to send. -/
structure SpeechInv (h : List (Cluster × Action)) (s : Cluster) : Prop where
  id : ∀ n, (s.raft n).id = n
  index : IndexInv s
  tasks : SpeakInv s
  args : ∀ n t args, (n, t) ∈ s.tasks → argsOf t = some args → BuiltFrom h n args
  snap : ∀ n peer snap, (n, .sendSnapshotLoaded peer snap) ∈ s.tasks →
    ∃ x ∈ h, SnapshotBy (x.1.raft n) (s.raft n).term snap
  append : ∀ p ∈ s.requests, ∀ req, p.req = .appendEntries req →
    ∃ x ∈ h, SpokenBy (x.1.raft req.leaderId) req.term req.prevLogIndex req.prevLogTerm req.entries
  install : ∀ p ∈ s.requests, ∀ req, p.req = .installSnapshot req →
    ∃ x ∈ h, SnapshotBy (x.1.raft req.leaderId) req.term ⟨req.lastIncludedIndex, req.lastIncludedTerm, req.data⟩

theorem heartbeatTo_spoken {r : Raft} (hi : Indexed r) (hnext : NextPos r) (hl : r.state = .leader) {T : Int}
    {leaderID p : NodeID} (hT : T = r.term) (hfit : ∀ e ∈ r.log, Fits e.index ∧ Fits e.term)
    (h : r.heartbeatTo T leaderID p = .batches args) :
    SpokenBy r args.term args.prevLogIndex args.prevLogTerm args.entries ∧ args.term = T ∧ args.leaderID = leaderID ∧
      ∀ e ∈ args.entries, Fits e.index ∧ Fits e.term := by
  have hwire : ∀ e ∈ r.log, e.toWire = e := by
    intro e he
    unfold LogEntry.toWire
    rw [int32_of_fits (hfit e he).1, int32_of_fits (hfit e he).2]
  have hentries : ∀ e ∈ args.entries, e ∈ r.log := by
    intro e he
    obtain ⟨x, hx, rfl⟩ := heartbeatTo_mem h he
    rw [hwire x hx]; exact hx
  obtain ⟨hreads, _, hterm, hlead⟩ := heartbeatTo_reads hi (hnext p) h
  obtain ⟨e, he, hprev⟩ := hreads.prevTerm
  have hin : PrevOf r args.prevLogIndex args.prevLogTerm := ⟨e, entryAt_mem he, (hi.entryAt_some he).1, hprev.symm⟩
  exact ⟨⟨hl, (hterm.trans hT).symm, hin, hentries⟩, hterm, hlead, fun e he => hfit e (hentries e he)⟩

theorem BuiltFrom.sent {h : List (Cluster × Action)} (hb : BuiltFrom h n args) : BuiltFrom h n (afterSent args) := by
  obtain ⟨x, hx, hsp⟩ := hb.spoken
  have hdrop : ∀ e ∈ args.entries.drop maxEntriesPerBatch, e ∈ args.entries := fun e he => List.mem_of_mem_drop he
  unfold afterSent
  simp only
  cases hlast : (args.entries.take maxEntriesPerBatch).getLast? with
  | none =>
    exact ⟨⟨x, hx, hsp.leader, hsp.term, hsp.prev, fun e he => hsp.entries e (hdrop e he)⟩, hb.leaderID, hb.fits,
      fun e he => hb.entryFits e (hdrop e he)⟩
  | some e =>
    have hm : e ∈ args.entries := List.mem_of_mem_take (List.mem_of_getLast? hlast)
    exact ⟨⟨x, hx, hsp.leader, hsp.term, ⟨e, hsp.entries e hm, rfl, rfl⟩, fun y hy => hsp.entries y (hdrop y hy)⟩,
      hb.leaderID, ⟨hb.fits.1, hb.entryFits e hm⟩, fun y hy => hb.entryFits y (hdrop y hy)⟩

theorem SpeechInv.newArgs {h : List (Cluster × Action)} (hi : SpeechInv h s) (hf : s.readsFit a = true)
    (ha : ArgsFrom s n a args) : BuiltFrom ((s, a) :: h) n args := by
  cases ha with
  | read i io ret T leaderID p rest _ hx hb =>
    have hsp := hi.tasks n _ (List.mem_of_getElem? hx) rfl
    obtain ⟨hT, hL⟩ := hsp.round _ _ _ _ rfl
    simp only [readsFit, hx, hb, Bool.and_eq_true, decide_eq_true_eq, List.all_eq_true] at hf
    obtain ⟨⟨⟨h1, h2⟩, h3⟩, h4⟩ := hf
    obtain ⟨hspoken, hterm, hlead, hent⟩ := heartbeatTo_spoken (hi.index.node n) (hi.index.next n) hsp.leader hT h4 hb
    exact ⟨⟨(s, _), List.mem_cons_self .., hspoken⟩, hlead.trans (hL.trans (hi.id n)),
      ⟨by rw [hterm]; exact h1, h2, h3⟩, hent⟩
  | batch _ args hx =>
    have hb := hi.args n _ args hx rfl
    obtain ⟨x, hx, hsp⟩ := hb.spoken
    exact ⟨⟨x, List.mem_cons_of_mem _ hx, hsp.leader, hsp.term, hsp.prev,
      fun e he => hsp.entries e (List.mem_of_mem_take he)⟩,
      hb.leaderID, hb.fits, fun e he => hb.entryFits e (List.mem_of_mem_take he)⟩
  | sent _ args hx => exact (hi.args n _ args hx rfl).sent.mono
  | refused i io args hx =>
    have hb := hi.args n _ args (List.mem_of_getElem? hx) rfl
    obtain ⟨x, hx, hsp⟩ := hb.spoken
    exact ⟨⟨x, List.mem_cons_of_mem _ hx, hsp.leader, hsp.term, hsp.prev,
      fun e he => hsp.entries e (List.mem_of_mem_drop he)⟩,
      hb.leaderID, hb.fits, fun e he => hb.entryFits e (List.mem_of_mem_drop he)⟩
  | same _ _ hx => exact (hi.args n _ args hx rfl).mono

theorem SpeechInv.newSnap {h : List (Cluster × Action)} (hi : SpeechInv h s) (hs : s.step a = some s') {peer : NodeID}
    {snap : Snapshot} (hnew : NewTask s a n (.sendSnapshotLoaded peer snap)) :
    SnapshotBy (s.raft n) (s'.raft n).term snap := by
  cases hnew with
  | next i c io _ u _ hx hspawn =>
    cases hspawn with
    | loaded _ _ hsend =>
      exact ⟨(hi.tasks n _ (List.mem_of_getElem? hx) rfl).leader, (step_go_same hs n).term.symm, hsend⟩

/-- The conditions under which only leaders speak as leaders. -/
def officeKept (s : Cluster) (a : Action) : Bool :=
  s.undisturbed a && s.refusedInOffice a && s.readsFit a && s.inPlace a

theorem SpeechInv.step {h : List (Cluster × Action)} (hi : SpeechInv h s) (hok : s.officeKept a = true)
    (hs : s.step a = some s') : SpeechInv ((s, a) :: h) s' := by
  simp only [officeKept, Bool.and_eq_true] at hok
  obtain ⟨⟨⟨hund, hoff⟩, hfit⟩, hplace⟩ := hok
  refine ⟨fun n => (step_id hs n).trans (hi.id n), hi.index.step hplace hs, hi.tasks.step hi.index hund hoff hs,
    ?_, ?_, ?_, ?_⟩
  · intro n t args ht hargs
    rcases step_tasks hs ht with ht | ⟨_, ht⟩
    · exact (hi.args n t args ht hargs).mono
    · exact hi.newArgs hfit (ht.args hargs)
  · intro n peer snap ht
    rcases step_tasks hs ht with ht | ⟨_, ht⟩
    · obtain ⟨x, hx, hsn⟩ := hi.snap n peer snap ht
      rw [(hi.tasks.kept hi.index hund hs (step_touched hs n) ht rfl).2]
      exact ⟨x, List.mem_cons_of_mem _ hx, hsn⟩
    · exact ⟨(s, a), List.mem_cons_self .., hi.newSnap hs ht⟩
  · intro p hp req hreq
    rcases step_packets hs hp with hp | ⟨_, hq⟩
    · obtain ⟨x, hx, hsp⟩ := hi.append p hp req hreq
      exact ⟨x, List.mem_cons_of_mem _ hx, hsp⟩
    · cases hq with
      | appendEntries i io n args hx =>
        cases hreq
        have hb := hi.args n _ args (List.mem_of_getElem? hx) rfl
        obtain ⟨x, hx, hsp⟩ := hb.spoken
        refine ⟨x, List.mem_cons_of_mem _ hx, ?_⟩
        simp only [appendEntriesRequest]
        rw [hb.leaderID, int32_of_fits hb.fits.1, int32_of_fits hb.fits.2.1, int32_of_fits hb.fits.2.2]
        exact hsp
      | _ => cases hreq
  · intro p hp req hreq
    rcases step_packets hs hp with hp | ⟨_, hq⟩
    · obtain ⟨x, hx, hsn⟩ := hi.install p hp req hreq
      exact ⟨x, List.mem_cons_of_mem _ hx, hsn⟩
    · cases hq with
      | installSnapshot i io n peer snap hx =>
        cases hreq
        simp only [readsFit, hx, Bool.and_eq_true, decide_eq_true_eq] at hfit
        obtain ⟨⟨h1, h2⟩, h3⟩ := hfit
        obtain ⟨x, hx, hsn⟩ := hi.snap n peer snap (List.mem_of_getElem? hx)
        refine ⟨x, List.mem_cons_of_mem _ hx, ?_⟩
        simp only [installSnapshotRequest]
        rw [hi.id n, int32_of_fits h1, int32_of_fits h2, int32_of_fits h3]
        exact hsn
      | _ => cases hreq

/-- Only leaders speak as leaders: in every run in which the logs stay in place and no node loses its office
between the sections of a round or a transfer, every AppendEntries request is built from the log, and every
InstallSnapshot request from the snapshot, that its `LeaderId` had in an earlier state as leader of its term: the
entries and an entry with the previous index and term were in this log. -/
theorem requests_from_leader {h : List (Cluster × Action)} {s : Cluster}
    (hr : machine.Run (fun s a => s.officeKept a = true) h s) :
    (∀ p ∈ s.requests, ∀ req, p.req = .appendEntries req →
      ∃ x ∈ h, SpokenBy (x.1.raft req.leaderId) req.term req.prevLogIndex req.prevLogTerm req.entries) ∧
    (∀ p ∈ s.requests, ∀ req, p.req = .installSnapshot req →
      ∃ x ∈ h, SnapshotBy (x.1.raft req.leaderId) req.term
        ⟨req.lastIncludedIndex, req.lastIncludedTerm, req.data⟩) := by
  have hi : SpeechInv h s := by
    refine Machine.Run.history ?_ (fun h s a s' _ hi hok hs => hi.step hok hs) hr
    rintro s ⟨procs, peersOf, snapshotter, restorer, _, rfl⟩
    refine ⟨fun n => rfl, .start .., ?_, ?_, ?_, ?_, ?_⟩
    · intro n t ht; cases ht
    · intro n t args ht; cases ht
    · intro n peer snap ht; cases ht
    · intro p hp; cases hp
    · intro p hp; cases hp
  exact ⟨hi.append, hi.install⟩

theorem requests_from_leader_firstAppend :
    ∃ h s, machine.Run (fun s a => s.officeKept a = true) h s ∧
      s.requests[1]? = some ⟨"A", "B", .appendEntries ⟨1, "A", 0, 0, [⟨1, 1, .put [1] [2]⟩], 0⟩⟩ ∧
      ∃ x ∈ h, SpokenBy (x.1.raft "A") 1 0 0 [⟨1, 1, .put [1] [2]⟩] := by
  obtain ⟨h, s, hr, hp⟩ := Machine.exists_run (fun s a => s.officeKept a = true)
    (fun _ s => s.requests[1]? = some ⟨"A", "B", .appendEntries ⟨1, "A", 0, 0, [⟨1, 1, .put [1] [2]⟩], 0⟩⟩)
    (machine_init threeNodes false false) firstAppend (by decide +kernel)
  exact ⟨h, s, hr, hp, (requests_from_leader hr).1 _ (List.mem_of_getElem? hp) _ rfl⟩

/-- The heartbeat goroutine of A has found A to be the leader of term 1 and is about to send heartbeats
when A adopts term 2 from C. -/
def deposedSpeaker : List Action :=
  electA ++ [.run 1 .go {}, .electionTimeout "C" 1500 {}, .tick 2000, .electionTimeout "C" 1500 {}, .run 3 .go {},
    .run 3 .go {}, .deliver 1 {}, .run 1 .go {}, .run 4 .go {}, .run 5 .go {}]

theorem deposedSpeaker_speaks :
    ∃ h s, machine.Run (fun s a => (s.refusedInOffice a && s.readsFit a && s.inPlace a) = true) h s ∧
      s.requests[2]? = some ⟨"A", "B", .appendEntries ⟨2, "A", 0, 0, [], 0⟩⟩ ∧
      (∀ x ∈ h, ¬ ((x.1.raft "A").state = .leader ∧ (x.1.raft "A").term = 2)) ∧
      ¬ ((s.raft "A").state = .leader ∧ (s.raft "A").term = 2) :=
  Machine.exists_run (fun s a => (s.refusedInOffice a && s.readsFit a && s.inPlace a) = true)
    (fun h s => s.requests[2]? = some ⟨"A", "B", .appendEntries ⟨2, "A", 0, 0, [], 0⟩⟩ ∧
      (∀ x ∈ h, ¬ ((x.1.raft "A").state = .leader ∧ (x.1.raft "A").term = 2)) ∧
      ¬ ((s.raft "A").state = .leader ∧ (s.raft "A").term = 2))
    (machine_init threeNodes false false) deposedSpeaker (by decide +kernel)

end Cluster

end Mimori
