/-
How each function of a node moves its term, role and vote. Outside elections there are two
possibilities: the voting state stays, or a newer term is adopted and the node becomes a follower
that has not voted. Applying a configuration entry changes the peers, and removing itself clears the
vote.
-/
import Mimori.Raft.Outcomes

namespace Mimori

namespace Raft

variable {a b c r : Raft} {io : Io}

/-! ## The possible moves -/

/-- The voting state is unchanged. -/
structure SameVotes (r r' : Raft) : Prop where
  id : r'.id = r.id
  peers : r'.peers = r.peers
  state : r'.state = r.state
  term : r'.term = r.term
  votes : r'.votes = r.votes
  votedFor : r'.votedFor = r.votedFor
  removed : r'.removedFromCluster = r.removedFromCluster

/-- The indices a node keeps beside its log are unchanged. -/
structure SameProgress (r r' : Raft) : Prop where
  commit : r'.commitIndex = r.commitIndex
  applied : r'.lastApplied = r.lastApplied
  next : r'.nextIndex = r.nextIndex
  matched : r'.matchIndex = r.matchIndex

/-- Whom the node takes for the leader, and when its timer was restarted. -/
def hint (r : Raft) : NodeID × Int := (r.leader, r.electionReset)

/-- What the functions that write the log, take a snapshot or handle the channels of clients leave alone. -/
structure SameRest (r r' : Raft) : Prop extends SameVotes r r', SameProgress r r' where
  metaFile : r'.disk.metaFile = r.disk.metaFile
  hint : r'.hint = r.hint

/-- A newer term is adopted. -/
structure StepDown (r r' : Raft) : Prop where
  id : r'.id = r.id
  peers : r'.peers = r.peers
  state : r'.state = .follower
  term : r.term < r'.term
  votedFor : r'.votedFor = ""
  removed : r'.removedFromCluster = r.removedFromCluster

def SameOrDown (r r' : Raft) : Prop := SameVotes r r' ∨ StepDown r r'

theorem SameVotes.refl (r : Raft) : SameVotes r r := ⟨rfl, rfl, rfl, rfl, rfl, rfl, rfl⟩

theorem SameVotes.symm (h : SameVotes a b) : SameVotes b a :=
  ⟨h.id.symm, h.peers.symm, h.state.symm, h.term.symm, h.votes.symm, h.votedFor.symm, h.removed.symm⟩

theorem SameVotes.trans (h1 : SameVotes a b) (h2 : SameVotes b c) : SameVotes a c :=
  ⟨h2.id.trans h1.id, h2.peers.trans h1.peers, h2.state.trans h1.state, h2.term.trans h1.term,
    h2.votes.trans h1.votes, h2.votedFor.trans h1.votedFor, h2.removed.trans h1.removed⟩

theorem SameProgress.refl (r : Raft) : SameProgress r r := ⟨rfl, rfl, rfl, rfl⟩

theorem SameProgress.trans (h1 : SameProgress a b) (h2 : SameProgress b c) : SameProgress a c :=
  ⟨h2.commit.trans h1.commit, h2.applied.trans h1.applied, h2.next.trans h1.next, h2.matched.trans h1.matched⟩

theorem SameRest.refl (r : Raft) : SameRest r r := ⟨.refl r, .refl r, rfl, rfl⟩

theorem SameRest.trans (h1 : SameRest a b) (h2 : SameRest b c) : SameRest a c :=
  ⟨h1.toSameVotes.trans h2.toSameVotes, h1.toSameProgress.trans h2.toSameProgress, h2.metaFile.trans h1.metaFile,
    h2.hint.trans h1.hint⟩

theorem StepDown.trans_same (h1 : StepDown a b) (h2 : SameVotes b c) : StepDown a c :=
  ⟨h2.id.trans h1.id, h2.peers.trans h1.peers, h2.state.trans h1.state, by rw [h2.term]; exact h1.term,
    h2.votedFor.trans h1.votedFor, h2.removed.trans h1.removed⟩

theorem SameOrDown.trans_same (h1 : SameOrDown a b) (h2 : SameVotes b c) : SameOrDown a c :=
  h1.imp (·.trans h2) (·.trans_same h2)

/-! ## Functions that leave the voting state alone -/

theorem saveLog_rest (r : Raft) (ok : Bool) : SameRest r (r.saveLog ok) := by
  unfold saveLog; split <;> exact ⟨⟨rfl, rfl, rfl, rfl, rfl, rfl, rfl⟩, ⟨rfl, rfl, rfl, rfl⟩, rfl, rfl⟩

theorem SameRest.saveLog (h : SameRest a b) (ok : Bool) : SameRest a (b.saveLog ok) :=
  h.trans (saveLog_rest b ok)

theorem createSnapshotLocked_rest (r : Raft) (io : Io) : SameRest r (r.createSnapshotLocked io) := by
  have ho := createSnapshotLocked_outcome r io
  generalize r.createSnapshotLocked io = out at ho ⊢
  cases ho with
  | kept => exact .refl r
  | taken =>
    refine .saveLog ?_ _
    exact ⟨⟨rfl, rfl, rfl, rfl, rfl, rfl, rfl⟩, ⟨rfl, rfl, rfl, rfl⟩, rfl, rfl⟩

theorem propose_rest (r : Raft) (cmd : Command) (io : Io) : SameRest r (r.propose cmd io).1 := by
  unfold propose
  split
  · exact .refl r
  · refine .saveLog ?_ _
    exact ⟨⟨rfl, rfl, rfl, rfl, rfl, rfl, rfl⟩, ⟨rfl, rfl, rfl, rfl⟩, rfl, rfl⟩

theorem proposeConfigChange_rest (r : Raft) (type : ConfigChangeType) (nodeID : NodeID) (io : Io) :
    SameRest r (r.proposeConfigChange type nodeID io).1 := by
  have ho := proposeConfigChange_outcome r type nodeID io
  generalize r.proposeConfigChange type nodeID io = out at ho ⊢
  cases ho with
  | refused => exact .refl r
  | unsaved => exact ⟨⟨rfl, rfl, rfl, rfl, rfl, rfl, rfl⟩, ⟨rfl, rfl, rfl, rfl⟩, rfl, rfl⟩
  | appended =>
    refine .saveLog ?_ _
    exact ⟨⟨rfl, rfl, rfl, rfl, rfl, rfl, rfl⟩, ⟨rfl, rfl, rfl, rfl⟩, rfl, rfl⟩

theorem appliedWait_rest (r : Raft) (index : Int) : SameRest r (r.appliedWait index).1 := by
  unfold appliedWait; split <;> exact ⟨⟨rfl, rfl, rfl, rfl, rfl, rfl, rfl⟩, ⟨rfl, rfl, rfl, rfl⟩, rfl, rfl⟩

theorem closeWaiter_rest (r : Raft) : SameRest r r.closeWaiter := by
  unfold closeWaiter; split <;> exact ⟨⟨rfl, rfl, rfl, rfl, rfl, rfl, rfl⟩, ⟨rfl, rfl, rfl, rfl⟩, rfl, rfl⟩

theorem afterApply_rest (r : Raft) (io : Io) : SameRest r (r.afterApply io) := by
  unfold afterApply
  simp only
  split
  · exact (closeWaiter_rest r).trans (createSnapshotLocked_rest _ _)
  · exact closeWaiter_rest r

theorem saveMeta_same (r : Raft) (ok : Bool) : SameVotes r (r.saveMeta ok) := by
  unfold saveMeta; split <;> exact ⟨rfl, rfl, rfl, rfl, rfl, rfl, rfl⟩

theorem SameVotes.saveLog (h : SameVotes a b) (ok : Bool) : SameVotes a (b.saveLog ok) :=
  h.trans (saveLog_rest b ok).toSameVotes

theorem StepDown.saveMeta (h : StepDown a b) (ok : Bool) : StepDown a (b.saveMeta ok) :=
  h.trans_same (saveMeta_same b ok)

theorem advanceCommit_same (r : Raft) (leaderCommit : Int) : SameVotes r (r.advanceCommit leaderCommit) := by
  unfold advanceCommit; split <;> exact ⟨rfl, rfl, rfl, rfl, rfl, rfl, rfl⟩

theorem updateCommitIndexLocked_same (r : Raft) : SameVotes r r.updateCommitIndexLocked := by
  unfold updateCommitIndexLocked
  split
  · exact .refl r
  · split <;> exact ⟨rfl, rfl, rfl, rfl, rfl, rfl, rfl⟩

theorem snapshotSent_same (r : Raft) (p : NodeID) (snap : Snapshot) : SameVotes r (r.snapshotSent p snap) :=
  ⟨rfl, rfl, rfl, rfl, rfl, rfl, rfl⟩

theorem recordProgress_same (r : Raft) (a : AppendArgs) : SameVotes r (r.recordProgress a) := by
  unfold recordProgress; split <;> exact ⟨rfl, rfl, rfl, rfl, rfl, rfl, rfl⟩

/-! ## Functions that may step down -/

theorem adoptTerm_of_le {term : Int} (h : term ≤ r.term) (io : Io) : r.adoptTerm term io = r :=
  if_neg (by omega)

theorem adoptTerm_move (r : Raft) (term : Int) (io : Io) : SameOrDown r (r.adoptTerm term io) := by
  unfold adoptTerm
  split
  · rename_i h
    refine .inr (.saveMeta ?_ _)
    exact ⟨rfl, rfl, rfl, h, rfl, rfl⟩
  · exact .inl (.refl r)

theorem adoptTerm_term (r : Raft) (term : Int) (io : Io) (h : r.term ≤ term) :
    (r.adoptTerm term io).term = term := by
  unfold adoptTerm
  split
  · exact (saveMeta_same _ _).term
  · omega

theorem appendEntries_move (r : Raft) (req : AppendEntriesRequest) (io : Io) :
    SameOrDown r (r.appendEntries req io).1 := by
  have hm := adoptTerm_move r req.term io
  have ho := appendEntries_outcome r req io
  generalize r.appendEntries req io = out at ho ⊢
  cases ho with
  | ignored => exact .inl (.refl r)
  | refused => exact hm.trans_same ⟨rfl, rfl, rfl, rfl, rfl, rfl, rfl⟩
  | accepted =>
    refine hm.trans_same (SameVotes.trans ?_ (advanceCommit_same _ _))
    refine .saveLog ?_ _
    exact ⟨rfl, rfl, rfl, rfl, rfl, rfl, rfl⟩

theorem installSnapshot_move (r : Raft) (req : InstallSnapshotRequest) (io : Io) :
    SameOrDown r (r.installSnapshot req io).1 := by
  have ho := installSnapshot_outcome r req io
  generalize r.installSnapshot req io = out at ho ⊢
  cases ho with
  | stale => exact .inl (.refl r)
  | installed =>
    have hs := saveLog_rest (r.afterInstalling req io) io.saveLog
    refine (adoptTerm_move r req.term io).trans_same ?_
    exact ⟨hs.id, hs.peers, hs.state, hs.term, hs.votes, hs.votedFor, hs.removed⟩

theorem handleAppendResponse_same {resp : AppendEntriesResponse} (ht : resp.term ≤ r.term) (a : AppendArgs) (io : Io) :
    SameVotes r (r.handleAppendResponse a resp io).1 := by
  have ho := handleAppendResponse_outcome r a resp io
  generalize r.handleAppendResponse a resp io = out at ho ⊢
  cases ho with
  | newer h => omega
  | transfer => exact .refl r
  | backed => exact ⟨rfl, rfl, rfl, rfl, rfl, rfl, rfl⟩
  | ignored => exact .refl r
  | counted => exact (recordProgress_same r a).trans (updateCommitIndexLocked_same _)

theorem handleAppendResponse_move (r : Raft) (a : AppendArgs) (resp : AppendEntriesResponse) (io : Io) :
    SameOrDown r (r.handleAppendResponse a resp io).1 := by
  rcases Int.lt_or_le r.term resp.term with ht | ht
  · have ho := handleAppendResponse_outcome r a resp io
    generalize r.handleAppendResponse a resp io = out at ho ⊢
    cases ho with
    | newer h =>
      refine .inr (.saveMeta ?_ _)
      exact ⟨rfl, rfl, rfl, ht, rfl, rfl⟩
    | _ => omega
  · exact .inl (handleAppendResponse_same ht a io)

theorem handleTimeoutNowResponse_move (r : Raft) (target : NodeID) (resp : TimeoutNowResponse) (io : Io) :
    SameOrDown r (r.handleTimeoutNowResponse target resp io) := by
  unfold handleTimeoutNowResponse
  split
  · rename_i h
    refine .inr (.saveMeta ?_ _)
    exact ⟨rfl, rfl, rfl, h, rfl, rfl⟩
  · exact .inl (.refl r)

/-! ## Votes -/

/-- What a granted vote says of the voter, with `r₁` its state after the step down. -/
theorem requestVote_granted {req : RequestVoteRequest} (h : (r.requestVote req io).2.voteGranted = true) :
    req.candidateId ≠ "" ∧ r.term ≤ req.term ∧
      ∃ r₁, r₁ = r.adoptTerm req.term io ∧ r₁.upToDate req = true ∧
        (r₁.votedFor = "" ∨ r₁.votedFor = req.candidateId) ∧
        SameVotes { r₁ with votedFor := req.candidateId } (r.requestVote req io).1 := by
  have ho := requestVote_outcome r req io
  generalize r.requestVote req io = out at h ho ⊢
  cases ho with
  | ignored => cases h
  | refused => cases h
  | granted hk ht hu hv =>
    refine ⟨?_, ht, _, rfl, hu, hv, ?_⟩
    · intro he
      unfold isKnownNode at hk
      simp [he] at hk
    · refine SameVotes.trans ?_ (saveMeta_same _ _)
      exact ⟨rfl, rfl, rfl, rfl, rfl, rfl, rfl⟩

theorem requestVote_refused {req : RequestVoteRequest} (h : (r.requestVote req io).2.voteGranted = false) :
    SameOrDown r (r.requestVote req io).1 := by
  have ho := requestVote_outcome r req io
  generalize r.requestVote req io = out at h ho ⊢
  cases ho with
  | ignored => exact .inl (.refl r)
  | refused => exact adoptTerm_move r _ io
  | granted => cases h

/-! ## Elections -/

/-- The node leads its term. -/
structure Elected (r r' : Raft) : Prop where
  id : r'.id = r.id
  peers : r'.peers = r.peers
  state : r'.state = .leader
  term : r'.term = r.term
  votedFor : r'.votedFor = r.votedFor
  removed : r'.removedFromCluster = r.removedFromCluster
  majority : r.majority ≤ r.votes

theorem becomeLeaderLocked_elected (h : r.majority ≤ r.votes) : Elected r r.becomeLeaderLocked.1 :=
  ⟨rfl, rfl, rfl, rfl, rfl, rfl, h⟩

/-- The node is a candidate of the next term with its own vote. -/
structure Campaign (r r' : Raft) : Prop where
  id : r'.id = r.id
  peers : r'.peers = r.peers
  state : r'.state = .candidate
  term : r'.term = r.term + 1
  votes : r'.votes = 1
  votedFor : r'.votedFor = r.id
  removed : r'.removedFromCluster = false

/-- An election is not started, is won at once by a node without peers, or begins with the requests
for votes. -/
theorem startElectionLocked_cases (r : Raft) (io : Io) :
    r.startElectionLocked io = (r, []) ∨
    ∃ r₁, Campaign r r₁ ∧
      ((Elected r₁ (r.startElectionLocked io).1 ∧ (r.startElectionLocked io).2 = [.heartbeatLoop]) ∨
        r.startElectionLocked io = (r₁, [.broadcastRequestVote (r.term + 1)])) := by
  have hs := saveMeta_same { r with state := .candidate, term := r.term + 1, votedFor := r.id } io.saveVote
  have hstands : r.removedFromCluster = false → Campaign r (r.standing io) :=
    fun hrem => ⟨hs.id, hs.peers, hs.state, hs.term, rfl, hs.votedFor, hs.removed.trans hrem⟩
  have ho := startElectionLocked_outcome r io
  generalize r.startElectionLocked io = out at ho ⊢
  cases ho with
  | removed => exact .inl rfl
  | elected h hv => exact .inr ⟨_, hstands h, .inl ⟨becomeLeaderLocked_elected hv, rfl⟩⟩
  | asks h =>
    refine .inr ⟨_, hstands h, .inr ?_⟩
    rw [(hstands h).term]

theorem startElectionLocked_tasks {t : Task} (h : t ∈ (r.startElectionLocked io).2) :
    t = .heartbeatLoop ∨ t = .broadcastRequestVote (r.term + 1) := by
  rcases startElectionLocked_cases r io with he | ⟨r₁, _, ⟨_, he⟩ | he⟩ <;> rw [he] at h
  · cases h
  · exact .inl (List.mem_singleton.1 h)
  · exact .inr (List.mem_singleton.1 h)

theorem electionTick_cases (r : Raft) (timeout : Int) (io : Io) :
    r.electionTick timeout io = (r, []) ∨ r.electionTick timeout io = r.startElectionLocked io := by
  unfold electionTick
  split
  · exact .inl rfl
  · split
    · exact .inl rfl
    · split
      · exact .inr rfl
      · exact .inl rfl

/-- A vote response deposes the node, counts, or is ignored; a counted vote may win the election. -/
theorem handleVoteResponse_cases (r : Raft) (resp : RequestVoteResponse) :
    (SameOrDown r (r.handleVoteResponse resp).1 ∧ (r.handleVoteResponse resp).2 = []) ∨
    (resp.voteGranted = true ∧ r.state = .candidate ∧
      ∃ r₁, r₁ = { r with votes := r.votes + 1 } ∧
        ((Elected r₁ (r.handleVoteResponse resp).1 ∧ (r.handleVoteResponse resp).2 = [.heartbeatLoop]) ∨
          r.handleVoteResponse resp = (r₁, []))) := by
  have ho := handleVoteResponse_outcome r resp
  generalize r.handleVoteResponse resp = out at ho ⊢
  cases ho with
  | newer h => exact .inl ⟨.inr ⟨rfl, rfl, rfl, h, rfl, rfl⟩, rfl⟩
  | ignored => exact .inl ⟨.inl (.refl r), rfl⟩
  | counted _ hs hg => exact .inr ⟨hg, hs, _, rfl, .inr rfl⟩
  | elected _ hs hg hv => exact .inr ⟨hg, hs, _, rfl, .inl ⟨becomeLeaderLocked_elected hv, rfl⟩⟩

theorem handleVoteResponse_tasks {resp : RequestVoteResponse} {t : Task} (h : t ∈ (r.handleVoteResponse resp).2) :
    t = .heartbeatLoop := by
  rcases handleVoteResponse_cases r resp with ⟨_, he⟩ | ⟨_, _, r₁, _, ⟨_, he⟩ | he⟩ <;> rw [he] at h
  · cases h
  · exact List.mem_singleton.1 h
  · cases h

theorem timeoutNow_cases (r : Raft) (req : TimeoutNowRequest) (io : Io) :
    ((r.timeoutNow req io).1 = r ∧ (r.timeoutNow req io).2.1 = []) ∨
    ∃ r₁, SameOrDown r r₁ ∧ (r.timeoutNow req io).1 = (r₁.startElectionLocked io).1 ∧
      (r.timeoutNow req io).2.1 = (r₁.startElectionLocked io).2 := by
  have ho := timeoutNow_outcome r req io
  generalize r.timeoutNow req io = out at ho ⊢
  cases ho with
  | ignored => exact .inl ⟨rfl, rfl⟩
  | starts => exact .inr ⟨_, adoptTerm_move r req.term io, rfl, rfl⟩

/-! ## Configuration entries -/

/-- The peers change; the rest of the voting state stays, or the node has removed itself. -/
structure Reconfigured (r r' : Raft) : Prop where
  id : r'.id = r.id
  term : r'.term = r.term
  peers : r.peers.Nodup → r.id ∉ r.peers → r'.peers.Nodup ∧ r.id ∉ r'.peers
  votes : (r'.state = r.state ∧ r'.votedFor = r.votedFor ∧ r'.removedFromCluster = r.removedFromCluster) ∨
    (r'.state = .follower ∧ r'.votedFor = "" ∧ r'.removedFromCluster = true)

theorem Reconfigured.trans_same (h1 : Reconfigured a b) (h2 : SameVotes b c) : Reconfigured a c := by
  refine ⟨h2.id.trans h1.id, h2.term.trans h1.term, by rw [h2.peers]; exact h1.peers, ?_⟩
  rw [h2.state, h2.votedFor, h2.removed]; exact h1.votes

theorem Reconfigured.of_same {r' : Raft} (h : SameVotes r r') : Reconfigured r r' :=
  ⟨h.id, h.term, by rw [h.peers]; exact fun h1 h2 => ⟨h1, h2⟩, .inl ⟨h.state, h.votedFor, h.removed⟩⟩

theorem SameVotes.trans_reconfigured (h1 : SameVotes a b) (h2 : Reconfigured b c) : Reconfigured a c := by
  refine ⟨h2.id.trans h1.id, h2.term.trans h1.term, ?_, ?_⟩
  · have h := h2.peers; rw [h1.id, h1.peers] at h; exact h
  · have h := h2.votes; rw [h1.state, h1.votedFor, h1.removed] at h; exact h

theorem applyConfigChangeLocked_reconfigured (r : Raft) (isAdd : Bool) (nodeID : NodeID) (io : Io) :
    Reconfigured r (r.applyConfigChangeLocked isAdd nodeID io) := by
  have ho := applyConfigChangeLocked_outcome r isAdd nodeID io
  generalize r.applyConfigChangeLocked isAdd nodeID io = out at ho ⊢
  cases ho with
  | self => exact .of_same (.refl r)
  | leaves =>
    refine Reconfigured.trans_same ?_ (saveMeta_same _ _)
    exact ⟨rfl, rfl, fun _ _ => by simp, .inr ⟨rfl, rfl, rfl⟩⟩
  | known => exact .of_same (saveMeta_same _ _)
  | added hid hc =>
    refine Reconfigured.trans_same ?_ (saveMeta_same _ _)
    refine ⟨rfl, rfl, fun hn hm => ⟨?_, ?_⟩, .inl ⟨rfl, rfl, rfl⟩⟩
    · refine List.nodup_append.2 ⟨hn, List.pairwise_singleton _ _, ?_⟩
      rintro p hp q hq rfl
      rw [List.mem_singleton] at hq
      rw [← hq, List.contains_iff_mem.2 hp] at hc
      cases hc
    · rw [List.mem_append, List.mem_singleton]
      rintro (h | h)
      · exact hm h
      · exact hid h.symm
  | dropped =>
    refine Reconfigured.trans_same ?_ (saveMeta_same _ _)
    exact ⟨rfl, rfl, fun hn hm => ⟨hn.filter _, fun h => hm (List.mem_filter.1 h).1⟩, .inl ⟨rfl, rfl, rfl⟩⟩

/-- The entry `takeNext` takes, if any. -/
def pendingEntry (r : Raft) : Option LogEntry :=
  if r.commitIndex > r.lastApplied then r.entryAt (r.lastApplied + 1) else none

theorem handleConfigChangeIfNeeded_same (r : Raft) (entry : LogEntry) (io : Io)
    (h : entry.data.isConfig = false) : r.handleConfigChangeIfNeeded entry io = r := by
  unfold handleConfigChangeIfNeeded
  unfold Command.isConfig at h
  split
  · rename_i hd; rw [hd] at h; cases h
  · rfl

theorem takeNext_eq (r : Raft) (io : Io) :
    r.takeNext io = match r.pendingEntry with
      | none => (r, none)
      | some e => (({ r with lastApplied := r.lastApplied + 1 }).handleConfigChangeIfNeeded e io, some e) := by
  unfold takeNext pendingEntry
  split
  · cases r.entryAt (r.lastApplied + 1) <;> rfl
  · rfl

theorem closeWaiter_pendingEntry (r : Raft) : r.closeWaiter.pendingEntry = r.pendingEntry := by
  unfold closeWaiter; split <;> rfl

/-- Only a leader takes a snapshot between two entries. -/
theorem afterApply_pendingEntry (h : r.state ≠ .leader) : (r.afterApply io).pendingEntry = r.pendingEntry := by
  unfold afterApply
  simp only
  rw [if_neg fun hc => h ((closeWaiter_rest r).state.symm.trans hc.1)]
  exact closeWaiter_pendingEntry r

/-- Without a configuration entry the applier moves nothing but `lastApplied`. -/
theorem takeNext_plain (r : Raft) (io : Io) (h : ∀ e, r.pendingEntry = some e → e.data.isConfig = false) :
    ∃ i, (r.takeNext io).1 = { r with lastApplied := i } := by
  rw [takeNext_eq]
  cases hp : r.pendingEntry with
  | none => exact ⟨r.lastApplied, rfl⟩
  | some e =>
    refine ⟨r.lastApplied + 1, ?_⟩
    exact handleConfigChangeIfNeeded_same _ _ _ (h e hp)

theorem takeNext_same (r : Raft) (io : Io) (h : ∀ e, r.pendingEntry = some e → e.data.isConfig = false) :
    SameVotes r (r.takeNext io).1 := by
  obtain ⟨i, hi⟩ := takeNext_plain r io h
  rw [hi]
  exact ⟨rfl, rfl, rfl, rfl, rfl, rfl, rfl⟩

theorem takeNext_reconfigured (r : Raft) (io : Io) : Reconfigured r (r.takeNext io).1 := by
  rw [takeNext_eq]
  cases r.pendingEntry with
  | none => exact .of_same (.refl r)
  | some e =>
    simp only
    refine SameVotes.trans_reconfigured (b := { r with lastApplied := r.lastApplied + 1 })
      ⟨rfl, rfl, rfl, rfl, rfl, rfl, rfl⟩ ?_
    unfold handleConfigChangeIfNeeded
    split
    · exact applyConfigChangeLocked_reconfigured ..
    · exact .of_same (.refl _)

end Raft

end Mimori
