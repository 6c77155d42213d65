/-
Leader hints. `leader` is whom a node takes for the leader, and `electionReset` the time from which its
election timer and its read lease run. A node that hears a leader sets both. The other functions leave
them alone or change one of the two: a granted vote restarts the timer, an election is won, the target of
a transfer answers, a node is removed. This module says which function does what to them, and nothing
sets `leader` when a newer term makes a node a follower.
-/
import Mimori.Storage.Removed

namespace Mimori

open Raft

namespace Raft

/-! ## Functions that leave the hint alone -/

theorem saveMeta_hint (r : Raft) (ok : Bool) : (r.saveMeta ok).hint = r.hint := by
  unfold saveMeta; split <;> rfl

theorem advanceCommit_hint (r : Raft) (leaderCommit : Int) : (r.advanceCommit leaderCommit).hint = r.hint := by
  unfold advanceCommit; split <;> rfl

theorem updateCommitIndexLocked_hint (r : Raft) : r.updateCommitIndexLocked.hint = r.hint := by
  unfold updateCommitIndexLocked
  split
  · rfl
  · split <;> rfl

theorem recordProgress_hint (r : Raft) (a : AppendArgs) : (r.recordProgress a).hint = r.hint := by
  unfold recordProgress; split <;> rfl

theorem adoptTerm_hint (r : Raft) (term : Int) (io : Io) : (r.adoptTerm term io).hint = r.hint := by
  unfold adoptTerm
  split
  · exact saveMeta_hint ..
  · rfl

theorem installSnapshot_hint (r : Raft) (req : InstallSnapshotRequest) (io : Io) :
    (r.installSnapshot req io).1.hint = r.hint := by
  have ho := installSnapshot_outcome r req io
  generalize r.installSnapshot req io = out at ho ⊢
  cases ho with
  | stale => rfl
  | installed => exact (saveLog_rest (r.afterInstalling req io) io.saveLog).hint.trans (adoptTerm_hint r req.term io)

theorem handleAppendResponse_hint (r : Raft) (a : AppendArgs) (resp : AppendEntriesResponse) (io : Io) :
    (r.handleAppendResponse a resp io).1.hint = r.hint := by
  have ho := handleAppendResponse_outcome r a resp io
  generalize r.handleAppendResponse a resp io = out at ho ⊢
  cases ho with
  | newer => exact saveMeta_hint ..
  | transfer => rfl
  | backed => rfl
  | ignored => rfl
  | counted => exact (updateCommitIndexLocked_hint _).trans (recordProgress_hint r a)

/-! ## Newer terms -/

/-- Role, term and hint are as they were. -/
structure SameRole (r r' : Raft) : Prop where
  state : r'.state = r.state
  term : r'.term = r.term
  removed : r'.removedFromCluster = r.removedFromCluster
  hint : r'.hint = r.hint

theorem SameVotes.role {r r' : Raft} (h : SameVotes r r') (hh : r'.hint = r.hint) : SameRole r r' :=
  ⟨h.state, h.term, h.removed, hh⟩

theorem SameRole.refl (r : Raft) : SameRole r r := ⟨rfl, rfl, rfl, rfl⟩

theorem SameRole.trans {a b c : Raft} (h1 : SameRole a b) (h2 : SameRole b c) : SameRole a c :=
  ⟨h2.state.trans h1.state, h2.term.trans h1.term, h2.removed.trans h1.removed, h2.hint.trans h1.hint⟩

/-- The node follows in a newer term, with the hint it had. -/
structure Deposed (r r' : Raft) : Prop where
  state : r'.state = .follower
  removed : r'.removedFromCluster = r.removedFromCluster
  hint : r'.hint = r.hint

theorem StepDown.deposed {r r' : Raft} (h : StepDown r r') (hh : r'.hint = r.hint) : Deposed r r' :=
  ⟨h.state, h.removed, hh⟩

theorem adoptTerm_role (r : Raft) (term : Int) (io : Io) :
    SameRole r (r.adoptTerm term io) ∨ (r.term < term ∧ Deposed r (r.adoptTerm term io)) := by
  rcases Int.lt_or_le r.term term with ht | ht
  · rcases adoptTerm_move r term io with h | h
    · exact .inl (h.role (adoptTerm_hint ..))
    · exact .inr ⟨ht, h.deposed (adoptTerm_hint ..)⟩
  · rw [adoptTerm_of_le ht]; exact .inl (.refl r)

theorem installSnapshot_role (r : Raft) (req : InstallSnapshotRequest) (io : Io) :
    SameRole r (r.installSnapshot req io).1 ∨ (r.term < req.term ∧ Deposed r (r.installSnapshot req io).1) := by
  rcases installSnapshot_move r req io with h | h
  · exact .inl (h.role (installSnapshot_hint ..))
  · refine .inr ⟨?_, h.deposed (installSnapshot_hint ..)⟩
    -- with an older term nothing is adopted, and the term stays
    by_contra hle
    have hterm : (r.installSnapshot req io).1.term = r.term := by
      have ho := installSnapshot_outcome r req io
      generalize r.installSnapshot req io = out at ho ⊢
      cases ho with
      | stale => rfl
      | installed =>
        refine (saveLog_rest (r.afterInstalling req io) io.saveLog).term.trans ?_
        show (r.adoptTerm req.term io).term = r.term
        rw [adoptTerm_of_le (by omega)]
    exact absurd hterm (by have := h.term; omega)

theorem handleAppendResponse_role (r : Raft) (a : AppendArgs) (resp : AppendEntriesResponse) (io : Io) :
    SameRole r (r.handleAppendResponse a resp io).1 ∨
      (r.term < resp.term ∧ Deposed r (r.handleAppendResponse a resp io).1) := by
  rcases Int.lt_or_le r.term resp.term with ht | ht
  · rcases handleAppendResponse_move r a resp io with h | h
    · exact .inl (h.role (handleAppendResponse_hint ..))
    · exact .inr ⟨ht, h.deposed (handleAppendResponse_hint ..)⟩
  · exact .inl ((handleAppendResponse_same ht a io).role (handleAppendResponse_hint ..))

/-- What a node is after it has seen a term that is not older. -/
theorem adoptTerm_known {r : Raft} {term : Int} (ht : r.term ≤ term) (io : Io) :
    ((r.term < term ∧ (r.adoptTerm term io).state = .follower) ∨
        (term = r.term ∧ (r.adoptTerm term io).state = r.state)) ∧
      (r.adoptTerm term io).term = term ∧ (r.adoptTerm term io).removedFromCluster = r.removedFromCluster := by
  have hterm := adoptTerm_term r term io ht
  rcases adoptTerm_move r term io with hm | hm
  · exact ⟨.inr ⟨hterm.symm.trans hm.term, hm.state⟩, hterm, hm.removed⟩
  · exact ⟨.inl ⟨by rw [← hterm]; exact hm.term, hm.state⟩, hterm, hm.removed⟩

/-! ## Hearing a leader -/

/-- The request passes the checks of sender and term. -/
def hears (r : Raft) (req : AppendEntriesRequest) : Bool :=
  r.isKnownNode req.leaderId && decide (r.term ≤ req.term)

/-- What a request leaves that passed the checks. -/
structure Heard (r r' : Raft) (req : AppendEntriesRequest) (now : Int) : Prop where
  state : (r.term < req.term ∧ r'.state = .follower) ∨ (req.term = r.term ∧ r'.state = r.state)
  term : r'.term = req.term
  removed : r'.removedFromCluster = r.removedFromCluster
  hint : r'.hint = (req.leaderId, now)

theorem appendEntries_heard {r : Raft} {req : AppendEntriesRequest} (h : r.hears req = true) (io : Io) :
    Heard r (r.appendEntries req io).1 req io.now := by
  simp only [hears, Bool.and_eq_true, decide_eq_true_eq] at h
  obtain ⟨hk, ht⟩ := h
  -- the node after its step down, with the new hint
  have key : ∀ r', SameVotes (r.adoptTerm req.term io) r' → r'.hint = (req.leaderId, io.now) → Heard r r' req io.now := by
    intro r' hs hh
    obtain ⟨hstate, hterm, hremoved⟩ := adoptTerm_known ht io
    exact ⟨by rw [hs.state]; exact hstate, hs.term.trans hterm, hs.removed.trans hremoved, hh⟩
  have ho := appendEntries_outcome r req io
  generalize r.appendEntries req io = out at ho ⊢
  cases ho with
  | ignored hno =>
    rcases hno with hno | hno
    · rw [hk] at hno
      cases hno
    · omega
  | refused => exact key _ ⟨rfl, rfl, rfl, rfl, rfl, rfl, rfl⟩ rfl
  | accepted =>
    refine key _ (SameVotes.trans (SameVotes.saveLog ?_ _) (advanceCommit_same ..))
      ((advanceCommit_hint ..).trans (saveLog_rest ..).hint)
    exact ⟨rfl, rfl, rfl, rfl, rfl, rfl, rfl⟩

theorem appendEntries_unheard {r : Raft} {req : AppendEntriesRequest} (h : r.hears req = false) (io : Io) :
    (r.appendEntries req io).1 = r := by
  have hno : r.isKnownNode req.leaderId = true → ¬ r.term ≤ req.term := by
    intro hk
    simpa [hears, hk] using h
  have ho := appendEntries_outcome r req io
  generalize r.appendEntries req io = out at ho ⊢
  cases ho with
  | ignored => rfl
  | refused hk ht => exact absurd ht (hno hk)
  | accepted hk ht => exact absurd ht (hno hk)

/-! ## Votes -/

/-- What a granted vote leaves: the timer is restarted, the leader is the one it was. -/
structure Grants (r r' : Raft) (req : RequestVoteRequest) (now : Int) : Prop where
  known : r.isKnownNode req.candidateId = true
  state : (r.term < req.term ∧ r'.state = .follower) ∨ (req.term = r.term ∧ r'.state = r.state)
  term : r'.term = req.term
  removed : r'.removedFromCluster = r.removedFromCluster
  hint : r'.hint = (r.leader, now)

theorem requestVote_role (r : Raft) (req : RequestVoteRequest) (io : Io) :
    ((r.requestVote req io).2.voteGranted = true ∧ Grants r (r.requestVote req io).1 req io.now) ∨
      SameRole r (r.requestVote req io).1 ∨
      (r.isKnownNode req.candidateId = true ∧ r.term < req.term ∧ Deposed r (r.requestVote req io).1) := by
  have hadopt : r.isKnownNode req.candidateId = true → SameRole r (r.adoptTerm req.term io) ∨
      (r.isKnownNode req.candidateId = true ∧ r.term < req.term ∧ Deposed r (r.adoptTerm req.term io)) :=
    fun hk => (adoptTerm_role r req.term io).imp_right fun h => ⟨hk, h⟩
  have ho := requestVote_outcome r req io
  generalize r.requestVote req io = out at ho ⊢
  cases ho with
  | ignored => exact .inr (.inl (.refl r))
  | refused hk => exact .inr (hadopt hk)
  | granted hk ht =>
    refine .inl ⟨rfl, ?_⟩
    have hs := saveMeta_same { r.adoptTerm req.term io with votedFor := req.candidateId, electionReset := io.now }
      io.saveVote
    obtain ⟨hstate, hterm, hremoved⟩ := adoptTerm_known ht io
    have hlead : (r.adoptTerm req.term io).leader = r.leader := congrArg Prod.fst (adoptTerm_hint r req.term io)
    refine ⟨hk, by rw [hs.state]; exact hstate, hs.term.trans hterm, hs.removed.trans hremoved, ?_⟩
    rw [saveMeta_hint]
    show ((r.adoptTerm req.term io).leader, io.now) = _
    rw [hlead]

/-! ## Elections -/

/-- The node asks for votes, or has won without asking. -/
inductive Stands (r r' : Raft) : Prop
  | asks (state : r'.state = .candidate) (leader : r'.leader = r.leader)
      (removed : r'.removedFromCluster = r.removedFromCluster)
  | wins (state : r'.state = .leader) (leader : r'.leader = r.id)
      (removed : r'.removedFromCluster = r.removedFromCluster)

theorem Stands.not_follower {r r' : Raft} (h : Stands r r') : r'.state ≠ .follower := by
  cases h with
  | asks hs => rw [hs]; decide
  | wins hs => rw [hs]; decide

theorem Stands.removed {r r' : Raft} (h : Stands r r') : r'.removedFromCluster = r.removedFromCluster := by
  cases h with
  | asks _ _ hr => exact hr
  | wins _ _ hr => exact hr

theorem startElectionLocked_role (r : Raft) (io : Io) :
    (r.removedFromCluster = true ∧ (r.startElectionLocked io).1 = r) ∨
      (r.removedFromCluster = false ∧ Stands r (r.startElectionLocked io).1) := by
  have hs := saveMeta_same { r with state := .candidate, term := r.term + 1, votedFor := r.id } io.saveVote
  have hh := saveMeta_hint { r with state := .candidate, term := r.term + 1, votedFor := r.id } io.saveVote
  have ho := startElectionLocked_outcome r io
  generalize r.startElectionLocked io = out at ho ⊢
  cases ho with
  | removed hrem => exact .inl ⟨hrem, rfl⟩
  | elected hrem => exact .inr ⟨hrem, .wins rfl hs.id hs.removed⟩
  | asks hrem => exact .inr ⟨hrem, .asks hs.state (congrArg Prod.fst hh) hs.removed⟩

theorem timeoutNow_role (r : Raft) (req : TimeoutNowRequest) (io : Io) :
    (r.timeoutNow req io).1 = r ∨ (req.leaderId = r.leader ∧
      ((r.removedFromCluster = true ∧ (r.timeoutNow req io).1.removedFromCluster = true ∧
          (r.timeoutNow req io).1.leader = r.leader) ∨
        (r.removedFromCluster = false ∧ Stands r (r.timeoutNow req io).1))) := by
  have ho := timeoutNow_outcome r req io
  generalize r.timeoutNow req io = out at ho ⊢
  cases ho with
  | ignored => exact .inl rfl
  | starts hl =>
    refine .inr ⟨hl, ?_⟩
    have hlead : (r.adoptTerm req.term io).leader = r.leader := congrArg Prod.fst (adoptTerm_hint ..)
    have hsame : (r.adoptTerm req.term io).id = r.id ∧
        (r.adoptTerm req.term io).removedFromCluster = r.removedFromCluster := by
      rcases adoptTerm_move r req.term io with hm | hm
      · exact ⟨hm.id, hm.removed⟩
      · exact ⟨hm.id, hm.removed⟩
    rcases startElectionLocked_role (r.adoptTerm req.term io) io with ⟨hrem, h⟩ | ⟨hrem, h⟩
    · simp only [h]
      exact .inl ⟨hsame.2.symm.trans hrem, hrem, hlead⟩
    · refine .inr ⟨hsame.2.symm.trans hrem, ?_⟩
      cases h with
      | asks h1 h2 h3 => exact .asks h1 (h2.trans hlead) (h3.trans hsame.2)
      | wins h1 h2 h3 => exact .wins h1 (h2.trans hsame.1) (h3.trans hsame.2)

theorem handleVoteResponse_role (r : Raft) (resp : RequestVoteResponse) :
    SameRole r (r.handleVoteResponse resp).1 ∨
      (r.term < resp.term ∧ Deposed r (r.handleVoteResponse resp).1) ∨
      (r.state = .candidate ∧ Stands r (r.handleVoteResponse resp).1) := by
  have ho := handleVoteResponse_outcome r resp
  generalize r.handleVoteResponse resp = out at ho ⊢
  cases ho with
  | newer ht => exact .inr (.inl ⟨ht, rfl, rfl, rfl⟩)
  | ignored => exact .inl (.refl r)
  | counted => exact .inl ⟨rfl, rfl, rfl, rfl⟩
  | elected _ hs => exact .inr (.inr ⟨hs, .wins rfl rfl rfl⟩)

/-! ## Configuration entries -/

/-- The node has left the cluster and follows nobody. -/
structure Leaves (r' : Raft) : Prop where
  state : r'.state = .follower
  removed : r'.removedFromCluster = true
  leader : r'.leader = ""

theorem handleConfigChangeIfNeeded_role (r : Raft) (e : LogEntry) (io : Io) :
    SameRole r (r.handleConfigChangeIfNeeded e io) ∨ Leaves (r.handleConfigChangeIfNeeded e io) := by
  rcases handleConfigChangeIfNeeded_outcome r e io with h | ⟨_, _, ho⟩
  · rw [h]
    exact .inl (.refl r)
  · generalize r.handleConfigChangeIfNeeded e io = out at ho ⊢
    cases ho with
    | self => exact .inl (.refl r)
    | leaves => exact .inr ⟨(saveMeta_same ..).state, (saveMeta_same ..).removed, congrArg Prod.fst (saveMeta_hint ..)⟩
    | _ => exact .inl ⟨(saveMeta_same ..).state, (saveMeta_same ..).term, (saveMeta_same ..).removed, saveMeta_hint ..⟩

theorem takeNext_role (r : Raft) (io : Io) : SameRole r (r.takeNext io).1 ∨ Leaves (r.takeNext io).1 := by
  rw [takeNext_eq]
  cases r.pendingEntry with
  | none => exact .inl (.refl r)
  | some e =>
    rcases handleConfigChangeIfNeeded_role { r with lastApplied := r.lastApplied + 1 } e io with h | h
    · exact .inl ⟨h.state, h.term, h.removed, h.hint⟩
    · exact .inr h

end Raft

namespace Cluster

/-! ## A step -/

/-- The node that a message other than AppendEntries and TimeoutNow reaches, and the term it brings: a
request for a vote, a snapshot, or the answer to a request for a vote or to AppendEntries. -/
def termBrought (s : Cluster) : Action → Option (NodeID × Int)
  | .deliver call _ =>
    match s.requests[call]? with
    | some ⟨_, n, .requestVote req⟩ =>
      if (s.raft n).isKnownNode req.candidateId then some (n, req.term) else none
    | some ⟨_, n, .installSnapshot req⟩ => some (n, req.term)
    | _ => none
  | .run i (.reply j) _ =>
    match s.tasks[i]? with
    | some (n, .awaitVote _ _ call) =>
      match s.replyTo call j with
      | some (.requestVote resp) => some (n, resp.term)
      | _ => none
    | some (n, .awaitAppend _ call) =>
      match s.replyTo call j with
      | some (.appendEntries resp) => some (n, resp.term)
      | _ => none
    | _ => none
  | _ => none

/-- What an action does to role and hint of the node it runs on. -/
inductive HintStep (s : Cluster) (n : NodeID) (r : Raft) : Action → Prop
  | same (a : Action) (h : SameRole (s.raft n) r) : HintStep s n r a
  | heard (call : Nat) (io : Io) (src : NodeID) (req : AppendEntriesRequest)
      (hp : s.requests[call]? = some ⟨src, n, .appendEntries req⟩) (hk : (s.raft n).hears req = true)
      (h : Heard (s.raft n) r req s.clock) : HintStep s n r (.deliver call io)
  | deposed (a : Action) (T : Int) (ha : s.termBrought a = some (n, T)) (ht : (s.raft n).term < T)
      (h : Deposed (s.raft n) r) : HintStep s n r a
  | granted (call : Nat) (io : Io) (src : NodeID) (req : RequestVoteRequest)
      (hp : s.requests[call]? = some ⟨src, n, .requestVote req⟩)
      (hg : ((s.raft n).requestVote req (s.envOf n io)).2.voteGranted = true)
      (h : Grants (s.raft n) r req s.clock) : HintStep s n r (.deliver call io)
  | timeout (timeout : Int) (io : Io) (hs : (s.raft n).state ≠ .leader)
      (hrem : (s.raft n).removedFromCluster = false) (h : Stands (s.raft n) r) :
      HintStep s n r (.electionTimeout n timeout io)
  | asked (call : Nat) (io : Io) (src : NodeID) (req : TimeoutNowRequest)
      (hp : s.requests[call]? = some ⟨src, n, .timeoutNow req⟩) (hl : req.leaderId = (s.raft n).leader)
      (h : ((s.raft n).removedFromCluster = true ∧ r.removedFromCluster = true ∧ r.leader = (s.raft n).leader) ∨
        ((s.raft n).removedFromCluster = false ∧ Stands (s.raft n) r)) : HintStep s n r (.deliver call io)
  | elected (i j : Nat) (io : Io) (hc : (s.raft n).state = .candidate) (h : Stands (s.raft n) r) :
      HintStep s n r (.run i (.reply j) io)
  | transferred (i j : Nat) (io : Io) (target : NodeID) (call : Nat) (resp : TimeoutNowResponse)
      (hx : s.tasks[i]? = some (n, .awaitTimeoutNow target call)) (hr : s.replyTo call j = some (.timeoutNow resp))
      (ht : (s.raft n).term < resp.term) (hrem : r.removedFromCluster = (s.raft n).removedFromCluster)
      (hh : r.hint = (target, (s.raft n).electionReset)) : HintStep s n r (.run i (.reply j) io)
  | left (a : Action) (h : Leaves r) : HintStep s n r a

variable {s s' : Cluster} {a : Action} {n : NodeID} {r : Raft}

theorem NodeStep.hint (h : NodeStep s a n r) : HintStep s n r a := by
  have hsame : ∀ {r : Raft}, SameVotes (s.raft n) r → r.hint = (s.raft n).hint → HintStep s n r a :=
    fun h1 h2 => .same _ (h1.role h2)
  cases h with
  | electionTick _ timeout io =>
    unfold Raft.electionTick
    split
    · exact .same _ (.refl _)
    · rename_i hrem
      split
      · exact .same _ (.refl _)
      · rename_i hl
        split
        · rcases startElectionLocked_role (s.raft n) (s.envOf n io) with ⟨hr, _⟩ | ⟨hr, h⟩
          · exact absurd hr hrem
          · exact .timeout _ _ hl hr h
        · exact .same _ (.refl _)
  | requestVote call io src _ req hp =>
    rcases requestVote_role (s.raft n) req (s.envOf n io) with ⟨hg, h⟩ | h | ⟨hk, ht, h⟩
    · exact .granted _ _ _ _ hp hg h
    · exact .same _ h
    · exact .deposed _ _ (by simp only [termBrought, hp, hk, if_true]) ht h
  | appendEntries call io src _ req hp =>
    cases hk : (s.raft n).hears req with
    | true => exact .heard _ _ _ _ hp hk (appendEntries_heard hk _)
    | false => rw [appendEntries_unheard hk]; exact .same _ (.refl _)
  | installSnapshot call io src _ req hp =>
    rcases installSnapshot_role (s.raft n) req (s.envOf n io) with h | ⟨ht, h⟩
    · exact .same _ h
    · exact .deposed _ _ (by simp only [termBrought, hp]) ht h
  | timeoutNow call io src _ req hp =>
    rcases timeoutNow_role (s.raft n) req (s.envOf n io) with h | ⟨hl, h⟩
    · rw [h]; exact .same _ (.refl _)
    · exact .asked _ _ _ _ hp hl h
  | voteAnswer i j io _ p T call resp hx hr =>
    rcases handleVoteResponse_role (s.raft n) resp with h | ⟨ht, h⟩ | ⟨hc, h⟩
    · exact .same _ h
    · exact .deposed _ _ (by simp only [termBrought, hx, hr]) ht h
    · exact .elected _ _ _ hc h
  | appendAnswer i j io _ args call resp hx hr =>
    rcases handleAppendResponse_role (s.raft n) args resp (s.envOf n io) with h | ⟨ht, h⟩
    · exact .same _ h
    · exact .deposed _ _ (by simp only [termBrought, hx, hr]) ht h
  | transferAnswer i j io _ target call resp hx hr =>
    unfold handleTimeoutNowResponse
    split
    · rename_i ht
      exact .transferred _ _ _ _ _ _ hx hr ht (saveMeta_same ..).removed (saveMeta_hint ..)
    · exact .same _ (.refl _)
  | snapshotAnswer => exact hsame (snapshotSent_same ..) rfl
  | alone => exact hsame (updateCommitIndexLocked_same _) (updateCommitIndexLocked_hint _)
  | wait => exact hsame (appliedWait_rest ..).toSameVotes (appliedWait_rest ..).hint
  | propose => exact hsame (propose_rest ..).toSameVotes (propose_rest ..).hint
  | proposeTask => exact hsame (propose_rest ..).toSameVotes (propose_rest ..).hint
  | configChange => exact hsame (proposeConfigChange_rest ..).toSameVotes (proposeConfigChange_rest ..).hint
  | forceSnapshot => exact hsame (createSnapshotLocked_rest ..).toSameVotes (createSnapshotLocked_rest ..).hint
  | applierTake _ io =>
    rcases takeNext_role (s.raft n) (s.envOf n io) with h | h
    · exact .same _ h
    · exact .left _ h
  | applierDone _ io =>
    have hd := (afterApply_rest (s.raft n) (s.envOf n io)).toSameVotes.role (afterApply_rest ..).hint
    rcases takeNext_role ((s.raft n).afterApply (s.envOf n io)) (s.envOf n io) with h | h
    · exact .same _ (hd.trans h)
    · exact .left _ h

/-! ## Restarts -/

theorem new_unled (n : NodeID) (peers : List NodeID) (d : Disk) (io : Io) :
    (Raft.new n peers d io).leader = "" ∧ (Raft.new n peers d io).state = .follower := by
  have hreplay : ((unreplayed n peers d io).replayConfigChanges io).leader = "" ∧
      ((unreplayed n peers d io).replayConfigChanges io).state = .follower := by
    rw [replayConfigChanges_eq]
    refine List.foldlRecOn (motive := fun r : Raft => r.leader = "" ∧ r.state = .follower) _ _ ⟨rfl, rfl⟩
      fun r ⟨hl, hf⟩ e _ => ?_
    rcases handleConfigChangeIfNeeded_role r e io with h | h
    · exact ⟨(congrArg Prod.fst h.hint).trans hl, h.state.trans hf⟩
    · exact ⟨h.leader, h.state⟩
  rw [new_eq]
  exact hreplay

/-- A step of a run with restarts leaves a node alone, runs a function on it, or starts it anew. -/
theorem restartStep_hint {l : RestartAction} (hs : s.restartStep l = some s') (n : NodeID) :
    s'.raft n = s.raft n ∨ (∃ a, l = .life (.step a) ∧ HintStep s n (s'.raft n) a) ∨
      ((s'.raft n).leader = "" ∧ (s'.raft n).state = .follower) := by
  rcases restartStep_cases hs with ⟨a, rfl, hs⟩ | ⟨m, d, start, _, rfl⟩
  · rcases step_at hs n with heq | ⟨_, hm⟩
    · exact .inl heq
    · exact .inr (.inl ⟨a, rfl, hm.hint⟩)
  · rw [restart_raft]
    split
    · exact .inr (.inr (new_unled m _ d start))
    · exact .inl rfl

end Cluster

end Mimori
