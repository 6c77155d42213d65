/-
How a step moves the indices a node keeps beside its log: `commitIndex`, `lastApplied`, and a leader's
`nextIndex` and `matchIndex`.
-/
import Mimori.Log.Change

namespace Mimori

open Raft

namespace Raft

/-! ## Functions that leave the indices alone -/

theorem saveMeta_progress (r : Raft) (ok : Bool) : SameProgress r (r.saveMeta ok) := by
  unfold saveMeta; split <;> exact ⟨rfl, rfl, rfl, rfl⟩

theorem SameProgress.saveMeta {a b : Raft} (h : SameProgress a b) (ok : Bool) : SameProgress a (b.saveMeta ok) :=
  h.trans (saveMeta_progress b ok)

theorem adoptTerm_progress (r : Raft) (term : Int) (io : Io) : SameProgress r (r.adoptTerm term io) := by
  unfold adoptTerm
  split
  · refine .saveMeta ?_ _
    exact ⟨rfl, rfl, rfl, rfl⟩
  · exact .refl r

theorem requestVote_progress (r : Raft) (req : RequestVoteRequest) (io : Io) :
    SameProgress r (r.requestVote req io).1 := by
  have h := adoptTerm_progress r req.term io
  have ho := requestVote_outcome r req io
  generalize r.requestVote req io = out at ho ⊢
  cases ho with
  | ignored => exact .refl r
  | refused => exact h
  | granted =>
    refine .saveMeta ?_ _
    exact h.trans ⟨rfl, rfl, rfl, rfl⟩

theorem handleTimeoutNowResponse_progress (r : Raft) (target : NodeID) (resp : TimeoutNowResponse) (io : Io) :
    SameProgress r (r.handleTimeoutNowResponse target resp io) := by
  unfold handleTimeoutNowResponse
  split
  · refine .saveMeta ?_ _
    exact ⟨rfl, rfl, rfl, rfl⟩
  · exact .refl r

/-! ## Functions that move them -/

/-- A new leader expects every peer to have the log up to its own last entry, and knows of nothing
beyond the base. -/
structure TakesOffice (r r' : Raft) : Prop where
  state : r'.state = .leader
  commit : r'.commitIndex = r.commitIndex
  applied : r'.lastApplied = r.lastApplied
  next : r'.nextIndex = r.nextIndex.setAll r.peers (r.lastLogIndex + 1)
  matched : r'.matchIndex = r.matchIndex.setAll r.peers r.logBaseIndex

theorem becomeLeaderLocked_takesOffice (r : Raft) : TakesOffice r r.becomeLeaderLocked.1 := ⟨rfl, rfl, rfl, rfl, rfl⟩

/-- What a node does before it takes office does not matter, as long as it keeps peers, log and indices. -/
theorem TakesOffice.of_same {a b c : Raft} (h : TakesOffice b c) (hp : b.peers = a.peers) (hl : SameLog a b)
    (hs : SameProgress a b) : TakesOffice a c := by
  have hlast : b.lastLogIndex = a.lastLogIndex := by unfold Raft.lastLogIndex; rw [hl.log, hl.base]
  refine ⟨h.state, h.commit.trans hs.commit, h.applied.trans hs.applied, ?_, ?_⟩
  · rw [h.next, hs.next, hp, hlast]
  · rw [h.matched, hs.matched, hp, hl.base]

/-- Nobody takes office: a leader led the same term before. -/
def NoNewLeader (r r' : Raft) : Prop := r'.state = .leader → r.state = .leader ∧ r'.term = r.term

theorem NoNewLeader.refl (r : Raft) : NoNewLeader r r := fun h => ⟨h, rfl⟩

theorem NoNewLeader.of_ne {r r' : Raft} (h : r'.state ≠ .leader) : NoNewLeader r r' := fun hl => absurd hl h

theorem SameVotes.noNewLeader {r r' : Raft} (h : SameVotes r r') : NoNewLeader r r' :=
  fun hl => ⟨h.state ▸ hl, h.term⟩

theorem SameOrDown.noNewLeader {r r' : Raft} (h : SameOrDown r r') : NoNewLeader r r' := by
  rcases h with h | h
  · exact h.noNewLeader
  · exact .of_ne (by rw [h.state]; exact nofun)

theorem Reconfigured.noNewLeader {r r' : Raft} (h : Reconfigured r r') : NoNewLeader r r' := by
  intro hl
  rcases h.votes with ⟨hs, _⟩ | ⟨hs, _⟩
  · exact ⟨hs ▸ hl, h.term⟩
  · rw [hs] at hl; cases hl

theorem startElectionLocked_progress (r : Raft) (io : Io) :
    (SameProgress r (r.startElectionLocked io).1 ∧ NoNewLeader r (r.startElectionLocked io).1) ∨
      TakesOffice r (r.startElectionLocked io).1 := by
  have hs := saveMeta_progress { r with state := .candidate, term := r.term + 1, votedFor := r.id } io.saveVote
  have hl := saveMeta_data { r with state := .candidate, term := r.term + 1, votedFor := r.id } io.saveVote
  have hv := saveMeta_same { r with state := .candidate, term := r.term + 1, votedFor := r.id } io.saveVote
  have ho := startElectionLocked_outcome r io
  generalize r.startElectionLocked io = out at ho ⊢
  cases ho with
  | removed => exact .inl ⟨.refl r, .refl r⟩
  | elected =>
    refine .inr ((becomeLeaderLocked_takesOffice (r.standing io)).of_same hv.peers ?_ ?_)
    · exact ⟨hl.log, hl.base, hl.snapshot, hl.file⟩
    · exact ⟨hs.commit, hs.applied, hs.next, hs.matched⟩
  | asks =>
    refine .inl ⟨⟨hs.commit, hs.applied, hs.next, hs.matched⟩, .of_ne ?_⟩
    have hstate : (r.standing io).state = .candidate := hv.state
    simp only [hstate]
    exact nofun

theorem electionTick_progress (r : Raft) (timeout : Int) (io : Io) :
    (SameProgress r (r.electionTick timeout io).1 ∧ NoNewLeader r (r.electionTick timeout io).1) ∨
      TakesOffice r (r.electionTick timeout io).1 := by
  rcases electionTick_cases r timeout io with h | h <;> rw [h]
  · exact .inl ⟨.refl r, .refl r⟩
  · exact startElectionLocked_progress r io

theorem handleVoteResponse_progress (r : Raft) (resp : RequestVoteResponse) :
    (SameProgress r (r.handleVoteResponse resp).1 ∧ NoNewLeader r (r.handleVoteResponse resp).1) ∨
      TakesOffice r (r.handleVoteResponse resp).1 := by
  have ho := handleVoteResponse_outcome r resp
  generalize r.handleVoteResponse resp = out at ho ⊢
  cases ho with
  | newer => exact .inl ⟨⟨rfl, rfl, rfl, rfl⟩, .of_ne nofun⟩
  | ignored => exact .inl ⟨.refl r, .refl r⟩
  | counted => exact .inl ⟨⟨rfl, rfl, rfl, rfl⟩, fun hl => ⟨hl, rfl⟩⟩
  | elected => exact .inr ⟨rfl, rfl, rfl, rfl, rfl⟩

theorem timeoutNow_progress (r : Raft) (req : TimeoutNowRequest) (io : Io) :
    (SameProgress r (r.timeoutNow req io).1 ∧ NoNewLeader r (r.timeoutNow req io).1) ∨
      TakesOffice r (r.timeoutNow req io).1 := by
  have ho := timeoutNow_outcome r req io
  generalize r.timeoutNow req io = out at ho ⊢
  cases ho with
  | ignored => exact .inl ⟨.refl r, .refl r⟩
  | starts =>
    have hs := adoptTerm_progress r req.term io
    have hm := adoptTerm_move r req.term io
    rcases startElectionLocked_progress (r.adoptTerm req.term io) io with ⟨h, hl⟩ | h
    · refine .inl ⟨hs.trans h, fun hst => ?_⟩
      obtain ⟨h1, h2⟩ := hl hst
      obtain ⟨h3, h4⟩ := hm.noNewLeader h1
      exact ⟨h3, h2.trans h4⟩
    · have hp : (r.adoptTerm req.term io).peers = r.peers := by
        rcases hm with hm | hm <;> exact hm.peers
      exact .inr (h.of_same hp (adoptTerm_data r req.term io).toSameLog hs)

/-- The commit index after an accepted request. -/
structure Follows (r r' : Raft) (leaderCommit : Int) : Prop where
  commit : r'.commitIndex = if leaderCommit > r.commitIndex then
    (if leaderCommit < r'.lastLogIndex then leaderCommit else r'.lastLogIndex) else r.commitIndex
  applied : r'.lastApplied = r.lastApplied
  next : r'.nextIndex = r.nextIndex
  matched : r'.matchIndex = r.matchIndex

theorem advanceCommit_follows (r : Raft) (leaderCommit : Int) : Follows r (r.advanceCommit leaderCommit) leaderCommit := by
  unfold advanceCommit
  split
  · rename_i h; exact ⟨by rw [if_pos h]; rfl, rfl, rfl, rfl⟩
  · rename_i h; exact ⟨by rw [if_neg h], rfl, rfl, rfl⟩

theorem appendEntries_follows (r : Raft) (req : AppendEntriesRequest) (io : Io) :
    ((r.appendEntries req io).2.success = false ∧ SameProgress r (r.appendEntries req io).1) ∨
      ((r.appendEntries req io).2.success = true ∧ Follows r (r.appendEntries req io).1 req.leaderCommit) := by
  have ha := adoptTerm_progress r req.term io
  have ho := appendEntries_outcome r req io
  generalize r.appendEntries req io = out at ho ⊢
  cases ho with
  | ignored => exact .inl ⟨rfl, .refl r⟩
  | refused => exact .inl ⟨rfl, ha.commit, ha.applied, ha.next, ha.matched⟩
  | accepted =>
    right
    have hs := saveLog_rest (r.afterMerging req io) io.saveLog
    have hf := advanceCommit_follows ((r.afterMerging req io).saveLog io.saveLog) req.leaderCommit
    have hc := hf.commit
    rw [hs.commit] at hc
    refine ⟨rfl, ?_, hf.applied.trans (hs.applied.trans ha.applied), hf.next.trans (hs.next.trans ha.next),
      hf.matched.trans (hs.matched.trans ha.matched)⟩
    rw [← ha.commit]; exact hc

theorem installSnapshot_progress (r : Raft) (req : InstallSnapshotRequest) (io : Io) :
    (req.term < r.term ∧ (r.installSnapshot req io).1 = r) ∨
      ((r.installSnapshot req io).1.commitIndex = req.lastIncludedIndex ∧
        (r.installSnapshot req io).1.lastApplied = req.lastIncludedIndex ∧
        (r.installSnapshot req io).1.nextIndex = r.nextIndex ∧
        (r.installSnapshot req io).1.matchIndex = r.matchIndex) := by
  have ha := adoptTerm_progress r req.term io
  have ho := installSnapshot_outcome r req io
  generalize r.installSnapshot req io = out at ho ⊢
  cases ho with
  | stale ht => exact .inl ⟨ht, rfl⟩
  | installed =>
    have hs := saveLog_rest (r.afterInstalling req io) io.saveLog
    exact .inr ⟨rfl, rfl, hs.next.trans ha.next, hs.matched.trans ha.matched⟩

theorem installSnapshot_payload (r : Raft) (req : InstallSnapshotRequest) (io : Io) :
    (r.installSnapshot req io).2.1 =
      if req.term < r.term then none else if r.restorer then some req.data else none := by
  have hsave : ∀ (r₁ : Raft) (b : Bool), (r₁.saveLog b).restorer = r₁.restorer := by
    intro r₁ b
    unfold saveLog
    split <;> rfl
  have hadopt : (r.adoptTerm req.term io).restorer = r.restorer := by
    unfold adoptTerm saveMeta
    repeat' split
    all_goals rfl
  have ho := installSnapshot_outcome r req io
  generalize r.installSnapshot req io = out at ho ⊢
  cases ho with
  | stale h => rw [if_pos h]
  | installed h =>
    rw [if_neg (show ¬ req.term < r.term by omega), ← hadopt]
    show (if ((r.afterInstalling req io).saveLog io.saveLog).restorer then some req.data else none) = _
    rw [hsave]
    rfl

/-- A refused append answer moves the peer's next index one back, unless it is at the base. -/
structure Backtracks (r r' : Raft) (peer : NodeID) : Prop where
  commit : r'.commitIndex = r.commitIndex
  applied : r'.lastApplied = r.lastApplied
  next : r.logBaseIndex + 1 < r.nextIndex.get peer ∧
    r'.nextIndex = r.nextIndex.setAll [peer] (r.nextIndex.get peer - 1)
  matched : r'.matchIndex = r.matchIndex

theorem handleAppendResponse_progress (r : Raft) (a : AppendArgs) (resp : AppendEntriesResponse) (io : Io) :
    SameProgress r (r.handleAppendResponse a resp io).1 ∨
      Backtracks r (r.handleAppendResponse a resp io).1 a.peer ∨
      (resp.success = true ∧ resp.term ≤ r.term ∧ a.peer ∈ r.peers ∧
        (r.handleAppendResponse a resp io).1 = (r.recordProgress a).updateCommitIndexLocked) := by
  have ho := handleAppendResponse_outcome r a resp io
  generalize r.handleAppendResponse a resp io = out at ho ⊢
  cases ho with
  | newer =>
    refine .inl (.saveMeta ?_ _)
    exact ⟨rfl, rfl, rfl, rfl⟩
  | transfer => exact .inl (.refl r)
  | backed _ _ hn => exact .inr (.inl ⟨rfl, rfl, ⟨by omega, rfl⟩, rfl⟩)
  | ignored => exact .inl (.refl r)
  | counted ht hs hp => exact .inr (.inr ⟨hs, ht, hp, rfl⟩)

/-- A leader leaves its commit index alone, or moves it to an entry of its own term, beyond the old one,
that it counts on a majority. -/
theorem updateCommitIndexLocked_cases (r : Raft) :
    r.updateCommitIndexLocked = r ∨
      ∃ N e, r.updateCommitIndexLocked = { r with commitIndex := N } ∧ r.state = .leader ∧ r.commitIndex < N ∧
        N ≤ r.lastLogIndex ∧ r.entryAt N = some e ∧ e.term = r.term ∧ r.majority ≤ r.replicas N := by
  unfold updateCommitIndexLocked
  split
  · exact .inl rfl
  · rename_i hstate
    split
    · rename_i N hfind
      obtain ⟨k, hk, hN⟩ := List.mem_map.1 (List.mem_of_find?_eq_some hfind)
      have hk := List.mem_range.1 hk
      have hc := List.find?_some hfind
      unfold committable at hc
      split at hc
      · cases hc
      · rename_i e he
        simp only [Bool.and_eq_true, beq_iff_eq, decide_eq_true_eq] at hc
        exact .inr ⟨N, e, rfl, not_not.1 hstate, by omega, by omega, he, hc.1, hc.2⟩
    · exact .inl rfl

theorem recordProgress_indices (r : Raft) (a : AppendArgs) :
    (r.recordProgress a).commitIndex = r.commitIndex ∧ (r.recordProgress a).lastApplied = r.lastApplied := by
  unfold recordProgress; split <;> exact ⟨rfl, rfl⟩

theorem pendingEntry_some {r : Raft} {e : LogEntry} (h : r.pendingEntry = some e) :
    r.entryAt (r.lastApplied + 1) = some e ∧ r.lastApplied < r.commitIndex := by
  unfold pendingEntry at h
  split at h
  · rename_i hc; exact ⟨h, by omega⟩
  · cases h

theorem handleConfigChangeIfNeeded_indices (r : Raft) (e : LogEntry) (io : Io) :
    (r.handleConfigChangeIfNeeded e io).commitIndex = r.commitIndex ∧
      (r.handleConfigChangeIfNeeded e io).lastApplied = r.lastApplied := by
  have hsave : ∀ r₁ : Raft, r₁.commitIndex = r.commitIndex → r₁.lastApplied = r.lastApplied →
      (r₁.saveMeta io.saveTerm).commitIndex = r.commitIndex ∧ (r₁.saveMeta io.saveTerm).lastApplied = r.lastApplied :=
    fun r₁ hc ha => ⟨(saveMeta_progress r₁ _).commit.trans hc, (saveMeta_progress r₁ _).applied.trans ha⟩
  rcases handleConfigChangeIfNeeded_outcome r e io with h | ⟨_, _, ho⟩
  · rw [h]
    exact ⟨rfl, rfl⟩
  · generalize r.handleConfigChangeIfNeeded e io = out at ho ⊢
    cases ho with
    | self => exact ⟨rfl, rfl⟩
    | _ => exact hsave _ rfl rfl

/-- The applier takes one entry. -/
theorem takeNext_progress (r : Raft) (io : Io) :
    (r.pendingEntry = none ∧ r.takeNext io = (r, none)) ∨
      ∃ e, r.pendingEntry = some e ∧ (r.takeNext io).2 = some e ∧ (r.takeNext io).1.commitIndex = r.commitIndex ∧
        (r.takeNext io).1.lastApplied = r.lastApplied + 1 := by
  rw [takeNext_eq]
  cases r.pendingEntry with
  | none => exact .inl ⟨rfl, rfl⟩
  | some e => exact .inr ⟨e, rfl, rfl, handleConfigChangeIfNeeded_indices ..⟩

theorem takeNext_maps {r : Raft} (io : Io) (h : ∀ e, r.pendingEntry = some e → e.data.isConfig = false) :
    (r.takeNext io).1.nextIndex = r.nextIndex ∧ (r.takeNext io).1.matchIndex = r.matchIndex := by
  obtain ⟨i, hi⟩ := takeNext_plain r io h
  rw [hi]
  exact ⟨rfl, rfl⟩

end Raft

namespace Cluster

/-! ## A step and the indices -/

/-- What a step makes of the indices of the node it touches. -/
inductive ProgressStep (s : Cluster) (n : NodeID) (r : Raft) : Action → Prop
  | same (a : Action) (h : SameProgress (s.raft n) r) : ProgressStep s n r a
  | office (a : Action) (h : TakesOffice (s.raft n) r) : ProgressStep s n r a
  | follow (call : Nat) (io : Io) (src : NodeID) (req : AppendEntriesRequest)
      (hp : s.requests[call]? = some ⟨src, n, .appendEntries req⟩)
      (hs : ((s.raft n).appendEntries req (s.envOf n io)).2.success = true)
      (hr : r = ((s.raft n).appendEntries req (s.envOf n io)).1) (h : Follows (s.raft n) r req.leaderCommit) :
      ProgressStep s n r (.deliver call io)
  | install (call : Nat) (io : Io) (src : NodeID) (req : InstallSnapshotRequest)
      (hp : s.requests[call]? = some ⟨src, n, .installSnapshot req⟩) (ht : (s.raft n).term ≤ req.term)
      (hc : r.commitIndex = req.lastIncludedIndex) (ha : r.lastApplied = req.lastIncludedIndex)
      (hn : r.nextIndex = (s.raft n).nextIndex) (hm : r.matchIndex = (s.raft n).matchIndex)
      (hb : r.logBaseIndex = req.lastIncludedIndex) : ProgressStep s n r (.deliver call io)
  | refused (i j : Nat) (io : Io) (args : AppendArgs) (call : Nat)
      (hx : s.tasks[i]? = some (n, .awaitAppend args call)) (h : Backtracks (s.raft n) r args.peer) :
      ProgressStep s n r (.run i (.reply j) io)
  | acked (i j : Nat) (io : Io) (args : AppendArgs) (call : Nat) (resp : AppendEntriesResponse)
      (hx : s.tasks[i]? = some (n, .awaitAppend args call)) (hr : s.replyTo call j = some (.appendEntries resp))
      (hs : resp.success = true) (hp : args.peer ∈ (s.raft n).peers)
      (h : r = ((s.raft n).recordProgress args).updateCommitIndexLocked) : ProgressStep s n r (.run i (.reply j) io)
  | alone (i : Nat) (io : Io) (ret : Caller) (hx : s.tasks[i]? = some (n, .heartbeatAlone ret))
      (h : r = (s.raft n).updateCommitIndexLocked) : ProgressStep s n r (.run i .go io)
  | sent (i : Nat) (c : Choice) (io : Io) (peer : NodeID) (snap : Snapshot) (call : Nat)
      (hx : s.tasks[i]? = some (n, .awaitSnapshot peer snap call)) (h : r = (s.raft n).snapshotSent peer snap) :
      ProgressStep s n r (.run i c io)
  | take (io : Io) (h : r = ((s.raft n).takeNext (s.envOf n io)).1) : ProgressStep s n r (.applierTake n io)
  | done (io : Io) (h : r = (((s.raft n).afterApply (s.envOf n io)).takeNext (s.envOf n io)).1) :
      ProgressStep s n r (.applierDone n io)

theorem NodeStep.progress {s : Cluster} {a : Action} {n : NodeID} {r : Raft} (h : NodeStep s a n r) :
    ProgressStep s n r a := by
  cases h with
  | electionTick _ timeout io =>
    rcases electionTick_progress (s.raft n) timeout (s.envOf n io) with ⟨h, _⟩ | h
    · exact .same _ h
    · exact .office _ h
  | requestVote => exact .same _ (requestVote_progress ..)
  | appendEntries call io src _ req hp =>
    rcases appendEntries_follows (s.raft n) req (s.envOf n io) with ⟨_, h⟩ | ⟨hs, h⟩
    · exact .same _ h
    · exact .follow _ _ _ _ hp hs rfl h
  | installSnapshot call io src _ req hp =>
    rcases installSnapshot_compacts (s.raft n) req (s.envOf n io) with ⟨_, h⟩ | ⟨ht, hb, _⟩
    · rw [h]; exact .same _ (.refl _)
    · rcases installSnapshot_progress (s.raft n) req (s.envOf n io) with ⟨_, h⟩ | ⟨h1, h2, h3, h4⟩
      · rw [h]; exact .same _ (.refl _)
      · exact .install _ _ _ _ hp ht h1 h2 h3 h4 hb.base
  | timeoutNow call io src _ req =>
    rcases timeoutNow_progress (s.raft n) req (s.envOf n io) with ⟨h, _⟩ | h
    · exact .same _ h
    · exact .office _ h
  | voteAnswer _ _ _ _ _ _ _ resp =>
    rcases handleVoteResponse_progress (s.raft n) resp with ⟨h, _⟩ | h
    · exact .same _ h
    · exact .office _ h
  | appendAnswer _ _ io _ args call resp hx hr =>
    rcases handleAppendResponse_progress (s.raft n) args resp (s.envOf n io) with h | h | ⟨h1, _, h3, h4⟩
    · exact .same _ h
    · exact .refused _ _ _ _ _ hx h
    · exact .acked _ _ _ _ _ _ hx hr h1 h3 h4
  | transferAnswer => exact .same _ (handleTimeoutNowResponse_progress ..)
  | snapshotAnswer _ _ _ _ _ _ _ hx => exact .sent _ _ _ _ _ _ hx rfl
  | alone _ _ _ _ hx => exact .alone _ _ _ hx rfl
  | wait => exact .same _ (appliedWait_rest ..).toSameProgress
  | propose => exact .same _ (propose_rest ..).toSameProgress
  | proposeTask => exact .same _ (propose_rest ..).toSameProgress
  | configChange => exact .same _ (proposeConfigChange_rest ..).toSameProgress
  | forceSnapshot => exact .same _ (createSnapshotLocked_rest ..).toSameProgress
  | applierTake => exact .take _ rfl
  | applierDone => exact .done _ rfl

end Cluster

end Mimori
