/-
Requests from outside the configuration. `RequestVote` and `AppendEntries` ask `isKnownNode` for the
sender first. `InstallSnapshot` does not ask at all, and `TimeoutNow` compares the sender with `leader`,
which is empty on a node that knows no leader and may name a node that has been removed.
-/
import Mimori.Cluster.Runs
import Mimori.Raft.Outcomes

namespace Mimori

/-- The id a request gives for its sender: `CandidateId` or `LeaderId`. -/
def Request.sender : Request → NodeID
  | .requestVote req => req.candidateId
  | .appendEntries req => req.leaderId
  | .installSnapshot req => req.leaderId
  | .timeoutNow req => req.leaderId

namespace Raft

variable {r : Raft}

/-- What handling a request makes of a node, and the goroutines it starts. -/
def receive (r : Raft) (req : Request) (io : Io) : Raft × List Task :=
  match req with
  | .requestVote req => ((r.requestVote req io).1, [])
  | .appendEntries req => ((r.appendEntries req io).1, [])
  | .installSnapshot req => ((r.installSnapshot req io).1, [])
  | .timeoutNow req => ((r.timeoutNow req io).1, (r.timeoutNow req io).2.1)

/-- A delivery does to the node it is for what the handler does. -/
theorem handle_receive (s : Cluster) (call : Nat) (p : Packet) (io : Io) :
    (s.handle call p io).raft p.dst = ((s.raft p.dst).receive p.req (s.envOf p.dst io)).1 := by
  obtain ⟨src, n, req⟩ := p
  cases req with
  | requestVote req => exact Cluster.setRaft_raft_self ..
  | appendEntries req => exact Cluster.setRaft_raft_self ..
  | installSnapshot req => exact Cluster.setRaft_raft_self ..
  | timeoutNow req => exact Cluster.setRaft_raft_self ..

/-- The handlers that do not ask who sends the request refuse it for another reason: a snapshot is of an
older term; an election is not asked for by the known leader, or in an older term, or of a node that was
removed from the cluster. -/
def refusesUnasked (r : Raft) : Request → Bool
  | .requestVote _ => true
  | .appendEntries _ => true
  | .installSnapshot req => decide (req.term < r.term)
  | .timeoutNow req =>
    decide (req.leaderId ≠ r.leader) || decide (req.term < r.term) ||
      (r.removedFromCluster && decide (req.term = r.term))

theorem isKnownNode_eq_false {id : NodeID} (hid : id ≠ r.id) (hpeers : id ∉ r.peers) : r.isKnownNode id = false := by
  unfold isKnownNode
  split
  · rfl
  · simp [hid, hpeers]

theorem requestVote_unknown {req : RequestVoteRequest} (h : r.isKnownNode req.candidateId = false) (io : Io) :
    (r.requestVote req io).1 = r := by
  simp [requestVote, h]

theorem appendEntries_unknown {req : AppendEntriesRequest} (h : r.isKnownNode req.leaderId = false) (io : Io) :
    (r.appendEntries req io).1 = r := by
  simp [appendEntries, h]

theorem installSnapshot_stale {req : InstallSnapshotRequest} (h : req.term < r.term) (io : Io) :
    (r.installSnapshot req io).1 = r := by
  simp [installSnapshot, h]

/-- An election that is not asked for by the leader, or too late, or of a removed node, is not started. -/
theorem timeoutNow_refused {req : TimeoutNowRequest} (h : r.refusesUnasked (.timeoutNow req) = true) (io : Io) :
    (r.timeoutNow req io).1 = r ∧ (r.timeoutNow req io).2.1 = [] := by
  simp only [refusesUnasked, Bool.or_eq_true, Bool.and_eq_true, decide_eq_true_eq] at h
  unfold timeoutNow
  by_cases hl : req.leaderId = r.leader
  · rw [if_neg (not_not.2 hl)]
    by_cases ht : req.term < r.term
    · rw [if_pos ht]
      constructor <;> rfl
    · rw [if_neg ht]
      -- what is left is a removed node that is asked in its own term
      obtain ⟨hrem, heq⟩ : r.removedFromCluster = true ∧ req.term = r.term := by
        rcases h with (h | h) | h
        · exact absurd hl h
        · exact absurd h ht
        · exact h
      have hsame : r.adoptTerm req.term io = r := by
        unfold adoptTerm
        rw [if_neg (by omega)]
      simp [hsame, startElectionLocked, hrem]
  · rw [if_pos hl]
    constructor <;> rfl

/-- Outsiders have no influence: handling a request whose sender is neither the node nor one of its peers
leaves the node as it is, its files included, and starts nothing, unless the request is a snapshot that is
not of an older term or a call for an election in the name of the known leader. -/
theorem outsiders_ignored {req : Request} (hid : req.sender ≠ r.id) (hpeers : req.sender ∉ r.peers)
    (hok : r.refusesUnasked req = true) (io : Io) : r.receive req io = (r, []) := by
  have hunknown := isKnownNode_eq_false hid hpeers
  cases req with
  | requestVote req =>
    show ((r.requestVote req io).1, []) = (r, [])
    rw [requestVote_unknown hunknown]
  | appendEntries req =>
    show ((r.appendEntries req io).1, []) = (r, [])
    rw [appendEntries_unknown hunknown]
  | installSnapshot req =>
    show ((r.installSnapshot req io).1, []) = (r, [])
    rw [installSnapshot_stale (of_decide_eq_true hok)]
  | timeoutNow req =>
    obtain ⟨h1, h2⟩ := timeoutNow_refused hok io
    show ((r.timeoutNow req io).1, (r.timeoutNow req io).2.1) = (r, [])
    rw [h1, h2]

theorem installSnapshot_taken {req : InstallSnapshotRequest} (h : ¬ req.term < r.term) (io : Io) :
    (r.installSnapshot req io).1.snapshot = some ⟨req.lastIncludedIndex, req.lastIncludedTerm, req.data⟩ := by
  have ho := installSnapshot_outcome r req io
  generalize r.installSnapshot req io = res at ho ⊢
  cases ho with
  | stale hlt => exact absurd hlt h
  | installed _ => unfold saveLog; cases io.saveLog <;> rfl

theorem standing_term (r : Raft) (io : Io) : (r.standing io).term = r.term + 1 := by
  unfold standing saveMeta
  cases io.saveVote <;> rfl

/-- An election that is not refused is one of a later term. -/
theorem timeoutNow_raises {req : TimeoutNowRequest} (h : r.refusesUnasked (.timeoutNow req) = false) (io : Io) :
    r.term < (r.timeoutNow req io).1.term := by
  simp only [refusesUnasked, Bool.or_eq_false_iff, Bool.and_eq_false_iff, decide_eq_false_iff_not, not_not] at h
  obtain ⟨⟨hl, ht⟩, hrem⟩ := h
  have hterm : (r.adoptTerm req.term io).term = req.term := by
    unfold adoptTerm saveMeta
    split
    · cases io.saveTerm <;> rfl
    · omega
  have hsame : (r.adoptTerm req.term io).removedFromCluster = r.removedFromCluster := by
    unfold adoptTerm saveMeta
    split
    · cases io.saveTerm <;> rfl
    · rfl
  have ho := timeoutNow_outcome r req io
  generalize r.timeoutNow req io = res at ho ⊢
  cases ho with
  | ignored h => exact absurd h (by simp [hl]; omega)
  | starts _ _ =>
    show r.term < ((r.adoptTerm req.term io).startElectionLocked io).1.term
    generalize r.adoptTerm req.term io = a at hterm hsame
    have ho := startElectionLocked_outcome a io
    generalize a.startElectionLocked io = res at ho ⊢
    cases ho with
    | removed h =>
      -- a removed node starts no election, but takes the later term over
      rw [hsame] at h
      rw [h] at hrem
      simp only [Bool.true_eq_false, false_or] at hrem
      show r.term < a.term
      omega
    | elected h hv =>
      show r.term < (a.standing io).term
      rw [standing_term]
      omega
    | asks h =>
      show r.term < (a.standing io).term
      rw [standing_term]
      omega

/-- The condition is exact but for a snapshot the node has already: whatever request leaves the node as it is
and starts nothing was refused. -/
theorem refusesUnasked_of_ignored {req : Request} {io : Io} (h : r.receive req io = (r, [])) :
    r.refusesUnasked req = true ∨
      ∃ q, req = .installSnapshot q ∧ r.snapshot = some ⟨q.lastIncludedIndex, q.lastIncludedTerm, q.data⟩ := by
  have hsame := congrArg Prod.fst h
  cases req with
  | requestVote req => exact .inl rfl
  | appendEntries req => exact .inl rfl
  | installSnapshot req =>
    by_cases ht : req.term < r.term
    · exact .inl (decide_eq_true ht)
    · refine .inr ⟨req, rfl, ?_⟩
      have htaken := installSnapshot_taken ht io
      rwa [show (r.installSnapshot req io).1 = r from hsame] at htaken
  | timeoutNow req =>
    cases hr : r.refusesUnasked (.timeoutNow req) with
    | true => exact .inl rfl
    | false =>
      have hraise := timeoutNow_raises hr io
      rw [show (r.timeoutNow req io).1 = r from hsame] at hraise
      exact absurd hraise (lt_irrefl _)

/-- A fresh node of a cluster of three. -/
def freshA : Raft := (Cluster.start threeNodes.ids threeNodes.peersOf true true).raft "A"

/-- Node X asks a fresh node for its vote in a later term. -/
theorem outsiders_ignored_vote :
    freshA.receive (.requestVote ⟨"X", 5, 9, 5⟩) {} = (freshA, []) :=
  outsiders_ignored (by decide) (by decide) rfl {}

/-- The fresh node after a snapshot from X, and after a call for an election that names no sender. -/
def installedByX : Raft := (freshA.receive (.installSnapshot ⟨3, "X", 7, 3, .other [1]⟩) {}).1

@[inherit_doc installedByX]
def electedByNobody : Raft := (freshA.receive (.timeoutNow ⟨0, ""⟩) {}).1

/-- Node X replaces the log of a fresh node, what it has committed and what it has saved by a snapshot of
its own; a request that names no sender makes a fresh node start an election. -/
theorem outsiders_install_and_elect :
    (∀ id ∈ ["X", ""], id ≠ freshA.id ∧ id ∉ freshA.peers) ∧
      (installedByX.term = 3 ∧ installedByX.log = [boundary 7 3] ∧ installedByX.logBaseIndex = 7 ∧
        installedByX.commitIndex = 7 ∧ installedByX.lastApplied = 7 ∧
        installedByX.disk.logFile = some [boundary 7 3]) ∧
      electedByNobody.state = .candidate ∧ electedByNobody.term = 1 ∧ electedByNobody.votedFor = "A" ∧
        electedByNobody.disk.metaFile = some ⟨1, "A", ["B", "C"]⟩ := by
  decide

end Raft

end Mimori
