/-
Removed nodes. A node that applies the entry removing it sets `removedFromCluster` and follows from then
on: nothing resets the mark, and the two functions that start an election look at it. The mark is in memory
only. `New` sets it again when it replays an entry that removes the node, and only then.
-/
import Mimori.Storage.Terms
import Mimori.Storage.Peers

namespace Mimori

open Raft

namespace Raft

/-! ## A removed node -/

structure Retired (r : Raft) : Prop where
  removed : r.removedFromCluster = true
  follower : r.state = .follower

theorem Retired.same {r r' : Raft} (h : Retired r) (hs : SameVotes r r') : Retired r' :=
  ⟨hs.removed.trans h.removed, hs.state.trans h.follower⟩

theorem Retired.sameOrDown {r r' : Raft} (h : Retired r) (hs : SameOrDown r r') : Retired r' := by
  rcases hs with hs | hs
  · exact h.same hs
  · exact ⟨hs.removed.trans h.removed, hs.state⟩

theorem Retired.reconfigured {r r' : Raft} (h : Retired r) (hs : Reconfigured r r') : Retired r' := by
  rcases hs.votes with ⟨h1, _, h2⟩ | ⟨h1, _, h2⟩
  · exact ⟨h2.trans h.removed, h1.trans h.follower⟩
  · exact ⟨h2, h1⟩

theorem Retired.startElectionLocked {r : Raft} (h : Retired r) (io : Io) : (r.startElectionLocked io).1 = r := by
  have ho := startElectionLocked_outcome r io
  generalize r.startElectionLocked io = out at ho ⊢
  cases ho with
  | removed => rfl
  | elected hrem => rw [h.removed] at hrem; cases hrem
  | asks hrem => rw [h.removed] at hrem; cases hrem

theorem Retired.requestVote {r : Raft} (h : Retired r) (req : RequestVoteRequest) (io : Io) :
    Retired (r.requestVote req io).1 := by
  by_cases hg : (r.requestVote req io).2.voteGranted = true
  · obtain ⟨_, _, r₁, rfl, _, _, hs⟩ := requestVote_granted hg
    have ha := h.sameOrDown (adoptTerm_move r req.term io)
    exact ⟨hs.removed.trans ha.removed, hs.state.trans ha.follower⟩
  · exact h.sameOrDown (requestVote_refused (by simpa using hg))

theorem Retired.timeoutNow {r : Raft} (h : Retired r) (req : TimeoutNowRequest) (io : Io) :
    Retired (r.timeoutNow req io).1 := by
  rcases timeoutNow_cases r req io with ⟨he, _⟩ | ⟨r₁, hm, he, _⟩
  · rw [he]; exact h
  · have h₁ := h.sameOrDown hm
    rw [he, h₁.startElectionLocked]; exact h₁

theorem Retired.handleVoteResponse {r : Raft} (h : Retired r) (resp : RequestVoteResponse) :
    Retired (r.handleVoteResponse resp).1 := by
  rcases handleVoteResponse_cases r resp with ⟨hs, _⟩ | ⟨_, hc, _⟩
  · exact h.sameOrDown hs
  · rw [h.follower] at hc; cases hc

theorem handleConfigChangeIfNeeded_reconfigured (r : Raft) (e : LogEntry) (io : Io) :
    Reconfigured r (r.handleConfigChangeIfNeeded e io) := by
  unfold handleConfigChangeIfNeeded
  split
  · exact applyConfigChangeLocked_reconfigured ..
  · exact .of_same (.refl r)

/-! ## `New` -/

end Raft

namespace Cluster

/-! ## Runs -/

variable {s s' : Cluster} {a : Action} {n : NodeID} {r : Raft}

theorem NodeStep.retired (h : NodeStep s a n r) (hr : Retired (s.raft n)) : Retired r := by
  cases h with
  | electionTick _ timeout io =>
    rcases electionTick_cases (s.raft n) timeout (s.envOf n io) with h | h <;> rw [h]
    · exact hr
    · rw [hr.startElectionLocked]; exact hr
  | requestVote => exact hr.requestVote ..
  | appendEntries => exact hr.sameOrDown (appendEntries_move ..)
  | installSnapshot => exact hr.sameOrDown (installSnapshot_move ..)
  | timeoutNow => exact hr.timeoutNow ..
  | voteAnswer => exact hr.handleVoteResponse _
  | appendAnswer => exact hr.sameOrDown (handleAppendResponse_move ..)
  | transferAnswer => exact hr.sameOrDown (handleTimeoutNowResponse_move ..)
  | snapshotAnswer => exact hr.same (snapshotSent_same ..)
  | alone => exact hr.same (updateCommitIndexLocked_same _)
  | wait => exact hr.same (appliedWait_rest ..).toSameVotes
  | propose => exact hr.same (propose_rest ..).toSameVotes
  | proposeTask => exact hr.same (propose_rest ..).toSameVotes
  | configChange => exact hr.same (proposeConfigChange_rest ..).toSameVotes
  | forceSnapshot => exact hr.same (createSnapshotLocked_rest ..).toSameVotes
  | applierTake => exact hr.reconfigured (takeNext_reconfigured ..)
  | applierDone => exact (hr.same (afterApply_rest ..).toSameVotes).reconfigured (takeNext_reconfigured ..)

theorem step_retired (hs : s.step a = some s') (hr : Retired (s.raft n)) : Retired (s'.raft n) := by
  rcases step_at hs n with heq | ⟨_, hm⟩
  · rw [heq]; exact hr
  · exact hm.retired hr

/-- The node that a restart is of, and the files it finds. -/
def restartDisk (s : Cluster) : RestartAction → Option (NodeID × Disk)
  | .life (.step _) => none
  | .life (.crash n a c metaDone _ _) =>
    (s.step a).map fun s' => (n, crashDisk (s.raft n).disk (s'.raft n).disk metaDone c)
  | .between n call io _ _ => (s.betweenSaves n call io).map (Prod.mk n)

/-- The peers that the command line of a restart gives. -/
def peersGiven : RestartAction → List NodeID
  | .life (.step _) => []
  | .life (.crash _ _ _ _ peers _) => peers
  | .between _ _ _ peers _ => peers

/-- A step of a run with restarts is a step, or a restart on the files `restartDisk` names. -/
theorem restartStep_cases {l : RestartAction} (hs : s.restartStep l = some s') :
    (∃ a, l = .life (.step a) ∧ s.step a = some s') ∨
      ∃ m d start, s.restartDisk l = some (m, d) ∧ s' = s.restart m (peersGiven l) d start := by
  match l with
  | .life (.step a) => exact .inl ⟨a, rfl, hs⟩
  | .life (.crash m a c metaDone peers start) =>
    simp only [restartStep, lifeStep] at hs
    split at hs
    · rename_i s₁ hs₁
      cases hs
      exact .inr ⟨m, _, start, by rw [restartDisk, hs₁]; rfl, rfl⟩
    · cases hs
  | .between m call io peers start =>
    simp only [restartStep, Option.map_eq_some_iff] at hs
    obtain ⟨d, hd, rfl⟩ := hs
    exact .inr ⟨m, d, start, by rw [restartDisk, hd]; rfl, rfl⟩

end Cluster

end Mimori
