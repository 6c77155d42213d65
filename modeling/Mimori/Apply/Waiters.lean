/-
The channels of waiting clients. `AppliedWait` hands out a channel for an index, which is closed when
that index is applied; nothing else touches the channels of a node.
-/
import Mimori.Apply.Taken

namespace Mimori

open Raft

namespace Raft

theorem saveLog_waiters (r : Raft) (ok : Bool) : SameWaiters r (r.saveLog ok) := by
  unfold saveLog; split <;> exact ⟨rfl, rfl⟩

theorem SameWaiters.saveLog {a b : Raft} (h : SameWaiters a b) (ok : Bool) : SameWaiters a (b.saveLog ok) :=
  h.trans (saveLog_waiters b ok)

theorem appendEntries_waiters (r : Raft) (req : AppendEntriesRequest) (io : Io) :
    SameWaiters r (r.appendEntries req io).1 := by
  have h := (adoptTerm_data r req.term io).toSameWaiters
  have ho := appendEntries_outcome r req io
  generalize r.appendEntries req io = out at ho ⊢
  cases ho with
  | ignored => exact .refl r
  | refused => exact h.trans ⟨rfl, rfl⟩
  | accepted =>
    refine h.trans (SameWaiters.trans ?_ (advanceCommit_data ..).toSameWaiters)
    refine .saveLog ?_ _
    exact ⟨rfl, rfl⟩

theorem installSnapshot_waiters (r : Raft) (req : InstallSnapshotRequest) (io : Io) :
    SameWaiters r (r.installSnapshot req io).1 := by
  have h := (adoptTerm_data r req.term io).toSameWaiters
  have ho := installSnapshot_outcome r req io
  generalize r.installSnapshot req io = out at ho ⊢
  cases ho with
  | stale => exact .refl r
  | installed =>
    have hs : SameWaiters (r.adoptTerm req.term io) ((r.afterInstalling req io).saveLog io.saveLog) := by
      refine .saveLog ?_ _
      exact ⟨rfl, rfl⟩
    exact h.trans ⟨hs.waiters, hs.chans⟩

theorem propose_waiters (r : Raft) (cmd : Command) (io : Io) : SameWaiters r (r.propose cmd io).1 := by
  unfold propose
  split
  · exact .refl r
  · refine .saveLog ?_ _
    exact ⟨rfl, rfl⟩

theorem proposeConfigChange_waiters (r : Raft) (type : ConfigChangeType) (nodeID : NodeID) (io : Io) :
    SameWaiters r (r.proposeConfigChange type nodeID io).1 := by
  have ho := proposeConfigChange_outcome r type nodeID io
  generalize r.proposeConfigChange type nodeID io = out at ho ⊢
  cases ho with
  | refused => exact .refl r
  | unsaved => exact ⟨rfl, rfl⟩
  | appended =>
    refine .saveLog ?_ _
    exact ⟨rfl, rfl⟩

theorem createSnapshotLocked_waiters (r : Raft) (io : Io) : SameWaiters r (r.createSnapshotLocked io) := by
  have ho := createSnapshotLocked_outcome r io
  generalize r.createSnapshotLocked io = out at ho ⊢
  cases ho with
  | kept => exact .refl r
  | taken =>
    refine .saveLog ?_ _
    exact ⟨rfl, rfl⟩

theorem afterApply_waiters (r : Raft) (io : Io) : SameWaiters r.closeWaiter (r.afterApply io) := by
  unfold afterApply
  simp only
  split
  · exact createSnapshotLocked_waiters ..
  · exact .refl _

end Raft

namespace Cluster

/-- What a step makes of the channels of the node it touches. -/
inductive WaitStep (s : Cluster) (n : NodeID) (r : Raft) : Action → Prop
  | same (a : Action) (h : SameWaiters (s.raft n) r) : WaitStep s n r a
  | wait (i : Nat) (io : Io) (t : Task) (index : Int) (hx : s.tasks[i]? = some (n, t)) (ht : waitsFor t = some index)
      (h : r = ((s.raft n).appliedWait index).1) : WaitStep s n r (.run i .go io)
  | close (io : Io) (h : SameWaiters (s.raft n).closeWaiter r) : WaitStep s n r (.applierDone n io)

theorem NodeStep.waiters {s : Cluster} {a : Action} {n : NodeID} {r : Raft} (h : NodeStep s a n r) :
    WaitStep s n r a := by
  cases h with
  | electionTick => exact .same _ (electionTick_data ..).toSameWaiters
  | requestVote => exact .same _ (requestVote_data ..).toSameWaiters
  | appendEntries => exact .same _ (appendEntries_waiters ..)
  | installSnapshot => exact .same _ (installSnapshot_waiters ..)
  | timeoutNow => exact .same _ (timeoutNow_data ..).toSameWaiters
  | voteAnswer => exact .same _ (handleVoteResponse_data ..).toSameWaiters
  | appendAnswer => exact .same _ (handleAppendResponse_data ..).toSameWaiters
  | transferAnswer => exact .same _ (handleTimeoutNowResponse_data ..).toSameWaiters
  | snapshotAnswer => exact .same _ ⟨rfl, rfl⟩
  | alone => exact .same _ (updateCommitIndexLocked_data _).toSameWaiters
  | wait i io _ t index hx ht => exact .wait i io t index hx ht rfl
  | propose => exact .same _ (propose_waiters ..)
  | proposeTask => exact .same _ (propose_waiters ..)
  | configChange => exact .same _ (proposeConfigChange_waiters ..)
  | forceSnapshot => exact .same _ (createSnapshotLocked_waiters ..)
  | applierTake => exact .same _ (takeNext_data ..).toSameWaiters
  | applierDone _ io => exact .close io ((afterApply_waiters ..).trans (takeNext_data ..).toSameWaiters)

end Cluster

end Mimori
