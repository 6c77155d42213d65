/-
How a step changes the log of a node: not at all, by an entry the leader appends, by the entries of an
AppendEntries request, or by compaction at a snapshot that the node takes or is sent.
-/
import Mimori.Cluster.Effects
import Mimori.Election.Roles

namespace Mimori

open Raft

namespace Raft

/-! ## Functions that leave the log alone -/

/-- The log, its base and the snapshots are unchanged. -/
structure SameLog (r r' : Raft) : Prop where
  log : r'.log = r.log
  base : r'.logBaseIndex = r.logBaseIndex
  snapshot : r'.snapshot = r.snapshot
  file : r'.disk.snapFile = r.disk.snapFile

/-- So is the log file. -/
structure SameFiles (r r' : Raft) : Prop extends SameLog r r' where
  logFile : r'.disk.logFile = r.disk.logFile

/-- The channels of waiting clients are unchanged. -/
structure SameWaiters (r r' : Raft) : Prop where
  waiters : r'.waiters = r.waiters
  chans : r'.chans = r.chans

/-- What the functions for elections, answers and peers leave alone. -/
structure SameData (r r' : Raft) : Prop extends SameFiles r r', SameWaiters r r'

variable {a b c r r' : Raft}

theorem SameLog.refl (r : Raft) : SameLog r r := ⟨rfl, rfl, rfl, rfl⟩

theorem SameLog.trans (h1 : SameLog a b) (h2 : SameLog b c) : SameLog a c :=
  ⟨h2.log.trans h1.log, h2.base.trans h1.base, h2.snapshot.trans h1.snapshot, h2.file.trans h1.file⟩

theorem SameFiles.refl (r : Raft) : SameFiles r r := ⟨.refl r, rfl⟩

theorem SameFiles.trans (h1 : SameFiles a b) (h2 : SameFiles b c) : SameFiles a c :=
  ⟨h1.toSameLog.trans h2.toSameLog, h2.logFile.trans h1.logFile⟩

theorem SameWaiters.refl (r : Raft) : SameWaiters r r := ⟨rfl, rfl⟩

theorem SameWaiters.trans (h1 : SameWaiters a b) (h2 : SameWaiters b c) : SameWaiters a c :=
  ⟨h2.waiters.trans h1.waiters, h2.chans.trans h1.chans⟩

theorem SameData.refl (r : Raft) : SameData r r := ⟨.refl r, .refl r⟩

theorem SameData.trans (h1 : SameData a b) (h2 : SameData b c) : SameData a c :=
  ⟨h1.toSameFiles.trans h2.toSameFiles, h1.toSameWaiters.trans h2.toSameWaiters⟩

theorem SameLog.lastLogIndex (h : SameLog r r') : r'.lastLogIndex = r.lastLogIndex := by
  unfold Raft.lastLogIndex; rw [h.log, h.base]

theorem SameLog.entryAt (h : SameLog r r') (i : Int) : r'.entryAt i = r.entryAt i := by
  unfold Raft.entryAt; rw [h.log, h.base]

theorem logConsistent_sameLog (h : SameLog r r') (i t : Int) : r'.logConsistent i t = r.logConsistent i t := by
  unfold logConsistent
  rw [h.entryAt, h.base]

theorem saveLog_sameLog (r : Raft) (ok : Bool) : SameLog r (r.saveLog ok) := by
  unfold saveLog; split <;> exact ⟨rfl, rfl, rfl, rfl⟩

theorem saveMeta_data (r : Raft) (ok : Bool) : SameData r (r.saveMeta ok) := by
  unfold saveMeta; split <;> exact ⟨⟨⟨rfl, rfl, rfl, rfl⟩, rfl⟩, rfl, rfl⟩

theorem SameData.saveMeta (h : SameData a b) (ok : Bool) : SameData a (b.saveMeta ok) := h.trans (saveMeta_data b ok)

theorem adoptTerm_data (r : Raft) (term : Int) (io : Io) : SameData r (r.adoptTerm term io) := by
  unfold adoptTerm
  split
  · refine .saveMeta ?_ _
    exact ⟨⟨⟨rfl, rfl, rfl, rfl⟩, rfl⟩, rfl, rfl⟩
  · exact .refl r

theorem startElectionLocked_data (r : Raft) (io : Io) : SameData r (r.startElectionLocked io).1 := by
  have hs : SameData r (r.standing io) := by
    refine SameData.trans (.saveMeta ?_ io.saveVote) ⟨⟨⟨rfl, rfl, rfl, rfl⟩, rfl⟩, rfl, rfl⟩
    exact ⟨⟨⟨rfl, rfl, rfl, rfl⟩, rfl⟩, rfl, rfl⟩
  have ho := startElectionLocked_outcome r io
  generalize r.startElectionLocked io = out at ho ⊢
  cases ho with
  | removed => exact .refl r
  | elected => exact hs.trans ⟨⟨⟨rfl, rfl, rfl, rfl⟩, rfl⟩, rfl, rfl⟩
  | asks => exact hs

theorem electionTick_data (r : Raft) (timeout : Int) (io : Io) : SameData r (r.electionTick timeout io).1 := by
  rcases electionTick_cases r timeout io with h | h <;> rw [h]
  · exact .refl r
  · exact startElectionLocked_data r io

theorem handleVoteResponse_data (r : Raft) (resp : RequestVoteResponse) : SameData r (r.handleVoteResponse resp).1 := by
  have ho := handleVoteResponse_outcome r resp
  generalize r.handleVoteResponse resp = out at ho ⊢
  cases ho <;> exact ⟨⟨⟨rfl, rfl, rfl, rfl⟩, rfl⟩, rfl, rfl⟩

theorem requestVote_data (r : Raft) (req : RequestVoteRequest) (io : Io) : SameData r (r.requestVote req io).1 := by
  have h := adoptTerm_data r req.term io
  have ho := requestVote_outcome r req io
  generalize r.requestVote req io = out at ho ⊢
  cases ho with
  | ignored => exact .refl r
  | refused => exact h
  | granted =>
    refine .saveMeta ?_ _
    exact h.trans ⟨⟨⟨rfl, rfl, rfl, rfl⟩, rfl⟩, rfl, rfl⟩

theorem timeoutNow_data (r : Raft) (req : TimeoutNowRequest) (io : Io) : SameData r (r.timeoutNow req io).1 := by
  have ho := timeoutNow_outcome r req io
  generalize r.timeoutNow req io = out at ho ⊢
  cases ho with
  | ignored => exact .refl r
  | starts => exact (adoptTerm_data r req.term io).trans (startElectionLocked_data _ io)

theorem handleTimeoutNowResponse_data (r : Raft) (target : NodeID) (resp : TimeoutNowResponse) (io : Io) :
    SameData r (r.handleTimeoutNowResponse target resp io) := by
  unfold handleTimeoutNowResponse
  split
  · refine .saveMeta ?_ _
    exact ⟨⟨⟨rfl, rfl, rfl, rfl⟩, rfl⟩, rfl, rfl⟩
  · exact .refl r

theorem updateCommitIndexLocked_data (r : Raft) : SameData r r.updateCommitIndexLocked := by
  unfold updateCommitIndexLocked
  split
  · exact .refl r
  · split <;> exact ⟨⟨⟨rfl, rfl, rfl, rfl⟩, rfl⟩, rfl, rfl⟩

theorem handleAppendResponse_data (r : Raft) (a : AppendArgs) (resp : AppendEntriesResponse) (io : Io) :
    SameData r (r.handleAppendResponse a resp io).1 := by
  have ho := handleAppendResponse_outcome r a resp io
  generalize r.handleAppendResponse a resp io = out at ho ⊢
  cases ho with
  | newer =>
    refine .saveMeta ?_ _
    exact ⟨⟨⟨rfl, rfl, rfl, rfl⟩, rfl⟩, rfl, rfl⟩
  | transfer => exact .refl r
  | backed => exact ⟨⟨⟨rfl, rfl, rfl, rfl⟩, rfl⟩, rfl, rfl⟩
  | ignored => exact .refl r
  | counted =>
    refine SameData.trans ?_ (updateCommitIndexLocked_data _)
    unfold recordProgress
    split <;> exact ⟨⟨⟨rfl, rfl, rfl, rfl⟩, rfl⟩, rfl, rfl⟩

theorem applyConfigChangeLocked_data (r : Raft) (isAdd : Bool) (nodeID : NodeID) (io : Io) :
    SameData r (r.applyConfigChangeLocked isAdd nodeID io) := by
  have ho := applyConfigChangeLocked_outcome r isAdd nodeID io
  generalize r.applyConfigChangeLocked isAdd nodeID io = out at ho ⊢
  cases ho with
  | self => exact .refl r
  | known => exact .saveMeta (.refl r) _
  | _ =>
    refine .saveMeta ?_ _
    exact ⟨⟨⟨rfl, rfl, rfl, rfl⟩, rfl⟩, rfl, rfl⟩

theorem takeNext_data (r : Raft) (io : Io) : SameData r (r.takeNext io).1 := by
  rw [takeNext_eq]
  cases r.pendingEntry with
  | none => exact .refl r
  | some e =>
    simp only
    refine SameData.trans (b := { r with lastApplied := r.lastApplied + 1 }) ⟨⟨⟨rfl, rfl, rfl, rfl⟩, rfl⟩, rfl, rfl⟩ ?_
    unfold handleConfigChangeIfNeeded
    split
    · exact applyConfigChangeLocked_data ..
    · exact .refl _

theorem advanceCommit_data (r : Raft) (leaderCommit : Int) : SameData r (r.advanceCommit leaderCommit) := by
  unfold advanceCommit; split <;> exact ⟨⟨⟨rfl, rfl, rfl, rfl⟩, rfl⟩, rfl, rfl⟩

theorem appliedWait_files (r : Raft) (index : Int) : SameFiles r (r.appliedWait index).1 := by
  unfold appliedWait; split <;> exact ⟨⟨rfl, rfl, rfl, rfl⟩, rfl⟩

theorem closeWaiter_files (r : Raft) : SameFiles r r.closeWaiter := by
  unfold closeWaiter; split <;> exact ⟨⟨rfl, rfl, rfl, rfl⟩, rfl⟩

/-! ## Functions that change it -/

/-- The log file holds the log of now, or the save failed and it is unchanged. -/
def LogSaved (r r' : Raft) (ok : Bool) : Prop := r'.disk.logFile = if ok then some r'.log else r.disk.logFile

theorem LogSaved.saveLog (h : r'.disk.logFile = r.disk.logFile) (ok : Bool) : LogSaved r (r'.saveLog ok) ok := by
  cases ok with
  | true => rfl
  | false => exact h

theorem LogSaved.trans_same {ok : Bool} (h : LogSaved a b ok) (hs : SameFiles b c) : LogSaved a c ok := by
  unfold LogSaved
  rw [hs.logFile, hs.log]
  exact h

/-- One more entry of the leader's own term. -/
structure Appends (r r' : Raft) (cmd : Command) : Prop where
  leader : r.state = .leader
  log : r'.log = r.log ++ [⟨r.lastLogIndex + 1, r.term, cmd⟩]
  base : r'.logBaseIndex = r.logBaseIndex
  snapshot : r'.snapshot = r.snapshot
  file : r'.disk.snapFile = r.disk.snapFile

theorem Appends.trans_same {cmd : Command} (h1 : Appends a b cmd) (h2 : SameLog b c) : Appends a c cmd :=
  ⟨h1.leader, h2.log.trans h1.log, h2.base.trans h1.base, h2.snapshot.trans h1.snapshot, h2.file.trans h1.file⟩

theorem propose_appends (r : Raft) (cmd : Command) (io : Io) :
    SameFiles r (r.propose cmd io).1 ∨
      (Appends r (r.propose cmd io).1 cmd ∧ LogSaved r (r.propose cmd io).1 io.saveLog) := by
  unfold propose
  split
  · exact .inl (.refl r)
  · rename_i h
    refine .inr ⟨Appends.trans_same ?_ (saveLog_sameLog _ _), .saveLog rfl _⟩
    exact ⟨not_not.1 h, rfl, rfl, rfl, rfl⟩

theorem proposeConfigChange_appends (r : Raft) (type : ConfigChangeType) (nodeID : NodeID) (io : Io) :
    SameFiles r (r.proposeConfigChange type nodeID io).1 ∨
      (Appends r (r.proposeConfigChange type nodeID io).1 (.configChange type.name nodeID) ∧
        LogSaved r (r.proposeConfigChange type nodeID io).1 io.saveLog) := by
  have ho := proposeConfigChange_outcome r type nodeID io
  generalize r.proposeConfigChange type nodeID io = out at ho ⊢
  cases ho with
  | refused => exact .inl (.refl r)
  | unsaved hl _ hs =>
    refine .inr ⟨⟨hl, rfl, rfl, rfl, rfl⟩, ?_⟩
    rw [hs]
    rfl
  | appended hl =>
    refine .inr ⟨Appends.trans_same ?_ (saveLog_sameLog _ _), .saveLog rfl _⟩
    exact ⟨hl, rfl, rfl, rfl, rfl⟩

/-- Compaction at a snapshot. -/
structure Compacts (r r' : Raft) (snap : Snapshot) : Prop where
  log : r'.log = compact r.log snap.lastIncludedIndex snap.lastIncludedTerm
  base : r'.logBaseIndex = snap.lastIncludedIndex
  snapshot : r'.snapshot = some snap
  file : r'.disk.snapFile = r.disk.snapFile ∨ r'.disk.snapFile = some snap

/-- The snapshot a node takes: its last applied entry and the content of the store. -/
structure OwnSnapshot (r : Raft) (snap : Snapshot) : Prop where
  entry : ∃ e, r.entryAt r.lastApplied = some e ∧ snap.lastIncludedTerm = e.term
  index : snap.lastIncludedIndex = r.lastApplied
  nonneg : 0 ≤ r.lastApplied

/-- The node takes a snapshot of what the snapshotter returned, in place of the log up to it. -/
structure Snapshotted (r r' : Raft) (io : Io) (snap : Snapshot) : Prop where
  own : OwnSnapshot r snap
  compacts : Compacts r r' snap
  data : io.snapshot = some snap.data
  file : r'.disk.snapFile = some snap
  logFile : LogSaved r r' io.saveLog

theorem Snapshotted.trans_same {io : Io} {snap : Snapshot} (h : Snapshotted a b io snap) (hs : SameFiles b c) :
    Snapshotted a c io snap := by
  have hc := h.compacts
  exact ⟨h.own, ⟨hs.log.trans hc.log, hs.base.trans hc.base, hs.snapshot.trans hc.snapshot, .inr (hs.file.trans h.file)⟩,
    h.data, hs.file.trans h.file, h.logFile.trans_same hs⟩

theorem createSnapshotLocked_compacts (r : Raft) (io : Io) :
    (r.snapshots io = false ∧ r.createSnapshotLocked io = r) ∨
      (r.snapshots io = true ∧ ∃ snap, Snapshotted r (r.createSnapshotLocked io) io snap) := by
  have ho := createSnapshotLocked_outcome r io
  generalize r.createSnapshotLocked io = out at ho ⊢
  cases ho with
  | kept h => exact .inl ⟨h, rfl⟩
  | taken entry stateBytes he hio h0 h =>
    refine .inr ⟨h, ⟨r.lastApplied, entry.term, stateBytes⟩, ⟨⟨entry, he, rfl⟩, rfl, h0⟩, ?_, hio, ?_, .saveLog rfl _⟩
    · have hs := saveLog_sameLog { r with
        disk.snapFile := some ⟨r.lastApplied, entry.term, stateBytes⟩
        snapshot := some ⟨r.lastApplied, entry.term, stateBytes⟩
        log := compact r.log r.lastApplied entry.term
        logBaseIndex := r.lastApplied } io.saveLog
      exact ⟨hs.log, hs.base, hs.snapshot, .inr hs.file⟩
    · exact (saveLog_sameLog _ _).file

/-- `runApplier` takes a snapshot after this entry. -/
def snapshotDue (r : Raft) : Bool :=
  r.state == .leader && decide (snapshotCheckThreshold ≤ r.lastApplied - r.logBaseIndex)

theorem Snapshotted.of_closeWaiter {io : Io} {snap : Snapshot} (h : Snapshotted r.closeWaiter r' io snap) :
    Snapshotted r r' io snap := by
  unfold closeWaiter at h
  split at h
  · exact h
  · exact ⟨⟨h.own.entry, h.own.index, h.own.nonneg⟩, ⟨h.compacts.log, h.compacts.base, h.compacts.snapshot, .inr h.file⟩,
      h.data, h.file, h.logFile⟩

theorem afterApply_compacts (r : Raft) (io : Io) :
    ((r.snapshotDue && r.snapshots io) = false ∧ SameFiles r (r.afterApply io)) ∨
      ((r.snapshotDue && r.snapshots io) = true ∧ ∃ snap, Snapshotted r (r.afterApply io) io snap) := by
  have hw := closeWaiter_files r
  have hsame : r.closeWaiter.snapshotDue = r.snapshotDue ∧ r.closeWaiter.snapshots io = r.snapshots io := by
    unfold closeWaiter
    split <;> exact ⟨rfl, rfl⟩
  rw [← hsame.1, ← hsame.2]
  unfold afterApply
  dsimp only
  split
  · rename_i hdue
    have hdue : r.closeWaiter.snapshotDue = true := by simp [snapshotDue, hdue.1, hdue.2]
    rw [hdue, Bool.true_and]
    rcases createSnapshotLocked_compacts r.closeWaiter io with ⟨hno, h⟩ | ⟨hyes, snap, h⟩
    · rw [h]; exact .inl ⟨hno, hw⟩
    · exact .inr ⟨hyes, snap, h.of_closeWaiter⟩
  · rename_i hdue
    exact .inl ⟨by simp only [snapshotDue]; simp; tauto, hw⟩

/-- The entries of a request are merged into the log of a node that accepts it. -/
structure Merges (r r' : Raft) (req : AppendEntriesRequest) : Prop where
  known : r.isKnownNode req.leaderId = true
  term : r.term ≤ req.term
  consistent : r.logConsistent req.prevLogIndex req.prevLogTerm = true
  log : r'.log = mergeEntries r.logBaseIndex r.log req.entries
  base : r'.logBaseIndex = r.logBaseIndex
  snapshot : r'.snapshot = r.snapshot
  file : r'.disk.snapFile = r.disk.snapFile

/-- A request is refused, or accepted and merged; `Success` says which. -/
theorem appendEntries_merges (r : Raft) (req : AppendEntriesRequest) (io : Io) :
    ((r.appendEntries req io).2.success = false ∧ SameFiles r (r.appendEntries req io).1) ∨
      ((r.appendEntries req io).2.success = true ∧ Merges r (r.appendEntries req io).1 req) := by
  have ha := adoptTerm_data r req.term io
  have hl : SameFiles r (r.afterHearing req io) := ha.toSameFiles.trans ⟨⟨rfl, rfl, rfl, rfl⟩, rfl⟩
  have ho := appendEntries_outcome r req io
  generalize r.appendEntries req io = out at ho ⊢
  cases ho with
  | ignored => exact .inl ⟨rfl, .refl r⟩
  | refused => exact .inl ⟨rfl, hl⟩
  | accepted hk ht hc =>
    rw [logConsistent_sameLog hl.toSameLog] at hc
    have h := (saveLog_sameLog (r.afterMerging req io) io.saveLog).trans
      (advanceCommit_data _ req.leaderCommit).toSameLog
    refine .inr ⟨rfl, hk, ht, hc, h.log.trans ?_, h.base.trans ha.base, h.snapshot.trans ha.snapshot, h.file.trans ha.file⟩
    show mergeEntries (r.adoptTerm req.term io).logBaseIndex (r.adoptTerm req.term io).log req.entries = _
    rw [ha.base, ha.log]

theorem appendEntries_logSaved {req : AppendEntriesRequest} {io : Io} (h : (r.appendEntries req io).2.success = true) :
    LogSaved r (r.appendEntries req io).1 io.saveLog := by
  have ho := appendEntries_outcome r req io
  generalize r.appendEntries req io = out at ho h ⊢
  cases ho with
  | ignored => cases h
  | refused => cases h
  | accepted =>
    refine .trans_same (.saveLog ?_ _) (advanceCommit_data ..).toSameFiles
    exact (adoptTerm_data r req.term io).logFile

/-- The checks of `AppendEntries`: the leader is known and not of an older term, and its previous entry is in the log. -/
def acceptsEntries (r : Raft) (req : AppendEntriesRequest) : Bool :=
  r.isKnownNode req.leaderId && decide (r.term ≤ req.term) && r.logConsistent req.prevLogIndex req.prevLogTerm

theorem appendEntries_success (r : Raft) (req : AppendEntriesRequest) (io : Io) :
    (r.appendEntries req io).2.success = r.acceptsEntries req := by
  have hl : SameLog r (r.afterHearing req io) := (adoptTerm_data r req.term io).toSameLog.trans ⟨rfl, rfl, rfl, rfl⟩
  unfold acceptsEntries
  have ho := appendEntries_outcome r req io
  generalize r.appendEntries req io = out at ho ⊢
  cases ho with
  | ignored h =>
    rcases h with h | h
    · rw [h]; rfl
    · rw [decide_eq_false (by omega), Bool.and_false]; rfl
  | refused hk ht hc => rw [← logConsistent_sameLog hl, hc, Bool.and_false]
  | accepted hk ht hc => rw [← logConsistent_sameLog hl, hc, hk, decide_eq_true ht]; rfl

theorem installSnapshot_compacts (r : Raft) (req : InstallSnapshotRequest) (io : Io) :
    (req.term < r.term ∧ (r.installSnapshot req io).1 = r) ∨
      (r.term ≤ req.term ∧
        Compacts r (r.installSnapshot req io).1 ⟨req.lastIncludedIndex, req.lastIncludedTerm, req.data⟩ ∧
        LogSaved r (r.installSnapshot req io).1 io.saveLog ∧
        (io.saveSnap = true → (r.installSnapshot req io).1.disk.snapFile = (r.installSnapshot req io).1.snapshot)) := by
  have ha := adoptTerm_data r req.term io
  have ho := installSnapshot_outcome r req io
  generalize r.installSnapshot req io = out at ho ⊢
  cases ho with
  | stale ht => exact .inl ⟨ht, rfl⟩
  | installed ht =>
    have h := saveLog_sameLog (r.afterInstalling req io) io.saveLog
    have hsaved : LogSaved r ((r.afterInstalling req io).saveLog io.saveLog) io.saveLog := by
      refine .saveLog ?_ _
      exact ha.logFile
    refine .inr ⟨ht, ⟨h.log.trans ?_, h.base, h.snapshot, ?_⟩, hsaved, fun hs => h.file.trans ?_⟩
    · show compact (r.adoptTerm req.term io).log req.lastIncludedIndex req.lastIncludedTerm = _
      rw [ha.log]
    · cases hs : io.saveSnap with
      | true =>
        right
        refine h.file.trans ?_
        simp only [afterInstalling, hs, if_true]
      | false =>
        left
        refine h.file.trans (Eq.trans ?_ ha.file)
        simp only [afterInstalling, hs, Bool.false_eq_true, if_false]
    · refine Eq.trans ?_ h.snapshot.symm
      simp only [afterInstalling, hs, if_true]

end Raft

namespace Cluster

/-! ## A step and the log -/

/-- Where the command comes from that a leader appends. -/
inductive Source (s : Cluster) : Action → NodeID → Command → Prop
  | propose (n : NodeID) (cmd : Command) (io : Io) : Source s (.propose n cmd io) n cmd
  | client (i : Nat) (io : Io) (n : NodeID) (cmd : Command) (hx : s.tasks[i]? = some (n, .propose cmd)) :
      Source s (.run i .go io) n cmd
  | configChange (n : NodeID) (type : ConfigChangeType) (nodeID : NodeID) (io : Io) :
      Source s (.configChange n type nodeID io) n (.configChange type.name nodeID)

/-- What the environment answers to the node that acts. -/
def ioOf : Action → Io
  | .electionTimeout _ _ io | .deliver _ io | .run _ _ io | .propose _ _ io | .configChange _ _ _ io
  | .forceSnapshot _ io | .applierTake _ io | .applierDone _ io => io
  | _ => {}

/-- The step takes a snapshot of node `n`, if it takes one at all. -/
def takesSnapshot (n : NodeID) (s : Cluster) : Action → Bool
  | .forceSnapshot m _ => decide (m = n)
  | .applierDone m _ => decide (m = n) && (s.raft n).snapshotDue
  | _ => false

/-- Where this step puts the base of the log of node `n`, if it compacts it: at a snapshot that it is sent or takes. -/
def compactsAt (s : Cluster) (n : NodeID) : Action → Option Int
  | .deliver call _ =>
    match s.requests[call]? with
    | some ⟨_, m, .installSnapshot req⟩ =>
      if m = n ∧ (s.raft n).term ≤ req.term then some req.lastIncludedIndex else none
    | _ => none
  | .forceSnapshot m io => if m = n ∧ (s.raft n).snapshots (s.envOf n io) then some (s.raft n).lastApplied else none
  | .applierDone m io =>
    if m = n ∧ (s.raft n).snapshotDue && (s.raft n).snapshots (s.envOf n io) then some (s.raft n).lastApplied else none
  | _ => none

/-- What a step makes of the log of the node it touches, and of its files. -/
inductive LogStep (s : Cluster) (n : NodeID) (r : Raft) : Action → Prop
  | same (a : Action) (h : SameLog (s.raft n) r) (hf : r.disk.logFile = (s.raft n).disk.logFile)
      (hk : s.compactsAt n a = none) : LogStep s n r a
  | append (a : Action) (cmd : Command) (h : Appends (s.raft n) r cmd) (hv : SameVotes (s.raft n) r)
      (hc : Source s a n cmd) (hf : LogSaved (s.raft n) r (ioOf a).saveLog) : LogStep s n r a
  | merge (call : Nat) (io : Io) (src : NodeID) (req : AppendEntriesRequest)
      (hp : s.requests[call]? = some ⟨src, n, .appendEntries req⟩)
      (hr : r = ((s.raft n).appendEntries req (s.envOf n io)).1) (h : Merges (s.raft n) r req)
      (hs : ((s.raft n).appendEntries req (s.envOf n io)).2.success = true)
      (hf : LogSaved (s.raft n) r io.saveLog) : LogStep s n r (.deliver call io)
  | install (call : Nat) (io : Io) (src : NodeID) (req : InstallSnapshotRequest)
      (hp : s.requests[call]? = some ⟨src, n, .installSnapshot req⟩)
      (hr : r = ((s.raft n).installSnapshot req (s.envOf n io)).1) (ht : (s.raft n).term ≤ req.term)
      (h : Compacts (s.raft n) r ⟨req.lastIncludedIndex, req.lastIncludedTerm, req.data⟩)
      (hf : LogSaved (s.raft n) r io.saveLog) (hs : io.saveSnap = true → r.disk.snapFile = r.snapshot) :
      LogStep s n r (.deliver call io)
  | snapshot (a : Action) (snap : Snapshot) (h : Snapshotted (s.raft n) r (s.envOf n (ioOf a)) snap)
      (hr : Reconfigured (s.raft n) r) (ht : takesSnapshot n s a = true)
      (hk : s.compactsAt n a = some (s.raft n).lastApplied) : LogStep s n r a

variable {s : Cluster} {a : Action} {n : NodeID} {r : Raft}

theorem LogStep.of_files (h : SameFiles (s.raft n) r) (hk : s.compactsAt n a = none) : LogStep s n r a :=
  .same a h.toSameLog h.logFile hk

theorem LogStep.of_data (h : SameData (s.raft n) r) (hk : s.compactsAt n a = none) : LogStep s n r a :=
  .of_files h.toSameFiles hk

theorem NodeStep.logStep (h : NodeStep s a n r) : LogStep s n r a := by
  cases h with
  | electionTick => exact .of_data (electionTick_data ..) rfl
  | requestVote _ _ _ _ _ hp => exact .of_data (requestVote_data ..) (by simp only [compactsAt, hp])
  | appendEntries call io src _ req hp =>
    rcases appendEntries_merges (s.raft n) req (s.envOf n io) with ⟨_, h⟩ | ⟨hs, h⟩
    · exact .of_files h (by simp only [compactsAt, hp])
    · exact .merge _ _ _ _ hp rfl h hs (appendEntries_logSaved hs)
  | installSnapshot call io src _ req hp =>
    rcases installSnapshot_compacts (s.raft n) req (s.envOf n io) with ⟨ht, h⟩ | ⟨ht, h, hf, hs⟩
    · rw [h]
      exact .of_data (.refl _) (by simp only [compactsAt, hp, true_and]; exact if_neg (by omega))
    · exact .install _ _ _ _ hp rfl ht h hf hs
  | timeoutNow _ _ _ _ _ hp => exact .of_data (timeoutNow_data ..) (by simp only [compactsAt, hp])
  | voteAnswer => exact .of_data (handleVoteResponse_data ..) rfl
  | appendAnswer => exact .of_data (handleAppendResponse_data ..) rfl
  | transferAnswer => exact .of_data (handleTimeoutNowResponse_data ..) rfl
  | snapshotAnswer => exact .same _ ⟨rfl, rfl, rfl, rfl⟩ rfl rfl
  | alone => exact .of_data (updateCommitIndexLocked_data _) rfl
  | wait => exact .of_files (appliedWait_files ..) rfl
  | propose _ cmd io =>
    rcases propose_appends (s.raft n) cmd (s.envOf n io) with h | ⟨h, hf⟩
    · exact .of_files h rfl
    · exact .append _ _ h (propose_rest ..).toSameVotes (.propose ..) hf
  | proposeTask i io _ cmd hx =>
    rcases propose_appends (s.raft n) cmd (s.envOf n io) with h | ⟨h, hf⟩
    · exact .of_files h rfl
    · exact .append _ _ h (propose_rest ..).toSameVotes (.client _ _ _ _ hx) hf
  | configChange _ type nodeID io =>
    rcases proposeConfigChange_appends (s.raft n) type nodeID (s.envOf n io) with h | ⟨h, hf⟩
    · exact .of_files h rfl
    · exact .append _ _ h (proposeConfigChange_rest ..).toSameVotes (.configChange ..) hf
  | forceSnapshot _ io =>
    rcases createSnapshotLocked_compacts (s.raft n) (s.envOf n io) with ⟨hk, h⟩ | ⟨hk, snap, h⟩
    · rw [h]
      exact .of_data (.refl _) (by simp only [compactsAt, hk, Bool.false_eq_true, and_false, if_false])
    · exact .snapshot _ snap h (.of_same (createSnapshotLocked_rest ..).toSameVotes) (by simp [takesSnapshot])
        (by simp only [compactsAt, hk, and_self, if_true])
  | applierTake => exact .of_data (takeNext_data ..) rfl
  | applierDone _ io =>
    have ht := (takeNext_data ((s.raft n).afterApply (s.envOf n io)) (s.envOf n io)).toSameFiles
    rcases afterApply_compacts (s.raft n) (s.envOf n io) with ⟨hk, h⟩ | ⟨hk, snap, h⟩
    · exact .of_files (h.trans ht) (by simp only [compactsAt, hk, Bool.false_eq_true, and_false, if_false])
    · refine .snapshot _ snap (h.trans_same ht) ((afterApply_rest ..).trans_reconfigured (takeNext_reconfigured ..)) ?_
        (by simp only [compactsAt, hk, and_self, if_true])
      simp [takesSnapshot, (Bool.and_eq_true_iff.1 hk).1]

/-- The base of a log is where the step puts it, or it stays with the snapshot in memory. -/
theorem NodeStep.compacts (h : NodeStep s a n r) :
    (∃ i, s.compactsAt n a = some i ∧ r.logBaseIndex = i) ∨
      (s.compactsAt n a = none ∧ r.logBaseIndex = (s.raft n).logBaseIndex ∧ r.snapshot = (s.raft n).snapshot) := by
  cases h.logStep with
  | same _ hl _ hk => exact .inr ⟨hk, hl.base, hl.snapshot⟩
  | append _ _ hl _ hc => exact .inr ⟨by cases hc <;> rfl, hl.base, hl.snapshot⟩
  | merge _ _ _ _ hp _ hl => exact .inr ⟨by simp only [compactsAt, hp], hl.base, hl.snapshot⟩
  | install _ _ _ _ hp _ ht hl => exact .inl ⟨_, by simp only [compactsAt, hp, true_and]; exact if_pos ht, hl.base⟩
  | snapshot _ _ hl _ _ hk => exact .inl ⟨_, hk, hl.compacts.base.trans hl.own.index⟩

/-- What a step makes of the base of the log of the node it touches, and of its snapshots. -/
inductive SaveStep (s : Cluster) (n : NodeID) (r : Raft) : Action → Prop
  | same (a : Action) (hb : r.logBaseIndex = (s.raft n).logBaseIndex) (hs : r.snapshot = (s.raft n).snapshot)
      (hf : r.disk.snapFile = (s.raft n).disk.snapFile) : SaveStep s n r a
  | install (call : Nat) (io : Io) (src : NodeID) (req : InstallSnapshotRequest)
      (hp : s.requests[call]? = some ⟨src, n, .installSnapshot req⟩)
      (hr : r = ((s.raft n).installSnapshot req (s.envOf n io)).1) (ht : (s.raft n).term ≤ req.term)
      (h : Compacts (s.raft n) r ⟨req.lastIncludedIndex, req.lastIncludedTerm, req.data⟩) :
      SaveStep s n r (.deliver call io)
  | own (a : Action) (snap : Snapshot) (h : Snapshotted (s.raft n) r (s.envOf n (ioOf a)) snap)
      (ht : takesSnapshot n s a = true) : SaveStep s n r a

theorem NodeStep.saveStep (h : NodeStep s a n r) : SaveStep s n r a := by
  cases h.logStep with
  | same _ hl => exact .same _ hl.base hl.snapshot hl.file
  | append _ _ hl => exact .same _ hl.base hl.snapshot hl.file
  | merge _ _ _ _ _ _ hl => exact .same _ hl.base hl.snapshot hl.file
  | install _ _ _ _ hp hr ht hl => exact .install _ _ _ _ hp hr ht hl
  | snapshot _ snap hs _ ht => exact .own _ snap hs ht

/-- The AppendEntries request that is accepted in this step: its sender, the node and the request. -/
def accepts (s : Cluster) : Action → Option (NodeID × NodeID × AppendEntriesRequest)
  | .deliver call _ =>
    match s.requests[call]? with
    | some ⟨src, n, .appendEntries req⟩ =>
      if (s.raft n).acceptsEntries req then some (src, n, req) else none
    | _ => none
  | _ => none

theorem accepts_deliver {s : Cluster} {call : Nat} {io : Io} {src n : NodeID} {req : AppendEntriesRequest}
    (hp : s.requests[call]? = some ⟨src, n, .appendEntries req⟩)
    (hs : ((s.raft n).appendEntries req (s.envOf n io)).2.success = true) :
    s.accepts (.deliver call io) = some (src, n, req) := by
  rw [appendEntries_success] at hs
  simp only [accepts, hp, hs, if_true]

/-- An accepted request was sent, and its entries are merged into the log of the node. -/
theorem step_accepts {s s' : Cluster} {a : Action} (hs : s.step a = some s') {src n : NodeID}
    {req : AppendEntriesRequest} (h : s.accepts a = some (src, n, req)) :
    ∃ call io, a = .deliver call io ∧ s.requests[call]? = some ⟨src, n, .appendEntries req⟩ ∧ n ∈ s.procs ∧
      s'.raft n = ((s.raft n).appendEntries req (s.envOf n io)).1 ∧ Merges (s.raft n) (s'.raft n) req ∧
      (∀ m, m ≠ n → s'.raft m = s.raft m) ∧
      s'.replies = s.replies ++ [(call, .appendEntries ((s.raft n).appendEntries req (s.envOf n io)).2)] ∧
      ((s.raft n).appendEntries req (s.envOf n io)).2.success = true := by
  cases a with
  | deliver call io =>
    obtain ⟨p, hp, hn, rfl⟩ := step_deliver hs
    simp only [accepts, hp] at h
    split at h
    · rename_i src' n' req' heq
      cases heq
      split at h
      · rename_i hok
        cases h
        have hsucc := (appendEntries_success (s.raft n) req (s.envOf n io)).trans hok
        refine ⟨call, io, rfl, hp, hn, ?_, ?_, fun m hm => ?_, rfl, hsucc⟩
        · rw [handle_appendEntries, reply_raft, setRaft_raft_self]
        · rw [handle_appendEntries, reply_raft, setRaft_raft_self]
          rcases appendEntries_merges (s.raft n) req (s.envOf n io) with ⟨hf, _⟩ | ⟨_, h⟩
          · rw [hf] at hsucc; cases hsucc
          · exact h
        · rw [handle_appendEntries, reply_raft, setRaft_raft_ne _ _ _ _ hm]
      · cases h
    · cases h
  | _ => cases h

end Cluster

end Mimori
