/-
The peers of a node. A configuration entry overwrites the membership of the nodes it is about, so the
list is what the last entry about each node says; `raft-meta.json` has a copy of it, and `New` replays
the configuration entries of the log over that copy.
-/
import Mimori.Base.Overwrite
import Mimori.Storage.Meta
import Mimori.Storage.Restart
import Mimori.Apply.Taken

namespace Mimori

open Raft

namespace Raft

/-! ## Configuration entries -/

/-- What a log entry makes of the peers of node `id`. -/
def configured (id : NodeID) (peers : List NodeID) (e : LogEntry) : List NodeID :=
  match e.data with
  | .configChange type nodeID =>
    if nodeID = id then if type == "add" then peers else []
    else if type == "add" then if peers.contains nodeID then peers else peers ++ [nodeID]
    else peers.filter (· ≠ nodeID)
  | _ => peers

/-- Whether a log entry puts `x` into the peers of node `id` or takes it out. -/
def membership (id : NodeID) (e : LogEntry) (x : NodeID) : Option Bool :=
  match e.data with
  | .configChange type nodeID =>
    if nodeID = id then if type == "add" then none else some false
    else if nodeID = x then some (type == "add") else none
  | _ => none

theorem contains_configured (id : NodeID) (peers : List NodeID) (e : LogEntry) (x : NodeID) :
    (configured id peers e).contains x = (membership id e x).getD (peers.contains x) := by
  unfold configured membership
  split
  · rename_i type nodeID _
    split
    · split <;> rfl
    · by_cases hx : nodeID = x
      · subst hx
        rw [if_pos rfl, Option.getD_some]
        split
        · rename_i ht
          rw [ht]
          split
          · assumption
          · simp
        · rename_i ht; simp [ht]
      · rw [if_neg hx, Option.getD_none]
        split
        · split
          · rfl
          · simp [Ne.symm hx]
        · simp [List.mem_filter, Ne.symm hx]
  · rfl

/-- Configuration entries on the peers of node `id`. -/
def config (id : NodeID) : Overwrite (List NodeID) LogEntry NodeID Bool where
  apply := configured id
  read peers x := peers.contains x
  writes := membership id
  read_apply := contains_configured id

theorem config_same_iff {id : NodeID} {p q : List NodeID} : (config id).Same p q ↔ ∀ x, x ∈ p ↔ x ∈ q := by
  constructor
  · intro h x
    rw [← List.contains_iff_mem, ← List.contains_iff_mem]
    exact Eq.congr_left (h x)
  · intro h x
    show p.contains x = q.contains x
    rw [Bool.eq_iff_iff, List.contains_iff_mem, List.contains_iff_mem]
    exact h x

theorem saveMeta_peers (r : Raft) (ok : Bool) : (r.saveMeta ok).peers = r.peers := by
  unfold saveMeta; split <;> rfl

theorem applyConfigChangeLocked_peers (r : Raft) (isAdd : Bool) (nodeID : NodeID) (io : Io) :
    (r.applyConfigChangeLocked isAdd nodeID io).peers =
      if nodeID = r.id then if isAdd then r.peers else []
      else if isAdd then if r.peers.contains nodeID then r.peers else r.peers ++ [nodeID]
      else r.peers.filter (· ≠ nodeID) := by
  have ho := applyConfigChangeLocked_outcome r isAdd nodeID io
  generalize r.applyConfigChangeLocked isAdd nodeID io = out at ho ⊢
  cases ho with
  | self hid ha => simp only [if_pos hid, ha, if_true]
  | leaves hid ha => simp only [if_pos hid, ha, saveMeta_peers, Bool.false_eq_true, if_false]
  | known hid hc ha => simp only [if_neg hid, ha, hc, saveMeta_peers, if_true]
  | added hid hc ha => simp only [if_neg hid, ha, hc, saveMeta_peers, if_true, Bool.false_eq_true, if_false]
  | dropped hid ha => simp only [if_neg hid, ha, saveMeta_peers, Bool.false_eq_true, if_false]

theorem handleConfigChangeIfNeeded_peers (r : Raft) (e : LogEntry) (io : Io) :
    (r.handleConfigChangeIfNeeded e io).peers = configured r.id r.peers e := by
  unfold handleConfigChangeIfNeeded configured
  cases e.data with
  | configChange type nodeID => exact applyConfigChangeLocked_peers ..
  | _ => rfl

theorem handleConfigChangeIfNeeded_id (r : Raft) (e : LogEntry) (io : Io) :
    (r.handleConfigChangeIfNeeded e io).id = r.id ∧ (r.handleConfigChangeIfNeeded e io).lastApplied = r.lastApplied := by
  refine ⟨?_, (handleConfigChangeIfNeeded_indices ..).2⟩
  rcases handleConfigChangeIfNeeded_outcome r e io with h | ⟨_, _, ho⟩
  · rw [h]
  · generalize r.handleConfigChangeIfNeeded e io = out at ho ⊢
    cases ho with
    | self => rfl
    | _ => exact (saveMeta_same ..).id

/-! ## Changes applied again -/

/-- A configuration change, and what the environment answers while it is applied. -/
structure Change where
  isAdd : Bool
  nodeID : NodeID
  io : Io := {}

/-- What is changed, whenever it is applied. -/
def Change.op (c : Change) : Bool × NodeID := (c.isAdd, c.nodeID)

/-- An entry with the change. -/
def opEntry (op : Bool × NodeID) : LogEntry := ⟨0, 0, .configChange (if op.1 then "add" else "remove") op.2⟩

/-- The fold of `applyConfigChangeLocked`. -/
def applyChanges (r : Raft) (cs : List Change) : Raft :=
  cs.foldl (fun r c => r.applyConfigChangeLocked c.isAdd c.nodeID c.io) r

theorem applyConfigChangeLocked_entry (r : Raft) (c : Change) :
    r.applyConfigChangeLocked c.isAdd c.nodeID c.io = r.handleConfigChangeIfNeeded (opEntry c.op) c.io := by
  unfold handleConfigChangeIfNeeded opEntry Change.op
  cases c.isAdd <;> rfl

theorem applyConfigChangeLocked_removed (r : Raft) (isAdd : Bool) (nodeID : NodeID) (io : Io) :
    (r.applyConfigChangeLocked isAdd nodeID io).removedFromCluster =
      (r.removedFromCluster || (!isAdd && nodeID == r.id)) := by
  have hsave : ∀ (x : Raft) (ok : Bool), (x.saveMeta ok).removedFromCluster = x.removedFromCluster := by
    intro x ok
    unfold saveMeta
    split <;> rfl
  have ho := applyConfigChangeLocked_outcome r isAdd nodeID io
  generalize r.applyConfigChangeLocked isAdd nodeID io = out at ho ⊢
  cases ho with
  | self hid ha => simp [ha]
  | leaves hid ha => simp [ha, hid, hsave]
  | known hid hc ha => simp [ha, hsave]
  | added hid hc ha => simp [ha, hsave]
  | dropped hid ha => simp [ha, hid, hsave]

/-- The peers are what the changes make of them, and the node is out once one of them took it out. -/
theorem applyChanges_spec (r : Raft) (cs : List Change) :
    (r.applyChanges cs).id = r.id ∧
      (r.applyChanges cs).peers = (config r.id).replay r.peers ((cs.map Change.op).map opEntry) ∧
      (r.applyChanges cs).removedFromCluster =
        (r.removedFromCluster || (cs.map Change.op).any fun op => !op.1 && op.2 == r.id) := by
  induction cs generalizing r with
  | nil => exact ⟨rfl, rfl, (Bool.or_false _).symm⟩
  | cons c cs ih =>
    have hstep : r.applyChanges (c :: cs) = (r.applyConfigChangeLocked c.isAdd c.nodeID c.io).applyChanges cs := rfl
    have hid : (r.applyConfigChangeLocked c.isAdd c.nodeID c.io).id = r.id := by
      rw [applyConfigChangeLocked_entry]
      exact (handleConfigChangeIfNeeded_id ..).1
    have hpeers : (r.applyConfigChangeLocked c.isAdd c.nodeID c.io).peers = configured r.id r.peers (opEntry c.op) := by
      rw [applyConfigChangeLocked_entry, handleConfigChangeIfNeeded_peers]
    obtain ⟨h1, h2, h3⟩ := ih (r.applyConfigChangeLocked c.isAdd c.nodeID c.io)
    rw [hid] at h1 h2 h3
    refine ⟨h1, ?_, ?_⟩
    · rw [hstep, h2, hpeers]
      rfl
    · rw [hstep, h3, applyConfigChangeLocked_removed, List.map_cons, List.any_cons, Bool.or_assoc]
      rfl

/-- Changes that are applied once more, one after the other from where they led to, lead to the same set of peers
and to the same flag, whatever the clock says and whichever saves fail meanwhile. -/
theorem config_replay_idempotent (r : Raft) {cs cs' : List Change} (h : cs'.map Change.op = cs.map Change.op) :
    (∀ x, x ∈ ((r.applyChanges cs).applyChanges cs').peers ↔ x ∈ (r.applyChanges cs).peers) ∧
      ((r.applyChanges cs).applyChanges cs').removedFromCluster = (r.applyChanges cs).removedFromCluster := by
  obtain ⟨hid, hpeers, hflag⟩ := applyChanges_spec r cs
  obtain ⟨-, hpeers', hflag'⟩ := applyChanges_spec (r.applyChanges cs) cs'
  rw [hid] at hpeers' hflag'
  constructor
  · -- the last change about each node is in force already
    have hsame := Overwrite.inForce_iff.1 ((config r.id).inForce_replay r.peers ((cs.map Change.op).map opEntry))
    rw [hpeers', h, hpeers]
    exact config_same_iff.1 hsame
  · rw [hflag', h, hflag, Bool.or_assoc, Bool.or_self]

/-- C comes, the node A itself goes, and D comes. -/
def comeAndGo : List Change := [⟨true, "C", {}⟩, ⟨false, "A", {}⟩, ⟨true, "D", {}⟩]

theorem config_replay_idempotent_comeAndGo :
    "D" ∈ (((new "A" ["B"] {} {}).applyChanges comeAndGo).applyChanges comeAndGo).peers ∧
      (((new "A" ["B"] {} {}).applyChanges comeAndGo).applyChanges comeAndGo).removedFromCluster = true := by
  obtain ⟨hpeers, hflag⟩ := config_replay_idempotent (new "A" ["B"] {} {}) (Eq.refl (comeAndGo.map Change.op))
  rw [hpeers, hflag]
  decide +kernel

/-- The change that an entry is. -/
def changeOf (io : Io) (e : LogEntry) : Option Change :=
  match e.data with
  | .configChange type nodeID => some ⟨type == "add", nodeID, io⟩
  | _ => none

theorem foldl_handleConfigChangeIfNeeded (io : Io) (es : List LogEntry) (r : Raft) :
    es.foldl (fun r e => r.handleConfigChangeIfNeeded e io) r = r.applyChanges (es.filterMap (changeOf io)) := by
  induction es generalizing r with
  | nil => rfl
  | cons e es ih =>
    rw [List.foldl_cons, ih, List.filterMap_cons]
    unfold handleConfigChangeIfNeeded changeOf
    cases e.data <;> rfl

/-- So `replayConfigChanges` is a fold of `applyConfigChangeLocked`. -/
theorem replayConfigChanges_changes (r : Raft) (io : Io) :
    r.replayConfigChanges io = r.applyChanges (r.replayEntries.filterMap (changeOf io)) := by
  rw [replayConfigChanges_eq, foldl_handleConfigChangeIfNeeded]

/-! ## The copy in the meta file -/

/-- The meta file is unchanged, or holds the peers of now. -/
def PeersWritten (r r' : Raft) : Prop := r'.disk.metaFile = r.disk.metaFile ∨ r'.savedMeta.peers = r'.peers

theorem PeersWritten.saveMeta {r r' : Raft} (h : r'.disk.metaFile = r.disk.metaFile) (ok : Bool) :
    PeersWritten r (r'.saveMeta ok) := by
  unfold Raft.saveMeta
  split
  · exact .inr rfl
  · exact .inl h

theorem PeersWritten.trans {a b c : Raft} (h : PeersWritten a b) (h' : PeersWritten b c) (hp : c.peers = b.peers) :
    PeersWritten a c := by
  rcases h' with h' | h'
  · rcases h with h | h
    · exact .inl (h'.trans h)
    · right
      rw [savedMeta, h', hp]; exact h
  · exact .inr h'

theorem adoptTerm_peersWritten (r : Raft) (term : Int) (io : Io) : PeersWritten r (r.adoptTerm term io) := by
  unfold adoptTerm
  split
  · exact .saveMeta rfl _
  · exact .inl rfl

theorem startElectionLocked_peersWritten (r : Raft) (io : Io) : PeersWritten r (r.startElectionLocked io).1 := by
  have hw : PeersWritten r
      (({ r with state := .candidate, term := r.term + 1, votedFor := r.id }).saveMeta io.saveVote) := .saveMeta rfl _
  have ho := startElectionLocked_outcome r io
  generalize r.startElectionLocked io = out at ho ⊢
  cases ho with
  | removed => exact .inl rfl
  | elected => exact hw.trans (.inl rfl) rfl
  | asks => exact hw.trans (.inl rfl) rfl

theorem requestVote_peersWritten (r : Raft) (req : RequestVoteRequest) (io : Io) :
    PeersWritten r (r.requestVote req io).1 := by
  have ha := adoptTerm_peersWritten r req.term io
  have ho := requestVote_outcome r req io
  generalize r.requestVote req io = out at ho ⊢
  cases ho with
  | ignored => exact .inl rfl
  | refused => exact ha
  | granted =>
    refine ha.trans (.saveMeta rfl _) ?_
    exact saveMeta_peers ..

theorem saveLog_peers (r : Raft) (ok : Bool) : (r.saveLog ok).peers = r.peers := by
  unfold saveLog; split <;> rfl

theorem appendEntries_peersWritten (r : Raft) (req : AppendEntriesRequest) (io : Io) :
    PeersWritten r (r.appendEntries req io).1 := by
  have ha := adoptTerm_peersWritten r req.term io
  have ho := appendEntries_outcome r req io
  generalize r.appendEntries req io = out at ho ⊢
  cases ho with
  | ignored => exact .inl rfl
  | refused => exact ha.trans (.inl rfl) rfl
  | accepted =>
    refine ha.trans (.inl (SameMeta.trans ?_ (advanceCommit_sameMeta _ _)).file) ?_
    · refine .saveLog ?_ _
      exact ⟨rfl, rfl, rfl⟩
    · simp only
      rw [(advanceCommit_same _ _).peers, saveLog_peers]
      rfl

theorem installSnapshot_peersWritten (r : Raft) (req : InstallSnapshotRequest) (io : Io) :
    PeersWritten r (r.installSnapshot req io).1 := by
  have ho := installSnapshot_outcome r req io
  generalize r.installSnapshot req io = out at ho ⊢
  cases ho with
  | stale => exact .inl rfl
  | installed =>
    exact (adoptTerm_peersWritten r req.term io).trans
      (.inl (saveLog_rest (r.afterInstalling req io) io.saveLog).metaFile) (saveLog_peers (r.afterInstalling req io) _)

theorem timeoutNow_peersWritten (r : Raft) (req : TimeoutNowRequest) (io : Io) :
    PeersWritten r (r.timeoutNow req io).1 := by
  have ho := timeoutNow_outcome r req io
  generalize r.timeoutNow req io = out at ho ⊢
  cases ho with
  | ignored => exact .inl rfl
  | starts =>
    exact (adoptTerm_peersWritten r req.term io).trans (startElectionLocked_peersWritten _ io)
      (startElectionLocked_members _ io).peers

theorem handleVoteResponse_metaFile (r : Raft) (resp : RequestVoteResponse) :
    (r.handleVoteResponse resp).1.disk.metaFile = r.disk.metaFile := by
  have ho := handleVoteResponse_outcome r resp
  generalize r.handleVoteResponse resp = out at ho ⊢
  cases ho <;> rfl

theorem handleAppendResponse_peersWritten (r : Raft) (a : AppendArgs) (resp : AppendEntriesResponse) (io : Io) :
    PeersWritten r (r.handleAppendResponse a resp io).1 := by
  have ho := handleAppendResponse_outcome r a resp io
  generalize r.handleAppendResponse a resp io = out at ho ⊢
  cases ho with
  | newer => exact .saveMeta rfl _
  | transfer => exact .inl rfl
  | backed => exact .inl rfl
  | ignored => exact .inl rfl
  | counted => exact .inl ((recordProgress_sameMeta r a).trans (updateCommitIndexLocked_sameMeta _)).file

theorem handleTimeoutNowResponse_peersWritten (r : Raft) (target : NodeID) (resp : TimeoutNowResponse) (io : Io) :
    PeersWritten r (r.handleTimeoutNowResponse target resp io) := by
  unfold handleTimeoutNowResponse
  split
  · exact .saveMeta rfl _
  · exact .inl rfl

/-- The meta file holds the peers, or none yet and they are those of the command line. -/
def PeersSaved (peers₀ : List NodeID) (r : Raft) : Prop :=
  r.savedMeta.peers = r.peers ∨ (r.savedMeta.peers = [] ∧ r.peers = peers₀)

theorem PeersSaved.written {peers₀ : List NodeID} {r r' : Raft} (h : PeersSaved peers₀ r) (hw : PeersWritten r r')
    (hp : r'.peers = r.peers) : PeersSaved peers₀ r' := by
  rcases hw with hw | hw
  · unfold PeersSaved savedMeta
    rw [hw, hp]; exact h
  · exact .inl hw

theorem PeersSaved.handleConfigChange {peers₀ : List NodeID} {r : Raft} (h : PeersSaved peers₀ r) {io : Io}
    (hio : io.saveTerm = true) (e : LogEntry) : PeersSaved peers₀ (r.handleConfigChangeIfNeeded e io) := by
  rcases handleConfigChangeIfNeeded_outcome r e io with heq | ⟨_, _, ho⟩
  · rw [heq]
    exact h
  · generalize r.handleConfigChangeIfNeeded e io = out at ho ⊢
    cases ho with
    | self => exact h
    | _ =>
      rw [hio]
      exact .inl rfl

/-! ## The replay of `New` -/

theorem replayEntries_peers (io : Io) (es : List LogEntry) (r : Raft) :
    (es.foldl (fun r e => r.handleConfigChangeIfNeeded e io) r).peers = (config r.id).replay r.peers es := by
  induction es generalizing r with
  | nil => rfl
  | cons e es ih =>
    rw [List.foldl_cons, ih, handleConfigChangeIfNeeded_peers, (handleConfigChangeIfNeeded_id r e io).1]
    rfl

theorem replayConfigChanges_peers {r : Raft} (h : Indexed r) (io : Io) :
    (r.replayConfigChanges io).peers = (config r.id).replay r.peers (r.log.drop 1) := by
  have hbase := h.base
  have hread : r.replayEntries = r.log.drop 1 := by
    unfold replayEntries
    rw [if_neg (by omega), h.filterMap_entryAt (by omega)]
    congr 1
    omega
  rw [replayConfigChanges_eq, replayEntries_peers, hread]

theorem replayConfigChanges_id (r : Raft) (io : Io) :
    (r.replayConfigChanges io).id = r.id ∧ (r.replayConfigChanges io).lastApplied = r.lastApplied := by
  rw [replayConfigChanges_eq]
  refine List.foldlRecOn (motive := fun r' : Raft => r'.id = r.id ∧ r'.lastApplied = r.lastApplied) _ _ ⟨rfl, rfl⟩
    fun r' ⟨h1, h2⟩ e _ => ?_
  obtain ⟨i1, i2⟩ := handleConfigChangeIfNeeded_id r' e io
  exact ⟨i1.trans h1, i2.trans h2⟩

theorem PeersSaved.replay {peers₀ : List NodeID} {r : Raft} (h : PeersSaved peers₀ r) {io : Io}
    (hio : io.saveTerm = true) : PeersSaved peers₀ (r.replayConfigChanges io) := by
  rw [replayConfigChanges_eq]
  exact List.foldlRecOn (motive := PeersSaved peers₀) _ _ h fun r' hr e _ => hr.handleConfigChange hio e

theorem new_id (id : NodeID) (peers : List NodeID) (d : Disk) (io : Io) : (new id peers d io).id = id := by
  rw [new_eq]
  exact (replayConfigChanges_id (unreplayed id peers d io) io).1

/-- The peers a process starts with on the files `d`. -/
def startPeers (peers : List NodeID) (d : Disk) : List NodeID :=
  if (d.metaFile.getD ⟨0, "", []⟩).peers.isEmpty then peers else (d.metaFile.getD ⟨0, "", []⟩).peers

theorem unreplayed_saved (id : NodeID) (peers : List NodeID) (d : Disk) (io : Io) :
    PeersSaved peers (unreplayed id peers d io) := by
  show (d.metaFile.getD ⟨0, "", []⟩).peers = startPeers peers d ∨
    ((d.metaFile.getD ⟨0, "", []⟩).peers = [] ∧ startPeers peers d = peers)
  unfold startPeers
  cases (d.metaFile.getD ⟨0, "", []⟩).peers with
  | nil => exact .inr ⟨rfl, rfl⟩
  | cons p ps => exact .inl rfl

theorem new_peers {b : Int} {d : Disk} (hd : DiskAt b d) (id : NodeID) (peers : List NodeID) (io : Io) :
    (new id peers d io).peers = (config id).replay (startPeers peers d) ((loadLog d).1.drop 1) ∧
      (new id peers d io).lastApplied = b ∧ (io.saveTerm = true → PeersSaved peers (new id peers d io)) := by
  have hl : Loaded d (unreplayed id peers d io) := ⟨rfl, rfl, rfl, rfl, rfl, fun _ p v hv => by cases hv⟩
  have hp := replayConfigChanges_peers (hl.indexed hd).1 io
  obtain ⟨_, hla⟩ := replayConfigChanges_id (unreplayed id peers d io) io
  rw [new_eq]
  refine ⟨hp, ?_, (unreplayed_saved id peers d io).replay⟩
  cases hs : d.snapFile with
  | none => exact hla.trans (hd.noSnap hs).symm
  | some snap => exact hd.snap snap hs

end Raft

namespace Cluster

/-- A step that takes no entry writes the peers of now, if it writes the meta file. -/
theorem NodeStep.peersWritten {s : Cluster} {a : Action} {n : NodeID} {r : Raft} (h : NodeStep s a n r)
    (ha : ∀ e, s.applying a ≠ some (n, e)) : PeersWritten (s.raft n) r := by
  cases h with
  | electionTick _ timeout io =>
    rcases electionTick_cases (s.raft n) timeout (s.envOf n io) with h | h <;> rw [h]
    · exact .inl rfl
    · exact startElectionLocked_peersWritten ..
  | requestVote => exact requestVote_peersWritten ..
  | appendEntries => exact appendEntries_peersWritten ..
  | installSnapshot => exact installSnapshot_peersWritten ..
  | timeoutNow => exact timeoutNow_peersWritten ..
  | voteAnswer => exact .inl (handleVoteResponse_metaFile ..)
  | appendAnswer => exact handleAppendResponse_peersWritten ..
  | transferAnswer => exact handleTimeoutNowResponse_peersWritten ..
  | snapshotAnswer => exact .inl rfl
  | alone => exact .inl (updateCommitIndexLocked_sameMeta _).file
  | wait => exact .inl (appliedWait_rest ..).metaFile
  | propose => exact .inl (propose_rest ..).metaFile
  | proposeTask => exact .inl (propose_rest ..).metaFile
  | configChange => exact .inl (proposeConfigChange_rest ..).metaFile
  | forceSnapshot => exact .inl (createSnapshotLocked_rest ..).metaFile
  | applierTake _ io =>
    rcases takeNext_progress (s.raft n) (s.envOf n io) with ⟨_, he⟩ | ⟨e, _, he, _⟩
    · rw [he]; exact .inl rfl
    · exact absurd (by rw [applying, he]; rfl) (ha e)
  | applierDone _ io =>
    rcases takeNext_progress ((s.raft n).afterApply (s.envOf n io)) (s.envOf n io) with ⟨_, he⟩ | ⟨e, _, he, _⟩
    · rw [he]; exact .inl (afterApply_rest ..).metaFile
    · exact absurd (by rw [applying, he]; rfl) (ha e)

/-- The applier of a node takes an entry, maybe after a snapshot. -/
theorem step_taking {s s' : Cluster} {a : Action} {n : NodeID} {e : LogEntry} (hs : s.step a = some s')
    (ha : s.applying a = some (n, e)) :
    ∃ r, (r = s.raft n ∨ r = (s.raft n).afterApply (s.envOf n (ioOf a))) ∧ r.pendingEntry = some e ∧
      s'.raft n = (r.takeNext (s.envOf n (ioOf a))).1 := by
  have hpend : ∀ {r : Raft} {io : Io}, (r.takeNext io).2.map (Prod.mk n) = some (n, e) → r.pendingEntry = some e := by
    intro r io h
    rcases takeNext_progress r io with ⟨_, he⟩ | ⟨e', hp, he, _⟩
    · rw [he] at h; cases h
    · rw [he] at h; cases h; exact hp
  rcases step_search hs n with hno | ⟨io, r, hfrom, hraft, _⟩
  · obtain ⟨io, h | h⟩ := applying_self ha
    · exact absurd h (hno io).1
    · exact absurd h (hno io).2
  · cases hfrom with
    | loop => exact ⟨_, .inl rfl, hpend ha, hraft⟩
    | delivered => exact ⟨_, .inr rfl, hpend ha, hraft⟩

end Cluster

end Mimori
