/-
Saves that fail. A configuration change whose entry cannot be saved is refused with the entry in the log;
`RequestVote`, `AppendEntries` and `Propose` answer as if the save had worked; `InstallSnapshot` moves the log and the
indices whether or not the snapshot was saved and restored. What each of them promises holds when the save works, or
when the file held it before.
-/
import Mathlib.Data.List.TakeWhile
import Mimori.Apply.Store
import Mimori.Cluster.Runs
import Mimori.Log.Merge
import Mimori.Log.Progress
import Mimori.Storage.Files

namespace Mimori

open Raft

namespace Raft

/-! ## Refused configuration changes -/

/-- The leader check and the membership checks of `proposeConfigChange` pass. -/
def admitsChange (r : Raft) (changeType : ConfigChangeType) (nodeID : NodeID) : Bool :=
  r.state == .leader && (changeType != .removeNode || r.peers.contains nodeID)

theorem admitsChange_of {r : Raft} {changeType : ConfigChangeType} {nodeID : NodeID} (hl : r.state = .leader)
    (hp : changeType = .removeNode → r.peers.contains nodeID = true) : r.admitsChange changeType nodeID = true := by
  unfold admitsChange
  rw [hl]
  cases changeType with
  | addNode => rfl
  | removeNode => exact hp rfl

end Raft

/-- A refused configuration change leaves no trace, unless it is refused because the log could not be saved: the node is
as before in every field, so is the cluster, and every run with the refused call is, without it, a run to the
same state. -/
theorem refused_change_leaves_no_trace {r : Raft} {changeType : ConfigChangeType} {nodeID : NodeID} {io : Io} {e : String}
    (herr : (r.proposeConfigChange changeType nodeID io).2 = .error e)
    (hsave : r.admitsChange changeType nodeID = true → io.saveLog = true) :
    (r.proposeConfigChange changeType nodeID io).1 = r ∧
      ∀ (s : Cluster) (n : NodeID), s.raft n = r → n ∈ s.procs →
        s.step (.configChange n changeType nodeID io) = some s ∧
          ∀ ok h₁ h₂ t, Cluster.machine.Run ok (h₂ ++ (s, .configChange n changeType nodeID io) :: h₁) t →
            Cluster.machine.Run ok (h₂ ++ h₁) t := by
  obtain ⟨e', heq⟩ : ∃ e', r.proposeConfigChange changeType nodeID io = (r, .error e') := by
    have ho := proposeConfigChange_outcome r changeType nodeID io
    generalize r.proposeConfigChange changeType nodeID io = out at herr ho ⊢
    cases ho with
    | refused e => exact ⟨e, rfl⟩
    | unsaved hl hp hf =>
      rw [hsave (admitsChange_of hl hp)] at hf
      cases hf
    | appended => cases herr
  refine ⟨by rw [heq], fun s n hn hp => ?_⟩
  have hstep : s.step (.configChange n changeType nodeID io) = some s := by
    -- of the environment the call reads only whether the save works
    have henv : (s.raft n).proposeConfigChange changeType nodeID (s.envOf n io) = (s.raft n, .error e') := by
      rw [hn]
      exact heq
    simp only [Cluster.step, if_pos hp, henv, Cluster.setRaft_self]
  exact ⟨hstep, fun ok h₁ h₂ t hr => hr.skip hstep⟩

namespace Cluster

/-- The leader A is asked to remove a node that is not in the cluster. -/
theorem refused_change_unknown_node :
    ∃ h s, machine.Run (fun _ _ => True) h s ∧ (s.raft "A").state = .leader ∧
      s.step (.configChange "A" .removeNode "D" {}) = some s := by
  obtain ⟨h, s, hr, ⟨hl, hn, hp⟩⟩ := Machine.exists_run (S := machine) (fun _ _ => True)
    (fun _ s => (s.raft "A").state = .leader ∧ "A" ∈ s.procs ∧ (s.raft "A").peers = ["B", "C"])
    (machine_init threeNodes false false) electA (by decide +kernel)
  have hrefused : (s.raft "A").admitsChange .removeNode "D" = false := by
    rw [admitsChange, hp]
    exact Bool.and_false _
  have herr : ((s.raft "A").proposeConfigChange .removeNode "D" {}).2 = .error "node not in cluster" := by
    simp [proposeConfigChange, hl, hp]
  refine ⟨h, s, hr, hl, ?_⟩
  exact ((refused_change_leaves_no_trace herr fun ha => absurd (hrefused.symm.trans ha) (by decide)).2 s "A" rfl hn).1

/-- The leader A cannot save the entry that adds D and answers with an error. Its next heartbeat sends the entry to
B, which acknowledges it, and A commits and applies it. -/
def unsavedChange : List Action :=
  electA ++ [.configChange "A" .addNode "D" { saveLog := false }, .run 1 .go {}, .run 1 .go {}, .run 1 .go {},
    .run 2 .go {}, .run 2 .go {}, .deliver 1 {}, .run 3 (.reply 1) {}, .applierTake "A" {}]

theorem unsavedChange_applied :
    ∃ h s, machine.Run (fun _ _ => True) h s ∧
      (∃ x ∈ h, x.2 = .configChange "A" .addNode "D" { saveLog := false } ∧
        ((x.1.raft "A").proposeConfigChange .addNode "D" { saveLog := false }).2.isOk = false ∧
        "D" ∉ (x.1.raft "A").peers) ∧
      (s.raft "B").entryAt 1 = some ⟨1, 1, .configChange "add" "D"⟩ ∧ "D" ∈ (s.raft "A").peers :=
  Machine.exists_run (fun _ _ => True)
    (fun h s => (∃ x ∈ h, x.2 = .configChange "A" .addNode "D" { saveLog := false } ∧
        ((x.1.raft "A").proposeConfigChange .addNode "D" { saveLog := false }).2.isOk = false ∧
        "D" ∉ (x.1.raft "A").peers) ∧
      (s.raft "B").entryAt 1 = some ⟨1, 1, .configChange "add" "D"⟩ ∧ "D" ∈ (s.raft "A").peers)
    (machine_init threeNodes false false) unsavedChange (by decide +kernel)

end Cluster

/-! ## Promises and the files -/

/-- The meta file holds this term and this vote. -/
def Disk.holdsVote (d : Disk) (term : Int) (votedFor : NodeID) : Bool :=
  d.metaFile.any fun md => md.term == term && md.votedFor == votedFor

/-- The log file holds these entries. -/
def Disk.holdsEntries (d : Disk) (entries : List LogEntry) : Bool :=
  d.logFile.any fun file => entries.all file.contains

namespace Raft

theorem holdsEntries_append (d : Disk) (xs ys : List LogEntry) :
    d.holdsEntries (xs ++ ys) = (d.holdsEntries xs && d.holdsEntries ys) := by
  unfold Disk.holdsEntries
  cases d.logFile with
  | none => rfl
  | some file => exact List.all_append

/-- What a save of the log leaves in the file: the log, or what was there. -/
theorem saveLog_holds {r : Raft} {ok : Bool} {entries : List LogEntry} (hsub : entries ⊆ r.log) :
    (r.saveLog ok).disk.holdsEntries entries = true ↔ ok = true ∨ r.disk.holdsEntries entries = true := by
  cases ok with
  | false => simp [saveLog]
  | true =>
    refine iff_of_true ?_ (.inl rfl)
    show entries.all r.log.contains = true
    exact List.all_eq_true.2 fun e he => List.contains_iff_mem.2 (hsub he)

/-- What the meta file holds of the vote for a known candidate once the node has adopted the term: what it held, unless
the new term was saved, with no vote. -/
theorem adoptTerm_holdsVote {r : Raft} {term : Int} {candidate : NodeID} {io : Io} (ht : r.term ≤ term)
    (hc : candidate ≠ "") :
    (r.adoptTerm term io).disk.holdsVote term candidate = true ↔
      (term = r.term ∨ io.saveTerm = false) ∧ r.disk.holdsVote term candidate = true := by
  unfold adoptTerm
  split
  · cases hs : io.saveTerm with
    | false => simp [saveMeta]
    | true =>
      simp only [saveMeta, if_true, Disk.holdsVote, Option.any_some, beq_self_eq_true, Bool.true_and, beq_iff_eq]
      constructor
      · exact fun h => absurd h.symm hc
      · rintro ⟨h | h, _⟩
        · omega
        · cases h
  · simp only [show term = r.term by omega, true_or, true_and]

theorem requestVote_durable {r : Raft} {req : RequestVoteRequest} {io : Io}
    (hg : (r.requestVote req io).2.voteGranted = true) :
    (r.requestVote req io).1.disk.holdsVote req.term req.candidateId = true ↔
      io.saveVote = true ∨
        ((req.term = r.term ∨ io.saveTerm = false) ∧ r.disk.holdsVote req.term req.candidateId = true) := by
  have ho := requestVote_outcome r req io
  generalize r.requestVote req io = out at hg ho ⊢
  cases ho with
  | ignored => cases hg
  | refused => cases hg
  | granted hk ht =>
    have hne : req.candidateId ≠ "" := by
      rintro he
      simp [isKnownNode, he] at hk
    cases hok : io.saveVote with
    | true => simp [saveMeta, Disk.holdsVote, adoptTerm_term r req.term io ht]
    | false =>
      simp only [saveMeta, Bool.false_eq_true, if_false, false_or]
      exact adoptTerm_holdsVote ht hne

/-- The log has another entry at the index of this one, or none, and the index is not below its base. -/
def lacks (r : Raft) (e : LogEntry) : Bool :=
  decide (r.logBaseIndex ≤ e.index) && (r.entryAt e.index).all fun old => old.term != e.term

/-- The entries of the request from the first one on that the log lacks. -/
def newEntries (r : Raft) (req : AppendEntriesRequest) : List LogEntry := req.entries.dropWhile fun e => !r.lacks e

/-- The entries of the log before the first one of the request that it lacks. -/
def keptEntries (r : Raft) (req : AppendEntriesRequest) : List LogEntry :=
  match r.newEntries req with
  | [] => r.log
  | e :: _ => r.log.take (e.index - r.logBaseIndex).toNat

theorem lacks_iff {r : Raft} {e : LogEntry} :
    r.lacks e = true ↔ r.logBaseIndex ≤ e.index ∧ ¬ Holds r.logBaseIndex r.log e := by
  simp only [lacks, Bool.and_eq_true, decide_eq_true_eq, Holds]
  refine and_congr_right fun hb => ?_
  rw [entryAt_getElem? hb]
  cases r.log[(e.index - r.logBaseIndex).toNat]? with
  | none => simp [hb]
  | some old => simp [hb]

/-- Consecutive entries leave the log up to the first one it lacks, and the rest of them. -/
theorem mergeEntries_eq_kept {r : Raft} {req : AppendEntriesRequest} (hn : Numbered (req.prevLogIndex + 1) req.entries) :
    mergeEntries r.logBaseIndex r.log req.entries = r.keptEntries req ++ r.newEntries req := by
  have hheld : ∀ {e : LogEntry}, Holds r.logBaseIndex r.log e → (!r.lacks e) = true := fun {e} h => by
    rw [Bool.not_eq_true', Bool.eq_false_iff]
    exact fun hl => (lacks_iff.1 hl).2 h
  rcases mergeEntries_cases r.logBaseIndex r.log hn with ⟨hsame, hall⟩ | ⟨front, e, rest, hsplit, hfront, hb, hnot, hcut⟩
  · have hnew : r.newEntries req = [] := List.dropWhile_eq_nil_iff.2 fun e he => hheld (hall e he)
    rw [hsame, keptEntries, hnew, List.append_nil]
  · have hnew : r.newEntries req = e :: rest := by
      rw [newEntries, hsplit, List.dropWhile_append_of_pos fun x hx => hheld (hfront x hx),
        List.dropWhile_cons_of_neg (by simp [lacks_iff.2 ⟨hb, hnot⟩])]
    rw [hcut, keptEntries, hnew]

theorem appendEntries_durable {r : Raft} {req : AppendEntriesRequest} {io : Io}
    (hs : (r.appendEntries req io).2.success = true) :
    (r.appendEntries req io).1.disk.holdsEntries (r.appendEntries req io).1.log = true ↔
      io.saveLog = true ∨ r.disk.holdsEntries (mergeEntries r.logBaseIndex r.log req.entries) = true := by
  have hl := adoptTerm_data r req.term io
  have hcommit : ∀ (r₁ : Raft) (i : Int), (r₁.advanceCommit i).disk = r₁.disk ∧ (r₁.advanceCommit i).log = r₁.log := by
    intro r₁ i
    unfold advanceCommit
    split <;> exact ⟨rfl, rfl⟩
  have ho := appendEntries_outcome r req io
  generalize r.appendEntries req io = out at hs ho ⊢
  cases ho with
  | ignored => cases hs
  | refused => cases hs
  | accepted =>
    obtain ⟨hdisk, hlog⟩ := hcommit ((r.afterMerging req io).saveLog io.saveLog) req.leaderCommit
    simp only
    rw [hdisk, hlog, (saveLog_sameLog _ io.saveLog).log, saveLog_holds (List.Subset.refl _)]
    unfold Disk.holdsEntries afterMerging afterHearing
    simp only
    rw [hl.log, hl.base, hl.logFile]

theorem propose_durable {r : Raft} {cmd : Command} {io : Io} {index : Int} (hok : (r.propose cmd io).2 = .ok index) :
    (r.propose cmd io).1.disk.holdsEntries [⟨index, r.term, cmd⟩] = true ↔
      io.saveLog = true ∨ r.disk.holdsEntries [⟨r.lastLogIndex + 1, r.term, cmd⟩] = true := by
  unfold propose at hok ⊢
  split at hok
  · cases hok
  · rename_i hl
    cases hok
    rw [if_neg hl]
    refine saveLog_holds ?_
    intro e he
    rw [List.mem_singleton.1 he]
    exact List.mem_append_right _ List.mem_cons_self

/-- When success implies durable, for every node and every outcome of the saves. After a granted vote the meta file holds
its term and the vote exactly if the save of the vote worked, or the file held them already and the term was not saved
over them. After a successful `AppendEntries` the log file holds all entries of the log if the save worked, and for
consecutive entries only then, or if it held those that stay and those the log lacked. After a proposal without error it
holds the new entry exactly if the save worked or it held the entry already. -/
theorem success_durable (r : Raft) (io : Io) :
    (∀ req : RequestVoteRequest, (r.requestVote req io).2.voteGranted = true →
      ((r.requestVote req io).1.disk.holdsVote req.term req.candidateId = true ↔
        io.saveVote = true ∨
          ((req.term = r.term ∨ io.saveTerm = false) ∧ r.disk.holdsVote req.term req.candidateId = true))) ∧
    (∀ req : AppendEntriesRequest, (r.appendEntries req io).2.success = true →
      (io.saveLog = true → (r.appendEntries req io).1.disk.holdsEntries (r.appendEntries req io).1.log = true) ∧
      (Numbered (req.prevLogIndex + 1) req.entries →
        ((r.appendEntries req io).1.disk.holdsEntries (r.appendEntries req io).1.log = true ↔
          io.saveLog = true ∨
            (r.disk.holdsEntries (r.keptEntries req) = true ∧ r.disk.holdsEntries (r.newEntries req) = true)))) ∧
    ∀ (cmd : Command) (index : Int), (r.propose cmd io).2 = .ok index →
      ((r.propose cmd io).1.disk.holdsEntries [⟨index, r.term, cmd⟩] = true ↔
        io.saveLog = true ∨ r.disk.holdsEntries [⟨r.lastLogIndex + 1, r.term, cmd⟩] = true) := by
  refine ⟨?_, ?_, ?_⟩
  · intro req hg
    exact requestVote_durable hg
  · intro req hs
    refine ⟨fun hsave => (appendEntries_durable hs).2 (.inl hsave), fun hn => ?_⟩
    rw [appendEntries_durable hs, mergeEntries_eq_kept hn, holdsEntries_append, Bool.and_eq_true]
  · intro cmd index hok
    exact propose_durable hok

/-- A follower without entries, and the leader of its cluster. -/
def freshFollower : Raft where
  id := "B"
  peers := ["A"]
  log := [boundary 0 0]

@[inherit_doc freshFollower]
def freshLeader : Raft where
  id := "A"
  peers := ["B"]
  state := .leader
  term := 1
  log := [boundary 0 0]

/-- The saves of the term and the snapshot may fail. -/
theorem success_durable_fresh :
    (freshFollower.requestVote ⟨"A", 1, 0, 0⟩ { saveTerm := false, saveSnap := false }).1.disk.holdsVote 1 "A" = true ∧
      (freshFollower.appendEntries ⟨1, "A", 0, 0, [⟨1, 1, .delete [1]⟩], 0⟩ { saveTerm := false }).1.disk.holdsEntries
        [⟨1, 1, .delete [1]⟩] = true ∧
      (freshLeader.propose (.delete [1]) {}).1.disk.holdsEntries [⟨1, 1, .delete [1]⟩] = true := by
  refine ⟨((success_durable freshFollower _).1 _ (by decide)).2 (.inl rfl), ?_,
    ((success_durable freshLeader {}).2.2 _ 1 rfl).2 (.inl rfl)⟩
  have h := (((success_durable freshFollower { saveTerm := false }).2.1 ⟨1, "A", 0, 0, [⟨1, 1, .delete [1]⟩], 0⟩
    (by decide)).2 (by decide)).2 (.inl rfl)
  revert h
  decide

/-- With failed saves the vote is granted and the meta file has none, the entries are acknowledged and the proposal is
accepted without a log file. -/
theorem failedSaves_succeed :
    ((freshFollower.requestVote ⟨"A", 1, 0, 0⟩ { saveVote := false }).2.voteGranted = true ∧
      (freshFollower.requestVote ⟨"A", 1, 0, 0⟩ { saveVote := false }).1.votedFor = "A" ∧
      (freshFollower.requestVote ⟨"A", 1, 0, 0⟩ { saveVote := false }).1.disk.metaFile = some ⟨1, "", ["A"]⟩) ∧
    ((freshFollower.appendEntries ⟨1, "A", 0, 0, [⟨1, 1, .delete [1]⟩], 0⟩ { saveLog := false }).2.success = true ∧
      (freshFollower.appendEntries ⟨1, "A", 0, 0, [⟨1, 1, .delete [1]⟩], 0⟩ { saveLog := false }).1.log =
        [boundary 0 0, ⟨1, 1, .delete [1]⟩] ∧
      (freshFollower.appendEntries ⟨1, "A", 0, 0, [⟨1, 1, .delete [1]⟩], 0⟩ { saveLog := false }).1.disk.logFile = none) ∧
    (freshLeader.propose (.delete [1]) { saveLog := false }).2.isOk = true ∧
      (freshLeader.propose (.delete [1]) { saveLog := false }).1.disk.logFile = none := by
  decide

end Raft

/-! ## Failed installs -/

/-- `Restore` gets past the decoding of the payload; no bytes at all stand for an empty store. -/
def Payload.decodes : Payload → Bool
  | .state _ => true
  | .other data => data.isEmpty

/-- The pairs of the payload are in the store. -/
def Payload.within (kv : Store) : Payload → Bool
  | .state kvs => kvs.all fun p => kv.get p.1 == some p.2
  | .other _ => true

namespace Raft

/-- The snapshot of the request cannot be saved, or the restorer returns an error. -/
def installFails (r : Raft) (req : InstallSnapshotRequest) (io : Io) : Bool :=
  !io.saveSnap || (r.restorer && !(req.data.decodes && io.restore))

/-- The node is where the installation of a snapshot at this index and term puts it. -/
def standsAt (r : Raft) (index term : Int) : Bool :=
  r.log == compact r.log index term && r.logBaseIndex == index && r.commitIndex == index && r.lastApplied == index

/-- Where an installation puts the node, and what it hands to the restorer. -/
theorem installSnapshot_moves {r : Raft} {req : InstallSnapshotRequest} (h : r.term ≤ req.term) (io : Io) :
    (r.installSnapshot req io).1.log = compact r.log req.lastIncludedIndex req.lastIncludedTerm ∧
      (r.installSnapshot req io).1.logBaseIndex = req.lastIncludedIndex ∧
      (r.installSnapshot req io).1.commitIndex = req.lastIncludedIndex ∧
      (r.installSnapshot req io).1.lastApplied = req.lastIncludedIndex ∧
      (r.installSnapshot req io).2.1 = if r.restorer then some req.data else none := by
  rcases installSnapshot_compacts r req io with ⟨hlt, _⟩ | ⟨_, hc, _⟩
  · omega
  · rcases installSnapshot_progress r req io with ⟨hlt, _⟩ | ⟨hcommit, happ, _⟩
    · omega
    · refine ⟨hc.log, hc.base, hcommit, happ, ?_⟩
      rw [installSnapshot_payload, if_neg (by omega)]

/-- A restore that fails, or brings only what the store has, leaves the content of the store. -/
theorem restore_content {a : App} {data : Payload} {ok : Bool}
    (h : (data.decodes && ok) = false ∨ data.within a.store = true) (key : Bytes) :
    (a.restore (some data) ok).store.get key = a.store.get key := by
  cases data with
  | other bytes => rfl
  | state kvs =>
    cases ok with
    | false => rfl
    | true =>
      have hall : ∀ p ∈ kvs, a.store.get p.1 = some p.2 := by
        rcases h with h | h
        · cases h
        · intro p hp
          exact eq_of_beq (List.all_eq_true.1 h p hp)
      show (a.store.reset.puts kvs).get key = a.store.get key
      rw [Store.reset_eq, Store.get_puts]
      -- a key of the payload is found in it with the value the store has
      cases hk : Store.get kvs.reverse key with
      | none => exact Option.none_or
      | some v =>
        obtain ⟨p, hp, rfl⟩ := Option.map_eq_some_iff.1 hk
        have hmem := List.mem_reverse.1 (List.mem_of_find?_eq_some hp)
        have hkey : p.1 = key := by simpa using List.find?_some hp
        rw [Option.some_or, ← hkey, hall p hmem]

/-- A failed snapshot install does not move a node that refuses the request, or that stands at the snapshot already and,
if it is the save that fails, has its pairs in the store: log, base, commit index, last applied index and the content of
the store are the same as before the request. -/
theorem failed_install_keeps_node {r : Raft} {a : App} {req : InstallSnapshotRequest} {io : Io}
    (hfail : r.installFails req io = true)
    (hok : req.term < r.term ∨ (r.standsAt req.lastIncludedIndex req.lastIncludedTerm = true ∧
      (io.saveSnap = true ∨ req.data.within a.store = true))) :
    (r.installSnapshot req io).1.log = r.log ∧
      (r.installSnapshot req io).1.logBaseIndex = r.logBaseIndex ∧
      (r.installSnapshot req io).1.commitIndex = r.commitIndex ∧
      (r.installSnapshot req io).1.lastApplied = r.lastApplied ∧
      ∀ key, (a.restore (r.installSnapshot req io).2.1 io.restore).store.get key = a.store.get key := by
  rcases Int.lt_or_le req.term r.term with hstale | ht
  · simp [installSnapshot, hstale, App.restore]
  · obtain ⟨hstands, hstore⟩ := hok.resolve_left (by omega)
    simp only [standsAt, Bool.and_eq_true, beq_iff_eq] at hstands
    obtain ⟨⟨⟨hlog, hbase⟩, hcommit⟩, happ⟩ := hstands
    obtain ⟨h1, h2, h3, h4, h5⟩ := installSnapshot_moves ht io
    refine ⟨by rw [h1, ← hlog], by rw [h2, hbase], by rw [h3, hcommit], by rw [h4, happ], fun key => ?_⟩
    rw [h5]
    cases hr : r.restorer with
    | false => rfl
    | true =>
      refine restore_content ?_ key
      rcases hstore with hsave | hin
      · left
        rw [Bool.and_eq_false_iff]
        simpa [installFails, hsave, hr] using hfail
      · exact .inr hin

/-- The node has installed the snapshot at index 5 once. -/
def installedOnce : Raft where
  id := "B"
  peers := ["A"]
  term := 1
  log := [boundary 5 1, ⟨6, 1, .delete [1]⟩]
  logBaseIndex := 5
  commitIndex := 5
  lastApplied := 5
  restorer := true

/-- The same snapshot comes again, cut off so that `Restore` cannot decode it. -/
theorem failed_install_keeps_node_again :
    (installedOnce.installSnapshot ⟨1, "A", 5, 1, .other [123]⟩ {}).1.log = installedOnce.log ∧
      (installedOnce.installSnapshot ⟨1, "A", 5, 1, .other [123]⟩ {}).1.lastApplied = 5 := by
  obtain ⟨hlog, _, _, happ, _⟩ := @failed_install_keeps_node installedOnce {} ⟨1, "A", 5, 1, .other [123]⟩ {}
    (by decide) (.inr ⟨by decide, .inl rfl⟩)
  exact ⟨hlog, happ⟩

/-- A fresh follower gets a snapshot that `Restore` cannot decode, or cannot save one with a key: it claims to have applied
five entries, and has an empty store, or after a restart no snapshot. -/
theorem failedInstall_moves :
    (({ freshFollower with restorer := true }).installFails ⟨1, "A", 5, 1, .other [123]⟩ {} = true ∧
      (({ freshFollower with restorer := true }).installSnapshot ⟨1, "A", 5, 1, .other [123]⟩ {}).1.log = [boundary 5 1] ∧
      (({ freshFollower with restorer := true }).installSnapshot ⟨1, "A", 5, 1, .other [123]⟩ {}).1.lastApplied = 5 ∧
      (App.restore {} (({ freshFollower with restorer := true }).installSnapshot ⟨1, "A", 5, 1, .other [123]⟩ {}).2.1
        true).store = []) ∧
    (freshFollower.installFails ⟨1, "A", 5, 1, .state [([1], [2])]⟩ { saveSnap := false } = true ∧
      (freshFollower.installSnapshot ⟨1, "A", 5, 1, .state [([1], [2])]⟩ { saveSnap := false }).1.lastApplied = 5 ∧
      (freshFollower.installSnapshot ⟨1, "A", 5, 1, .state [([1], [2])]⟩ { saveSnap := false }).1.disk.snapFile = none) := by
  decide

end Raft

end Mimori
