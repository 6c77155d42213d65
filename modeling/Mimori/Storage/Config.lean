/-
Restarts and the configuration. `New` starts from the peers of the meta file, or from those of the
command line when the file has none, and replays all configuration entries of the log over them,
committed or not. The peers it ends with are those the node had, that is, those the configuration entries
it has applied lead to, as long as the entries it has not applied would change nothing and a list that
was emptied is still accounted for by the log.
-/
import Mimori.Storage.Peers
import Mimori.Log.Order

namespace Mimori

open Raft

namespace Raft

/-! ## Conditions -/

/-- The entries of the log that the applier has not taken. -/
def unapplied (r : Raft) : List LogEntry := r.log.filter fun e => decide (r.lastApplied < e.index)

def samePeers (p q : List NodeID) : Bool := p.all q.contains && q.all p.contains

/-- What the log holds beyond `lastApplied` would not change the peers, and when there are none, the log
has an entry that removed each of the peers of the command line. -/
def settled (r : Raft) (peers₀ : List NodeID) : Bool :=
  samePeers ((config r.id).replay r.peers r.unapplied) r.peers &&
    (!r.peers.isEmpty || peers₀.all fun p => (r.log.drop 1).any fun e => membership r.id e p == some false)

end Raft

namespace Cluster

/-- An accepted AppendEntries request brings no entry of another term for an applied index. -/
def keepsApplied (s : Cluster) (a : Action) : Bool :=
  match s.accepts a with
  | some (_, n, req) => req.entries.all fun e =>
    decide ((s.raft n).lastApplied < e.index) || ((s.raft n).entryAt e.index).all (·.term == e.term)
  | none => true

/-- No save fails. -/
def savesAll (io : Io) : Bool := io.saveTerm && io.saveLog && io.saveSnap

/-- The process dies with none or with all of the files of a step written. -/
def crashesWhole : CrashPoint → Bool → Bool
  | .beforeSnapshot, metaSaved => !metaSaved
  | .beforeLog, _ => false
  | .afterLog, metaSaved => metaSaved

/-- Node `n` as it was when its process died in the step from `s` to `s'`. -/
def stopped (s s' : Cluster) (n : NodeID) (metaSaved : Bool) : Raft := if metaSaved then s'.raft n else s.raft n

/-- Processes are stopped where their configuration is settled, and started again with the peers of their
first start. -/
def restartsSettled (peersOf : NodeID → List NodeID) (s : Cluster) : LifeAction → Bool
  | .step a => s.inPlace a && s.keepsApplied a && savesAll (ioOf a)
  | .crash n a c metaSaved peers io =>
    s.inPlace a && s.keepsApplied a && savesAll (ioOf a) && savesAll io && peers == peersOf n &&
      crashesWhole c metaSaved && (s.step a).all fun s' => (s.stopped s' n metaSaved).settled peers

/-- Clusters whose processes are given the peers `peersOf` and die and come back. -/
def lifeMachineOf (peersOf : NodeID → List NodeID) : Machine Cluster LifeAction where
  init s := ∃ procs snapshotter restorer, s = start procs peersOf snapshotter restorer
  step := lifeStep

/-! ## The entries a node has applied -/

/-- The entry that the applier of node `n` takes in this step; a process that dies has applied it once the
configuration is saved. -/
def takenBy (n : NodeID) (s : Cluster) : LifeAction → Option LogEntry
  | .step a => (s.applying a).bind fun x => if x.1 = n then some x.2 else none
  | .crash m a _ metaSaved _ _ =>
    if m = n ∧ metaSaved then (s.applying a).bind fun x => if x.1 = n then some x.2 else none else none

/-- All entries the applier of node `n` has taken in the run, in its first life and in later ones. -/
def appliedBy (n : NodeID) (h : List (Cluster × LifeAction)) : List LogEntry :=
  (h.filterMap fun x => x.1.takenBy n x.2).reverse

end Cluster

namespace Raft

/-! ## The configuration of a node -/

/-- The entries of the log between the base and `lastApplied`. -/
def appliedLog (r : Raft) : List LogEntry := (r.log.drop 1).take (r.lastApplied - r.logBaseIndex).toNat

/-- The peers of a node that was started with `peers₀` and has applied `applied`, in memory and on disk. -/
structure Configured (n : NodeID) (peers₀ : List NodeID) (applied : List LogEntry) (r : Raft) : Prop where
  id : r.id = n
  base : r.logBaseIndex ≤ r.lastApplied
  last : r.lastApplied ≤ r.lastLogIndex
  file : (r.disk.logFile.getD []).filter (fun e => decide (r.logBaseIndex < e.index)) = r.log.drop 1
  saved : PeersSaved peers₀ r
  inForce : (config n).InForce r.appliedLog r.peers
  history : (config n).Same r.peers ((config n).replay peers₀ applied)

theorem Indexed.filter_base {r : Raft} (h : Indexed r) :
    r.log.filter (fun e => decide (r.logBaseIndex < e.index)) = r.log.drop 1 := by
  rw [h.numbered.filter_eq_drop]
  congr 1
  omega

variable {n : NodeID} {peers₀ : List NodeID} {applied : List LogEntry} {r r' : Raft}

/-- A change of the node that leaves its peers alone. -/
theorem Configured.frame (h : Configured n peers₀ applied r) (hi : Indexed r') (hm : SameMembers r r')
    (hw : Written r r') (hp : PeersWritten r r') (hb : r'.logBaseIndex ≤ r'.lastApplied)
    (hl : r'.lastApplied ≤ r'.lastLogIndex) (hf : (config n).InForce r'.appliedLog r.peers) :
    Configured n peers₀ applied r' := by
  refine ⟨hm.id.trans h.id, hb, hl, ?_, h.saved.written hp hm.peers, by rw [hm.peers]; exact hf,
    by rw [hm.peers]; exact h.history⟩
  rcases hw with ⟨h1, h2, h3⟩ | hw
  · rw [h1, h2, h3]; exact h.file
  · rw [hw]; exact hi.filter_base

theorem Configured.take (h : Configured n peers₀ applied r) (hi : Indexed r) {e : LogEntry} {io : Io}
    (hio : io.saveTerm = true) (he : r.pendingEntry = some e) :
    Configured n peers₀ (applied ++ [e]) (r.takeNext io).1 := by
  have hl := takeNext_data r io
  have hla := Cluster.takeNext_applied io he
  obtain ⟨hat, _⟩ := pendingEntry_some he
  obtain ⟨_, _, hlast⟩ := hi.entryAt_some hat
  have hbase := h.base
  have heq : (r.takeNext io).1 = ({ r with lastApplied := r.lastApplied + 1 }).handleConfigChangeIfNeeded e io := by
    rw [takeNext_eq, he]
  have hpeers : (r.takeNext io).1.peers = (config n).apply r.peers e := by
    rw [heq, handleConfigChangeIfNeeded_peers, ← h.id]; rfl
  have hlog : (r.takeNext io).1.appliedLog = r.appliedLog ++ [e] := by
    rw [hi.entryAt (by omega)] at hat
    unfold appliedLog
    rw [hl.log, hl.base, hla]
    have hk : (r.lastApplied + 1 - r.logBaseIndex).toNat = (r.lastApplied - r.logBaseIndex).toNat + 1 := by omega
    rw [hk] at hat ⊢
    rw [List.take_add_one, List.getElem?_drop, Nat.add_comm, hat]; rfl
  constructor
  · rw [heq, (handleConfigChangeIfNeeded_id _ e io).1]; exact h.id
  · rw [hl.base, hla]; omega
  · rw [hl.lastLogIndex, hla]; exact hlast
  · rw [hl.logFile, hl.base, hl.log]; exact h.file
  · rw [heq]
    exact PeersSaved.handleConfigChange (r := { r with lastApplied := r.lastApplied + 1 }) h.saved hio e
  · rw [hlog, hpeers]; exact h.inForce.concat e
  · rw [hpeers, Overwrite.replay_concat]; exact h.history.apply e

theorem appliedLog_nil (h : r.lastApplied = r.logBaseIndex) : r.appliedLog = [] := by
  unfold appliedLog
  rw [h, Int.sub_self]; rfl

/-- The applied part of a log that still has it. -/
theorem appliedLog_of_take (hb : r'.logBaseIndex = r.logBaseIndex) (hl : r'.lastApplied = r.lastApplied)
    (hle : r.logBaseIndex ≤ r.lastApplied)
    (ht : r'.log.take (r.lastApplied + 1 - r.logBaseIndex).toNat = r.log.take (r.lastApplied + 1 - r.logBaseIndex).toNat) :
    r'.appliedLog = r.appliedLog := by
  have hk : (r.lastApplied + 1 - r.logBaseIndex).toNat = (r.lastApplied - r.logBaseIndex).toNat + 1 := by omega
  have hdrop : ∀ l : List LogEntry, (l.drop 1).take (r.lastApplied - r.logBaseIndex).toNat =
      (l.take (r.lastApplied + 1 - r.logBaseIndex).toNat).drop 1 := by
    intro l
    rw [List.drop_take, hk, Nat.add_sub_cancel]
  unfold appliedLog
  rw [hb, hl, hdrop, hdrop, ht]

end Raft

namespace Cluster

variable {s s' : Cluster} {a : Action} {n : NodeID} {r : Raft}

/-- A step that takes no entry keeps the applied part of the log, or the log starts right after it. -/
theorem LogStep.appliedLog (h : LogStep s n r a) (hi : Indexed (s.raft n)) (hi' : Indexed r)
    (hk : s.keepsApplied a = true) (hb : (s.raft n).logBaseIndex ≤ (s.raft n).lastApplied)
    (hl : (s.raft n).lastApplied ≤ (s.raft n).lastLogIndex) (hla : r.lastApplied = (s.raft n).lastApplied) :
    r.logBaseIndex ≤ r.lastApplied ∧ r.lastApplied ≤ r.lastLogIndex ∧
      (r.appliedLog = (s.raft n).appliedLog ∨ r.appliedLog = []) := by
  have hlast := hi.lastLogIndex
  have hlast' := hi'.lastLogIndex
  have hreset : r.lastApplied = r.logBaseIndex → r.logBaseIndex ≤ r.lastApplied ∧ r.lastApplied ≤ r.lastLogIndex ∧
      (r.appliedLog = (s.raft n).appliedLog ∨ r.appliedLog = []) :=
    fun he => ⟨le_of_eq he.symm, by rw [he]; exact hi'.base_le_last, .inr (appliedLog_nil he)⟩
  cases h with
  | same _ h =>
    rw [h.base, hla, h.lastLogIndex]
    exact ⟨hb, hl, .inl (appliedLog_of_take h.base hla hb (by rw [h.log]))⟩
  | append _ cmd h =>
    rw [h.base, h.log, List.length_append, List.length_singleton] at hlast'
    push_cast at hlast'
    refine ⟨by rw [h.base, hla]; exact hb, by omega, .inl (appliedLog_of_take h.base hla hb ?_)⟩
    rw [h.log]
    exact List.take_append_of_le_length (by omega)
  | merge call io src req hp _ h hsucc =>
    have hacc : s.accepts (.deliver call io) = some (src, n, req) := accepts_deliver hp hsucc
    rw [keepsApplied, hacc, List.all_eq_true] at hk
    have hkeep := hi.merge_keeps h hk
    refine ⟨by rw [h.base, hla]; exact hb, ?_, .inl (appliedLog_of_take h.base hla hb ?_)⟩
    · rw [hla]; exact hi.prefix_le_last hi' h.base hl hkeep
    · have hlen : (List.take ((s.raft n).lastApplied + 1 - (s.raft n).logBaseIndex).toNat (s.raft n).log).length =
          ((s.raft n).lastApplied + 1 - (s.raft n).logBaseIndex).toNat := by
        rw [List.length_take]; omega
      rw [List.prefix_iff_eq_take, hlen] at hkeep
      exact hkeep.symm
  | install call io src req hp hr ht h =>
    have hbase : r.logBaseIndex = req.lastIncludedIndex := h.base
    rcases installSnapshot_progress (s.raft n) req (s.envOf n io) with ⟨_, he⟩ | ⟨_, he, _⟩
    · rw [hr, he]; exact ⟨hb, hl, .inl rfl⟩
    · rw [← hr] at he; exact hreset (by omega)
  | snapshot _ snap h => exact hreset (by rw [hla, h.compacts.base, h.own.index])

/-- The snapshot that the applier may take before it looks for the next entry. -/
theorem Configured.afterApply {peers₀ : List NodeID} {applied : List LogEntry} (h : Configured n peers₀ applied r)
    (hi : Indexed r) {io : Io} (hio : io.saveLog = true) : Configured n peers₀ applied (r.afterApply io) := by
  have hi' := Indexed.afterApply hi io
  have hla := (afterApply_rest r io).applied
  have hframe := fun hw => h.frame hi' (afterApply_rest r io).members hw (.inl (afterApply_rest r io).metaFile)
  rcases afterApply_compacts r io with ⟨_, hs⟩ | ⟨_, snap, hs⟩
  · refine hframe (.inl ⟨hs.log, hs.base, hs.logFile⟩) (by rw [hs.base, hla]; exact h.base)
      (by rw [hs.lastLogIndex, hla]; exact h.last) ?_
    rw [appliedLog_of_take hs.base hla h.base (by rw [hs.log])]; exact h.inForce
  · have he : (r.afterApply io).lastApplied = (r.afterApply io).logBaseIndex := by
      rw [hla, hs.compacts.base, hs.own.index]
    have hsaved := hs.logFile
    rw [hio] at hsaved
    refine hframe (.inr hsaved) (le_of_eq he.symm) (by rw [he]; exact hi'.base_le_last) ?_
    rw [appliedLog_nil he]; exact .nil _

theorem takenBy_step {e : LogEntry} : s.takenBy n (.step a) = some e ↔ s.applying a = some (n, e) := by
  simp only [takenBy]
  cases s.applying a with
  | none => simp
  | some x =>
    obtain ⟨m, e'⟩ := x
    rw [Option.bind_some]
    constructor
    · intro h
      split at h
      · rename_i hm; cases hm; cases h; rfl
      · cases h
    · intro h
      cases h
      exact if_pos rfl

theorem Configured.step {peers₀ : List NodeID} {applied : List LogEntry} (h : Configured n peers₀ applied (s.raft n))
    (hi : Indexed (s.raft n)) (hi' : Indexed (s'.raft n)) (hk : s.keepsApplied a = true)
    (hio : savesAll (ioOf a) = true) (hs : s.step a = some s') :
    Configured n peers₀ (applied ++ (s.takenBy n (.step a)).toList) (s'.raft n) := by
  simp only [savesAll, Bool.and_eq_true] at hio
  obtain ⟨⟨hterm, hlog⟩, _⟩ := hio
  cases htaken : s.takenBy n (.step a) with
  | some e =>
    obtain ⟨r, hr, he, hstep⟩ := step_taking hs (takenBy_step.1 htaken)
    have hr' : Configured n peers₀ applied r ∧ Indexed r := by
      rcases hr with rfl | rfl
      · exact ⟨h, hi⟩
      · exact ⟨Configured.afterApply h hi hlog, Indexed.afterApply hi _⟩
    rw [hstep]
    exact hr'.1.take hr'.2 hterm he
  | none =>
    have hidle : ∀ e, s.applying a ≠ some (n, e) := by
      intro e he
      rw [takenBy_step.2 he] at htaken
      cases htaken
    rw [Option.toList_none, List.append_nil]
    rcases step_at hs n with heq | ⟨_, hnode⟩
    · rw [heq]; exact h
    · have hframe := fun hm => h.frame hi' hm (hnode.written hlog) (hnode.peersWritten hidle)
      cases step_applies hs n with
      | idle _ hla hm =>
        obtain ⟨hb, hl, hf⟩ := hnode.logStep.appliedLog hi hi' hk h.base h.last hla
        refine hframe hm hb hl ?_
        rcases hf with hf | hf <;> rw [hf]
        · exact h.inForce
        · exact .nil _
      | take e r io _ ha => exact absurd ha (hidle e)
      | install call io src req _ _ _ _ hl hb hm =>
        have he : (s'.raft n).lastApplied = (s'.raft n).logBaseIndex := hl.trans hb.symm
        refine hframe hm (le_of_eq he.symm) (by rw [he]; exact hi'.base_le_last) ?_
        rw [appliedLog_nil he]; exact .nil _

end Cluster

namespace Raft

/-! ## A restart -/

variable {n : NodeID} {peers₀ : List NodeID} {applied : List LogEntry} {r : Raft}

theorem samePeers_same {p q : List NodeID} (h : samePeers p q = true) (n : NodeID) : (config n).Same p q := by
  simp only [samePeers, Bool.and_eq_true, List.all_eq_true, List.contains_iff_mem] at h
  exact config_same_iff.2 fun x => ⟨h.1 x, h.2 x⟩

/-- At a stop that is settled all configuration entries of the log are in force. -/
theorem Configured.log_inForce (h : Configured n peers₀ applied r) (hi : Indexed r) (hs : r.settled peers₀ = true) :
    (config n).InForce (r.log.drop 1) r.peers := by
  simp only [settled, Bool.and_eq_true, h.id] at hs
  have hbase := h.base
  have htail : r.unapplied = (r.log.drop 1).drop (r.lastApplied - r.logBaseIndex).toNat := by
    unfold unapplied
    rw [hi.numbered.filter_eq_drop, List.drop_drop]
    congr 1
    omega
  have happ := h.inForce.append (Overwrite.inForce_iff.2 (samePeers_same hs.1 n) : (config n).InForce r.unapplied r.peers)
  rwa [htail, appliedLog, List.take_append_drop] at happ

/-- The replay of `New` gives back the peers the node had. -/
theorem Configured.replay_same (h : Configured n peers₀ applied r) (hi : Indexed r) (hs : r.settled peers₀ = true) :
    (config n).Same ((config n).replay (startPeers peers₀ r.disk) (r.log.drop 1)) r.peers := by
  have hforce := h.log_inForce hi hs
  simp only [settled, Bool.and_eq_true, Bool.or_eq_true, Bool.not_eq_true', List.all_eq_true, List.any_eq_true,
    beq_iff_eq, h.id] at hs
  have hstart : startPeers peers₀ r.disk = r.peers ∨ (r.peers = [] ∧ startPeers peers₀ r.disk = peers₀) := by
    have hdef : startPeers peers₀ r.disk = if r.savedMeta.peers.isEmpty then peers₀ else r.savedMeta.peers := rfl
    rw [hdef]
    rcases h.saved with he | ⟨he, hp⟩
    · rw [he]
      cases r.peers with
      | nil => exact .inr ⟨rfl, rfl⟩
      | cons p ps => exact .inl rfl
    · rw [he]; exact .inl hp.symm
  rcases hstart with he | ⟨hnil, he⟩
  · rw [he]; exact Overwrite.inForce_iff.1 hforce
  · -- an emptied list: the log has the removal of every peer the process was started with
    intro x
    rw [he, Overwrite.read_replay]
    cases hw : (config n).lastWrite x (r.log.drop 1) with
    | some v => exact (hforce x v hw).symm
    | none =>
      rw [hnil, Option.getD_none]
      show peers₀.contains x = false
      rw [← Bool.not_eq_true, List.contains_iff_mem]
      intro hx
      rcases hs.2 with hne | hall
      · rw [hnil] at hne; cases hne
      · obtain ⟨e, hmem, hout⟩ := hall x hx
        obtain ⟨w, hw'⟩ := Overwrite.lastWrite_of_mem (O := config n) hmem hout
        rw [hw] at hw'; cases hw'

theorem Configured.loadLog (h : Configured n peers₀ applied r) (hd : DiskAt r.logBaseIndex r.disk) :
    (Raft.loadLog r.disk).1.drop 1 = r.log.drop 1 := by
  obtain ⟨_, _, hnum, hbeyond⟩ := hd.loadLog
  have hone : r.logBaseIndex - r.logBaseIndex + 1 = 1 := by omega
  unfold beyondSnapshot at hbeyond
  rw [hd.snapshotIndex_eq, hnum.filter_eq_drop, hone] at hbeyond
  exact hbeyond.trans h.file

theorem Configured.new_same (h : Configured n peers₀ applied r) (hi : Indexed r) (hd : DiskAt r.logBaseIndex r.disk)
    (hs : r.settled peers₀ = true) (io : Io) : (config n).Same (new n peers₀ r.disk io).peers r.peers := by
  rw [(new_peers hd n peers₀ io).1, h.loadLog hd]
  exact h.replay_same hi hs

theorem Configured.new (h : Configured n peers₀ applied r) (hi : Indexed r) (hd : DiskAt r.logBaseIndex r.disk)
    (hs : r.settled peers₀ = true) {io : Io} (hio : io.saveTerm = true) :
    Configured n peers₀ applied (Raft.new n peers₀ r.disk io) := by
  obtain ⟨_, hla, hsaved⟩ := new_peers hd n peers₀ io
  have hloaded := new_loaded n peers₀ r.disk io
  obtain ⟨hi', hb⟩ := hloaded.indexed hd
  constructor
  · exact new_id ..
  · rw [hb, hla]
  · rw [hla, ← hb]; exact hi'.base_le_last
  · rw [hb, hloaded.logFile, hloaded.log, h.loadLog hd]; exact h.file
  · exact hsaved hio
  · rw [appliedLog_nil (hla.trans hb.symm)]; exact .nil _
  · exact (h.new_same hi hd hs io).trans h.history

end Raft

namespace Cluster

/-! ## Runs -/

variable {s s' : Cluster} {a : Action} {n : NodeID} {peersOf : NodeID → List NodeID}

theorem appliedBy_cons (n : NodeID) (s : Cluster) (l : LifeAction) (h : List (Cluster × LifeAction)) :
    appliedBy n ((s, l) :: h) = appliedBy n h ++ (s.takenBy n l).toList := by
  unfold appliedBy
  rw [List.filterMap_cons]
  cases s.takenBy n l with
  | none => exact (List.append_nil _).symm
  | some e => exact List.reverse_cons

theorem savesAll_savesBoth (h : savesAll (ioOf a) = true) : s.savesBoth a = true := by
  simp only [savesAll, Bool.and_eq_true] at h
  refine List.all_eq_true.2 fun m _ => ?_
  rw [h.1.2, h.2]
  exact Bool.or_true _

/-- The conditions on the configuration contain those on the files. -/
theorem restartsSettled_apart {l : LifeAction} (h : s.restartsSettled peersOf l = true) : s.crashesApart l = true := by
  cases l with
  | step a =>
    simp only [restartsSettled, Bool.and_eq_true] at h
    simp only [crashesApart, Bool.and_eq_true]
    exact ⟨h.1.1, savesAll_savesBoth h.2⟩
  | crash n a c metaSaved peers io =>
    simp only [restartsSettled, Bool.and_eq_true] at h
    obtain ⟨⟨⟨⟨⟨⟨hplace, _⟩, hsave⟩, _⟩, _⟩, hwhole⟩, _⟩ := h
    simp only [crashesApart, Bool.and_eq_true]
    refine ⟨⟨hplace, savesAll_savesBoth hsave⟩, ?_⟩
    cases c with
    | beforeLog => cases hwhole
    | beforeSnapshot => rfl
    | afterLog => rfl

theorem crashesWhole_disk {c : CrashPoint} {metaSaved : Bool} (h : crashesWhole c metaSaved = true) :
    crashDisk (s.raft n).disk (s'.raft n).disk metaSaved c = (s.stopped s' n metaSaved).disk := by
  cases c with
  | beforeLog => cases h
  | beforeSnapshot =>
    cases metaSaved with
    | true => cases h
    | false => rfl
  | afterLog =>
    cases metaSaved with
    | true => rfl
    | false => cases h

/-- Files in place and, for every node, the configuration of what it has applied. -/
structure ConfigInv (peersOf : NodeID → List NodeID) (h : List (Cluster × LifeAction)) (s : Cluster) : Prop where
  life : LifeInv s
  node : ∀ n, Configured n (peersOf n) (appliedBy n h) (s.raft n)

theorem ConfigInv.start (peersOf : NodeID → List NodeID) (procs : List NodeID) (snapshotter restorer : Bool) :
    ConfigInv peersOf [] (Cluster.start procs peersOf snapshotter restorer) := by
  refine ⟨.start .., fun n => ?_⟩
  rw [start_raft]
  constructor
  · rfl
  · exact le_refl _
  · exact le_refl _
  · rfl
  · exact .inr ⟨rfl, rfl⟩
  · exact .nil _
  · exact .refl _

theorem ConfigInv.step {h : List (Cluster × LifeAction)} {l : LifeAction} (hi : ConfigInv peersOf h s)
    (hok : s.restartsSettled peersOf l = true) (hs : s.lifeStep l = some s') : ConfigInv peersOf ((s, l) :: h) s' := by
  have hlife := hi.life.step (restartsSettled_apart hok) hs
  refine ⟨hlife, fun n => ?_⟩
  rw [appliedBy_cons]
  cases l with
  | step a =>
    simp only [restartsSettled, Bool.and_eq_true] at hok
    exact Configured.step (hi.node n) (hi.life.index.node n) (hlife.index.node n) hok.1.2 hok.2 hs
  | crash m a c metaSaved peers io =>
    simp only [restartsSettled, Bool.and_eq_true, beq_iff_eq] at hok
    obtain ⟨⟨⟨⟨⟨⟨hplace, hkeep⟩, hsave⟩, hio⟩, rfl⟩, hwhole⟩, hsettled⟩ := hok
    simp only [lifeStep] at hs
    split at hs
    · rename_i s₁ hs₁
      cases hs
      have hi₁ := hi.life.index.step hplace hs₁
      have hd₁ := hi.life.durable.step hi₁ (savesAll_savesBoth hsave) hs₁
      rw [restart_raft, crashesWhole_disk hwhole]
      split
      · rename_i hn
        subst hn
        -- the node as it was when it died
        have hstop : Configured n (peersOf n) (appliedBy n h ++ (s.takenBy n (.crash n a c metaSaved (peersOf n) io)).toList)
              (s.stopped s₁ n metaSaved) ∧
            Indexed (s.stopped s₁ n metaSaved) ∧
            DiskAt (s.stopped s₁ n metaSaved).logBaseIndex (s.stopped s₁ n metaSaved).disk := by
          cases metaSaved with
          | false =>
            refine ⟨?_, hi.life.index.node n, hi.life.durable n⟩
            have hnone : s.takenBy n (.crash n a c false (peersOf n) io) = none := by
              simp only [takenBy, Bool.false_eq_true, and_false, if_false]
            rw [hnone, Option.toList_none, List.append_nil]; exact hi.node n
          | true =>
            refine ⟨?_, hi₁.node n, hd₁ n⟩
            have htaken : s.takenBy n (.crash n a c true (peersOf n) io) = s.takenBy n (.step a) := by
              simp only [takenBy, and_self, if_true]
            rw [htaken]
            exact Configured.step (hi.node n) (hi.life.index.node n) (hi₁.node n) hkeep hsave hs₁
        obtain ⟨hconf, hind, hdisk⟩ := hstop
        rw [hs₁, Option.all_some] at hsettled
        simp only [savesAll, Bool.and_eq_true] at hio
        have hnew := hconf.new hind hdisk hsettled hio.1.1
        exact ⟨hnew.id, hnew.base, hnew.last, hnew.file, hnew.saved, hnew.inForce, hnew.history⟩
      · rename_i hn
        have hnone : s.takenBy n (.crash m a c metaSaved (peersOf m) io) = none := by
          simp only [takenBy, Ne.symm hn, false_and, if_false]
        rw [hnone, Option.toList_none, List.append_nil]; exact hi.node n
    · cases hs

/-- Restarts keep the configuration: in every run in which processes are stopped where their configuration
is settled and started again with the peers of their first start, the peers of a node are in every state
those that the configuration entries it has applied lead to, and a restart on the files of a state that is
settled gives the peers of that state. -/
theorem restart_keeps_peers {h : List (Cluster × LifeAction)} {s : Cluster}
    (hr : (lifeMachineOf peersOf).Run (fun s l => s.restartsSettled peersOf l = true) h s) (n : NodeID) :
    (∀ x, x ∈ (s.raft n).peers ↔ x ∈ (config n).replay (peersOf n) (appliedBy n h)) ∧
      ((s.raft n).settled (peersOf n) = true → ∀ io x,
        x ∈ (Raft.new n (peersOf n) (s.raft n).disk io).peers ↔ x ∈ (s.raft n).peers) := by
  have hinv : ConfigInv peersOf h s := by
    refine Machine.Run.history ?_ (fun h s l s' _ hi hok hs => hi.step hok hs) hr
    rintro s ⟨procs, snapshotter, restorer, rfl⟩
    exact .start peersOf procs snapshotter restorer
  refine ⟨config_same_iff.1 (hinv.node n).history, fun hs io => ?_⟩
  exact config_same_iff.1 ((hinv.node n).new_same (hinv.life.index.node n) (hinv.life.durable n) hs io)

theorem lifeMachineOf_init (M : Members) (snapshotter restorer : Bool) :
    (lifeMachineOf M.peersOf).init (Cluster.start M.ids M.peersOf snapshotter restorer) := ⟨_, _, _, rfl⟩

/-- A applies the entry that adds D, dies and comes back: it has nothing applied and knows D. -/
theorem restart_keeps_peers_addD :
    ∃ h s, (lifeMachineOf threeNodes.peersOf).Run (fun s l => s.restartsSettled threeNodes.peersOf l = true) h s ∧
      (s.raft "A").lastApplied = 0 ∧ "D" ∉ threeNodes.peersOf "A" ∧ "D" ∈ (s.raft "A").peers := by
  obtain ⟨h, s, hr, happ, hold⟩ := Machine.exists_run (S := lifeMachineOf threeNodes.peersOf)
    (fun s l => s.restartsSettled threeNodes.peersOf l = true)
    (fun h s => appliedBy "A" h = [⟨1, 1, .configChange "add" "D"⟩] ∧ (s.raft "A").lastApplied = 0)
    (lifeMachineOf_init threeNodes false false)
    (addD.map .step ++ [.crash "A" (.tick 0) .beforeSnapshot false (threeNodes.peersOf "A") {}]) (by decide +kernel)
  refine ⟨h, s, hr, hold, by decide, ((restart_keeps_peers hr "A").1 "D").2 ?_⟩
  rw [happ]
  decide

/-- A has the entry that adds D in its log and has sent it to nobody. When its process is stopped and
started again, D is among its peers. -/
theorem uncommittedAdd_takes_effect :
    ∃ h s, (lifeMachineOf threeNodes.peersOf).Run (fun s l => s.restartsSettled threeNodes.peersOf l = true) h s ∧
      appliedBy "A" h = [] ∧ (s.raft "A").commitIndex = 0 ∧ (s.raft "A").peers = ["B", "C"] ∧
      (Raft.new "A" (threeNodes.peersOf "A") (s.raft "A").disk {}).peers = ["B", "C", "D"] :=
  Machine.exists_run (S := lifeMachineOf threeNodes.peersOf)
    (fun s l => s.restartsSettled threeNodes.peersOf l = true)
    (fun h s => appliedBy "A" h = [] ∧ (s.raft "A").commitIndex = 0 ∧ (s.raft "A").peers = ["B", "C"] ∧
      (Raft.new "A" (threeNodes.peersOf "A") (s.raft "A").disk {}).peers = ["B", "C", "D"])
    (lifeMachineOf_init threeNodes false false) (electA.map .step ++ [.step (.configChange "A" .addNode "D" {})])
    (by decide +kernel)

/-- A removes both others, applies the two entries and takes a snapshot. -/
def removeOthers : List Action :=
  electA ++ [.configChange "A" .removeNode "B" {}, .configChange "A" .removeNode "C" {}, .run 2 .go {}, .run 3 .go {},
    .run 3 .go {}, .run 5 .go {}, .run 5 .go {}, .deliver 1 {}, .run 6 (.reply 1) {}, .applierTake "A" {},
    .applierSend "A", .applierDone "A" {}, .forceSnapshot "A" {}]

/-- When its process is started again, the saved list is empty and A has both as peers again. -/
theorem emptiedPeers_start_over :
    ∃ h s, (lifeMachineOf threeNodes.peersOf).Run (fun s l => s.restartsSettled threeNodes.peersOf l = true) h s ∧
      (s.raft "A").unapplied = [] ∧ (s.raft "A").peers = [] ∧
      (Raft.new "A" (threeNodes.peersOf "A") (s.raft "A").disk {}).peers = ["B", "C"] :=
  Machine.exists_run (S := lifeMachineOf threeNodes.peersOf)
    (fun s l => s.restartsSettled threeNodes.peersOf l = true)
    (fun _ s => (s.raft "A").unapplied = [] ∧ (s.raft "A").peers = [] ∧
      (Raft.new "A" (threeNodes.peersOf "A") (s.raft "A").disk {}).peers = ["B", "C"])
    (lifeMachineOf_init threeNodes true false)
    (removeOthers.map .step) (by decide +kernel)

end Cluster

end Mimori
