/-
Crashes and restarts. A step that compacts the log replaces two files one after the other, first the
snapshot and then the log, and `New` has to make a log of whatever the two hold. A process may die at
any point of any step and is started again on its files; the log it comes back with is in place in
every run in which no process dies between the two renames, and no save fails, of a step that moves
the base of the log.
-/
import Mimori.Storage.Files
import Mimori.Cluster.Fixed
import Mimori.Cluster.Runs

namespace Mimori

open Raft

/-! ## Files and the log `New` makes of them -/

/-- How far a step got when the process dies. -/
inductive CrashPoint
  | beforeSnapshot
  | beforeLog
  | afterLog
  deriving DecidableEq

/-- The files that are left of a step from the files `old` to the files `new`; `metaSaved` says whether
`raft-meta.json` was replaced. -/
def crashDisk (old new : Disk) (metaSaved : Bool) (c : CrashPoint) : Disk where
  metaFile := if metaSaved then new.metaFile else old.metaFile
  snapFile := if c = .beforeSnapshot then old.snapFile else new.snapFile
  logFile := if c = .afterLog then new.logFile else old.logFile

/-- The index of the snapshot file. -/
def snapshotIndex (d : Disk) : Int :=
  match d.snapFile with
  | none => 0
  | some snap => snap.lastIncludedIndex

/-- The entries beyond the snapshot file. -/
def beyondSnapshot (d : Disk) (l : List LogEntry) : List LogEntry := l.filter fun e => decide (snapshotIndex d < e.index)

/-- The snapshot and the log on disk have the same base `b`. -/
structure DiskAt (b : Int) (d : Disk) : Prop where
  nonneg : 0 ≤ b
  snap : ∀ snap, d.snapFile = some snap → snap.lastIncludedIndex = b
  noSnap : d.snapFile = none → b = 0
  file : ∀ f, d.logFile = some f → f ≠ [] ∧ Numbered b f
  noFile : d.logFile = none → b = 0

theorem DiskAt.snapshotIndex_eq {b : Int} {d : Disk} (h : DiskAt b d) : snapshotIndex d = b := by
  unfold snapshotIndex
  cases hs : d.snapFile with
  | none => exact (h.noSnap hs).symm
  | some snap => exact h.snap snap hs

/-- The log file, or the first entry of a fresh log, starts at the base. -/
theorem DiskAt.entries {b : Int} {d : Disk} (h : DiskAt b d) :
    ∃ e l, (if (d.logFile.getD []).isEmpty then [boundary 0 0] else d.logFile.getD []) = e :: l ∧ e.index = b ∧
      Numbered b (e :: l) ∧ beyondSnapshot d (e :: l) = beyondSnapshot d (d.logFile.getD []) := by
  cases hf : d.logFile with
  | none =>
    have hb := h.noFile hf
    refine ⟨boundary 0 0, [], rfl, hb.symm, Numbered.cons_iff.2 ⟨hb.symm, .nil⟩, ?_⟩
    unfold beyondSnapshot
    rw [h.snapshotIndex_eq, hb]; rfl
  | some f =>
    obtain ⟨hne, hn⟩ := h.file f hf
    cases f with
    | nil => exact absurd rfl hne
    | cons e l => exact ⟨e, l, rfl, (Numbered.cons_iff.1 hn).1, hn, rfl⟩

/-- `New` makes a log in place of files with one base, and keeps the entries beyond the snapshot. -/
theorem DiskAt.loadLog {b : Int} {d : Disk} (h : DiskAt b d) :
    (Raft.loadLog d).2 = b ∧ (Raft.loadLog d).1 ≠ [] ∧ Numbered b (Raft.loadLog d).1 ∧
      beyondSnapshot d (Raft.loadLog d).1 = beyondSnapshot d (d.logFile.getD []) := by
  obtain ⟨e, l, he, hi, hn, hb⟩ := h.entries
  unfold Raft.loadLog
  simp only
  rw [he]
  cases hs : d.snapFile with
  | none => exact ⟨hi, by simp, hn, hb⟩
  | some snap =>
    have hsnap := h.snap snap hs
    simp only
    rw [if_neg (by omega)]
    refine ⟨hsnap, by simp, Numbered.cons_iff.2 ⟨hsnap, (Numbered.cons_iff.1 hn).2⟩, ?_⟩
    rw [← hb]
    unfold beyondSnapshot
    rw [h.snapshotIndex_eq, List.filter_cons_of_neg (by simp [hsnap]), List.filter_cons_of_neg (by simp [hi])]

namespace Raft

theorem handleConfigChangeIfNeeded_kept (r : Raft) (e : LogEntry) (io : Io) :
    SameLog r (r.handleConfigChangeIfNeeded e io) ∧
      (r.handleConfigChangeIfNeeded e io).disk.logFile = r.disk.logFile ∧
      (0 ≤ r.lastLogIndex → NextPos r → NextPos (r.handleConfigChangeIfNeeded e io)) := by
  unfold handleConfigChangeIfNeeded
  split
  · exact ⟨(applyConfigChangeLocked_data ..).toSameLog, (applyConfigChangeLocked_data ..).logFile,
      Cluster.applyConfigChangeLocked_nextPos _ _ _⟩
  · exact ⟨.refl r, rfl, fun _ h => h⟩

/-- The entries that `replayConfigChanges` reads. -/
def replayEntries (r : Raft) : List LogEntry :=
  (indices (if r.logBaseIndex + 1 < 1 then 1 else r.logBaseIndex + 1) r.lastLogIndex).filterMap r.entryAt

/-- The log stays as it is during the replay, so the entries may be read first. -/
theorem replayConfigChanges_eq (r : Raft) (io : Io) :
    r.replayConfigChanges io = r.replayEntries.foldl (fun r e => r.handleConfigChangeIfNeeded e io) r := by
  unfold replayConfigChanges replayEntries
  simp only
  generalize indices _ _ = is
  induction is generalizing r with
  | nil => rfl
  | cons i is ih =>
    rw [List.foldl_cons, List.filterMap_cons]
    cases r.entryAt i with
    | none => exact ih r
    | some e =>
      have hlog : (r.handleConfigChangeIfNeeded e io).entryAt = r.entryAt :=
        funext fun j => (handleConfigChangeIfNeeded_kept r e io).1.entryAt j
      have ih' := ih (r.handleConfigChangeIfNeeded e io)
      rw [hlog] at ih'
      exact ih'

theorem replayConfigChanges_kept (r : Raft) (io : Io) :
    SameLog r (r.replayConfigChanges io) ∧ (r.replayConfigChanges io).disk.logFile = r.disk.logFile ∧
      (0 ≤ r.lastLogIndex → NextPos r → NextPos (r.replayConfigChanges io)) := by
  rw [replayConfigChanges_eq]
  refine List.foldlRecOn (motive := fun r' => SameLog r r' ∧ r'.disk.logFile = r.disk.logFile ∧
    (0 ≤ r.lastLogIndex → NextPos r → NextPos r')) _ _ ⟨.refl r, rfl, fun _ h => h⟩ fun r' ⟨h1, h2, h3⟩ e _ => ?_
  obtain ⟨i1, i2, i3⟩ := handleConfigChangeIfNeeded_kept r' e io
  refine ⟨h1.trans i1, i2.trans h2, fun hl hn => i3 ?_ (h3 hl hn)⟩
  rw [h1.lastLogIndex]; exact hl

/-- What `New` makes of the files. -/
structure Loaded (d : Disk) (r : Raft) : Prop where
  log : r.log = (loadLog d).1
  base : r.logBaseIndex = (loadLog d).2
  snapshot : r.snapshot = d.snapFile
  snapFile : r.disk.snapFile = d.snapFile
  logFile : r.disk.logFile = d.logFile
  next : 0 ≤ r.lastLogIndex → NextPos r

theorem Loaded.replay {d : Disk} {r : Raft} (h : Loaded d r) (io : Io) : Loaded d (r.replayConfigChanges io) := by
  obtain ⟨hs, hf, hn⟩ := replayConfigChanges_kept r io
  refine ⟨hs.log.trans h.log, hs.base.trans h.base, hs.snapshot.trans h.snapshot, hs.file.trans h.snapFile,
    hf.trans h.logFile, fun hl => ?_⟩
  rw [hs.lastLogIndex] at hl
  exact hn hl (h.next hl)

theorem Loaded.track {d : Disk} {r : Raft} (h : Loaded d r) (ps : List NodeID) (m : IndexMap) :
    Loaded d { r with nextIndex := r.nextIndex.setAll ps (r.lastLogIndex + 1), matchIndex := m } := by
  refine ⟨h.log, h.base, h.snapshot, h.snapFile, h.logFile, fun hl => ?_⟩
  have hl' : 0 ≤ r.lastLogIndex := hl
  exact Cluster.setAll_pos (h.next hl') (by omega) ps

/-- The node that `New` has before it replays the configuration entries. -/
def unreplayed (id : NodeID) (peers : List NodeID) (d : Disk) (io : Io) : Raft :=
  let md := d.metaFile.getD ⟨0, "", []⟩
  { id, peers := if md.peers.isEmpty then peers else md.peers
    term := md.term
    votedFor := md.votedFor
    electionReset := io.now
    log := (loadLog d).1
    logBaseIndex := (loadLog d).2
    snapshot := d.snapFile
    disk := d }

theorem new_eq (id : NodeID) (peers : List NodeID) (d : Disk) (io : Io) :
    new id peers d io =
      let r := (unreplayed id peers d io).replayConfigChanges io
      { r with
        nextIndex := r.nextIndex.setAll r.peers (r.lastLogIndex + 1)
        matchIndex := r.matchIndex.setAll r.peers 0
        commitIndex := (d.snapFile.map Snapshot.lastIncludedIndex).getD r.commitIndex
        lastApplied := (d.snapFile.map Snapshot.lastIncludedIndex).getD r.lastApplied } := by
  have hnew : new id peers d io =
      let r := (unreplayed id peers d io).replayConfigChanges io
      let r := { r with
        nextIndex := r.nextIndex.setAll r.peers (r.lastLogIndex + 1)
        matchIndex := r.matchIndex.setAll r.peers 0 }
      match d.snapFile with
      | none => r
      | some snap => { r with commitIndex := snap.lastIncludedIndex, lastApplied := snap.lastIncludedIndex } := rfl
  rw [hnew]
  generalize (unreplayed id peers d io).replayConfigChanges io = r
  cases d.snapFile <;> rfl

theorem new_loaded (id : NodeID) (peers : List NodeID) (d : Disk) (io : Io) : Loaded d (new id peers d io) := by
  have hl : Loaded d (unreplayed id peers d io) := ⟨rfl, rfl, rfl, rfl, rfl, fun _ p v hv => by cases hv⟩
  have ht := (hl.replay io).track ((unreplayed id peers d io).replayConfigChanges io).peers
    (((unreplayed id peers d io).replayConfigChanges io).matchIndex.setAll
      ((unreplayed id peers d io).replayConfigChanges io).peers 0)
  rw [new_eq]
  exact ⟨ht.log, ht.base, ht.snapshot, ht.snapFile, ht.logFile, ht.next⟩

/-- `New` adds no configuration change to those of the log file. -/
theorem loadLog_carries {P : Command → Prop} (hP : ∀ cmd, cmd.isConfig = false → P cmd) {d : Disk}
    (h : ∀ f, d.logFile = some f → ∀ e ∈ f, P e.data) : ∀ e ∈ (loadLog d).1, P e.data := by
  have hentries : ∀ e ∈ (if (d.logFile.getD []).isEmpty then [boundary 0 0] else d.logFile.getD []), P e.data := by
    intro e he
    split at he
    · rw [List.mem_singleton.1 he]
      exact hP _ rfl
    · cases hf : d.logFile with
      | none => rw [hf] at he; cases he
      | some f => rw [hf] at he; exact h f hf e he
  unfold loadLog
  simp only
  generalize (if (d.logFile.getD []).isEmpty then [boundary 0 0] else d.logFile.getD []) = entries at hentries
  intro e he
  split at he
  · exact hentries e he
  · split at he
    · rename_i x rest
      split at he
      · rcases List.mem_cons.1 he with rfl | he
        · exact hP _ rfl
        · exact hentries e he
      · rcases List.mem_cons.1 he with rfl | he
        · exact hentries x List.mem_cons_self
        · exact hentries e (List.mem_cons_of_mem x he)
    · rw [List.mem_singleton.1 he]
      exact hP _ rfl

theorem Loaded.indexed {b : Int} {d : Disk} {r : Raft} (h : Loaded d r) (hd : DiskAt b d) :
    Indexed r ∧ r.logBaseIndex = b := by
  obtain ⟨h1, h2, h3, _⟩ := hd.loadLog
  have hb : r.logBaseIndex = b := h.base.trans h1
  refine ⟨⟨by rw [hb]; exact hd.nonneg, by rw [h.log]; exact h2, by rw [hb, h.log]; exact h3, ?_, ?_⟩, hb⟩
  · intro snap hs; rw [h.snapshot] at hs; rw [hb]; exact hd.snap snap hs
  · intro hs; rw [h.snapshot] at hs; rw [hb, h.snapFile]; exact ⟨hd.noSnap hs, hs⟩

end Raft

namespace Cluster

/-! ## Runs with restarts -/

/-- Node `n` is started again on the files `disk` and on its store, which is in a directory of its own, with the
peers of its command line. -/
def restart (s : Cluster) (n : NodeID) (peers : List NodeID) (disk : Disk) (io : Io) : Cluster :=
  { s.crash n with
    procs := (s.crash n).procs ++ [n]
    raft := Function.update s.raft n { Raft.new n peers disk io with
      snapshotter := (s.raft n).snapshotter
      restorer := (s.raft n).restorer }
    app := Function.update s.app n { store := (s.app n).store } }

theorem restart_app (s : Cluster) (n : NodeID) (peers : List NodeID) (disk : Disk) (io : Io) (m : NodeID) :
    (s.restart n peers disk io).app m = if m = n then { store := (s.app n).store } else s.app m :=
  Function.update_apply ..

inductive LifeAction
  | step (a : Action)
  /-- The process of `n` dies at a point of `a`, before anyone hears of it, and is started again. -/
  | crash (n : NodeID) (a : Action) (c : CrashPoint) (metaSaved : Bool) (peers : List NodeID) (io : Io)
  deriving DecidableEq

def lifeStep (s : Cluster) : LifeAction → Option Cluster
  | .step a => s.step a
  | .crash n a c metaSaved peers io =>
    match s.step a with
    | some s' => some (s.restart n peers (crashDisk (s.raft n).disk (s'.raft n).disk metaSaved c) io)
    | none => none

/-- Clusters whose processes die and come back. -/
def lifeMachine : Machine Cluster LifeAction := ⟨machine.init, lifeStep⟩

/-! ## Conditions -/

/-- The step compacts the log of node `n` at another index than its base. -/
def baseMoves (s : Cluster) (a : Action) (n : NodeID) : Bool :=
  (s.compactsAt n a).any fun i => i != (s.raft n).logBaseIndex

/-- No save fails in a step that moves the base of a log. -/
def savesBoth (s : Cluster) (a : Action) : Bool :=
  s.procs.all fun n => !s.baseMoves a n || ((ioOf a).saveLog && (ioOf a).saveSnap)

/-- No process dies between the renames of the snapshot and the log in a step that moves the base of
its log. -/
def crashesApart (s : Cluster) : LifeAction → Bool
  | .step a => s.inPlace a && s.savesBoth a
  | .crash n a c _ _ _ => s.inPlace a && s.savesBoth a && (decide (c ≠ .beforeLog) || !s.baseMoves a n)

/-! ## The invariant -/

variable {s s' : Cluster} {a : Action} {n : NodeID} {peers : List NodeID} {d : Disk} {io : Io}

theorem baseMoves_of_ne (hs : s.step a = some s') (hm : (s'.raft n).logBaseIndex ≠ (s.raft n).logBaseIndex) :
    s.baseMoves a n = true := by
  rcases step_at hs n with heq | ⟨_, hstep⟩
  · rw [heq] at hm; exact absurd rfl hm
  · rcases hstep.compacts with ⟨i, hi, hb⟩ | ⟨_, hb, _⟩
    · rw [hb] at hm
      simpa [baseMoves, hi] using hm
    · exact absurd hb hm

theorem savesBoth_moved (h : s.savesBoth a = true) (hs : s.step a = some s') (hn : n ∈ s.procs)
    (hm : (s'.raft n).logBaseIndex ≠ (s.raft n).logBaseIndex) :
    (ioOf a).saveLog = true ∧ (ioOf a).saveSnap = true := by
  have hall := List.all_eq_true.1 h n hn
  simpa [baseMoves_of_ne hs hm] using hall

/-- The files of a node have the base of its log. -/
def Durable (s : Cluster) : Prop := ∀ n, DiskAt (s.raft n).logBaseIndex (s.raft n).disk

theorem snapFile_step {r : Raft} (h : LogStep s n r a) :
    r.disk.snapFile = (s.raft n).disk.snapFile ∨
      ∃ snap, r.disk.snapFile = some snap ∧ snap.lastIncludedIndex = r.logBaseIndex := by
  have hc : ∀ snap, Compacts (s.raft n) r snap → r.disk.snapFile = (s.raft n).disk.snapFile ∨
      ∃ snap, r.disk.snapFile = some snap ∧ snap.lastIncludedIndex = r.logBaseIndex :=
    fun snap hc => hc.file.imp id fun hf => ⟨snap, hf, hc.base.symm⟩
  cases h with
  | same _ h => exact .inl h.file
  | append _ _ h => exact .inl h.file
  | merge _ _ _ _ _ _ h => exact .inl h.file
  | install _ _ _ _ _ _ _ h => exact hc _ h
  | snapshot _ _ h => exact hc _ h.compacts

theorem Durable.step (h : Durable s) (hi : IndexInv s') (hok : s.savesBoth a = true) (hs : s.step a = some s') :
    Durable s' := by
  intro n
  have hd := h n
  rcases step_at hs n with heq | ⟨hm, hstep⟩
  · rw [heq]; exact hd
  · have hind := hi.node n
    have hfile := hstep.fileStep
    by_cases hb : (s'.raft n).logBaseIndex = (s.raft n).logBaseIndex
    · refine ⟨hind.base, fun snap hsn => ?_, fun hsn => ?_, fun f hf => ?_, fun hf => ?_⟩
      · rcases snapFile_step hstep.logStep with he | ⟨snap', he, hl⟩
        · rw [hb]; exact hd.snap snap (he.symm.trans hsn)
        · rw [he] at hsn; cases hsn; exact hl
      · rcases snapFile_step hstep.logStep with he | ⟨snap', he, _⟩
        · rw [hb]; exact hd.noSnap (he.symm.trans hsn)
        · rw [he] at hsn; cases hsn
      · rcases hfile with he | he
        · rw [hb]; exact hd.file f (he.symm.trans hf)
        · rw [he] at hf; cases hf; exact ⟨hind.ne, hind.numbered⟩
      · rcases hfile with he | he
        · rw [hb]; exact hd.noFile (he.symm.trans hf)
        · rw [he] at hf; cases hf
    · obtain ⟨hl, hsn⟩ := savesBoth_moved hok hs hm hb
      have hlog := (hstep.written hl).resolve_left fun h => hb h.2.1
      have hsnap := (hstep.snapWritten hsn).resolve_left fun h => hb h.1
      refine ⟨hind.base, fun snap he => ?_, fun he => ?_, fun f hf => ?_, fun hf => ?_⟩
      · exact hind.snapshot snap (hsnap.symm.trans he)
      · exact (hind.fresh (hsnap.symm.trans he)).1
      · rw [hlog] at hf; cases hf; exact ⟨hind.ne, hind.numbered⟩
      · rw [hlog] at hf; cases hf

/-- The files a process leaves, unless it dies between two renames that move the base. -/
theorem Durable.crash (h : Durable s) (h' : Durable s') {c : CrashPoint} (metaSaved : Bool)
    (hc : c = .beforeLog → (s'.raft n).logBaseIndex = (s.raft n).logBaseIndex) :
    ∃ b, DiskAt b (crashDisk (s.raft n).disk (s'.raft n).disk metaSaved c) := by
  have hd := h n
  have hd' := h' n
  cases c with
  | beforeSnapshot => exact ⟨_, hd.nonneg, hd.snap, hd.noSnap, hd.file, hd.noFile⟩
  | afterLog => exact ⟨_, hd'.nonneg, hd'.snap, hd'.noSnap, hd'.file, hd'.noFile⟩
  | beforeLog =>
    rw [hc rfl] at hd'
    exact ⟨_, hd.nonneg, hd'.snap, hd'.noSnap, hd.file, hd.noFile⟩

theorem restart_raft (s : Cluster) (n m : NodeID) (peers : List NodeID) (d : Disk) (io : Io) :
    (s.restart n peers d io).raft m = if m = n then { Raft.new n peers d io with
      snapshotter := (s.raft n).snapshotter, restorer := (s.raft n).restorer } else s.raft m := Function.update_apply ..

theorem restart_tasks {m : NodeID} {t : Task} (h : (m, t) ∈ (s.restart n peers d io).tasks) :
    (m, t) ∈ s.tasks := (List.mem_filter.1 h).1

/-- Every command in a log, a log file or on its way to a log meets `P`. -/
structure CarriesSaved (P : Command → Prop) (s : Cluster) : Prop where
  carries : Carries P s
  files : ∀ n f, (s.raft n).disk.logFile = some f → ∀ e ∈ f, P e.data

theorem CarriesSaved.start {P : Command → Prop} (hP : ∀ cmd, cmd.isConfig = false → P cmd) (procs : List NodeID)
    (peersOf : NodeID → List NodeID) (snapshotter restorer : Bool) :
    CarriesSaved P (Cluster.start procs peersOf snapshotter restorer) :=
  ⟨.start hP .., fun n f hf => by cases hf⟩

theorem CarriesSaved.step {P : Command → Prop} (hP : ∀ cmd, cmd.isConfig = false → P cmd) (h : CarriesSaved P s)
    (ha : Offers P a) (hs : s.step a = some s') : CarriesSaved P s' := by
  have hc := h.carries.step hP ha hs
  refine ⟨hc, fun n f hf => ?_⟩
  rcases step_at hs n with heq | ⟨_, hm⟩
  · rw [heq] at hf; exact h.files n f hf
  · rcases hm.fileStep with he | he
    · exact h.files n f (he.symm.trans hf)
    · rw [he] at hf; cases hf; exact hc.log n

theorem CarriesSaved.restart {P : Command → Prop} (hP : ∀ cmd, cmd.isConfig = false → P cmd) (h : CarriesSaved P s)
    (hd : ∀ f, d.logFile = some f → ∀ e ∈ f, P e.data) : CarriesSaved P (s.restart n peers d io) := by
  have hnew := new_loaded n peers d io
  refine ⟨⟨fun m => ?_, fun m cmd ht => h.carries.propose m cmd (restart_tasks ht),
    fun m t args ht => h.carries.args m t args (restart_tasks ht), h.carries.request⟩, fun m f hf => ?_⟩
  · rw [restart_raft]
    split
    · intro e he
      exact loadLog_carries hP hd e (by rw [← hnew.log]; exact he)
    · exact h.carries.log m
  · rw [restart_raft] at hf
    split at hf
    · exact hd f (by rw [← hnew.logFile]; exact hf)
    · exact h.files m f hf

theorem IndexInv.restart (h : IndexInv s) {b : Int} (hd : DiskAt b d) (peers : List NodeID) (io : Io) :
    IndexInv (s.restart n peers d io) := by
  have hnew := new_loaded n peers d io
  have hind := (hnew.indexed hd).1
  refine ⟨fun m => ?_, fun m => ?_, fun m t args ht => h.args m t args (restart_tasks ht), h.request,
    fun m t snap ht => h.snapTask m t snap (restart_tasks ht), h.snapRequest⟩
  · rw [restart_raft]
    split
    · exact hind.of_sameLog ⟨rfl, rfl, rfl, rfl⟩
    · exact h.node m
  · rw [restart_raft]
    split
    · exact hnew.next (Indexed.last_nonneg hind)
    · exact h.next m

theorem Durable.restart (h : Durable s) {b : Int} (hd : DiskAt b d) (peers : List NodeID) (io : Io) :
    Durable (s.restart n peers d io) := by
  intro m
  rw [restart_raft]
  split
  · have hnew := new_loaded n peers d io
    have hb := (hnew.indexed hd).2
    have he : DiskAt b (Raft.new n peers d io).disk :=
      ⟨hd.nonneg, by rw [hnew.snapFile]; exact hd.snap, by rw [hnew.snapFile]; exact hd.noSnap,
        by rw [hnew.logFile]; exact hd.file, by rw [hnew.logFile]; exact hd.noFile⟩
    rw [← hb] at he; exact he
  · exact h m

/-- Logs in memory and on disk are in place. -/
structure LifeInv (s : Cluster) : Prop where
  index : IndexInv s
  durable : Durable s

theorem LifeInv.start (procs : List NodeID) (peersOf : NodeID → List NodeID) (snapshotter restorer : Bool) :
    LifeInv (Cluster.start procs peersOf snapshotter restorer) := by
  refine ⟨.start .., fun n => ?_⟩
  rw [start_raft]
  exact ⟨le_refl _, fun snap h => (by cases h), fun _ => rfl, fun f h => (by cases h), fun _ => rfl⟩

/-- The files of a process that dies in a step that meets the condition. -/
theorem LifeInv.crash (h : LifeInv s) {c : CrashPoint} {metaSaved : Bool}
    (hok : s.crashesApart (.crash n a c metaSaved peers io) = true) (hs : s.step a = some s') :
    ∃ b, DiskAt b (crashDisk (s.raft n).disk (s'.raft n).disk metaSaved c) := by
  simp only [crashesApart, Bool.and_eq_true] at hok
  obtain ⟨⟨hplace, hsave⟩, hc⟩ := hok
  have hd' := h.durable.step (h.index.step hplace hs) hsave hs
  refine h.durable.crash hd' metaSaved fun he => ?_
  by_contra hm
  simp [baseMoves_of_ne hs hm, he] at hc

theorem LifeInv.step (h : LifeInv s) {l : LifeAction} (hok : s.crashesApart l = true) (hs : s.lifeStep l = some s') :
    LifeInv s' := by
  cases l with
  | step a =>
    simp only [crashesApart, Bool.and_eq_true] at hok
    have hi := h.index.step hok.1 hs
    exact ⟨hi, h.durable.step hi hok.2 hs⟩
  | crash n a c metaSaved peers io =>
    simp only [lifeStep] at hs
    split at hs
    · rename_i s₁ hs₁
      cases hs
      obtain ⟨b, hd⟩ := h.crash hok hs₁
      exact ⟨h.index.restart hd peers io, h.durable.restart hd peers io⟩
    · cases hs

/-- Crash consistency of the log and snapshot files: in every run of a cluster whose processes die at
any point of any step and come back, as long as none dies between the renames of a step that moves the
base of its log and no save fails there, the log `New` makes of the files of a process that dies in the
next step is in place, and its entries beyond the snapshot are those of the log file. -/
theorem restart_in_place {h : List (Cluster × LifeAction)} {s s' : Cluster}
    (hr : lifeMachine.Run (fun s l => s.crashesApart l = true) h s) {n : NodeID} {a : Action} {c : CrashPoint}
    {metaSaved : Bool} {peers : List NodeID} {io : Io}
    (hok : s.crashesApart (.crash n a c metaSaved peers io) = true) (hs : s.step a = some s') {d : Disk}
    (hd : d = crashDisk (s.raft n).disk (s'.raft n).disk metaSaved c) :
    Numbered (Raft.new n peers d io).logBaseIndex (Raft.new n peers d io).log ∧
      beyondSnapshot d (Raft.new n peers d io).log = beyondSnapshot d (d.logFile.getD []) := by
  have hi : LifeInv s := by
    refine Machine.Run.invariant ?_ (fun s l s' hi hok hs => hi.step hok hs) hr
    rintro s ⟨procs, peersOf, snapshotter, restorer, _, rfl⟩
    exact .start procs peersOf snapshotter restorer
  obtain ⟨b, hb⟩ := hi.crash hok hs
  rw [← hd] at hb
  have hnew := new_loaded n peers d io
  refine ⟨(hnew.indexed hb).1.numbered, ?_⟩
  rw [hnew.log]; exact hb.loadLog.2.2.2

/-- A takes a snapshot of its first entry, dies after both renames and comes back. -/
theorem restart_in_place_afterLog :
    ∃ h s s' d, lifeMachine.Run (fun s l => s.crashesApart l = true) h s ∧
      s.step (.forceSnapshot "A" {}) = some s' ∧ d = crashDisk (s.raft "A").disk (s'.raft "A").disk true .afterLog ∧
      d.logFile = some [boundary 1 1] ∧
      Numbered (Raft.new "A" ["B", "C"] d {}).logBaseIndex (Raft.new "A" ["B", "C"] d {}).log ∧
      beyondSnapshot d (Raft.new "A" ["B", "C"] d {}).log = beyondSnapshot d (d.logFile.getD []) := by
  obtain ⟨h, s, hr, hok, hp⟩ := Machine.exists_run (fun s l => s.crashesApart l = true)
    (fun _ s => s.crashesApart (.crash "A" (.forceSnapshot "A" {}) .afterLog true ["B", "C"] {}) = true ∧
      (s.step (.forceSnapshot "A" {})).any (fun s' => (s'.raft "A").disk.logFile == some [boundary 1 1]) = true)
    (S := lifeMachine) (machine_init threeNodes true true) (firstApplied.map .step) (by decide +kernel)
  obtain ⟨s', hs, hf⟩ := (Option.any_eq_true _ _).1 hp
  exact ⟨h, s, s', _, hr, hs, rfl, by simpa [crashDisk] using hf, restart_in_place hr hok hs rfl⟩

/-- A dies after the snapshot is renamed and before the log is: `New` puts the boundary of the snapshot
before the whole old log. -/
theorem crash_beforeLog_misplaced :
    ∃ h s s' d, lifeMachine.Run (fun s l => s.crashesApart l = true) h s ∧
      (s.inPlace (.forceSnapshot "A" {}) && s.savesBoth (.forceSnapshot "A" {})) = true ∧
      s.step (.forceSnapshot "A" {}) = some s' ∧ d = crashDisk (s.raft "A").disk (s'.raft "A").disk true .beforeLog ∧
      (Raft.new "A" ["B", "C"] d {}).log.map LogEntry.index = [1, 0, 1] ∧
      ¬ Numbered (Raft.new "A" ["B", "C"] d {}).logBaseIndex (Raft.new "A" ["B", "C"] d {}).log := by
  obtain ⟨h, s, hr, hok, hp⟩ := Machine.exists_run (fun s l => s.crashesApart l = true)
    (fun _ s => (s.inPlace (.forceSnapshot "A" {}) && s.savesBoth (.forceSnapshot "A" {})) = true ∧
      (s.step (.forceSnapshot "A" {})).any (fun s' => decide (
        (Raft.new "A" ["B", "C"] (crashDisk (s.raft "A").disk (s'.raft "A").disk true .beforeLog) {}).log.map
            LogEntry.index = [1, 0, 1] ∧
          ¬ Numbered (Raft.new "A" ["B", "C"] (crashDisk (s.raft "A").disk (s'.raft "A").disk true .beforeLog)
              {}).logBaseIndex
            (Raft.new "A" ["B", "C"] (crashDisk (s.raft "A").disk (s'.raft "A").disk true .beforeLog) {}).log)) = true)
    (S := lifeMachine) (machine_init threeNodes true true) (firstApplied.map .step) (by decide +kernel)
  obtain ⟨s', hs, hf⟩ := (Option.any_eq_true _ _).1 hp
  obtain ⟨h1, h2⟩ := of_decide_eq_true hf
  exact ⟨h, s, s', _, hr, hok, hs, rfl, h1, h2⟩

end Cluster

end Mimori
