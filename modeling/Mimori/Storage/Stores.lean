/-
The three stores of a data directory as bytes (`meta.go`, `storage.go`, `snapshot.go`): JSON texts that are written to a
temporary file and renamed. `New` goes on with the zero values when a file cannot be decoded, so everything rests on
this never happening: whatever has been saved, wherever a save has failed or its process has died, each store loads
the last content that came to its rename, as it was given. So the `Disk` of a node stands for the bytes of its files.
-/
import Mimori.Api.Commands
import Mimori.Base.Replace
import Mimori.Base.Run
import Mimori.Storage.Pebble

namespace Mimori

open Json Strings Decimal

/-! ## Names of nodes as text -/

/-- `NodeID(s)` for a string that was decoded. -/
def nodeIDOf (s : Bytes) : NodeID := (String.fromUTF8? s.toByteArray).getD ""

theorem nodeIDOf_utf8 (id : NodeID) : nodeIDOf (utf8 id) = id := by
  have hbytes : (utf8 id).toByteArray = id.toByteArray := by
    ext1
    rw [List.data_toByteArray]
    exact Array.toArray_toList
  rw [nodeIDOf, hbytes, String.fromUTF8?, dif_pos id.isValidUTF8]
  rfl

/-! ## The meta file -/

/-- `metaData`. -/
structure MetaRecord where
  term : Int := 0
  votedFor : Bytes := []
  peers : List Bytes := []

def metaFields : Fields MetaRecord :=
  [(utf8 "term", intField fun m term => { m with term := term }),
    (utf8 "voted_for", stringField fun m votedFor => { m with votedFor := votedFor }),
    (utf8 "peers", sliceField stringValue fun m peers => { m with peers := peers })]

/-- `json.Marshal` of a `metaData`: an empty list of peers is left out. -/
def metaText (md : MetaData) : Bytes :=
  structText ((utf8 "term", itoa md.term) :: (utf8 "voted_for", quote (utf8 md.votedFor)) ::
    if md.peers = [] then [] else [(utf8 "peers", arrayText (md.peers.map fun p => quote (utf8 p)))])

def MetaRecord.data (m : MetaRecord) : MetaData := ⟨m.term, nodeIDOf m.votedFor, m.peers.map nodeIDOf⟩

/-! ## The log file -/

/-- `logDiskEntry`, and a `LogEntry` with its bytes. -/
structure DiskEntry where
  index : Int := 0
  term : Int := 0
  data : Slice := none
  deriving DecidableEq

/-- `append([]byte(nil), s...)`: a copy of an empty slice is nil. -/
def Slice.copy (s : Slice) : Slice := if s.bytes = [] then none else s

def entryFields : Fields DiskEntry :=
  [(utf8 "index", intField fun e index => { e with index := index }),
    (utf8 "term", intField fun e term => { e with term := term }),
    (utf8 "data", bytesField fun e data => { e with data := data })]

def entryText (e : DiskEntry) : Bytes :=
  structText [(utf8 "index", itoa e.index), (utf8 "term", itoa e.term), (utf8 "data", sliceText e.data.copy)]

def logText (entries : List DiskEntry) : Bytes := arrayText (entries.map entryText)

/-- The command that the readers of the repository make of the data of an entry. -/
def commandOf (data : Bytes) : Command :=
  match readConfigChange data with
  | some (type, nodeID) => .configChange (nodeIDOf type) (nodeIDOf nodeID)
  | none =>
    match applyLoop data with
    | some (.put key value) => .put key value
    | some (.delete key) => .delete key
    | none => .other data

def DiskEntry.entry (e : DiskEntry) : LogEntry := ⟨e.index, e.term, commandOf e.data.bytes⟩

/-! ## The snapshot file -/

/-- `Snapshot` with its bytes. -/
structure SnapshotRecord where
  lastIncludedIndex : Int := 0
  lastIncludedTerm : Int := 0
  createdAt : Int := 0
  data : Slice := none
  deriving DecidableEq

def snapshotFields : Fields SnapshotRecord :=
  [(utf8 "last_included_index", intField fun s index => { s with lastIncludedIndex := index }),
    (utf8 "last_included_term", intField fun s term => { s with lastIncludedTerm := term }),
    (utf8 "created_at", intField fun s createdAt => { s with createdAt := createdAt }),
    (utf8 "data", bytesField fun s data => { s with data := data })]

def snapshotText (s : SnapshotRecord) : Bytes :=
  structText [(utf8 "last_included_index", itoa s.lastIncludedIndex), (utf8 "last_included_term", itoa s.lastIncludedTerm),
    (utf8 "created_at", itoa s.createdAt), (utf8 "data", sliceText s.data)]

/-- The store content that `Restore` decodes, or bytes it cannot. -/
def payloadOf (data : Bytes) : Payload :=
  match PebbleKV.payloadMap data with
  | some store => .state store
  | none => .other data

def SnapshotRecord.snapshot (s : SnapshotRecord) : Snapshot :=
  ⟨s.lastIncludedIndex, s.lastIncludedTerm, payloadOf s.data.bytes⟩

/-! ## Saving and loading -/

abbrev DataDir := Directory String

def metaPath : String := "raft-meta.json"
def logPath : String := "raft-log.json"
def snapPath : String := "raft-snap.json"

/-- What is written to `path + ".tmp"` and renamed. -/
def replaceFile (dir : DataDir) (path : String) (b : Bytes) (p : Directory.Progress) : DataDir :=
  dir.replace path (path ++ ".tmp") b p

/-- `MetaStore.Save`. -/
def MetaData.save (md : MetaData) (dir : DataDir) (p : Directory.Progress) : DataDir :=
  replaceFile dir metaPath (metaText md) p

/-- `LogStore.SaveAll`. -/
def saveAll (entries : List DiskEntry) (dir : DataDir) (p : Directory.Progress) : DataDir :=
  replaceFile dir logPath (logText entries) p

/-- `SnapshotStore.Save`. -/
def SnapshotRecord.save (snap : SnapshotRecord) (dir : DataDir) (p : Directory.Progress) : DataDir :=
  replaceFile dir snapPath (snapshotText snap) p

/-- A file decoded: `none` if it is not there, or if it cannot be decoded, which is an error. -/
def loadFile {β : Type} (decode : Bytes → Option β) (dir : DataDir) (path : String) : Option β × Bool :=
  match dir path with
  | none => (none, true)
  | some f => (decode f, (decode f).isSome)

/-- `MetaStore.Load`: the values, zero for `none`, and whether the error is nil. -/
def loadMeta (dir : DataDir) : Option MetaData × Bool :=
  loadFile (fun f => (unmarshal metaFields {} f).map MetaRecord.data) dir metaPath

/-- `LogStore.Load`. -/
def loadEntries (dir : DataDir) : Option (List DiskEntry) × Bool :=
  loadFile (fun f => (unmarshalSlice (structValue entryFields {}) f).map fun des =>
    des.map fun de => { de with data := de.data.copy }) dir logPath

/-- `SnapshotStore.Load`. -/
def loadSnapshot (dir : DataDir) : Option SnapshotRecord × Bool :=
  loadFile (unmarshal snapshotFields {}) dir snapPath

/-- What `New` finds in a data directory; it drops the errors. -/
def readDisk (dir : DataDir) : Disk where
  metaFile := (loadMeta dir).1
  logFile := (loadEntries dir).1.map fun es => es.map DiskEntry.entry
  snapFile := (loadSnapshot dir).1.map SnapshotRecord.snapshot

/-- A call of one of the stores. -/
inductive SaveCall
  | metaData (md : MetaData)
  | log (entries : List DiskEntry)
  | snap (snap : SnapshotRecord)

/-- A call and how far it gets. -/
abbrev SaveAction := SaveCall × Directory.Progress

def saveStep (dir : DataDir) (a : SaveAction) : DataDir :=
  match a.1 with
  | .metaData md => md.save dir a.2
  | .log entries => saveAll entries dir a.2
  | .snap snap => snap.save dir a.2

/-- The numbers of a call are `int`s. -/
def SaveCall.Fits : SaveCall → Prop
  | .metaData md => Decimal.Fits md.term
  | .log entries => ∀ e ∈ entries, Decimal.Fits e.index ∧ Decimal.Fits e.term
  | .snap s => Decimal.Fits s.lastIncludedIndex ∧ Decimal.Fits s.lastIncludedTerm ∧ Decimal.Fits s.createdAt

instance : DecidablePred SaveCall.Fits := fun call => by
  cases call <;> simp only [SaveCall.Fits, Decimal.Fits] <;> infer_instance

/-- The content of the three files, each whole; `none` before the first save. -/
structure Saved where
  metaData : Option MetaData := none
  entries : Option (List DiskEntry) := none
  snapshot : Option SnapshotRecord := none

/-- A save that is whole or not at all. The data of an entry is copied. -/
def Saved.after (c : Saved) : SaveAction → Saved
  | (.metaData md, .renamed) => { c with metaData := some md }
  | (.log es, .renamed) => { c with entries := some (es.map fun e => { e with data := e.data.copy }) }
  | (.snap snap, .renamed) => { c with snapshot := some snap }
  | _ => c

def Saved.disk (c : Saved) : Disk where
  metaFile := c.metaData
  logFile := c.entries.map fun es => es.map DiskEntry.entry
  snapFile := c.snapshot.map SnapshotRecord.snapshot

/-! ## Decoding what was written -/

theorem coerce_utf8 (s : String) : Utf8.coerce (utf8 s) = utf8 s := Utf8.coerce_of_valid (valid_utf8 s)

theorem metaFields_take (m : MetaRecord) (v : Value) :
    metaFields.take m (Utf8.coerce (utf8 "term"), v) = intField (fun m term => { m with term := term }) m v ∧
    metaFields.take m (Utf8.coerce (utf8 "voted_for"), v) =
      stringField (fun m votedFor => { m with votedFor := votedFor }) m v ∧
    metaFields.take m (Utf8.coerce (utf8 "peers"), v) =
      sliceField stringValue (fun m peers => { m with peers := peers }) m v :=
  ⟨rfl, rfl, rfl⟩

theorem reads_id (id : NodeID) : Reads (quote (utf8 id)) (.str (utf8 id)) := by
  have h := reads_quote (utf8 id)
  rwa [coerce_utf8] at h

theorem reads_ids (ids : List NodeID) :
    Reads (arrayText (ids.map fun p => quote (utf8 p))) (.arr (ids.map fun p => .str (utf8 p))) := by
  have h := reads_arrayText (ids.map fun p => (quote (utf8 p), .str (utf8 p))) (by
    rintro v hv
    obtain ⟨p, _, rfl⟩ := List.mem_map.1 hv
    exact reads_id p)
  rwa [List.map_map, List.map_map] at h

def metaMembers (md : MetaData) : List (Bytes × Bytes × Value) :=
  (utf8 "term", itoa md.term, .num (itoa md.term)) ::
    (utf8 "voted_for", quote (utf8 md.votedFor), .str (utf8 md.votedFor)) ::
    if md.peers = [] then []
    else [(utf8 "peers", arrayText (md.peers.map fun p => quote (utf8 p)), .arr (md.peers.map fun p => .str (utf8 p)))]

theorem reads_metaMembers (md : MetaData) : ∀ m ∈ metaMembers md, Reads m.2.1 m.2.2 := by
  rintro m hm
  rcases List.mem_cons.1 hm with rfl | hm
  · exact reads_itoa md.term
  · rcases List.mem_cons.1 hm with rfl | hm
    · exact reads_id md.votedFor
    · split at hm
      · cases hm
      · rw [List.mem_singleton] at hm
        subst hm
        exact reads_ids md.peers

theorem unmarshal_metaText {md : MetaData} (h : Decimal.Fits md.term) :
    unmarshal metaFields {} (metaText md) = some ⟨md.term, utf8 md.votedFor, md.peers.map utf8⟩ := by
  have htake := metaFields_take
  have hids : (md.peers.map fun p => Value.str (utf8 p)).mapM stringValue = some (md.peers.map utf8) :=
    mapM_of_forall fun _ _ => rfl
  have htext : metaText md = structText ((metaMembers md).map fun m => (m.1, m.2.1)) := by
    unfold metaText metaMembers
    split <;> rfl
  rw [htext, @unmarshal_structText _ metaFields {} (metaMembers md) (List.cons_ne_nil _ _) (reads_metaMembers md),
    metaMembers]
  by_cases hp : md.peers = []
  · simp only [hp, if_true, List.map_cons, List.map_nil, List.foldlM_cons, List.foldlM_nil, (htake _ _).1, (htake _ _).2.1,
      intField_itoa _ _ h, stringField, Option.bind_eq_bind, Option.bind_some]
    rfl
  · simp only [hp, if_false, List.map_cons, List.map_nil, List.foldlM_cons, List.foldlM_nil, (htake _ _).1, (htake _ _).2.1,
      (htake _ _).2.2, intField_itoa _ _ h, stringField, sliceField, hids, Option.map_some, Option.bind_eq_bind,
      Option.bind_some]
    rfl

theorem metaText_decoded {md : MetaData} (h : Decimal.Fits md.term) :
    (unmarshal metaFields {} (metaText md)).map MetaRecord.data = some md := by
  rw [unmarshal_metaText h, Option.map_some, MetaRecord.data]
  simp only [nodeIDOf_utf8, List.map_map, Function.comp_def, List.map_id']

theorem entryFields_take (e : DiskEntry) (v : Value) :
    entryFields.take e (Utf8.coerce (utf8 "index"), v) = intField (fun e index => { e with index := index }) e v ∧
    entryFields.take e (Utf8.coerce (utf8 "term"), v) = intField (fun e term => { e with term := term }) e v ∧
    entryFields.take e (Utf8.coerce (utf8 "data"), v) = bytesField (fun e data => { e with data := data }) e v :=
  ⟨rfl, rfl, rfl⟩

def entryMembers (e : DiskEntry) : List (Bytes × Bytes × Value) :=
  [(utf8 "index", itoa e.index, .num (itoa e.index)), (utf8 "term", itoa e.term, .num (itoa e.term)),
    (utf8 "data", sliceText e.data.copy, sliceValue e.data.copy)]

theorem reads_entryText (e : DiskEntry) :
    Reads (entryText e) (.obj ((entryMembers e).map fun m => (Utf8.coerce m.1, m.2.2))) := by
  refine @reads_structText (entryMembers e) (List.cons_ne_nil _ _) ?_
  rintro m hm
  simp only [entryMembers, List.mem_cons, List.not_mem_nil, or_false] at hm
  rcases hm with rfl | rfl | rfl
  · exact reads_itoa e.index
  · exact reads_itoa e.term
  · exact reads_sliceText e.data.copy

theorem structValue_entry {e : DiskEntry} (h : Decimal.Fits e.index ∧ Decimal.Fits e.term) :
    structValue entryFields {} (.obj ((entryMembers e).map fun m => (Utf8.coerce m.1, m.2.2))) =
      some { e with data := e.data.copy } := by
  have htake := entryFields_take
  simp only [structValue, entryMembers, List.map_cons, List.map_nil, List.foldlM_cons, List.foldlM_nil, (htake _ _).1,
    (htake _ _).2.1, (htake _ _).2.2, intField_itoa _ _ h.1, intField_itoa _ _ h.2, bytesField_slice, Option.bind_eq_bind,
    Option.bind_some]
  rfl

theorem Slice.copy_copy (s : Slice) : s.copy.copy = s.copy := by
  unfold copy
  split <;> rfl

theorem logText_decoded {es : List DiskEntry} (h : ∀ e ∈ es, Decimal.Fits e.index ∧ Decimal.Fits e.term) :
    ((unmarshalSlice (structValue entryFields {}) (logText es)).map fun des =>
      des.map fun de : DiskEntry => { de with data := de.data.copy }) =
      some (es.map fun e => { e with data := e.data.copy }) := by
  have hreads := reads_arrayText
    (es.map fun e => (entryText e, .obj ((entryMembers e).map fun m => (Utf8.coerce m.1, m.2.2)))) (by
      rintro v hv
      obtain ⟨e, _, rfl⟩ := List.mem_map.1 hv
      exact reads_entryText e)
  rw [List.map_map, List.map_map] at hreads
  have hparse := parse_of_reads hreads
  have hmap := mapM_of_forall (l := es) (p := structValue entryFields {})
    (f := fun e => .obj ((entryMembers e).map fun m => (Utf8.coerce m.1, m.2.2)))
    (g := fun e => { e with data := e.data.copy }) fun e he => structValue_entry (h e he)
  have hlog : unmarshalSlice (structValue entryFields {}) (logText es) =
      some (es.map fun e => { e with data := e.data.copy }) := by
    unfold unmarshalSlice
    rw [show parse (logText es) = _ from hparse]
    exact hmap
  rw [hlog, Option.map_some, List.map_map]
  simp only [Function.comp_def, Slice.copy_copy]

theorem snapshotFields_take (s : SnapshotRecord) (v : Value) :
    snapshotFields.take s (Utf8.coerce (utf8 "last_included_index"), v) =
      intField (fun s index => { s with lastIncludedIndex := index }) s v ∧
    snapshotFields.take s (Utf8.coerce (utf8 "last_included_term"), v) =
      intField (fun s term => { s with lastIncludedTerm := term }) s v ∧
    snapshotFields.take s (Utf8.coerce (utf8 "created_at"), v) =
      intField (fun s createdAt => { s with createdAt := createdAt }) s v ∧
    snapshotFields.take s (Utf8.coerce (utf8 "data"), v) = bytesField (fun s data => { s with data := data }) s v :=
  ⟨rfl, rfl, rfl, rfl⟩

theorem snapshotText_decoded {s : SnapshotRecord}
    (h : Decimal.Fits s.lastIncludedIndex ∧ Decimal.Fits s.lastIncludedTerm ∧ Decimal.Fits s.createdAt) :
    unmarshal snapshotFields {} (snapshotText s) = some s := by
  have htake := snapshotFields_take
  have hread := @unmarshal_structText _ snapshotFields {}
    [(utf8 "last_included_index", itoa s.lastIncludedIndex, .num (itoa s.lastIncludedIndex)),
      (utf8 "last_included_term", itoa s.lastIncludedTerm, .num (itoa s.lastIncludedTerm)),
      (utf8 "created_at", itoa s.createdAt, .num (itoa s.createdAt)), (utf8 "data", sliceText s.data, sliceValue s.data)]
    (List.cons_ne_nil _ _) (by
      rintro m hm
      simp only [List.mem_cons, List.not_mem_nil, or_false] at hm
      rcases hm with rfl | rfl | rfl | rfl
      · exact reads_itoa s.lastIncludedIndex
      · exact reads_itoa s.lastIncludedTerm
      · exact reads_itoa s.createdAt
      · exact reads_sliceText s.data)
  simp only [List.map_cons, List.map_nil, List.foldlM_cons, List.foldlM_nil, (htake _ _).1, (htake _ _).2.1,
    (htake _ _).2.2.1, (htake _ _).2.2.2, intField_itoa _ _ h.1, intField_itoa _ _ h.2.1, intField_itoa _ _ h.2.2,
    bytesField_slice, Option.bind_eq_bind, Option.bind_some] at hread
  exact hread

/-! ## Loading after saves -/

section
variable {β : Type} {decode : Bytes → Option β} {dir : DataDir} {path other : String} {b : Bytes} {p : Directory.Progress}

/-- A file that decodes is loaded from its rename on. -/
theorem loadFile_replaced {x : β} (hb : decode b = some x) (hp : path ≠ path ++ ".tmp") :
    loadFile decode (replaceFile dir path b p) path = if p = .renamed then (some x, true) else loadFile decode dir path := by
  unfold loadFile replaceFile
  rw [Directory.replace_name hp]
  by_cases h : p = .renamed
  · simp only [if_pos h, hb, Option.isSome_some]
  · rw [if_neg h, if_neg h]

theorem loadFile_other (h : other ≠ path) (ht : other ≠ path ++ ".tmp") :
    loadFile decode (replaceFile dir path b p) other = loadFile decode dir other := by
  unfold loadFile replaceFile
  rw [Directory.replace_other h ht]

end

/-- The stores load the content `c`, without an error. -/
structure Loads (dir : DataDir) (c : Saved) : Prop where
  metaData : loadMeta dir = (c.metaData, true)
  entries : loadEntries dir = (c.entries, true)
  snapshot : loadSnapshot dir = (c.snapshot, true)

/-- A save, however far it gets, is a save that is whole or not at all. -/
theorem Loads.save {dir : DataDir} {c : Saved} (h : Loads dir c) {a : SaveAction} (ha : a.1.Fits) :
    Loads (saveStep dir a) (c.after a) := by
  obtain ⟨call, p⟩ := a
  obtain ⟨hm, he, hs⟩ := h
  -- a file of another store is as it was
  have hother : ∀ {β : Type} (decode : Bytes → Option β) {path other : String} (b : Bytes), other ≠ path →
      other ≠ path ++ ".tmp" → loadFile decode (replaceFile dir path b p) other = loadFile decode dir other :=
    fun decode _ _ b => loadFile_other
  cases call with
  | metaData md =>
    have hm' : loadMeta (md.save dir p) = _ := loadFile_replaced (p := p) (metaText_decoded ha) (by decide)
    have he' : loadEntries (md.save dir p) = (c.entries, true) := (hother _ _ (by decide) (by decide)).trans he
    have hs' : loadSnapshot (md.save dir p) = (c.snapshot, true) := (hother _ _ (by decide) (by decide)).trans hs
    cases p with
    | renamed => exact ⟨hm', he', hs'⟩
    | unopened | written => exact ⟨hm'.trans hm, he', hs'⟩
  | log es =>
    have hm' : loadMeta (saveAll es dir p) = (c.metaData, true) := (hother _ _ (by decide) (by decide)).trans hm
    have he' : loadEntries (saveAll es dir p) = _ := loadFile_replaced (p := p) (logText_decoded ha) (by decide)
    have hs' : loadSnapshot (saveAll es dir p) = (c.snapshot, true) := (hother _ _ (by decide) (by decide)).trans hs
    cases p with
    | renamed => exact ⟨hm', he', hs'⟩
    | unopened | written => exact ⟨hm', he'.trans he, hs'⟩
  | snap snap =>
    have hm' : loadMeta (snap.save dir p) = (c.metaData, true) := (hother _ _ (by decide) (by decide)).trans hm
    have he' : loadEntries (snap.save dir p) = (c.entries, true) := (hother _ _ (by decide) (by decide)).trans he
    have hs' : loadSnapshot (snap.save dir p) = _ := loadFile_replaced (p := p) (snapshotText_decoded ha) (by decide)
    cases p with
    | renamed => exact ⟨hm', he', hs'⟩
    | unopened | written => exact ⟨hm', he', hs'.trans hs⟩

theorem Loads.readDisk {dir : DataDir} {c : Saved} (h : Loads dir c) : readDisk dir = c.disk := by
  rw [Mimori.readDisk, h.metaData, h.entries, h.snapshot]
  rfl

/-- A node that saves its term, its vote and its peers. -/
theorem Loads.saveMeta {dir : DataDir} {c : Saved} (h : Loads dir c) {r : Raft} (hd : r.disk = c.disk)
    (hfit : Decimal.Fits r.term) (p : Directory.Progress) :
    Mimori.readDisk (MetaData.save ⟨r.term, r.votedFor, r.peers⟩ dir p) = (r.saveMeta (p = .renamed)).disk := by
  have hs := (h.save (a := (.metaData ⟨r.term, r.votedFor, r.peers⟩, p)) hfit).readDisk
  refine hs.trans ?_
  cases p with
  | renamed =>
    show _ = { r.disk with metaFile := some ⟨r.term, r.votedFor, r.peers⟩ }
    rw [hd]
    rfl
  | unopened | written => exact hd.symm

/-- A node that saves its log, whose entries have the bytes `es`. -/
theorem Loads.saveLog {dir : DataDir} {c : Saved} (h : Loads dir c) {r : Raft} (hd : r.disk = c.disk)
    {es : List DiskEntry} (hes : es.map DiskEntry.entry = r.log)
    (hfit : ∀ e ∈ es, Decimal.Fits e.index ∧ Decimal.Fits e.term)
    (p : Directory.Progress) : Mimori.readDisk (saveAll es dir p) = (r.saveLog (p = .renamed)).disk := by
  have hs := (h.save (a := (.log es, p)) hfit).readDisk
  refine hs.trans ?_
  cases p with
  | renamed =>
    have hcopy : (es.map fun e => ({ e with data := e.data.copy } : DiskEntry)).map DiskEntry.entry = r.log := by
      rw [List.map_map, ← hes]
      refine List.map_congr_left fun e _ => ?_
      simp only [Function.comp_apply, DiskEntry.entry, Slice.copy, bytes_of_nonempty]
    show _ = { r.disk with logFile := some r.log }
    rw [hd, ← hcopy]
    rfl
  | unopened | written => exact hd.symm

end Mimori
