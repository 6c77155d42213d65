/-
The bytes of a log entry. `encodePutCmd`, `encodeDeleteCmd` (`internal/api/server.go`) and `proposeConfigChange` write
JSON; the apply loop of `cmd/mimorid/main.go` reads every entry as a command on the store, and
`handleConfigChangeIfNeeded` and `replayConfigChanges` read it as a configuration change. Each reader gets exactly
what was written for it, and nothing from what was written for another; so the entries of the model, which are
the commands themselves, stand for their bytes.
-/
import Mimori.Base.JsonValue
import Mimori.Base.Strings
import Mimori.Cluster.Step

namespace Mimori

open Json Strings Decimal Raft

/-! ## Writers -/

/-- A `[]byte`; `none` is nil. -/
abbrev Slice := Option Bytes

def Slice.bytes (s : Slice) : Bytes := s.getD []

/-- The JSON text of a `[]byte`. -/
def sliceText : Slice → Bytes
  | none => nullText
  | some b => quote (Base64.encode b)

def cmdPut : Nat := 0
def cmdDelete : Nat := 1
def cmdConfigChange : Nat := 2

/-- `json.Marshal` of a `raftCommand`: an empty value is left out. -/
def marshalCommand (op : Nat) (key value : Slice) : Bytes :=
  if value.bytes = [] then structText [(utf8 "op", natText op), (utf8 "key", sliceText key)]
  else structText [(utf8 "op", natText op), (utf8 "key", sliceText key), (utf8 "value", sliceText value)]

def encodePutCmd (key val : Slice) : Bytes := marshalCommand cmdPut key val

def encodeDeleteCmd (key : Slice) : Bytes := marshalCommand cmdDelete key none

/-- The data of the entry that `proposeConfigChange` appends. -/
def configChangeData (changeType nodeID : Bytes) : Bytes :=
  structText [(utf8 "op", natText cmdConfigChange), (utf8 "type", quote changeType), (utf8 "node_id", quote nodeID)]

/-! ## Readers -/

/-- `raft.Command`, whose fields have no tags. -/
structure RaftCommand where
  op : Int := 0
  key : Slice := none
  value : Slice := none
  deriving DecidableEq

def commandFields : Fields RaftCommand :=
  [(utf8 "Op", intField fun c op => { c with op := op }),
    (utf8 "Key", bytesField fun c key => { c with key := key }),
    (utf8 "Value", bytesField fun c value => { c with value := value })]

/-- A call of the store. -/
inductive StoreCall
  | put (key value : Bytes)
  | delete (key : Bytes)
  deriving DecidableEq

/-- What the apply loop calls for the data of an entry. -/
def applyLoop (data : Bytes) : Option StoreCall :=
  match unmarshal commandFields {} data with
  | none => none
  | some cmd =>
    if cmd.op = cmdPut then some (.put cmd.key.bytes cmd.value.bytes)
    else if cmd.op = cmdDelete then some (.delete cmd.key.bytes)
    else none

/-- The struct into which the two readers of configuration changes decode an entry. -/
structure ConfigCommand where
  op : Int := 0
  type : Bytes := []
  nodeID : Bytes := []
  deriving DecidableEq

def configFields : Fields ConfigCommand :=
  [(utf8 "op", intField fun c op => { c with op := op }),
    (utf8 "type", stringField fun c type => { c with type := type }),
    (utf8 "node_id", stringField fun c nodeID => { c with nodeID := nodeID })]

/-- The type and node of the change that an entry is, if it is one. -/
def readConfigChange (data : Bytes) : Option (Bytes × Bytes) :=
  match unmarshal configFields {} data with
  | none => none
  | some cmd => if cmd.op = cmdConfigChange then some (cmd.type, cmd.nodeID) else none

def handleConfigChangeReads (data : Bytes) : Option (Bytes × Bytes) := readConfigChange data

def replayConfigChangesReads (data : Bytes) : Option (Bytes × Bytes) := readConfigChange data

/-! ## Decoding what was written -/

/-- The value that the text of a `[]byte` is read as. -/
def sliceValue : Slice → Value
  | none => .null
  | some b => .str (Base64.encode b)

theorem reads_sliceText (s : Slice) : Reads (sliceText s) (sliceValue s) := by
  cases s with
  | none => exact reads_null
  | some b =>
    have h := reads_quote (Base64.encode b)
    rwa [Utf8.coerce_ascii (Base64.encode_ascii b)] at h

theorem bytesField_slice {σ : Type} (set : σ → Slice → σ) (c : σ) (s : Slice) :
    bytesField set c (sliceValue s) = some (set c s) := by
  cases s with
  | none => rfl
  | some b => simp only [sliceValue, bytesField, Base64.decode_encode, Option.map_some]

theorem intField_natText {σ : Type} (set : σ → Int → σ) (c : σ) {n : Nat} (h : n < 2 ^ 63) :
    intField set c (.num (natText n)) = some (set c n) := by
  have hatoi : atoi (natText n) = ((n : Int), true) := by
    rw [← itoa_natCast]
    exact atoi_itoa ⟨by omega, by omega⟩
  simp only [intField, hatoi, if_true]

/-- The members of a command that was written: name, text and value. -/
def commandMembers (op : Nat) (key value : Slice) : List (Bytes × Bytes × Value) :=
  (utf8 "op", natText op, .num (natText op)) :: (utf8 "key", sliceText key, sliceValue key) ::
    if value.bytes = [] then [] else [(utf8 "value", sliceText value, sliceValue value)]

def configMembers (changeType nodeID : Bytes) : List (Bytes × Bytes × Value) :=
  [(utf8 "op", natText cmdConfigChange, .num (natText cmdConfigChange)),
    (utf8 "type", quote changeType, .str (Utf8.coerce changeType)),
    (utf8 "node_id", quote nodeID, .str (Utf8.coerce nodeID))]

theorem reads_commandMembers (op : Nat) (key value : Slice) : ∀ m ∈ commandMembers op key value, Reads m.2.1 m.2.2 := by
  rintro m hm
  rcases List.mem_cons.1 hm with rfl | hm
  · exact reads_natText op
  · rcases List.mem_cons.1 hm with rfl | hm
    · exact reads_sliceText key
    · split at hm
      · cases hm
      · rw [List.mem_singleton] at hm
        subst hm
        exact reads_sliceText value

theorem reads_configMembers (changeType nodeID : Bytes) : ∀ m ∈ configMembers changeType nodeID, Reads m.2.1 m.2.2 := by
  rintro m hm
  simp only [configMembers, List.mem_cons, List.not_mem_nil, or_false] at hm
  rcases hm with rfl | rfl | rfl
  · exact reads_natText cmdConfigChange
  · exact reads_quote _
  · exact reads_quote _

/-- Every reader of a command takes its members one after the other. -/
theorem unmarshal_command {σ : Type} (fields : Fields σ) (zero : σ) (op : Nat) (key value : Slice) :
    unmarshal fields zero (marshalCommand op key value) =
      ((commandMembers op key value).map fun m => (Utf8.coerce m.1, m.2.2)).foldlM fields.take zero := by
  have htext : marshalCommand op key value = structText ((commandMembers op key value).map fun m => (m.1, m.2.1)) := by
    unfold marshalCommand commandMembers
    split <;> rfl
  rw [htext]
  exact unmarshal_structText fields zero (List.cons_ne_nil _ _) (reads_commandMembers op key value)

theorem unmarshal_config {σ : Type} (fields : Fields σ) (zero : σ) (changeType nodeID : Bytes) :
    unmarshal fields zero (configChangeData changeType nodeID) =
      ((configMembers changeType nodeID).map fun m => (Utf8.coerce m.1, m.2.2)).foldlM fields.take zero :=
  unmarshal_structText fields zero (List.cons_ne_nil _ _) (reads_configMembers changeType nodeID)

/-- Where the members of the entries go in a `raft.Command`: the names of its fields differ in case only, and the two
names of a configuration change are none of them. -/
theorem commandFields_take (c : RaftCommand) (v : Value) :
    commandFields.take c (Utf8.coerce (utf8 "op"), v) = intField (fun c op => { c with op := op }) c v ∧
    commandFields.take c (Utf8.coerce (utf8 "key"), v) = bytesField (fun c key => { c with key := key }) c v ∧
    commandFields.take c (Utf8.coerce (utf8 "value"), v) = bytesField (fun c value => { c with value := value }) c v ∧
    commandFields.take c (Utf8.coerce (utf8 "type"), v) = some c ∧
    commandFields.take c (Utf8.coerce (utf8 "node_id"), v) = some c :=
  ⟨rfl, rfl, rfl, rfl, rfl⟩

theorem configFields_take (c : ConfigCommand) (v : Value) :
    configFields.take c (Utf8.coerce (utf8 "op"), v) = intField (fun c op => { c with op := op }) c v ∧
    configFields.take c (Utf8.coerce (utf8 "type"), v) = stringField (fun c type => { c with type := type }) c v ∧
    configFields.take c (Utf8.coerce (utf8 "node_id"), v) = stringField (fun c nodeID => { c with nodeID := nodeID }) c v ∧
    configFields.take c (Utf8.coerce (utf8 "key"), v) = some c ∧
    configFields.take c (Utf8.coerce (utf8 "value"), v) = some c :=
  ⟨rfl, rfl, rfl, rfl, rfl⟩

/-- A command is decoded to itself; an empty value comes back as nil. -/
theorem unmarshal_commandFields {op : Nat} (hop : op < 2 ^ 63) (key value : Slice) :
    unmarshal commandFields {} (marshalCommand op key value) =
      some ⟨op, key, if value.bytes = [] then none else value⟩ := by
  have htake := commandFields_take
  rw [unmarshal_command, commandMembers]
  by_cases hv : value.bytes = []
  · simp only [hv, if_true, List.map_cons, List.map_nil, List.foldlM_cons, List.foldlM_nil, (htake _ _).1, (htake _ _).2.1,
      intField_natText _ _ hop, bytesField_slice, Option.bind_eq_bind, Option.bind_some]
    rfl
  · simp only [hv, if_false, List.map_cons, List.map_nil, List.foldlM_cons, List.foldlM_nil, (htake _ _).1, (htake _ _).2.1,
      (htake _ _).2.2.1, intField_natText _ _ hop, bytesField_slice, Option.bind_eq_bind, Option.bind_some]
    rfl

/-- Of a command the readers of configuration changes get nothing but its number. -/
theorem unmarshal_configFields {op : Nat} (hop : op < 2 ^ 63) (key value : Slice) :
    unmarshal configFields {} (marshalCommand op key value) = some ⟨op, [], []⟩ := by
  have htake := configFields_take
  rw [unmarshal_command, commandMembers]
  by_cases hv : value.bytes = []
  · simp only [hv, if_true, List.map_cons, List.map_nil, List.foldlM_cons, List.foldlM_nil, (htake _ _).1,
      (htake _ _).2.2.2.1, intField_natText _ _ hop, Option.bind_eq_bind, Option.bind_some]
    rfl
  · simp only [hv, if_false, List.map_cons, List.map_nil, List.foldlM_cons, List.foldlM_nil, (htake _ _).1,
      (htake _ _).2.2.2.1, (htake _ _).2.2.2.2, intField_natText _ _ hop, Option.bind_eq_bind, Option.bind_some]
    rfl

/-- A configuration change is decoded to its type and its node, as valid UTF-8. -/
theorem unmarshal_configFields_config (changeType nodeID : Bytes) :
    unmarshal configFields {} (configChangeData changeType nodeID) =
      some ⟨cmdConfigChange, Utf8.coerce changeType, Utf8.coerce nodeID⟩ := by
  have htake := configFields_take
  rw [unmarshal_config, configMembers]
  simp only [List.map_cons, List.map_nil, List.foldlM_cons, List.foldlM_nil, (htake _ _).1, (htake _ _).2.1,
    (htake _ _).2.2.1, intField_natText _ _ (show cmdConfigChange < 2 ^ 63 by decide), stringField, Option.bind_eq_bind,
    Option.bind_some]
  rfl

/-- Of a configuration change the apply loop gets nothing but its number. -/
theorem unmarshal_commandFields_config (changeType nodeID : Bytes) :
    unmarshal commandFields {} (configChangeData changeType nodeID) = some ⟨cmdConfigChange, none, none⟩ := by
  have htake := commandFields_take
  rw [unmarshal_config, configMembers]
  simp only [List.map_cons, List.map_nil, List.foldlM_cons, List.foldlM_nil, (htake _ _).1, (htake _ _).2.2.2.1,
    (htake _ _).2.2.2.2, intField_natText _ _ (show cmdConfigChange < 2 ^ 63 by decide), Option.bind_eq_bind,
    Option.bind_some]
  rfl

/-! ## The readers -/

theorem bytes_of_nonempty (value : Slice) : Slice.bytes (if value.bytes = [] then none else value) = value.bytes := by
  split
  · rename_i h
    rw [h]; rfl
  · rfl

theorem applyLoop_put (key value : Slice) : applyLoop (encodePutCmd key value) = some (.put key.bytes value.bytes) := by
  simp only [applyLoop, encodePutCmd, unmarshal_commandFields (show cmdPut < 2 ^ 63 by decide), if_true, bytes_of_nonempty]

theorem applyLoop_delete (key : Slice) : applyLoop (encodeDeleteCmd key) = some (.delete key.bytes) := by
  simp only [applyLoop, encodeDeleteCmd, unmarshal_commandFields (show cmdDelete < 2 ^ 63 by decide)]
  rfl

theorem applyLoop_config (changeType nodeID : Bytes) : applyLoop (configChangeData changeType nodeID) = none := by
  simp only [applyLoop, unmarshal_commandFields_config]
  rfl

theorem readConfigChange_command {op : Nat} (hop : op < cmdConfigChange) (key value : Slice) :
    readConfigChange (marshalCommand op key value) = none := by
  have hlt : op < 2 ^ 63 := Nat.lt_trans hop (by decide)
  have hne : ¬ (op : Int) = cmdConfigChange := by omega
  simp only [readConfigChange, unmarshal_configFields hlt, if_neg hne]

theorem readConfigChange_config (changeType nodeID : Bytes) :
    readConfigChange (configChangeData changeType nodeID) = some (Utf8.coerce changeType, Utf8.coerce nodeID) := by
  simp only [readConfigChange, unmarshal_configFields_config, if_true]

/-- What is written for the store is read back by the apply loop and is no configuration change; what is written as a
configuration change is read back by both its readers and does nothing to the store. -/
theorem commands_read_back :
    (∀ key value : Slice, applyLoop (encodePutCmd key value) = some (.put key.bytes value.bytes) ∧
      handleConfigChangeReads (encodePutCmd key value) = none ∧ replayConfigChangesReads (encodePutCmd key value) = none) ∧
    (∀ key : Slice, applyLoop (encodeDeleteCmd key) = some (.delete key.bytes) ∧
      handleConfigChangeReads (encodeDeleteCmd key) = none ∧ replayConfigChangesReads (encodeDeleteCmd key) = none) ∧
    ∀ (changeType : ConfigChangeType) (nodeID : Bytes), Utf8.valid nodeID = true →
      handleConfigChangeReads (configChangeData (utf8 changeType.name) nodeID) = some (utf8 changeType.name, nodeID) ∧
      replayConfigChangesReads (configChangeData (utf8 changeType.name) nodeID) = some (utf8 changeType.name, nodeID) ∧
      applyLoop (configChangeData (utf8 changeType.name) nodeID) = none := by
  refine ⟨fun key value => ⟨applyLoop_put key value, ?_, ?_⟩, fun key => ⟨applyLoop_delete key, ?_, ?_⟩,
    fun changeType nodeID hid => ?_⟩
  · exact readConfigChange_command (by decide) key value
  · exact readConfigChange_command (by decide) key value
  · exact readConfigChange_command (by decide) key none
  · exact readConfigChange_command (by decide) key none
  · have hread := readConfigChange_config (utf8 changeType.name) nodeID
    rw [Utf8.coerce_of_valid (valid_utf8 _), Utf8.coerce_of_valid hid] at hread
    exact ⟨hread, hread, applyLoop_config _ _⟩

theorem commands_read_back_addNode :
    handleConfigChangeReads (configChangeData (utf8 "add") (utf8 "node-4:4000")) = some (utf8 "add", utf8 "node-4:4000") :=
  (commands_read_back.2.2 .addNode (utf8 "node-4:4000") (valid_utf8 _)).1

/-! ## The entries of the model -/

/-- The bytes of a command. -/
def Command.bytes : Command → Bytes
  | .put key value => encodePutCmd (some key) (some value)
  | .delete key => encodeDeleteCmd (some key)
  | .configChange type nodeID => configChangeData (utf8 type) (utf8 nodeID)
  | .other data => data

/-- The configuration change that a command is. -/
def Command.member : Command → Option (Bytes × Bytes)
  | .configChange type nodeID => some (utf8 type, utf8 nodeID)
  | _ => none

def Store.call (kv : Store) : Option StoreCall → Store
  | some (.put key value) => kv.put key value
  | some (.delete key) => kv.delete key
  | none => kv

/-- The store and the peers of the model take a command as the readers take its bytes. -/
theorem Command.bytes_read {c : Command} (h : ∀ data, c ≠ .other data) (kv : Store) :
    kv.apply c = kv.call (applyLoop c.bytes) ∧ handleConfigChangeReads c.bytes = c.member ∧
      replayConfigChangesReads c.bytes = c.member := by
  cases c with
  | put key value =>
    have hread : readConfigChange (encodePutCmd (some key) (some value)) = none := readConfigChange_command (by decide) _ _
    refine ⟨?_, hread, hread⟩
    rw [Command.bytes, applyLoop_put]
    rfl
  | delete key =>
    have hread : readConfigChange (encodeDeleteCmd (some key)) = none := readConfigChange_command (by decide) _ _
    refine ⟨?_, hread, hread⟩
    rw [Command.bytes, applyLoop_delete]
    rfl
  | configChange type nodeID =>
    have hread : readConfigChange (configChangeData (utf8 type) (utf8 nodeID)) = some (utf8 type, utf8 nodeID) := by
      rw [readConfigChange_config, Utf8.coerce_of_valid (valid_utf8 type), Utf8.coerce_of_valid (valid_utf8 nodeID)]
    refine ⟨?_, hread, hread⟩
    rw [Command.bytes, applyLoop_config]
    rfl
  | other data => exact absurd rfl (h data)

end Mimori
