/-
The store and its snapshots (`internal/storage/storage.go`). A snapshot is a JSON object with the keys of
the store as member names and the values in base64. Reading it the way `Restore` does gives the store
back when its keys are valid UTF-8. Any other key is lost: `encoding/json` puts U+FFFD in the place of
the bytes it cannot write, and keys that differ in these bytes only become one. `Restore` itself puts the map it
reads over what the store has: the range that `reset` deletes is empty.
-/
import Mimori.Apply.Store
import Mimori.Base.Base64
import Mimori.Base.JsonValue

namespace Mimori

/-! ## The store -/

/-- The pairs of a Pebble database: every key is there once. -/
structure PebbleKV where
  pairs : Store
  nodup : (pairs.map Prod.fst).Nodup

namespace PebbleKV

variable {m : Store} {data : Bytes} {io : RestoreIo}

def empty : PebbleKV := ⟨[], List.nodup_nil⟩

def put (kv : PebbleKV) (key value : Bytes) : PebbleKV := ⟨kv.pairs.put key value, Store.put_nodup kv.nodup key value⟩

def get (kv : PebbleKV) (key : Bytes) : Option Bytes := kv.pairs.get key

/-- A member of the JSON object. The copy of an empty value is a nil slice, which is written as null. -/
def marshalPair (p : Bytes × Bytes) : Bytes × Json.Scalar :=
  (p.1, if p.2 = [] then .null else .str (Base64.encode p.2))

/-- `json.Marshal` of a `map[string][]byte`, whose keys it sorts. -/
def marshal (m : Store) : Bytes := Json.objectText ((Store.sorted m).map marshalPair)

/-- `Snapshot`: the iterator's pairs are collected in a map, which is written as JSON. -/
def snapshot (kv : PebbleKV) : Bytes := marshal (Store.puts [] (Store.sorted kv.pairs))

/-- `json.Unmarshal` into a `[]byte`. -/
def unmarshalValue : Json.Scalar → Option Bytes
  | .null => some []
  | .str s => Base64.decode s

/-- The members of the object set in the map one after the other. -/
def unmarshalPairs : Store → List (Bytes × Json.Scalar) → Option Store
  | m, [] => some m
  | m, p :: ps => do
    let value ← unmarshalValue p.2
    unmarshalPairs (m.put p.1 value) ps

/-- `json.Unmarshal` into a `map[string][]byte`, as `Restore` calls it; null leaves the map empty. -/
def unmarshal (data : Bytes) : Option Store :=
  if data = Json.nullText then some []
  else (Json.readObject data).bind (unmarshalPairs [])

/-! ## Reading a snapshot -/

theorem unmarshalValue_marshal (p : Bytes × Bytes) : unmarshalValue (marshalPair p).2.coerced = some p.2 := by
  unfold marshalPair
  by_cases h : p.2 = []
  · rw [if_pos h, h]; rfl
  · rw [if_neg h]
    show Base64.decode (Utf8.coerce (Base64.encode p.2)) = some p.2
    rw [Utf8.coerce_ascii (Base64.encode_ascii p.2), Base64.decode_encode]

theorem unmarshalPairs_marshal (m l : Store) :
    unmarshalPairs m (l.map fun p => (Utf8.coerce p.1, (marshalPair p).2.coerced)) =
      some (m.puts (l.map fun p => (Utf8.coerce p.1, p.2))) := by
  induction l generalizing m with
  | nil => rfl
  | cons p l ih =>
    rw [List.map_cons, unmarshalPairs, unmarshalValue_marshal]
    exact ih (m.put (Utf8.coerce p.1) p.2)

/-- What `Restore` reads from a map that was written: its pairs in the order of their keys, each under
its key coerced to valid UTF-8. -/
theorem unmarshal_marshal (m : Store) :
    unmarshal (marshal m) = some (Store.puts [] ((Store.sorted m).map fun p => (Utf8.coerce p.1, p.2))) := by
  have hnull : ¬marshal m = Json.nullText := by
    intro h
    have hhead := congrArg List.head? h
    exact absurd (Option.some.inj hhead) (by decide)
  rw [unmarshal, if_neg hnull, marshal, Json.readObject_objectText, List.map_map]
  exact unmarshalPairs_marshal [] (Store.sorted m)

theorem unmarshal_snapshot (kv : PebbleKV) : unmarshal kv.snapshot = some kv.pairs.dumped := unmarshal_marshal _

/-- Every key is valid UTF-8. -/
def textKeys (kv : PebbleKV) : Bool := kv.pairs.textKeys

/-- What `Restore` reads from a snapshot is the store, if its keys are valid UTF-8: no key is changed, merged with
another or lost, and each has its value. -/
theorem snapshot_round_trip (kv : PebbleKV) (h : kv.textKeys = true) :
    ∃ m, unmarshal kv.snapshot = some m ∧ ∀ key, m.get key = kv.get key := by
  exact ⟨_, unmarshal_snapshot kv, Store.get_dumped kv.nodup h⟩

/-- A store with a key of two characters of several bytes, an empty key and an empty value. -/
def greetings : PebbleKV := ((empty.put [] [0xFF]).put [0xC3, 0xA9, 0xE2, 0x80, 0xA8] []).put [0x22] [1, 2, 3, 4]

theorem snapshot_round_trip_greetings : greetings.textKeys = true ∧
    ∃ m, unmarshal greetings.snapshot = some m ∧ ∀ key, m.get key = greetings.get key :=
  ⟨by decide, snapshot_round_trip greetings (by decide)⟩

/-- A key that is not valid UTF-8 is not in what `Restore` reads. -/
theorem invalid_key_lost (kv : PebbleKV) {key : Bytes} (h : Utf8.valid key = false) :
    ∃ m, unmarshal kv.snapshot = some m ∧ m.get key = none := by
  exact ⟨_, unmarshal_snapshot kv, Store.get_dumped_of_invalid kv.pairs h⟩

/-- Two keys that are no UTF-8. -/
def rawKeys : PebbleKV := (empty.put [0xFE] [1]).put [0xFF] [2]

/-- Both come back as U+FFFD, with the value of the greater one. -/
theorem snapshot_merges_keys : rawKeys.get [0xFE] = some [1] ∧ rawKeys.get [0xFF] = some [2] ∧
    unmarshal rawKeys.snapshot = some [([0xEF, 0xBF, 0xBD], [2])] := by
  refine ⟨by decide, by decide, by decide⟩

/-! ## Restoring -/

/-- `json.Unmarshal` of any JSON value into a `[]byte`. -/
def decodeValue : Json.Value → Option Bytes
  | .null => some []
  | .str s => Base64.decode s
  | .arr vs => vs.mapM Json.byteValue
  | _ => none

def decodePairs : Store → List (Bytes × Json.Value) → Option Store
  | m, [] => some m
  | m, p :: ps => do
    let value ← decodeValue p.2
    decodePairs (m.put p.1 value) ps

/-- `json.Unmarshal` of any JSON text into a `map[string][]byte`. -/
def decodeMap (data : Bytes) : Option Store :=
  match Json.parse data with
  | some .null => some []
  | some (.obj ms) => decodePairs [] ms
  | _ => none

/-- What the environment decides while `Restore` runs: which calls of Pebble work, and in which order `range` visits a
map. -/
structure RestoreIo where
  reset : Bool := true
  set : Bool := true
  commit : Bool := true
  visit : Store → Store := id
  perm : ∀ m, (visit m).Perm m := by exact fun m => .refl m

def reset (kv : PebbleKV) : PebbleKV := ⟨kv.pairs.reset, by rw [Store.reset_eq]; exact kv.nodup⟩

/-- The pairs of a batch set one after the other. -/
def commit (kv : PebbleKV) (batch : Store) : PebbleKV :=
  batch.foldl (fun kv p => kv.put p.1 p.2) kv

/-- `Restore`: the store after it, and whether it returned nil. -/
def restore (kv : PebbleKV) (data : Bytes) (io : RestoreIo) : PebbleKV × Bool :=
  if data = [] then
    if io.reset then (kv.reset, true) else (kv, false)
  else
    match decodeMap data with
    | none => (kv, false)
    | some snapshotMap =>
      if !io.reset then (kv, false)
      else if !io.set ∨ !io.commit then (kv.reset, false)
      else (kv.reset.commit (io.visit snapshotMap), true)

/-- The map that a payload stands for; the empty payload stands for the empty map. -/
def payloadMap (data : Bytes) : Option Store := if data = [] then some [] else decodeMap data

theorem decodePairs_scalars (m : Store) (ms : List (Bytes × Json.Scalar)) :
    decodePairs m (ms.map fun x => (x.1, x.2.value)) = unmarshalPairs m ms := by
  have hvalue : ∀ v : Json.Scalar, decodeValue v.value = unmarshalValue v := by
    intro v
    cases v <;> rfl
  induction ms generalizing m with
  | nil => rfl
  | cons x ms ih =>
    rw [List.map_cons, decodePairs, unmarshalPairs, hvalue]
    exact congrArg _ (funext fun value => ih (m.put x.1 value))

/-- The payload that the snapshotter of the cluster returns is what `Restore` makes of the bytes that `Snapshot` writes. -/
theorem payloadMap_snapshot (kv : PebbleKV) : payloadMap kv.snapshot = some kv.pairs.dumped := by
  have hne : ¬kv.snapshot = [] := List.cons_ne_nil _ _
  rw [payloadMap, if_neg hne, decodeMap, snapshot, marshal, Json.parse_objectText]
  have hread := unmarshalPairs_marshal [] (Store.sorted (Store.puts [] (Store.sorted kv.pairs)))
  rw [← decodePairs_scalars, List.map_map] at hread
  rw [List.map_map]
  exact hread

theorem commit_pairs (kv : PebbleKV) (batch : Store) : (kv.commit batch).pairs = kv.pairs.puts batch := by
  induction batch generalizing kv with
  | nil => rfl
  | cons p batch ih => exact ih (kv.put p.1 p.2)

theorem decodePairs_nodup (h : (m.map Prod.fst).Nodup) {ps : List (Bytes × Json.Value)} {m' : Store}
    (hd : decodePairs m ps = some m') : (m'.map Prod.fst).Nodup := by
  induction ps generalizing m with
  | nil =>
    cases hd
    exact h
  | cons p ps ih =>
    obtain ⟨value, -, hd⟩ := Option.bind_eq_some_iff.1 hd
    exact ih (Store.put_nodup h p.1 value) hd

theorem decodeMap_nodup (h : decodeMap data = some m) : (m.map Prod.fst).Nodup := by
  unfold decodeMap at h
  split at h
  · cases h
    exact List.nodup_nil
  · exact decodePairs_nodup (m := []) List.nodup_nil h
  · cases h

theorem reset_self (kv : PebbleKV) : kv.reset = kv := by
  cases kv
  simp only [reset, Store.reset_eq]

/-- A `Restore` that returns nil commits the pairs of the payload's map in some order. -/
theorem restore_nil (kv : PebbleKV) (hm : payloadMap data = some m) (hnil : (kv.restore data io).2 = true) :
    ∃ batch, batch.Perm m ∧ (kv.restore data io).1 = kv.commit batch := by
  unfold payloadMap at hm
  unfold restore at hnil ⊢
  rw [reset_self] at hnil ⊢
  by_cases hdata : data = []
  · rw [if_pos hdata] at hm hnil ⊢
    cases hm
    split at hnil
    · rename_i hreset
      rw [if_pos hreset]
      exact ⟨[], .refl _, rfl⟩
    · cases hnil
  · rw [if_neg hdata] at hm hnil ⊢
    simp only [hm] at hnil ⊢
    split at hnil
    · cases hnil
    · rename_i hreset
      split at hnil
      · cases hnil
      · rename_i hset
        rw [if_neg hreset, if_neg hset]
        exact ⟨_, io.perm m, rfl⟩

theorem payloadMap_nodup (h : payloadMap data = some m) : (m.map Prod.fst).Nodup := by
  unfold payloadMap at h
  split at h
  · cases h
    exact List.nodup_nil
  · exact decodeMap_nodup h

/-- It puts the payload's map over the old content. -/
theorem restore_get (kv : PebbleKV) (hm : payloadMap data = some m) (hnil : (kv.restore data io).2 = true)
    (key : Bytes) : (kv.restore data io).1.get key = (m.get key).or (kv.get key) := by
  obtain ⟨batch, hperm, hrest⟩ := restore_nil kv hm hnil
  -- the order does not matter, since the keys are distinct
  have hn : (batch.map Prod.fst).Nodup := (hperm.map _).nodup_iff.2 (payloadMap_nodup hm)
  have hrev : Store.get batch.reverse key = m.get key := by
    rw [← Store.get_perm batch.reverse_perm.symm hn, Store.get_perm hperm hn]
  rw [hrest, get, commit_pairs, Store.get_puts, hrev]
  rfl

/-- The restorer of the cluster does to the keys what `Restore` does. -/
theorem restore_app (kv : PebbleKV) {a : App} (ha : a.store = kv.pairs) (hm : payloadMap data = some m)
    (hnil : (kv.restore data io).2 = true) (key : Bytes) :
    (a.restore (some (.state m)) true).store.get key = (kv.restore data io).1.get key := by
  rw [restore_get kv hm hnil]
  show (a.store.reset.puts m).get key = _
  rw [Store.reset_eq, Store.get_puts, ← Store.get_perm m.reverse_perm.symm (payloadMap_nodup hm), ha]
  rfl

/-- If every key of the store is in the payload's map, a `Restore` that returns nil leaves exactly the map. -/
theorem restore_replaces (kv : PebbleKV) {data : Bytes} {io : RestoreIo} {m : Store} (hm : payloadMap data = some m)
    (hnil : (kv.restore data io).2 = true) (hold : ∀ key, (kv.get key).isSome = true → (m.get key).isSome = true) :
    ∀ key, (kv.restore data io).1.get key = m.get key := by
  intro key
  rw [restore_get kv hm hnil]
  rcases hget : m.get key with _ | value
  · rcases hkv : kv.get key with _ | old
    · rfl
    · have := hold key (by rw [hkv]; rfl)
      rw [hget] at this
      cases this
  · rfl

/-- The bytes `{"a":"Ag=="}`. -/
def payloadA : Bytes := [0x7B, 0x22, 0x61, 0x22, 0x3A, 0x22, 0x41, 0x67, 0x3D, 0x3D, 0x22, 0x7D]

theorem restore_replaces_payloadA : payloadMap payloadA = some [([0x61], [2])] ∧
    ((empty.put [0x61] [1]).restore payloadA {}).1.get [0x61] = some [2] := by
  have hm : payloadMap payloadA = some [([0x61], [2])] := by decide +kernel
  refine ⟨hm, restore_replaces (empty.put [0x61] [1]) hm (by decide +kernel) (fun key hkey => ?_) [0x61]⟩
  by_cases h : key = [0x61]
  · rw [h]; rfl
  · rw [get, put, Store.get_put, if_neg (Ne.symm h)] at hkey
    cases hkey

/-- Keys that are not in the payload stay, and with an empty payload all do. -/
theorem restore_keeps_old_keys :
    payloadMap [0x7B, 0x7D] = some [] ∧ ((empty.put [0x62] [1]).restore [0x7B, 0x7D] {}).2 = true ∧
      ((empty.put [0x62] [1]).restore [0x7B, 0x7D] {}).1.get [0x62] = some [1] ∧
      payloadMap [] = some [] ∧ ((empty.put [0x62] [1]).restore [] {}).2 = true ∧
      ((empty.put [0x62] [1]).restore [] {}).1.get [0x62] = some [1] := by
  decide +kernel

end PebbleKV

end Mimori
