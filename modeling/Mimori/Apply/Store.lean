/-
The apply loop of `cmd/mimorid/main.go` as a fold over the entries it receives. The fold leaves the
entries' own last writes in front of what they do not write, so a part of the log that is executed
twice in a row is as good as executed once. That is what a restart relies on: `New` starts over at the
snapshot index while the durable store holds more.
-/
import Mimori.Cluster.Step
import Mathlib.Data.List.Infix

namespace Mimori

/-- The value a write leaves under its key; a deleted key has none. -/
def Command.value : Command → Option Bytes
  | .put _ v => some v
  | _ => none

/-- The command writes the key. -/
def Command.writes (key : Bytes) : Command → Bool
  | .put k _ => k == key
  | .delete k => k == key
  | _ => false

namespace Store

/-! ## Stores as maps -/

theorem get_cons (p : Bytes × Bytes) (kv : Store) (key : Bytes) :
    get (p :: kv) key = if p.1 = key then some p.2 else kv.get key := by
  by_cases h : p.1 = key <;> simp [get, h]

theorem get_eq_none {kv : Store} {key : Bytes} (h : ∀ p ∈ kv, p.1 ≠ key) : kv.get key = none := by
  have hf : kv.find? (fun p => p.1 == key) = none :=
    List.find?_eq_none.2 fun p hp => by rw [beq_iff_eq]; exact h p hp
  rw [get, hf]; rfl

theorem get_eq_some_iff {kv : Store} (hn : (kv.map Prod.fst).Nodup) {key value : Bytes} :
    kv.get key = some value ↔ (key, value) ∈ kv := by
  induction kv with
  | nil => simp [get]
  | cons p kv ih =>
    rw [List.map_cons, List.nodup_cons] at hn
    rw [get_cons, List.mem_cons]
    by_cases hk : p.1 = key
    · rw [if_pos hk]
      constructor
      · intro h
        exact .inl (by rw [← hk, ← Option.some.inj h])
      · rintro (rfl | h)
        · rfl
        · exact absurd (List.mem_map_of_mem h) (hk ▸ hn.1)
    · rw [if_neg hk, ih hn.2]
      constructor
      · exact .inr
      · rintro (rfl | h)
        · exact absurd rfl hk
        · exact h

theorem get_perm {kv kv' : Store} (h : kv.Perm kv') (hn : (kv.map Prod.fst).Nodup) (key : Bytes) :
    kv.get key = kv'.get key := by
  refine Option.ext fun value => ?_
  rw [get_eq_some_iff hn, get_eq_some_iff ((h.map _).nodup_iff.1 hn), h.mem_iff]

theorem get_put (kv : Store) (key value key' : Bytes) :
    (kv.put key value).get key' = if key = key' then some value else kv.get key' := by
  rw [put, get_cons]
  by_cases h : key = key'
  · rw [if_pos h, if_pos h]
  · rw [if_neg h, if_neg h, get, get, List.find?_filter]
    congr 2
    funext p
    by_cases hp : p.1 = key'
    · simp [hp, Ne.symm h]
    · simp [hp]

theorem get_delete (kv : Store) (key key' : Bytes) :
    (kv.delete key).get key' = if key = key' then none else kv.get key' := by
  by_cases h : key = key'
  · rw [if_pos h]
    refine get_eq_none fun p hp => ?_
    have := (List.mem_filter.1 hp).2
    simpa [h] using this
  · rw [if_neg h, delete, get, get, List.find?_filter]
    congr 2
    funext p
    by_cases hp : p.1 = key'
    · simp [hp, Ne.symm h]
    · simp [hp]

theorem put_nodup {kv : Store} (h : (kv.map Prod.fst).Nodup) (key value : Bytes) :
    ((kv.put key value).map Prod.fst).Nodup := by
  rw [put, List.map_cons, List.nodup_cons]
  constructor
  · intro hm
    obtain ⟨p, hp, hk⟩ := List.mem_map.1 hm
    have := (List.mem_filter.1 hp).2
    simp [hk] at this
  · exact h.sublist (List.filter_sublist.map _)

theorem get_puts (kv l : Store) (key : Bytes) : (kv.puts l).get key = (get l.reverse key).or (kv.get key) := by
  induction l using List.reverseRecOn with
  | nil => rfl
  | append_singleton l p ih =>
    rw [puts, List.foldl_append, List.reverse_append, List.reverse_singleton, List.singleton_append, get_cons]
    show ((kv.puts l).put p.1 p.2).get key = _
    rw [get_put, ih]
    by_cases h : p.1 = key
    · rw [if_pos h, if_pos h]; rfl
    · rw [if_neg h, if_neg h]

theorem get_puts_of_nodup {l : Store} (hn : (l.map Prod.fst).Nodup) (key : Bytes) : (puts [] l).get key = l.get key := by
  rw [get_puts, ← get_perm l.reverse_perm.symm hn]
  exact Option.or_none

@[simp] theorem reset_eq (kv : Store) : kv.reset = kv := by
  unfold reset deleteRange
  rw [List.filter_eq_self]
  intro p _
  simp

theorem delete_nodup {kv : Store} (h : (kv.map Prod.fst).Nodup) (key : Bytes) :
    ((kv.delete key).map Prod.fst).Nodup := h.sublist (List.filter_sublist.map _)

theorem apply_nodup {kv : Store} (h : (kv.map Prod.fst).Nodup) (cmd : Command) : ((kv.apply cmd).map Prod.fst).Nodup := by
  cases cmd with
  | put k v => exact put_nodup h k v
  | delete k => exact delete_nodup h k
  | configChange => exact h
  | other => exact h

theorem puts_nodup {kv : Store} (h : (kv.map Prod.fst).Nodup) (l : Store) : ((kv.puts l).map Prod.fst).Nodup := by
  induction l using List.reverseRecOn with
  | nil => exact h
  | append_singleton l p ih =>
    rw [puts, List.foldl_append]
    exact put_nodup ih p.1 p.2

/-! ## Snapshots of a store -/

theorem sorted_perm (kv : Store) : (sorted kv).Perm kv := List.perm_insertionSort _ kv

theorem sorted_nodup {kv : Store} (h : (kv.map Prod.fst).Nodup) : ((sorted kv).map Prod.fst).Nodup :=
  ((sorted_perm kv).map Prod.fst).nodup_iff.2 h

theorem get_collected {kv : Store} (h : (kv.map Prod.fst).Nodup) (key : Bytes) :
    (puts [] (sorted kv)).get key = kv.get key := by
  rw [get_puts_of_nodup (sorted_nodup h), get_perm (sorted_perm kv) (sorted_nodup h)]

theorem mem_collected {kv : Store} (hn : (kv.map Prod.fst).Nodup) {p : Bytes × Bytes} (h : p ∈ puts [] (sorted kv)) :
    p ∈ kv := by
  rw [← get_eq_some_iff (@puts_nodup [] List.nodup_nil _), get_collected hn] at h
  exact (get_eq_some_iff hn).1 h

theorem dumped_nodup (kv : Store) : (kv.dumped.map Prod.fst).Nodup := @puts_nodup [] List.nodup_nil _

/-- Every key is valid UTF-8. -/
def textKeys (kv : Store) : Bool := kv.all fun p => Utf8.valid p.1

/-- Keys that are valid UTF-8 come back as they are. -/
theorem get_dumped {kv : Store} (hn : (kv.map Prod.fst).Nodup) (ht : kv.textKeys = true) (key : Bytes) :
    kv.dumped.get key = kv.get key := by
  have hmem : ∀ p ∈ sorted (puts [] (sorted kv)), Utf8.coerce p.1 = p.1 := by
    intro p hp
    exact Utf8.coerce_of_valid (List.all_eq_true.1 ht p (mem_collected hn ((sorted_perm _).mem_iff.1 hp)))
  have hsame : (sorted (puts [] (sorted kv))).map (fun p => (Utf8.coerce p.1, p.2)) = sorted (puts [] (sorted kv)) := by
    rw [List.map_congr_left (g := id) fun p hp => by rw [hmem p hp]; rfl, List.map_id]
  have hcoll := sorted_nodup (@puts_nodup [] List.nodup_nil (sorted kv))
  rw [dumped, hsame, get_puts_of_nodup hcoll, get_perm (sorted_perm _) hcoll, get_collected hn]

/-- A key that is not valid UTF-8 is not in a snapshot. -/
theorem get_dumped_of_invalid (kv : Store) {key : Bytes} (h : Utf8.valid key = false) : kv.dumped.get key = none := by
  rw [dumped, get_puts]
  refine Option.or_eq_none_iff.2 ⟨get_eq_none fun p hp hk => ?_, rfl⟩
  rw [List.mem_reverse] at hp
  obtain ⟨q, _, rfl⟩ := List.mem_map.1 hp
  have hv : Utf8.valid key = true := hk ▸ Utf8.valid_coerce q.1
  rw [h] at hv
  cases hv

/-! ## The apply loop -/

/-- The apply loop over a list of entries. -/
def replay (kv : Store) (log : List LogEntry) : Store := log.foldl (fun kv e => kv.apply e.data) kv

/-- Some entry of the list writes the key. -/
def written (log : List LogEntry) (key : Bytes) : Bool := log.any fun e => e.data.writes key

@[simp] theorem replay_nil (kv : Store) : replay kv [] = kv := rfl

@[simp] theorem replay_append (kv : Store) (l l' : List LogEntry) : replay kv (l ++ l') = (kv.replay l).replay l' :=
  List.foldl_append ..

theorem replay_concat (kv : Store) (l : List LogEntry) (e : LogEntry) :
    replay kv (l ++ [e]) = (kv.replay l).apply e.data := by simp [replay]

@[simp] theorem written_append (l l' : List LogEntry) (key : Bytes) :
    written (l ++ l') key = (written l key || written l' key) := by simp [written]

/-- One command drops the pairs of the key it writes and puts its own pair, if any, in front. -/
theorem apply_append (kv kv' : Store) (cmd : Command) :
    apply (kv ++ kv') cmd = kv.apply cmd ++ kv'.filter fun p => !cmd.writes p.1 := by
  cases cmd with
  | put k v => simp [apply, put, Command.writes, bne, Bool.beq_comm]
  | delete k => simp [apply, delete, Command.writes, bne, Bool.beq_comm]
  | configChange => simp [apply, Command.writes]
  | other => simp [apply, Command.writes]

/-- What the apply loop leaves: the entries' own pairs, and what it found of the keys they do not write. -/
theorem replay_eq (l : List LogEntry) (kv : Store) :
    kv.replay l = replay [] l ++ kv.filter fun p => !written l p.1 := by
  induction l using List.reverseRecOn generalizing kv with
  | nil => simp [written]
  | append_singleton l e ih =>
    rw [replay_concat, ih, apply_append, ← replay_concat, List.filter_filter]
    simp [written, Bool.and_comm]

theorem written_of_mem_replay {l : List LogEntry} {p : Bytes × Bytes} (h : p ∈ replay [] l) :
    written l p.1 = true := by
  induction l using List.reverseRecOn with
  | nil => cases h
  | append_singleton l e ih =>
    rw [replay_concat] at h
    rw [written_append, Bool.or_eq_true]
    have hold : p ∈ replay [] l → written l p.1 = true ∨ written [e] p.1 = true := fun hm => .inl (ih hm)
    cases hcmd : e.data with
    | put k v =>
      simp only [hcmd, apply, put, List.mem_cons, List.mem_filter] at h
      rcases h with rfl | ⟨hm, _⟩
      · right; simp [written, hcmd, Command.writes]
      · exact hold hm
    | delete k =>
      simp only [hcmd, apply, delete, List.mem_filter] at h
      exact hold h.1
    | configChange => rw [hcmd] at h; exact hold h
    | other => rw [hcmd] at h; exact hold h

theorem replay_twice (kv : Store) (l : List LogEntry) : (kv.replay l).replay l = kv.replay l := by
  have hown : (replay [] l).filter (fun p => !written l p.1) = [] := by
    rw [List.filter_eq_nil_iff]
    intro p hp
    simp [written_of_mem_replay hp]
  rw [replay_eq l (kv.replay l), replay_eq l kv, List.filter_append, hown, List.filter_filter]
  simp

theorem get_replay {kv : Store} {l : List LogEntry} {key : Bytes} (h : written l key = false) :
    (kv.replay l).get key = kv.get key := by
  have hown : (replay [] l).find? (fun p => p.1 == key) = none := by
    rw [List.find?_eq_none]
    intro p hp hkey
    have hw := written_of_mem_replay hp
    rw [beq_iff_eq.1 hkey, h] at hw
    cases hw
  unfold get
  rw [replay_eq, List.find?_append, hown, Option.none_or, List.find?_filter]
  congr 2
  funext p
  by_cases hkey : p.1 = key
  · simp [hkey, h]
  · simp [hkey]

theorem get_apply {cmd : Command} {key : Bytes} (kv : Store) (h : cmd.writes key = true) :
    (kv.apply cmd).get key = cmd.value := by
  cases cmd with
  | put k v =>
    obtain rfl : k = key := by simpa [Command.writes] using h
    simp [apply, put, get, Command.value]
  | delete k =>
    obtain rfl : k = key := by simpa [Command.writes] using h
    simp [apply, delete, get, Command.value]
  | configChange => cases h
  | other => cases h

/-! ## Stores that hold the same -/

/-- The store holds, key by key, what executing the entries makes. -/
structure Holds (kv : Store) (log : List LogEntry) : Prop where
  nodup : (kv.map Prod.fst).Nodup
  value : ∀ key, kv.get key = (replay [] log).get key

theorem Holds.nil : Holds [] [] := ⟨List.nodup_nil, fun _ => rfl⟩

theorem Holds.replay (log : List LogEntry) : Holds (replay [] log) log := by
  refine ⟨?_, fun _ => rfl⟩
  induction log using List.reverseRecOn with
  | nil => exact List.nodup_nil
  | append_singleton log e ih =>
    rw [replay_concat]
    exact apply_nodup ih e.data

theorem Holds.concat {kv : Store} {log : List LogEntry} (h : Holds kv log) (e : LogEntry) :
    Holds (kv.apply e.data) (log ++ [e]) := by
  refine ⟨apply_nodup h.nodup _, fun key => ?_⟩
  rw [replay_concat]
  cases hw : e.data.writes key with
  | true => rw [get_apply _ hw, get_apply _ hw]
  | false =>
    have hkeep : ∀ m : Store, (m.apply e.data).get key = m.get key := fun m =>
      @get_replay m [e] key (by simp [written, hw])
    rw [hkeep, hkeep, h.value]

/-- A snapshot of a store whose keys are valid UTF-8 holds what the store holds. -/
theorem Holds.dumped {kv : Store} {log : List LogEntry} (h : Holds kv log) (ht : kv.textKeys = true) :
    Holds kv.dumped log := by
  refine ⟨dumped_nodup kv, fun key => ?_⟩
  rw [get_dumped h.nodup ht, h.value]

/-- `Restore` over a store leaves what the snapshot holds when the snapshot has every key of the store. -/
theorem get_restored {kv m : Store} (hm : (m.map Prod.fst).Nodup) (hall : ∀ p ∈ kv, (m.get p.1).isSome = true)
    (key : Bytes) : (kv.reset.puts m).get key = m.get key := by
  rw [reset_eq, get_puts, ← get_perm m.reverse_perm.symm hm]
  cases hm : m.get key with
  | some v => rfl
  | none =>
    rw [Option.none_or]
    refine get_eq_none fun p hp hkey => ?_
    have hsome := hall p hp
    rw [hkey, hm] at hsome
    cases hsome

/-! ## Stores that are behind themselves -/

/-- The store holds, key by key, what executing some number of entries of `p` makes, from `j` to `k`: it has executed `k`
of them once, and is at the `j`-th again. -/
structure Between (kv : Store) (p : List LogEntry) (j k : Nat) : Prop where
  nodup : (kv.map Prod.fst).Nodup
  value : ∀ key, ∃ i, j ≤ i ∧ i ≤ k ∧ kv.get key = (replay [] (p.take i)).get key

section Between

variable {kv m : Store} {p q : List LogEntry} {j j' k : Nat}

theorem between_iff : Between kv p k k ↔ Holds kv (p.take k) := by
  constructor
  · intro h
    refine ⟨h.nodup, fun key => ?_⟩
    obtain ⟨i, hj, hk, hv⟩ := h.value key
    obtain rfl : i = k := Nat.le_antisymm hk hj
    exact hv
  · intro h
    exact ⟨h.nodup, fun key => ⟨k, le_refl k, le_refl k, h.value key⟩⟩

theorem Between.back (h : Between kv p j k) (hj : j' ≤ j) : Between kv p j' k := by
  refine ⟨h.nodup, fun key => ?_⟩
  obtain ⟨i, hji, hik, hv⟩ := h.value key
  exact ⟨i, hj.trans hji, hik, hv⟩

/-- Executing an entry once more brings its key, and with it the store, at least to where it stands. -/
theorem Between.apply (h : Between kv p j k) (hjk : j < k) {e : LogEntry} (he : p[j]? = some e) :
    Between (kv.apply e.data) p (j + 1) k := by
  have hnext : replay [] (p.take (j + 1)) = (replay [] (p.take j)).apply e.data := by
    rw [List.take_add_one, he, ← replay_concat]
    rfl
  refine ⟨apply_nodup h.nodup _, fun key => ?_⟩
  cases hw : e.data.writes key with
  | true => exact ⟨j + 1, le_refl _, hjk, by rw [hnext, get_apply _ hw, get_apply _ hw]⟩
  | false =>
    have hkeep : ∀ m : Store, (m.apply e.data).get key = m.get key := fun m =>
      @get_replay m [e] key (by simp [written, hw])
    obtain ⟨i, hji, hik, hv⟩ := h.value key
    rcases Nat.lt_or_eq_of_le hji with hlt | rfl
    · exact ⟨i, hlt, hik, (hkeep kv).trans hv⟩
    · exact ⟨j + 1, le_refl _, hjk, by rw [hnext, hkeep, hkeep]; exact hv⟩

theorem Between.dumped (h : Between kv p j k) (ht : kv.textKeys = true) : Between kv.dumped p j k := by
  refine ⟨dumped_nodup kv, fun key => ?_⟩
  rw [get_dumped h.nodup ht]
  exact h.value key

theorem Between.restored (h : Between m p j k) (hkv : (kv.map Prod.fst).Nodup)
    (hall : ∀ x ∈ kv, (m.get x.1).isSome = true) : Between (kv.reset.puts m) p j k := by
  refine ⟨by rw [reset_eq]; exact puts_nodup hkv m, fun key => ?_⟩
  rw [get_restored h.nodup hall]
  exact h.value key

end Between

/-- Replay after a restart: the store holds the first `k` entries of a log, the node takes the entries
after position `b ≤ k` of a log that goes on from there, and the store ends as if it had executed that
log once. -/
theorem replay_converges (L L' : List LogEntry) {b k : Nat} (hb : b ≤ k) (hk : k ≤ L.length)
    (hp : L.take k <+: L') : (replay [] (L.take k)).replay (L'.drop b) = replay [] L' := by
  obtain ⟨rest, rfl⟩ := hp
  have hlen : b ≤ (L.take k).length := by rw [List.length_take]; omega
  have hagain : (replay [] (L.take k)).replay ((L.take k).drop b) = replay [] (L.take k) := by
    conv_lhs => rw [← List.take_append_drop b (L.take k), replay_append]
    rw [List.take_append_drop, replay_twice, ← replay_append, List.take_append_drop]
  rw [List.drop_append_of_le_length hlen, replay_append, hagain, replay_append]

/-- A key written, deleted and written again: the second write is in the store already when the entries
are executed again from the first position on. -/
theorem replay_converges_rewritten :
    (replay [] ([⟨1, 1, .put [1] [2]⟩, ⟨2, 1, .delete [1]⟩, ⟨3, 2, .put [1] [3]⟩].take 3)).replay
        ([⟨1, 1, .put [1] [2]⟩, ⟨2, 1, .delete [1]⟩, ⟨3, 2, .put [1] [3]⟩, ⟨4, 2, .put [4] [5]⟩].drop 1) =
      [([4], [5]), ([1], [3])] :=
  replay_converges [⟨1, 1, .put [1] [2]⟩, ⟨2, 1, .delete [1]⟩, ⟨3, 2, .put [1] [3]⟩]
    [⟨1, 1, .put [1] [2]⟩, ⟨2, 1, .delete [1]⟩, ⟨3, 2, .put [1] [3]⟩, ⟨4, 2, .put [4] [5]⟩] (by decide) (by decide)
    (by decide)

end Store

end Mimori
