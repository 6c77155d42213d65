/-
The peer table: the list of peers and the maps `nextIndex` and `matchIndex` beside it. Configuration entries change
the three together and `becomeLeaderLocked` writes the maps for the list, so they agree as long as nobody writes an
index for a node that is no peer. `sendSnapshotToFollower` does, when its peer was removed during the call, and
`AddNode` takes the empty name for a node.
-/
import Mimori.Storage.Roster

namespace Mimori

open Raft

/-- The command adds a node without a name. -/
def Command.addsEmpty : Command → Bool
  | .configChange type nodeID => type == "add" && nodeID == ""
  | _ => false

namespace Raft

variable {peers : List NodeID} {r r' : Raft}

/-! ## The list -/

/-- A list of peers of node `n`: nobody twice, not the node itself, nobody without a name. -/
def Listed (n : NodeID) (peers : List NodeID) : Prop := peers.Nodup ∧ n ∉ peers ∧ "" ∉ peers

instance (n : NodeID) (peers : List NodeID) : Decidable (Listed n peers) := inferInstanceAs (Decidable (_ ∧ _))

theorem Listed.configured {n : NodeID} {e : LogEntry} (h : Listed n peers) (he : e.data.addsEmpty = false) :
    Listed n (configured n peers e) := by
  obtain ⟨hnodup, hself, hempty⟩ := h
  unfold Raft.configured
  split
  · rename_i type nodeID hdata
    rw [hdata] at he
    split
    · split
      · exact ⟨hnodup, hself, hempty⟩
      · exact ⟨List.nodup_nil, by simp, by simp⟩
    · rename_i hid
      split
      · rename_i hadd
        split
        · exact ⟨hnodup, hself, hempty⟩
        · rename_i hnew
          have hname : nodeID ≠ "" := by simpa [Command.addsEmpty, hadd] using he
          refine ⟨?_, ?_, ?_⟩
          · rw [List.nodup_append]
            refine ⟨hnodup, by simp, fun p hp q hq heq => hnew ?_⟩
            rw [← List.mem_singleton.1 hq, ← heq]
            exact List.contains_iff_mem.2 hp
          · simp [hself, Ne.symm hid]
          · simp [hempty, Ne.symm hname]
      · exact ⟨hnodup.filter _, fun hm => hself (List.mem_filter.1 hm).1, fun hm => hempty (List.mem_filter.1 hm).1⟩
  · exact ⟨hnodup, hself, hempty⟩

/-! ## The maps -/

theorem setAll_isSome {m : IndexMap} {qs : List NodeID} {x : Int} {p : NodeID} :
    (m.setAll qs x p).isSome = true ↔ p ∈ qs ∨ (m p).isSome = true := by
  unfold IndexMap.setAll
  by_cases h : p ∈ qs <;> simp [h]

/-- No index without a peer. -/
structure Within (r : Raft) : Prop where
  next : ∀ p, (r.nextIndex p).isSome = true → p ∈ r.peers
  matched : ∀ p, (r.matchIndex p).isSome = true → p ∈ r.peers

/-- No peer without its indices. -/
structure Tracked (r : Raft) : Prop where
  next : ∀ p ∈ r.peers, (r.nextIndex p).isSome = true
  matched : ∀ p ∈ r.peers, (r.matchIndex p).isSome = true

/-- Indices are written for nodes of the list `peers`. -/
def Grows (peers : List NodeID) (m m' : IndexMap) : Prop :=
  ∀ p, ((m p).isSome = true → (m' p).isSome = true) ∧ ((m' p).isSome = true → (m p).isSome = true ∨ p ∈ peers)

theorem Grows.refl (peers : List NodeID) (m : IndexMap) : Grows peers m m := fun _ => ⟨fun hs => hs, .inl⟩

theorem Grows.of_eq {m m' : IndexMap} (h : m' = m) : Grows peers m m' := by
  rw [h]
  exact .refl peers m

theorem Grows.setAll {qs : List NodeID} (h : ∀ q ∈ qs, q ∈ peers) (m : IndexMap) (x : Int) :
    Grows peers m (m.setAll qs x) := by
  intro p
  rw [setAll_isSome]
  refine ⟨.inr, ?_⟩
  rintro (hp | hp)
  · exact .inr (h p hp)
  · exact .inl hp

theorem Within.grows (h : Within r) (hp : r'.peers = r.peers) (hn : Grows r.peers r.nextIndex r'.nextIndex)
    (hm : Grows r.peers r.matchIndex r'.matchIndex) : Within r' := by
  constructor
  · intro p hs
    rw [hp]
    exact ((hn p).2 hs).elim (h.next p) fun hp => hp
  · intro p hs
    rw [hp]
    exact ((hm p).2 hs).elim (h.matched p) fun hp => hp

theorem Tracked.grows (h : Tracked r) (hp : r'.peers = r.peers) (hn : Grows r.peers r.nextIndex r'.nextIndex)
    (hm : Grows r.peers r.matchIndex r'.matchIndex) : Tracked r' := by
  constructor
  · intro p hmem
    rw [hp] at hmem
    exact (hn p).1 (h.next p hmem)
  · intro p hmem
    rw [hp] at hmem
    exact (hm p).1 (h.matched p hmem)

theorem Within.saveMeta (h : Within r) (ok : Bool) : Within (r.saveMeta ok) :=
  h.grows (saveMeta_peers r ok) (.of_eq (saveMeta_progress r ok).next) (.of_eq (saveMeta_progress r ok).matched)

theorem Tracked.saveMeta (h : Tracked r) (ok : Bool) : Tracked (r.saveMeta ok) :=
  h.grows (saveMeta_peers r ok) (.of_eq (saveMeta_progress r ok).next) (.of_eq (saveMeta_progress r ok).matched)

/-! ## Configuration entries -/

theorem Within.handleConfigChange (h : Within r) (e : LogEntry) (io : Io) :
    Within (r.handleConfigChangeIfNeeded e io) := by
  rcases handleConfigChangeIfNeeded_outcome r e io with heq | ⟨isAdd, nodeID, ho⟩
  · rw [heq]
    exact h
  · have hadd : ∀ {m : IndexMap} {x : Int}, (∀ p, (m p).isSome = true → p ∈ r.peers) →
        ∀ p, (m.setAll [nodeID] x p).isSome = true → p ∈ r.peers ++ [nodeID] := by
      intro m x hm p hs
      rcases setAll_isSome.1 hs with hp | hp
      · exact List.mem_append_right _ hp
      · exact List.mem_append_left _ (hm p hp)
    have hdrop : ∀ {m : IndexMap}, (∀ p, (m p).isSome = true → p ∈ r.peers) →
        ∀ p, (if p = nodeID then none else m p).isSome = true → p ∈ r.peers.filter (· ≠ nodeID) := by
      intro m hm p hs
      split at hs
      · cases hs
      · rename_i hne
        exact List.mem_filter.2 ⟨hm p hs, by simpa using hne⟩
    generalize r.handleConfigChangeIfNeeded e io = out at ho ⊢
    cases ho with
    | self => exact h
    | leaves => exact Within.saveMeta ⟨fun p hs => (by cases hs), fun p hs => (by cases hs)⟩ _
    | known => exact h.saveMeta _
    | added => exact Within.saveMeta ⟨hadd h.next, hadd h.matched⟩ _
    | dropped => exact Within.saveMeta ⟨hdrop h.next, hdrop h.matched⟩ _

theorem Tracked.handleConfigChange (h : Tracked r) (e : LogEntry) (io : Io) :
    Tracked (r.handleConfigChangeIfNeeded e io) := by
  rcases handleConfigChangeIfNeeded_outcome r e io with heq | ⟨isAdd, nodeID, ho⟩
  · rw [heq]
    exact h
  · have hadd : ∀ {m : IndexMap} {x : Int}, (∀ p ∈ r.peers, (m p).isSome = true) →
        ∀ p ∈ r.peers ++ [nodeID], (m.setAll [nodeID] x p).isSome = true := by
      intro m x hm p hp
      rw [setAll_isSome]
      rcases List.mem_append.1 hp with hp | hp
      · exact .inr (hm p hp)
      · exact .inl hp
    have hdrop : ∀ {m : IndexMap}, (∀ p ∈ r.peers, (m p).isSome = true) →
        ∀ p ∈ r.peers.filter (· ≠ nodeID), (if p = nodeID then none else m p).isSome = true := by
      intro m hm p hp
      obtain ⟨hp, hne⟩ := List.mem_filter.1 hp
      rw [if_neg (by simpa using hne)]
      exact hm p hp
    generalize r.handleConfigChangeIfNeeded e io = out at ho ⊢
    cases ho with
    | self => exact h
    | leaves => exact Tracked.saveMeta ⟨fun p hp => (by cases hp), fun p hp => (by cases hp)⟩ _
    | known => exact h.saveMeta _
    | added => exact Tracked.saveMeta ⟨hadd h.next, hadd h.matched⟩ _
    | dropped => exact Tracked.saveMeta ⟨hdrop h.next, hdrop h.matched⟩ _

/-- The indices of a node are those of its peers. -/
structure Table (r : Raft) : Prop where
  within : Within r
  tracked : Tracked r

theorem Table.grows (h : Table r) (hp : r'.peers = r.peers) (hn : Grows r.peers r.nextIndex r'.nextIndex)
    (hm : Grows r.peers r.matchIndex r'.matchIndex) : Table r' :=
  ⟨h.within.grows hp hn hm, h.tracked.grows hp hn hm⟩

theorem Table.same (h : Table r) (hp : r'.peers = r.peers) (hs : SameProgress r r') : Table r' :=
  h.grows hp (.of_eq hs.next) (.of_eq hs.matched)

theorem Table.updateCommitIndexLocked (h : Table r) : Table r.updateCommitIndexLocked := by
  rcases updateCommitIndexLocked_cases r with he | ⟨N, e, he, _⟩
  · rw [he]
    exact h
  · rw [he]
    exact h.grows rfl (.refl _ _) (.refl _ _)

theorem Table.record (h : Table r) {peer : NodeID} (hp : peer ∈ r.peers) (x y : Int) :
    Table { r with matchIndex := r.matchIndex.setAll [peer] x, nextIndex := r.nextIndex.setAll [peer] y } := by
  have hone : ∀ q ∈ [peer], q ∈ r.peers := by
    intro q hq
    rw [List.mem_singleton.1 hq]
    exact hp
  exact h.grows rfl (.setAll hone _ _) (.setAll hone _ _)

/-- A refusal takes the index of a node back that is a peer, unless the log starts below −1: the index of any other
node reads 0. -/
theorem Table.backtracks (h : Table r) {peer : NodeID} (hb : Backtracks r r' peer) (hp : r'.peers = r.peers)
    (hpeer : peer ∈ r.peers ∨ -1 ≤ r.logBaseIndex) : Table r' := by
  obtain ⟨hlow, hnext⟩ := hb.next
  have hmem : peer ∈ r.peers := by
    rcases hpeer with hmem | hbase
    · exact hmem
    · by_contra hmem
      have hnone : r.nextIndex peer = none := by
        rw [← Option.not_isSome_iff_eq_none]
        exact fun hs => hmem (h.within.next _ hs)
      rw [IndexMap.get, hnone, Option.getD_none] at hlow
      omega
  refine h.grows hp ?_ (.of_eq hb.matched)
  rw [hnext]
  refine .setAll (fun q hq => ?_) _ _
  rw [List.mem_singleton.1 hq]
  exact hmem

theorem Table.takeNext (h : Table r) (io : Io) : Table (r.takeNext io).1 := by
  rw [takeNext_eq]
  cases r.pendingEntry with
  | none => exact h
  | some e =>
    have h' : Table { r with lastApplied := r.lastApplied + 1 } := h.grows rfl (.refl _ _) (.refl _ _)
    exact ⟨h'.within.handleConfigChange e io, h'.tracked.handleConfigChange e io⟩

/-- `New` writes the maps for the peers that the replay leaves, and the replay leaves no index of anyone else. -/
theorem Table.new (n : NodeID) (peers : List NodeID) (d : Disk) (io : Io) : Table (Raft.new n peers d io) := by
  have hstart : Within (unreplayed n peers d io) := ⟨fun p hs => (by cases hs), fun p hs => (by cases hs)⟩
  have hreplay : Within ((unreplayed n peers d io).replayConfigChanges io) := by
    rw [replayConfigChanges_eq]
    exact List.foldlRecOn (motive := Within) _ _ hstart fun r hr e _ => hr.handleConfigChange e io
  rw [new_eq]
  generalize (unreplayed n peers d io).replayConfigChanges io = r at hreplay
  refine ⟨⟨fun p hs => ?_, fun p hs => ?_⟩, ⟨fun p hp => ?_, fun p hp => ?_⟩⟩
  · exact (setAll_isSome.1 hs).elim (fun hp => hp) (hreplay.next p)
  · exact (setAll_isSome.1 hs).elim (fun hp => hp) (hreplay.matched p)
  · exact setAll_isSome.2 (.inl hp)
  · exact setAll_isSome.2 (.inl hp)

end Raft

namespace Cluster

/-! ## Conditions -/

/-- Whoever proposes to add a node gives it a name. -/
def namesAdded : Action → Bool
  | .propose _ cmd _ => !cmd.addsEmpty
  | .configChange _ type nodeID _ => !(Command.configChange type.name nodeID).addsEmpty
  | _ => true

/-- The end of a snapshot transfer writes the indices of a node that is still a peer. So does an answer to
AppendEntries; `nextIndex` of a removed node reads 0, and a refusal takes that back only if the log starts below −1. -/
def writesForPeer (s : Cluster) : Action → Bool
  | .run i _ _ =>
    match s.tasks[i]? with
    | some (n, .awaitSnapshot peer _ _) => (s.raft n).peers.contains peer
    | some (n, .awaitAppend args _) => (s.raft n).peers.contains args.peer || decide (-1 ≤ (s.raft n).logBaseIndex)
    | _ => true
  | _ => true

/-- The condition on a step; a process is started again with a list of peers like the first one. -/
def keepsTable (s : Cluster) : RestartAction → Bool
  | .life (.step a) => namesAdded a && s.writesForPeer a
  | .life (.crash n a _ _ peers _) => namesAdded a && decide (Listed n peers)
  | .between n _ _ peers _ => decide (Listed n peers)

/-! ## The invariant -/

variable {s s' : Cluster} {a : Action} {n : NodeID} {r : Raft}

theorem NodeStep.table (h : NodeStep s a n r) (ht : Table (s.raft n)) (hok : s.writesForPeer a = true) : Table r := by
  rcases h.applier_cases with ha | ⟨io, _, rfl⟩ | ⟨io, _, rfl⟩
  · have hp := (h.members_other ha).peers
    cases h.progress with
    | same _ hs => exact ht.same hp hs
    | office _ ho =>
      refine ht.grows hp ?_ ?_
      · rw [ho.next]
        exact .setAll (fun q hq => hq) _ _
      · rw [ho.matched]
        exact .setAll (fun q hq => hq) _ _
    | follow _ _ _ _ _ _ _ hf => exact ht.grows hp (.of_eq hf.next) (.of_eq hf.matched)
    | install _ _ _ _ _ _ _ _ hn hm => exact ht.grows hp (.of_eq hn) (.of_eq hm)
    | refused i j io args call hx hb =>
      refine ht.backtracks hb hp ?_
      simpa only [writesForPeer, hx, Bool.or_eq_true, List.contains_iff_mem, decide_eq_true_eq] using hok
    | acked i j io args call resp hx hr hs hmem he =>
      rw [he]
      refine Table.updateCommitIndexLocked ?_
      unfold recordProgress
      split
      · exact ht
      · exact ht.record hmem _ _
    | alone _ _ _ _ he =>
      rw [he]
      exact ht.updateCommitIndexLocked
    | sent i c io peer snap call hx he =>
      rw [he]
      refine ht.record ?_ _ _
      simpa only [writesForPeer, hx, List.contains_iff_mem] using hok
    | take io => exact absurd rfl (ha io).1
    | done io => exact absurd rfl (ha io).2
  · exact ht.takeNext _
  · exact (ht.same (afterApply_rest ..).peers (afterApply_rest ..).toSameProgress).takeNext _

/-- The lists are in order, in memory, on disk and on the way, and every node has the indices of its peers. -/
structure TableInv (s : Cluster) : Prop where
  lists : Rostered Listed (fun cmd => cmd.addsEmpty = false) s
  table : ∀ n, Table (s.raft n)

theorem addsEmpty_of_not_config (cmd : Command) (h : cmd.isConfig = false) : cmd.addsEmpty = false := by
  cases cmd with
  | configChange => cases h
  | _ => rfl

theorem namesAdded_offers (h : namesAdded a = true) : Offers (fun cmd => cmd.addsEmpty = false) a := by
  cases a with
  | propose n cmd io => simpa [namesAdded, Offers] using h
  | configChange n type nodeID io => simpa only [namesAdded, Offers, Bool.not_eq_true'] using h
  | _ => exact trivial

theorem keepsTable_offers {l : RestartAction} (h : s.keepsTable l = true) (ha : performed l = some a) :
    Offers (fun cmd => cmd.addsEmpty = false) a := by
  match l with
  | .life (.step b) =>
    cases ha
    exact namesAdded_offers (Bool.and_eq_true_iff.1 h).1
  | .life (.crash _ b _ _ _ _) =>
    cases ha
    exact namesAdded_offers (Bool.and_eq_true_iff.1 h).1
  | .between _ _ _ _ _ => cases ha

theorem keepsTable_listed {l : RestartAction} {m : NodeID} {d : Disk} (h : s.keepsTable l = true)
    (hd : s.restartDisk l = some (m, d)) : Listed m (peersGiven l) := by
  match l with
  | .life (.step a) => cases hd
  | .life (.crash _ a _ _ _ _) =>
    obtain ⟨_, _, he⟩ := Option.map_eq_some_iff.1 hd
    cases he
    exact of_decide_eq_true (Bool.and_eq_true_iff.1 h).2
  | .between _ _ _ _ _ =>
    obtain ⟨_, _, he⟩ := Option.map_eq_some_iff.1 hd
    cases he
    exact of_decide_eq_true h

theorem TableInv.step {l : RestartAction} (h : TableInv s) (hok : s.keepsTable l = true)
    (hs : s.restartStep l = some s') : TableInv s' := by
  refine ⟨h.lists.restartStep addsEmpty_of_not_config (fun _ _ _ hl he => hl.configured he)
    (fun a ha => keepsTable_offers hok ha) (fun m d hd => keepsTable_listed hok hd) hs, fun n => ?_⟩
  rcases restartStep_cases hs with ⟨a, rfl, hs⟩ | ⟨m, d, start, _, rfl⟩
  · rcases step_at hs n with heq | ⟨_, hm⟩
    · rw [heq]; exact h.table n
    · exact hm.table (h.table n) (Bool.and_eq_true_iff.1 hok).2
  · rw [restart_raft]
    split
    · exact (Table.new m _ d start).grows rfl (.refl _ _) (.refl _ _)
    · exact h.table n

theorem TableInv.start {procs : List NodeID} {peersOf : NodeID → List NodeID} (snapshotter restorer : Bool)
    (h : ∀ n, Listed n (peersOf n)) : TableInv (Cluster.start procs peersOf snapshotter restorer) := by
  refine ⟨⟨.start addsEmpty_of_not_config .., fun n => ⟨rfl, h n, ?_⟩⟩, fun n => ?_⟩
  · have hsaved : ((Cluster.start procs peersOf snapshotter restorer).raft n).savedMeta.peers = [] := rfl
    rw [hsaved]
    exact ⟨List.nodup_nil, List.not_mem_nil, List.not_mem_nil⟩
  · exact (Table.new n (peersOf n) {} {}).grows rfl (.refl _ _) (.refl _ _)

/-! ## The result -/

/-- Clusters whose processes die and come back, started from lists of peers in order. -/
def listedMachine : Machine Cluster RestartAction where
  init s := ∃ procs peersOf snapshotter restorer, (∀ n, Listed n (peersOf n)) ∧
    s = Cluster.start procs peersOf snapshotter restorer
  step := restartStep

/-- The peer table is consistent in every run in which nobody adds a node without a name and no index is written for a
node that is no peer. -/
theorem peer_table_consistent {h : List (Cluster × RestartAction)} {s : Cluster}
    (hr : listedMachine.Run (fun s l => s.keepsTable l = true) h s) (n : NodeID) :
    (s.raft n).peers.Nodup ∧ (s.raft n).id ∉ (s.raft n).peers ∧ "" ∉ (s.raft n).peers ∧
      ∀ p, ((∃ i, (s.raft n).nextIndex p = some i) ↔ p ∈ (s.raft n).peers) ∧
        ((∃ i, (s.raft n).matchIndex p = some i) ↔ p ∈ (s.raft n).peers) := by
  have hi : TableInv s := by
    refine hr.invariant ?_ fun s l s' hi hok hs => hi.step hok hs
    rintro s ⟨procs, peersOf, snapshotter, restorer, hlist, rfl⟩
    exact .start snapshotter restorer hlist
  obtain ⟨hid, ⟨hnodup, hself, hempty⟩, _⟩ := hi.lists.roster n
  obtain ⟨hin, hall⟩ := hi.table n
  refine ⟨hnodup, by rw [hid]; exact hself, hempty, fun p => ?_⟩
  rw [← Option.isSome_iff_exists, ← Option.isSome_iff_exists]
  exact ⟨⟨hin.next p, hall.next p⟩, ⟨hin.matched p, hall.matched p⟩⟩

theorem listedMachine_init (M : Members) (h : "" ∉ M.ids) (snapshotter restorer : Bool) :
    listedMachine.init (Cluster.start M.ids M.peersOf snapshotter restorer) :=
  ⟨_, _, _, _, fun n => ⟨M.peersOf_nodup n, M.not_mem_peersOf n, fun hm => h (List.mem_filter.1 hm).1⟩, rfl⟩

theorem peer_table_consistent_addD :
    ∃ h s, listedMachine.Run (fun s l => s.keepsTable l = true) h s ∧ (s.raft "A").peers = ["B", "C", "D"] ∧
      "" ∉ (s.raft "A").peers ∧ ((∃ i, (s.raft "A").nextIndex "D" = some i) ↔ "D" ∈ (s.raft "A").peers) := by
  obtain ⟨h, s, hr, hp⟩ := Machine.exists_run (S := listedMachine) (fun s l => s.keepsTable l = true)
    (fun _ s => (s.raft "A").peers = ["B", "C", "D"]) (listedMachine_init threeNodes (by decide) true true)
    (addD.map fun a => .life (.step a)) (by decide +kernel)
  obtain ⟨_, _, hempty, hkeys⟩ := peer_table_consistent hr "A"
  exact ⟨h, s, hr, hp, hempty, (hkeys "D").1⟩

/-- The leader A adds the node with the empty name, B acknowledges the entry and A applies it. -/
def addEmpty : List Action :=
  electA ++ [.configChange "A" .addNode "" {}, .run 2 .go {}, .run 2 .go {}, .run 3 .go {}, .run 3 .go {},
    .deliver 1 {}, .run 4 (.reply 1) {}, .applierTake "A" {}]

/-- A sends its snapshot to C, which lags behind, removes C with the vote of B, and the call for the snapshot ends. -/
def removedMeanwhile : List Action :=
  firstApplied ++ [.applierSend "A", .applierDone "A" {}, .forceSnapshot "A" {}, .run 1 .go {}, .run 3 .go {},
    .run 3 .go {}, .configChange "A" .removeNode "C" {}, .run 4 .go {}, .run 4 .go {}, .run 5 .go {}, .run 5 .go {},
    .deliver 3 {}, .run 6 (.reply 2) {}, .applierTake "A" {}, .run 3 .fail {}]

/-- The empty name becomes a peer, and a removed node keeps its indices. -/
theorem peer_table_broken :
    (∃ h s, listedMachine.Run (fun s l => (performed l).all s.writesForPeer = true) h s ∧ "" ∈ (s.raft "A").peers) ∧
      ∃ h s, listedMachine.Run (fun _ l => (performed l).all namesAdded = true) h s ∧ (s.raft "A").peers = ["B"] ∧
        (s.raft "A").nextIndex "C" = some 2 ∧ (s.raft "A").matchIndex "C" = some 1 :=
  ⟨Machine.exists_run (fun s l => (performed l).all s.writesForPeer = true) (fun _ s => "" ∈ (s.raft "A").peers)
      (listedMachine_init threeNodes (by decide) true true) (addEmpty.map fun a => .life (.step a)) (by decide +kernel),
    Machine.exists_run (fun _ l => (performed l).all namesAdded = true)
      (fun _ s => (s.raft "A").peers = ["B"] ∧ (s.raft "A").nextIndex "C" = some 2 ∧ (s.raft "A").matchIndex "C" = some 1)
      (listedMachine_init threeNodes (by decide) true true) (removedMeanwhile.map fun a => .life (.step a))
      (by decide +kernel)⟩

end Cluster

end Mimori
