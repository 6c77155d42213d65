/-
The stores of the nodes. A store is in a directory of its own and outlives the process, so a node that comes back
executes again what it has executed since its last snapshot. As long as snapshots are taken and installed only where
the apply loop has caught up, the store of every node holds, key by key, what executing the first entries of the
committed log makes, whether the node executed them itself or took them over with a snapshot, at least as many as the
apply loop stands at; and every snapshot holds at least the entries it stands for. Where no process comes back, the
store holds just the entries that the apply loop has executed.
-/
import Mimori.Commit.Restarts
import Mimori.Apply.Restore
import Mimori.Apply.Snapshots

namespace Mimori

open Raft TermLog

namespace Cluster

variable {E : Prop} {M : Members} {s s' : Cluster} {a : Action} {n m : NodeID} {L L' : Ledger}
  {full full' : NodeID → List LogEntry} {p q q' : List LogEntry} {j k : Nat} {io : Io}
  {req : InstallSnapshotRequest} {snap : Snapshot}

/-! ## Conditions -/

/-- Nodes take and install snapshots only when their apply loops have caught up. -/
def storesDrained (s : Cluster) (a : Action) : Bool :=
  s.procs.all fun n => snapshotsDrained n s a && restoresDrained n s a

/-- Nodes take snapshots only when every key of the store is valid UTF-8. -/
def storesText (s : Cluster) (a : Action) : Bool := s.procs.all fun n => snapshotsText n s a

/-- The payload has every key of the store, so that putting it over the store leaves nothing else. -/
def coversStore (data : Payload) (kv : Store) : Bool :=
  match data with
  | .state kvs => kv.all fun p => (kvs.get p.1).isSome
  | .other _ => true

/-- The store takes over every snapshot that is installed, and takes every write of the apply loop. -/
def storeWorks (s : Cluster) : Action → Bool
  | .deliver call io =>
    match s.requests[call]? with
    | some ⟨_, n, .installSnapshot req⟩ =>
      decide (req.term < (s.raft n).term) ||
        ((s.raft n).restorer && io.restore && coversStore req.data (s.app n).store)
    | _ => true
  | .consume _ stored => stored
  | _ => true

/-- The conditions under which the stores hold what is committed. -/
def storesKept (s : Cluster) (a : Action) : Bool :=
  s.choicesKept a && s.storesDrained a && s.storesText a && s.storeWorks a

structure StoresKept (s : Cluster) (a : Action) : Prop where
  choices : s.choicesKept a = true
  snapshots : ∀ n ∈ s.procs, takesSnapshot n s a = true → (s.app n).drained = true ∧ (s.app n).store.textKeys = true
  restores : ∀ n ∈ s.procs, restoresDrained n s a = true
  works : s.storeWorks a = true

theorem storesKept_parts (h : s.storesKept a = true) : StoresKept s a := by
  simp only [storesKept, storesDrained, storesText, Bool.and_eq_true, List.all_eq_true] at h
  obtain ⟨⟨⟨hch, hdr⟩, htext⟩, hworks⟩ := h
  refine ⟨hch, fun n hn ht => ⟨?_, ?_⟩, fun n hn => (hdr n hn).2, hworks⟩
  · have := (hdr n hn).1
    simpa [snapshotsDrained, ht] using this
  · have := htext n hn
    simpa [snapshotsText, ht] using this

/-! ## What is on its way to a store -/

/-- The apply loop of node `n` has executed the first `j` entries of `q`, and the entries on their way to it are those
that follow, up to `lastApplied`. -/
structure Ahead (s : Cluster) (n : NodeID) (q : List LogEntry) (j : Nat) : Prop where
  received : (s.app n).received ≤ (s.app n).sent.length
  le : j ≤ (s.raft n).lastApplied.toNat
  ahead : q.take j ++ (s.app n).taken.drop (s.app n).received = q.take (s.raft n).lastApplied.toNat

theorem App.received_le_taken {x : App} (h : x.received ≤ x.sent.length) : x.received ≤ x.taken.length := by
  unfold App.taken
  rw [List.length_append]; omega

theorem Ahead.drained (h : Ahead s n q j) (hd : (s.app n).drained = true)
    (hlen : (s.raft n).lastApplied.toNat ≤ q.length) : j = (s.raft n).lastApplied.toNat := by
  have hcount : (s.app n).taken.length = (s.app n).received := by simpa [App.drained] using hd
  have hle := h.le
  have hahead := congrArg List.length h.ahead
  rw [List.drop_of_length_le (by omega), List.append_nil, List.length_take, List.length_take] at hahead
  omega

/-- The applier takes the next entry of the log, or none. -/
theorem Ahead.taken_step (h : Ahead s n q j) (hi : IndexInv s) (hno : restores n s a = none)
    (hs : s.step a = some s') (h0 : 0 ≤ (s.raft n).lastApplied)
    (hkeep : q'.take (s.raft n).commitIndex.toNat = q.take (s.raft n).commitIndex.toNat)
    (happ : (s.raft n).lastApplied ≤ (s.raft n).commitIndex)
    (hread : ∀ e, (s.raft n).entryAt ((s.raft n).lastApplied + 1) = some e →
      q[(s.raft n).lastApplied.toNat]? = some e) :
    j ≤ (s'.raft n).lastApplied.toNat ∧
      q'.take j ++ (s'.app n).taken.drop (s.app n).received = q'.take (s'.raft n).lastApplied.toNat := by
  have hle := h.le
  have hkeep' : ∀ i, i ≤ (s.raft n).commitIndex.toNat → q'.take i = q.take i := fun i hi => take_eq_of_le hkeep hi
  rw [hkeep' j (by omega)]
  cases step_takes hi hs n with
  | idle ht hl =>
    rw [ht, hl, hkeep' _ (by omega)]
    exact ⟨hle, h.ahead⟩
  | install _ _ _ _ ha hp hterm => rw [restores_of_install ha hp hterm] at hno; cases hno
  | take e ht hl he hc =>
    refine ⟨by omega, ?_⟩
    rw [ht, hl, hkeep' _ (by omega), List.drop_append_of_le_length (App.received_le_taken h.received), ← List.append_assoc,
      h.ahead, show ((s.raft n).lastApplied + 1).toNat = (s.raft n).lastApplied.toNat + 1 by omega, List.take_add_one,
      hread e he]
    rfl

/-- The apply loop executes the next entry, or none. -/
theorem Ahead.consumes (hno : restores n s a = none) (hw : s.storeWorks a = true) (hs : s.step a = some s')
    (h : Ahead s n q j) (hlen : j ≤ q'.length) (hle : j ≤ (s'.raft n).lastApplied.toNat)
    (hahead : q'.take j ++ (s'.app n).taken.drop (s.app n).received = q'.take (s'.raft n).lastApplied.toNat) :
    Ahead s' n q' j ∧ (s'.app n).store = (s.app n).store ∨
      Ahead s' n q' (j + 1) ∧ ∃ e, q'[j]? = some e ∧ (s'.app n).store = (s.app n).store.apply e.data := by
  have hc := step_consumes hs n
  have hrec := (hc.received h.received).1
  cases hc with
  | idle hr _ hsame => exact .inl ⟨⟨hrec, hle, by rw [hr]; exact hahead⟩, hsame⟩
  | restore _ _ _ _ ha hp hterm => rw [restores_of_install ha hp hterm] at hno; cases hno
  | consume stored e ha he hr hsent hsame =>
    obtain rfl : stored = true := by rw [ha] at hw; exact hw
    have hget : (s'.app n).taken[(s.app n).received]? = some e := by
      unfold App.taken
      rw [hsent, List.getElem?_append_left (List.getElem?_eq_some_iff.1 he).1]; exact he
    obtain ⟨hlt, hge⟩ := List.getElem?_eq_some_iff.1 hget
    rw [List.drop_eq_getElem_cons hlt, hge] at hahead
    have hcount := congrArg List.length hahead
    rw [List.length_append, List.length_cons, List.length_take, List.length_take] at hcount
    have hnext : q'[j]? = some e := by
      have hat := congrArg (fun l => l[j]?) hahead
      simp only [List.getElem?_take, if_pos (show j < (s'.raft n).lastApplied.toNat by omega)] at hat
      rw [← hat, List.getElem?_append_right (by rw [List.length_take]; omega), List.length_take, Nat.min_eq_left hlen,
        Nat.sub_self]
      rfl
    refine .inr ⟨⟨hrec, by omega, ?_⟩, e, hnext, hsame⟩
    rw [hr, List.take_add_one, hnext, List.append_assoc]
    exact hahead

/-! ## What a store has executed -/

/-- The apply loop of node `n` has executed the first `j` entries of its log, at least those in its snapshot, and the
store has executed the first `k` entries of `p`, which are committed; not more than the apply loop if `E`. -/
structure Executing (E : Prop) (M : Members) (L : Ledger) (full : NodeID → List LogEntry) (s : Cluster) (n : NodeID)
    (p : List LogEntry) (j k : Nat) : Prop extends Ahead s n (full n) j where
  base : (s.raft n).logBaseIndex.toNat ≤ j
  top : j ≤ k
  committed : ∃ T, Committed M L s T k p
  store : (s.app n).store.Between p j k
  same : E → j = k

/-- The payload is a store that has executed the first `i` committed entries; not more if `E`. -/
def Contains (E : Prop) (M : Members) (L : Ledger) (s : Cluster) (i : Int) (data : Payload) : Prop :=
  ∃ (kv : Store) (T : Int) (p : List LogEntry) (k : Nat), data = .state kv ∧ i.toNat ≤ k ∧ (E → i.toNat = k) ∧
    Committed M L s T k p ∧ kv.Between p i.toNat k

theorem Contains.of_committed {i : Int} {data : Payload} (h : Contains E M L s i data)
    (hc : ∀ T c p, Committed M L s T c p → Committed M L' s' T c p) : Contains E M L' s' i data := by
  obtain ⟨kv, T, p, k, hkv, hik, hex, hp, hb⟩ := h
  exact ⟨kv, T, p, k, hkv, hik, hex, hc T k p hp, hb⟩

theorem Contains.step {i : Int} {data : Payload} (h : Contains E M L s i data)
    (hst : Stepped M s a s' L full L' full') : Contains E M L' s' i data := h.of_committed fun _ _ _ hc => hc.step hst

theorem step_restored_app (hs : s.step a = some s') {call : Nat} (ha : a = .deliver call io) {src : NodeID}
    (hp : s.requests[call]? = some ⟨src, n, .installSnapshot req⟩) :
    s'.app n = (s.app n).restore ((s.raft n).installSnapshot req (s.envOf n io)).2.1 io.restore := by
  subst ha
  obtain ⟨q, hq, _, rfl⟩ := step_deliver hs
  rw [hp] at hq
  cases hq
  rw [handle_installSnapshot, reply_app, setApp_app, if_pos rfl]

/-- A node that installs a snapshot has executed what the snapshot holds. -/
theorem Executing.installed (hst : Stepped M s a s' L full L' full') {call : Nat} (ha : a = .deliver call io)
    {src : NodeID} (hp : s.requests[call]? = some ⟨src, n, .installSnapshot req⟩) (ht : (s.raft n).term ≤ req.term)
    (hok : StoresKept s a) (hn : n ∈ s.procs) (h : Executing E M L full s n p j k)
    (hdata : Contains E M L s req.lastIncludedIndex req.data) :
    ∃ p' j' k', j ≤ j' ∧ Executing E M L' full' s' n p' j' k' := by
  have hin := step_installs hst.step ha hp ht
  have happ := step_restored_app hst.step ha hp
  obtain ⟨hd, hle⟩ : (s.app n).drained = true ∧ (s.raft n).lastApplied ≤ req.lastIncludedIndex := by
    simpa [restoresDrained, restores_of_install ha hp ht] using hok.restores n hn
  have hcount : (s.app n).taken.length = (s.app n).received := by simpa [App.drained] using hd
  obtain ⟨kvs, T, p', k', hkvs, hik, hex, hcom, hbet⟩ := hdata
  obtain ⟨⟨hrest, hio⟩, hcover⟩ : ((s.raft n).restorer = true ∧ io.restore = true) ∧
      coversStore req.data (s.app n).store = true := by
    have hworks := hok.works
    subst ha
    have hnot : ¬ req.term < (s.raft n).term := by omega
    simpa [storeWorks, hp, hnot] using hworks
  rw [hkvs] at hcover
  rw [installSnapshot_payload, if_neg (by omega), if_pos hrest, hkvs, hio] at happ
  have hj := h.le
  refine ⟨p', req.lastIncludedIndex.toNat, k', by omega, ⟨?_, ?_, ?_⟩, ?_, hik, ⟨T, hcom.step hst⟩, ?_, hex⟩
  · rw [happ]; exact h.received
  · rw [hin.applied]
  · rw [happ, hin.applied]
    show _ ++ (s.app n).taken.drop (s.app n).received = _
    rw [List.drop_of_length_le (by omega), List.append_nil]
  · rw [hin.log.base]
  · rw [happ]; exact hbet.restored h.store.nodup (List.all_eq_true.1 hcover)

/-! ## The invariant -/

structure StoresInv (E : Prop) (M : Members) (L : Ledger) (full : NodeID → List LogEntry) (s : Cluster) : Prop where
  inv : CommitInv M L full s
  node : ∀ n, ∃ p j k, Executing E M L full s n p j k
  snap : ∀ n snap, (s.raft n).snapshot = some snap → Contains E M L s snap.lastIncludedIndex snap.data
  snapTask : ∀ n t snap, (n, t) ∈ s.tasks → snapOf t = some snap → Contains E M L s snap.lastIncludedIndex snap.data
  install : ∀ q ∈ s.requests, ∀ req, q.req = .installSnapshot req →
    Contains E M L s req.lastIncludedIndex req.data

theorem CommitInv.applied_nonneg (h : CommitInv M L full s) (n : NodeID) : 0 ≤ (s.raft n).lastApplied :=
  le_trans (h.inv.inv.logs.stable.index.node n).base (h.base n)

/-- What a node has committed stays as it is in its whole log. -/
theorem CommitInv.take_kept (h : CommitInv M L full s) (hst : Stepped M s a s' L full L' full')
    (hk : k ≤ (s.raft n).commitIndex.toNat) : (full' n).take k = (full n).take k := by
  have hc := h.commit n
  have hkeep : (full' n).take (s.raft n).commitIndex.toNat = (full n).take (s.raft n).commitIndex.toNat :=
    h.inv.keeps h.settles hst rfl hc.le_length fun T hT hled => h.inv.complete.settled hc.chosen hT hled
  exact take_eq_of_le hkeep hk

/-- What is committed anywhere is the same everywhere. -/
theorem CommitInv.committed_agree (h : CommitInv M L full s) {T T' : Int} {c d i : Nat} (hp : Committed M L s T c p)
    (hq : Committed M L s T' d q) (hc : i ≤ c) (hd : i ≤ d) : p.take i = q.take i :=
  h.inv.complete.agree (fun _ => L.led_of_ne_nil) hp.chosen hq.chosen hc hd

theorem Executing.le_commit (hk : Executing E M L full s n p j k) (h : CommitInv M L full s) :
    j ≤ (s.raft n).commitIndex.toNat := by
  have hle := hk.le
  have happ := h.applied n
  omega

/-- A node that has caught up has executed everything that it has applied. -/
theorem Executing.caught_up (hk : Executing E M L full s n p j k) (h : CommitInv M L full s)
    (hd : (s.app n).drained = true) : j = (s.raft n).lastApplied.toNat := by
  have happ := h.applied n
  have hlen := (h.commit n).le_length
  exact hk.drained hd (by omega)

/-- A node takes a snapshot only of what its apply loop has executed. -/
theorem Executing.base_step (hk : Executing E M L full s n p j k) (h : CommitInv M L full s)
    (hno : restores n s a = none) (hok : StoresKept s a) (hs : s.step a = some s') : (s'.raft n).logBaseIndex.toNat ≤ j := by
  rcases step_at hs n with heq | ⟨hn, hstep⟩
  · rw [heq]; exact hk.base
  · have hsave := hstep.saveStep
    generalize s'.raft n = r at hsave ⊢
    cases hsave with
    | same _ hb => rw [hb]; exact hk.base
    | install call io src req hp _ ht => rw [restores_of_install rfl hp ht] at hno; cases hno
    | own _ snap hsn ht => rw [hsn.compacts.base, hsn.own.index, ← hk.caught_up h (hok.snapshots n hn ht).1]

/-- A step brings the apply loop of a node forward. -/
theorem StoresInv.node_step (h : StoresInv E M L full s) (hst : Stepped M s a s' L full L' full')
    (hc : CommitInv M L' full' s') (hok : StoresKept s a) (hk : Executing E M L full s n p j k) :
    ∃ p' j' k', j ≤ j' ∧ Executing E M L' full' s' n p' j' k' := by
  have hlogs := h.inv.inv.inv.logs
  cases hres : restores n s a with
  | some i =>
    obtain ⟨call, io, src, req, ha, hp, hterm, _⟩ := restores_some hres
    have hn : n ∈ s.procs := by
      have hs := hst.step
      rw [ha] at hs
      obtain ⟨q, hq, hn, _⟩ := step_deliver hs
      rw [hp] at hq
      cases hq
      exact hn
    exact hk.installed hst ha hp hterm hok hn (h.install _ (List.mem_of_getElem? hp) req rfl)
  | none =>
    obtain ⟨T, hcom⟩ := hk.committed
    have htop := hk.top
    have hj := hk.le_commit h.inv
    have hcom' := hcom.step hst
    have hbase := hk.base_step h.inv hres hok hst.step
    obtain ⟨hle, hahead⟩ := hk.taken_step hlogs.stable.index hres hst.step (h.inv.applied_nonneg n)
      (h.inv.take_kept hst (le_refl _)) (h.inv.applied n) fun e he => by
        have hb := h.inv.base n
        rw [(hlogs.nodes.whole n).entryAt (hlogs.stable.index.node n) (by omega)] at he
        rw [← he]
        congr 1
        omega
    have hlen : j ≤ (full' n).length := by
      have := le_length_of_take_eq (h.inv.take_kept hst (le_refl _)) (h.inv.commit n).le_length
      omega
    rcases Ahead.consumes hres hok.works hst.step hk.toAhead hlen hle hahead with ⟨hah, hsame⟩ | ⟨hah, e, he, hsame⟩
    · exact ⟨p, j, k, le_refl j, hah, hbase, htop, ⟨T, hcom'⟩, by rw [hsame]; exact hk.store, hk.same⟩
    · -- the entry is committed by now, so it is also the entry that the store executed at this place before a restart
      have hnow : Committed M L' s' (s'.raft n).term (j + 1) (full' n) := by
        have := hah.le
        have := hc.applied n
        exact (hc.commit n).le (by omega)
      rcases Nat.lt_or_eq_of_le htop with hlt | rfl
      · have hat : p[j]? = some e := by
          have hagree := congrArg (fun l => l[j]?) (hc.committed_agree hcom' hnow hlt (le_refl _))
          simp only [List.getElem?_take, if_pos (Nat.lt_succ_self j)] at hagree
          rw [hagree, he]
        exact ⟨p, j + 1, k, Nat.le_succ j, hah, by omega, hlt, ⟨T, hcom'⟩, by rw [hsame]; exact hk.store.apply hlt hat,
          fun hE => absurd (hk.same hE) (by omega)⟩
      · refine ⟨full' n, j + 1, j + 1, Nat.le_succ j, hah, by omega, le_refl _, ⟨_, hnow⟩, ?_, fun _ => rfl⟩
        have hholds := Store.between_iff.1 hk.store
        rw [hc.committed_agree hcom' hnow (le_refl j) (Nat.le_succ j)] at hholds
        rw [Store.between_iff, hsame, List.take_add_one, he]
        exact hholds.concat e

/-- A snapshot that a node takes when its apply loop has caught up holds what it stands for. -/
theorem StoresInv.own (h : StoresInv E M L full s) {r : Raft} (hs : Snapshotted (s.raft n) r (s.envOf n io) snap)
    (hd : (s.app n).drained = true) (ht : (s.app n).store.textKeys = true) :
    Contains E M L s snap.lastIncludedIndex snap.data := by
  obtain ⟨p, j, k, hk⟩ := h.node n
  obtain ⟨T, hc⟩ := hk.committed
  have hj := hk.caught_up h.inv hd
  rw [← hs.own.index] at hj
  subst hj
  exact ⟨_, T, p, k, snapshotted_store hs, hk.top, hk.same, hc, hk.store.dumped ht⟩

theorem StoresInv.snap_step (h : StoresInv E M L full s) (hok : StoresKept s a) (hs : s.step a = some s')
    (hsnap : (s'.raft n).snapshot = some snap) : Contains E M L s snap.lastIncludedIndex snap.data := by
  rcases step_at hs n with heq | ⟨hm, hk⟩
  · rw [heq] at hsnap; exact h.snap n snap hsnap
  · have hsave := hk.saveStep
    generalize hr : s'.raft n = r at hsave hsnap
    cases hsave with
    | same _ _ hsame => rw [hsame] at hsnap; exact h.snap n snap hsnap
    | own _ y hl ht =>
      obtain rfl : y = snap := by rw [hl.compacts.snapshot] at hsnap; exact Option.some.inj hsnap
      obtain ⟨hdr, htext⟩ := hok.snapshots n hm ht
      exact h.own hl hdr htext
    | install call io src req hp _ ht =>
      rw [← hr, (step_installs hs rfl hp ht).log.snapshot] at hsnap
      cases hsnap
      exact h.install _ (List.mem_of_getElem? hp) req rfl

theorem StoresInv.snapTask_step (h : StoresInv E M L full s) (hs : s.step a = some s') {t : Task}
    (ht : (n, t) ∈ s'.tasks) (hsnap : snapOf t = some snap) : Contains E M L s snap.lastIncludedIndex snap.data := by
  rcases step_tasks hs ht with ht | ⟨_, ht⟩
  · exact h.snapTask n t snap ht hsnap
  · rcases ht.snap hsnap with ⟨i, io, peer, _, _, hsend⟩ | ⟨t', ht', hs'⟩
    · exact h.snap n snap (Indexed.snapshotToSend (h.inv.inv.inv.logs.stable.index.node n) hsend)
    · exact h.snapTask n t' snap ht' hs'

theorem StoresInv.install_step (h : StoresInv E M L full s) (hst : Stepped M s a s' L full L' full') {q : Packet}
    (hq : q ∈ s'.requests) (hreq : q.req = .installSnapshot req) :
    Contains E M L s req.lastIncludedIndex req.data := by
  rcases step_packets hst.step hq with hq | ⟨hsrc, hnew⟩
  · exact h.install q hq req hreq
  · cases hnew with
    | installSnapshot i io n peer snap hx =>
      cases hreq
      obtain ⟨_, hidx, _⟩ := h.inv.inv.inv.logs.sentSnapshot hst.logsKept hsrc (List.mem_of_getElem? hx)
      simp only [installSnapshotRequest]
      rw [int32_of_fits hidx]
      exact h.snapTask n _ snap (List.mem_of_getElem? hx) rfl
    | _ => cases hreq

theorem StoresInv.step (h : StoresInv E M L full s) (hok : s.storesKept a = true) (hs : s.step a = some s') :
    ∃ L' full', Stepped M s a s' L full L' full' ∧ StoresInv E M L' full' s' := by
  have hok := storesKept_parts hok
  obtain ⟨L', full', hst, hc⟩ := h.inv.step hok.choices hs
  refine ⟨L', full', hst, hc, fun n => ?_, fun n snap hsnap => (h.snap_step hok hs hsnap).step hst,
    fun n t snap ht hsnap => (h.snapTask_step hs ht hsnap).step hst,
    fun q hq req hreq => (h.install_step hst hq hreq).step hst⟩
  obtain ⟨p, j, k, hk⟩ := h.node n
  obtain ⟨p', j', k', _, hk'⟩ := h.node_step hst hc hok hk
  exact ⟨p', j', k', hk'⟩

theorem StoresInv.start (E : Prop) (M : Members) (snapshotter restorer : Bool) :
    StoresInv E M Ledger.blank (fun _ => []) (Cluster.start M.ids M.peersOf snapshotter restorer) := by
  refine ⟨.start M snapshotter restorer, fun n => ⟨[], 0, 0, ⟨le_refl _, Nat.zero_le _, ?_⟩, ?_, le_refl 0, ⟨0, .inl rfl⟩,
    Store.between_iff.2 .nil, fun _ => rfl⟩, fun n snap hs => ?_, ?_, ?_⟩
  · rw [start_raft]; rfl
  · rw [start_raft]; exact le_refl 0
  · rw [start_raft] at hs; cases hs
  · intro n t snap ht; cases ht
  · intro q hq; cases hq

/-! ## Restarts -/

/-- A node that comes back starts over after its snapshot, with the store it had. -/
theorem Executing.restarted (hk : Executing E M L full s n p j k) (hr : Restarted s s' m) :
    ∃ j', (n ≠ m → j ≤ j') ∧ Executing False M L full s' n p j' k := by
  have hcom := hk.committed.imp fun _ hc => hr.committed hc
  have happ := hr.app n
  by_cases hn : n = m
  · subst hn
    rw [if_pos rfl] at happ
    refine ⟨(s.raft n).logBaseIndex.toNat, fun hne => absurd rfl hne, ⟨?_, ?_, ?_⟩, ?_, hk.base.trans hk.top, hcom, ?_,
      False.elim⟩
    · rw [happ]; exact le_refl 0
    · rw [hr.node.applied]
    · rw [happ, hr.node.applied]
      exact List.append_nil _
    · rw [hr.node.base]
    · rw [happ]; exact hk.store.back hk.base
  · rw [if_neg hn] at happ
    have hraft := hr.other n hn
    refine ⟨j, fun _ => le_refl j, ⟨?_, ?_, ?_⟩, ?_, hk.top, hcom, ?_, False.elim⟩
    · rw [happ]; exact hk.received
    · rw [hraft]; exact hk.le
    · rw [happ, hraft]; exact hk.ahead
    · rw [hraft]; exact hk.base
    · rw [happ]; exact hk.store

theorem StoresInv.restarted (h : StoresInv False M L full s) (hr : Restarted s s' m) (hc : CommitInv M L full s') :
    StoresInv False M L full s' := by
  have hkeep : ∀ {i : Int} {data : Payload}, Contains False M L s i data → Contains False M L s' i data :=
    fun hd => hd.of_committed fun _ _ _ hc => hr.committed hc
  refine ⟨hc, fun n => ?_, fun n snap hs => ?_, fun n t snap ht hs => hkeep (h.snapTask n t snap (hr.tasks ht) hs), ?_⟩
  · obtain ⟨p, j, k, hk⟩ := h.node n
    obtain ⟨j', _, hk'⟩ := hk.restarted hr
    exact ⟨p, j', k, hk'⟩
  · have hsame := hr.forall (P := fun m r => r.snapshot = (s.raft m).snapshot) hr.node.snapshot (fun _ => rfl) n
    rw [hsame] at hs
    exact hkeep (h.snap n snap hs)
  · rw [hr.requests]
    exact fun q hq req hreq => hkeep (h.install q hq req hreq)

end Cluster

end Mimori
