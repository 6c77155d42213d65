/-
The voter set of a node: its peers and itself. It follows from the configuration entries the node has
applied, but it is kept beside the log, and a snapshot does not carry it. Members that have applied the
same prefix agree on the voters in every run in which an index is applied alike everywhere and no
snapshot takes a node over a configuration entry.
-/
import Mimori.Apply.Taken
import Mimori.Election.Safety

namespace Mimori

open Raft

/-! ## Voters -/

/-- What a command makes of the voter set. -/
def Command.change (c : Command) (V : Finset NodeID) : Finset NodeID :=
  match c with
  | .configChange type nodeID => if (type == "add") = true then insert nodeID V else V.erase nodeID
  | _ => V

theorem Command.change_of_not_config {c : Command} (h : c.isConfig = false) (V : Finset NodeID) : c.change V = V := by
  cases c with
  | configChange => cases h
  | _ => rfl

namespace Raft

/-- The peers and the node itself. -/
def voters (r : Raft) : Finset NodeID := insert r.id r.peers.toFinset

theorem SameMembers.voters {r r' : Raft} (h : SameMembers r r') : r'.voters = r.voters := by
  unfold Raft.voters; rw [h.id, h.peers]

theorem voters_filter {r : Raft} {nodeID : NodeID} (h : nodeID ≠ r.id) :
    insert r.id (r.peers.filter (· ≠ nodeID)).toFinset = r.voters.erase nodeID := by
  unfold voters
  ext p
  simp only [Finset.mem_insert, List.mem_toFinset, List.mem_filter, Finset.mem_erase, decide_eq_true_eq]
  constructor
  · rintro (rfl | ⟨hp, hne⟩)
    · exact ⟨Ne.symm h, .inl rfl⟩
    · exact ⟨hne, .inr hp⟩
  · rintro ⟨hne, rfl | hp⟩
    · exact .inl rfl
    · exact .inr ⟨hp, hne⟩

/-- A node that is still in the cluster after a configuration entry has changed its voters by it. -/
theorem applyConfigChangeLocked_voters {r : Raft} {isAdd : Bool} {nodeID : NodeID} {io : Io}
    (h : (r.applyConfigChangeLocked isAdd nodeID io).removedFromCluster = false) :
    r.removedFromCluster = false ∧
      (r.applyConfigChangeLocked isAdd nodeID io).voters =
        if isAdd = true then insert nodeID r.voters else r.voters.erase nodeID := by
  have ho := applyConfigChangeLocked_outcome r isAdd nodeID io
  generalize r.applyConfigChangeLocked isAdd nodeID io = out at h ho ⊢
  have hsave : ∀ r₁ : Raft, (r₁.saveMeta io.saveTerm).voters = r₁.voters :=
    fun r₁ => SameMembers.voters (saveMeta_same r₁ _).members
  cases ho with
  | self hid ha =>
    subst ha
    refine ⟨h, ?_⟩
    rw [hid]
    exact (Finset.insert_eq_of_mem (Finset.mem_insert_self ..)).symm
  | leaves =>
    rw [(saveMeta_same _ _).removed] at h
    cases h
  | known _ hc ha =>
    subst ha
    rw [(saveMeta_same _ _).removed] at h
    have hm : nodeID ∈ r.voters := Finset.mem_insert_of_mem (List.mem_toFinset.2 (List.contains_iff_mem.1 hc))
    rw [hsave]
    exact ⟨h, (Finset.insert_eq_of_mem hm).symm⟩
  | added _ _ ha =>
    subst ha
    rw [(saveMeta_same _ _).removed] at h
    refine ⟨h, (hsave _).trans ?_⟩
    unfold voters
    rw [List.toFinset_append, List.toFinset_cons, List.toFinset_nil]
    ext p
    simp only [if_true, Finset.mem_insert, Finset.mem_union, Finset.notMem_empty, or_false]
    tauto
  | dropped hid ha =>
    subst ha
    rw [(saveMeta_same _ _).removed] at h
    exact ⟨h, (hsave _).trans (voters_filter hid)⟩

theorem takeNext_voters {r : Raft} {e : LogEntry} {io : Io} (he : r.pendingEntry = some e)
    (h : (r.takeNext io).1.removedFromCluster = false) :
    r.removedFromCluster = false ∧ (r.takeNext io).1.voters = e.data.change r.voters := by
  rw [takeNext_eq, he] at h ⊢
  simp only at h ⊢
  unfold handleConfigChangeIfNeeded at h ⊢
  cases hd : e.data with
  | configChange type nodeID => rw [hd] at h; exact applyConfigChangeLocked_voters h
  | _ => rw [hd] at h; exact ⟨h, rfl⟩

/-- The snapshots of a node after compaction: the new one, or an older one on disk. -/
theorem Compacts.snapshots {P : Int → Prop} {r r' : Raft} {snap : Snapshot} (hc : Compacts r r' snap)
    (hP : P snap.lastIncludedIndex) (hr : ∀ x, r.disk.snapFile = some x → P x.lastIncludedIndex) :
    ∀ x, r'.snapshot = some x ∨ r'.disk.snapFile = some x → P x.lastIncludedIndex := by
  intro x hx
  rcases hx with hx | hx
  · rw [hc.snapshot] at hx; cases hx; exact hP
  · rcases hc.file with hf | hf <;> rw [hf] at hx
    · exact hr x hx
    · cases hx; exact hP

end Raft

/-! ## Clusters that grow -/

/-- The processes `procs`; the members among them start with the other members as their peers, a
process that is to join later starts with any peers. -/
def Members.openMachine (M : Members) (procs : List NodeID) : Machine Cluster Action where
  init s := ∃ peersOf snapshotter restorer, (∀ n ∈ M.ids, peersOf n = M.peersOf n) ∧
    s = Cluster.start procs peersOf snapshotter restorer
  step := Cluster.step

namespace Cluster

/-! ## Conditions -/

/-- The entry that is applied at an index has that index, and if it, or another entry applied there by
one of `procs`, is a configuration entry, the two are the same. -/
def appliesAlike (procs : List NodeID) (s : Cluster) (a : Action) : Bool :=
  match s.applying a with
  | some (n, e) => e.index == (s.raft n).lastApplied + 1 &&
      procs.all fun m => (s.app m).taken.all fun x =>
        x.index != e.index || x.data == e.data || !(e.data.isConfig || x.data.isConfig)
  | none => true

/-- Between `lastApplied` and the index of a snapshot that is installed, none of `procs` has applied a
configuration entry. -/
def configKept (procs : List NodeID) (s : Cluster) : Action → Bool
  | .deliver call _ =>
    match s.requests[call]? with
    | some ⟨_, n, .installSnapshot req⟩ =>
      decide (req.term < (s.raft n).term) || (decide (0 ≤ req.lastIncludedIndex) &&
        procs.all fun m => (s.app m).taken.all fun x => !x.data.isConfig ||
          decide (x.index ≤ min (s.raft n).lastApplied req.lastIncludedIndex) ||
          decide (max (s.raft n).lastApplied req.lastIncludedIndex < x.index))
    | _ => true
  | _ => true

/-! ## Indices that were applied -/

/-- Some node has applied `e` at index `i`. -/
def AppliedAt (s : Cluster) (i : Int) (e : LogEntry) : Prop := ∃ n, e ∈ (s.app n).taken ∧ e.index = i

/-- Every index up to `i` has been applied by some node. -/
def Covered (s : Cluster) (i : Int) : Prop := ∀ j, 1 ≤ j → j ≤ i → ∃ e, s.AppliedAt j e

variable {s s' : Cluster} {a : Action}

theorem Covered.le {i j : Int} (h : s.Covered i) (hj : j ≤ i) : s.Covered j :=
  fun k h1 h2 => h k h1 (le_trans h2 hj)

theorem step_taken (hs : s.step a = some s') (n : NodeID) :
    (s'.app n).taken = (s.app n).taken ∨
      ∃ e, s.applying a = some (n, e) ∧ (s'.app n).taken = (s.app n).taken ++ [e] := by
  cases step_applies hs n with
  | idle ht => exact .inl ht
  | install _ _ _ _ _ _ _ ht => exact .inl ht
  | take e _ _ ht ha => exact .inr ⟨e, ha, ht⟩

theorem AppliedAt.step (hs : s.step a = some s') {i : Int} {e : LogEntry} (h : s.AppliedAt i e) :
    s'.AppliedAt i e := by
  obtain ⟨n, hm, hi⟩ := h
  refine ⟨n, ?_, hi⟩
  rcases step_taken hs n with ht | ⟨x, _, ht⟩
  · rw [ht]; exact hm
  · rw [ht]; exact List.mem_append_left _ hm

theorem Covered.step (hs : s.step a = some s') {i : Int} (h : s.Covered i) : s'.Covered i := by
  intro j h1 h2
  obtain ⟨e, he⟩ := h j h1 h2
  exact ⟨e, he.step hs⟩

theorem appliedAt_of_step (hs : s.step a = some s') {i : Int} {e : LogEntry} (h : s'.AppliedAt i e) :
    s.AppliedAt i e ∨ ∃ n, s.applying a = some (n, e) ∧ e.index = i := by
  obtain ⟨n, hm, hi⟩ := h
  rcases step_taken hs n with ht | ⟨x, hx, ht⟩
  · rw [ht] at hm; exact .inl ⟨n, hm, hi⟩
  · rw [ht, List.mem_append, List.mem_singleton] at hm
    rcases hm with hm | rfl
    · exact .inl ⟨n, hm, hi⟩
    · exact .inr ⟨n, hx, hi⟩

theorem applying_mem (hs : s.step a = some s') {n : NodeID} {e : LogEntry} (h : s.applying a = some (n, e)) :
    n ∈ s.procs := by
  obtain ⟨io, rfl | rfl⟩ := applying_self h
  all_goals
    cases step_cases hs
    assumption

/-- The node that takes an entry: `r` is its state when it looks for it. -/
theorem step_applying (hs : s.step a = some s') {n : NodeID} {e : LogEntry} (h : s.applying a = some (n, e)) :
    (s'.app n).taken = (s.app n).taken ++ [e] ∧
      (s'.raft n).lastApplied = (s.raft n).lastApplied + 1 ∧
      ((s'.raft n).removedFromCluster = false → (s.raft n).removedFromCluster = false ∧
        (s'.raft n).voters = e.data.change (s.raft n).voters) := by
  cases step_applies hs n with
  | idle _ _ _ ha => exact absurd h (ha e)
  | install _ _ _ _ ha => subst ha; cases h
  | take x r io ht ha hfrom he hr =>
    rw [h] at ha; cases ha
    have hsame : SameProgress (s.raft n) r ∧ SameMembers (s.raft n) r := by
      rcases hfrom with rfl | rfl
      · exact ⟨.refl _, (SameVotes.refl _).members⟩
      · exact ⟨(afterApply_rest ..).toSameProgress, (afterApply_rest ..).members⟩
    refine ⟨ht, by rw [hr, takeNext_applied io he, hsame.1.applied], fun hrem => ?_⟩
    rw [hr] at hrem ⊢
    rw [← hsame.2.removed, ← hsame.2.voters]
    exact takeNext_voters he hrem

/-- The index of every snapshot in a node, a goroutine or a request has property `P`. -/
structure SnapshotsHave (P : Int → Prop) (s : Cluster) : Prop where
  node : ∀ n snap, (s.raft n).snapshot = some snap ∨ (s.raft n).disk.snapFile = some snap → P snap.lastIncludedIndex
  task : ∀ n t snap, (n, t) ∈ s.tasks → snapOf t = some snap → P snap.lastIncludedIndex
  request : ∀ p ∈ s.requests, ∀ req, p.req = .installSnapshot req → P req.lastIncludedIndex

theorem SnapshotsHave.mono {P P' : Int → Prop} (h : SnapshotsHave P s) (hP : ∀ i, P i → P' i) : SnapshotsHave P' s :=
  ⟨fun n snap hs => hP _ (h.node n snap hs), fun n t snap ht hs => hP _ (h.task n t snap ht hs),
    fun p hp req hr => hP _ (h.request p hp req hr)⟩

/-- A snapshot is taken at `lastApplied`, and then only copied. -/
theorem SnapshotsHave.step {P : Int → Prop} (h : SnapshotsHave P s) (hl : ∀ n, P (s.raft n).lastApplied)
    (hw : ∀ i, P i → P (int32 i)) (hs : s.step a = some s') : SnapshotsHave P s' := by
  refine ⟨fun n snap hsnap => ?_, fun n t snap ht hsnap => ?_, fun p hp req hreq => ?_⟩
  · rcases step_at hs n with heq | ⟨_, hm⟩
    · rw [heq] at hsnap; exact h.node n snap hsnap
    · cases hm.saveStep with
      | same _ _ hsame hfile => rw [hsame, hfile] at hsnap; exact h.node n snap hsnap
      | install call io src req hp _ _ hc =>
        exact hc.snapshots (h.request _ (List.mem_of_getElem? hp) req rfl) (fun x hx => h.node n x (.inr hx)) snap hsnap
      | own _ x hx =>
        exact hx.compacts.snapshots (by rw [hx.own.index]; exact hl n) (fun y hy => h.node n y (.inr hy)) snap hsnap
  · rcases step_tasks hs ht with ht | ⟨_, ht⟩
    · exact h.task n t snap ht hsnap
    · rcases ht.snap hsnap with ⟨i, io, peer, _, _, hsend⟩ | ⟨t', ht', hs'⟩
      · refine h.node n snap ?_
        unfold snapshotToSend at hsend
        cases hmem : (s.raft n).snapshot with
        | none => rw [hmem] at hsend; exact .inr hsend
        | some x => rw [hmem] at hsend; exact .inl hsend
      · exact h.task n t' snap ht' hs'
  · rcases step_packets hs hp with hp | ⟨_, hq⟩
    · exact h.request p hp req hreq
    · cases hq with
      | installSnapshot i io n peer snap hx => cases hreq; exact hw _ (h.task n _ snap (List.mem_of_getElem? hx) rfl)
      | _ => cases hreq

/-! ## The invariant -/

/-- `V i` is the voter set after index `i`. -/
structure VotersInv (M : Members) (procs : List NodeID) (V : Int → Finset NodeID) (s : Cluster) : Prop where
  id : ∀ n, (s.raft n).id = n
  running : ∀ n ∈ s.procs, n ∈ procs
  taken : ∀ n, (s.app n).taken ≠ [] → n ∈ procs
  origin : V 0 = M.ids.toFinset
  change : ∀ i e, s.AppliedAt i e → 1 ≤ i ∧ s.Covered i ∧ V i = e.data.change (V (i - 1))
  applied : ∀ n, 0 ≤ (s.raft n).lastApplied ∧ s.Covered (s.raft n).lastApplied
  voters : ∀ n ∈ M.ids, (s.raft n).removedFromCluster = false → (s.raft n).voters = V (s.raft n).lastApplied
  snapshots : SnapshotsHave (fun i => -2 ^ 31 ≤ i ∧ s.Covered i) s

variable {M : Members} {procs : List NodeID} {V : Int → Finset NodeID}

/-- The voter set is the same at both ends of a stretch without configuration entries. -/
theorem VotersInv.constant (h : VotersInv M procs V s) {lo : Int} (hlo : 0 ≤ lo) :
    ∀ k : Nat, s.Covered (lo + k) → (∀ j e, lo < j → j ≤ lo + k → s.AppliedAt j e → e.data.isConfig = false) →
      V (lo + k) = V lo
  | 0, _, _ => by simp
  | k + 1, hc, hno => by
    have hidx : lo + ((k + 1 : Nat) : Int) - 1 = lo + k := by push_cast; omega
    obtain ⟨e, he⟩ := hc (lo + ((k + 1 : Nat) : Int)) (by push_cast; omega) (le_refl _)
    have hchg := (h.change _ e he).2.2
    rw [Command.change_of_not_config (hno _ e (by push_cast; omega) (le_refl _) he), hidx] at hchg
    rw [hchg]
    refine h.constant hlo k (hc.le (by push_cast; omega)) fun j e h1 h2 => hno j e h1 (by push_cast; omega)

theorem VotersInv.constant_le (h : VotersInv M procs V s) {lo hi : Int} (hlo : 0 ≤ lo) (hle : lo ≤ hi)
    (hc : s.Covered hi) (hno : ∀ j e, lo < j → j ≤ hi → s.AppliedAt j e → e.data.isConfig = false) : V hi = V lo := by
  have hk : hi = lo + (hi - lo).toNat := by omega
  rw [hk] at hc hno ⊢
  exact h.constant hlo _ hc hno

theorem VotersInv.mem (h : VotersInv M procs V s) {n : NodeID} {e : LogEntry} (he : e ∈ (s.app n).taken) : n ∈ procs :=
  h.taken n fun hnil => by rw [hnil] at he; cases he

/-- An installed snapshot takes a node to another index with the same voter set. -/
theorem VotersInv.install (h : VotersInv M procs V s) {call : Nat} {io : Io} {src n : NodeID}
    {req : InstallSnapshotRequest} (hk : configKept procs s (.deliver call io) = true)
    (hp : s.requests[call]? = some ⟨src, n, .installSnapshot req⟩) (ht : (s.raft n).term ≤ req.term) :
    0 ≤ req.lastIncludedIndex ∧ s.Covered req.lastIncludedIndex ∧ V req.lastIncludedIndex = V (s.raft n).lastApplied := by
  simp only [configKept, hp, Bool.or_eq_true, Bool.and_eq_true, decide_eq_true_eq, List.all_eq_true,
    Bool.not_eq_true'] at hk
  rcases hk with hk | ⟨h0, hk⟩
  · omega
  · have hc := (h.snapshots.request _ (List.mem_of_getElem? hp) req rfl).2
    obtain ⟨ha0, hac⟩ := h.applied n
    have hno : ∀ j e, min (s.raft n).lastApplied req.lastIncludedIndex < j →
        j ≤ max (s.raft n).lastApplied req.lastIncludedIndex → s.AppliedAt j e → e.data.isConfig = false := by
      rintro j e h1 h2 ⟨m, hm, rfl⟩
      rcases hk m (h.mem hm) e hm with (hc | hc) | hc
      · exact hc
      · omega
      · omega
    refine ⟨h0, hc, ?_⟩
    rcases le_total (s.raft n).lastApplied req.lastIncludedIndex with hle | hle
    · rw [min_eq_left hle, max_eq_right hle] at hno
      exact h.constant_le ha0 hle hc hno
    · rw [min_eq_right hle, max_eq_left hle] at hno
      exact (h.constant_le h0 hle hac hno).symm

theorem int32_le {i : Int} (h : -2 ^ 31 ≤ i) : -2 ^ 31 ≤ int32 i ∧ int32 i ≤ i := by
  unfold int32
  have h1 := Int.le_bmod (x := i) (m := 2 ^ 32) (by decide)
  have h2 : i.bmod (2 ^ 32) ≤ i := by
    rw [Int.bmod_def]
    split <;> omega
  constructor
  · simpa using h1
  · exact h2

/-- The parts of the invariant that do not speak of the voter sets. -/
theorem VotersInv.frame (h : VotersInv M procs V s) (hs : s.step a = some s') :
    (∀ n, (s'.raft n).id = n) ∧ (∀ n ∈ s'.procs, n ∈ procs) ∧ (∀ n, (s'.app n).taken ≠ [] → n ∈ procs) ∧
      SnapshotsHave (fun i => -2 ^ 31 ≤ i ∧ s'.Covered i) s' := by
  refine ⟨fun n => (step_id hs n).trans (h.id n), fun n hn => h.running n (step_procs hs n hn), fun n hn => ?_, ?_⟩
  · rcases step_taken hs n with ht | ⟨e, he, _⟩
    · rw [ht] at hn; exact h.taken n hn
    · exact h.running n (applying_mem hs he)
  · refine SnapshotsHave.mono (h.snapshots.step (fun n => ?_) (fun i hi => ?_) hs) fun i hi => ⟨hi.1, hi.2.step hs⟩
    · obtain ⟨h0, hc⟩ := h.applied n
      exact ⟨by omega, hc⟩
    · obtain ⟨h1, h2⟩ := int32_le hi.1
      exact ⟨h1, hi.2.le h2⟩

theorem VotersInv.quiet (h : VotersInv M procs V s) (hk : configKept procs s a = true) (hs : s.step a = some s')
    (hq : s.applying a = none) : VotersInv M procs V s' := by
  obtain ⟨hid, hrun, htaken, hsnap⟩ := h.frame hs
  refine ⟨hid, hrun, htaken, h.origin, fun i e he => ?_, fun n => ?_, fun n hn hrem => ?_, hsnap⟩
  · rcases appliedAt_of_step hs he with he | ⟨n, hn, _⟩
    · obtain ⟨h1, h2, h3⟩ := h.change i e he
      exact ⟨h1, h2.step hs, h3⟩
    · rw [hq] at hn; cases hn
  · cases step_applies hs n with
    | idle _ hl => rw [hl]; exact ⟨(h.applied n).1, (h.applied n).2.step hs⟩
    | take e _ _ _ ha => rw [hq] at ha; cases ha
    | install call io src req ha hp hterm _ hl =>
      subst ha
      obtain ⟨h0, hc, _⟩ := h.install hk hp hterm
      rw [hl]; exact ⟨h0, hc.step hs⟩
  · cases step_applies hs n with
    | idle _ hl hm =>
      rw [hm.removed] at hrem
      rw [hm.voters, hl]; exact h.voters n hn hrem
    | take e _ _ _ ha => rw [hq] at ha; cases ha
    | install call io src req ha hp hterm _ hl _ hm =>
      subst ha
      rw [hm.removed] at hrem
      rw [hm.voters, hl, (h.install hk hp hterm).2.2]; exact h.voters n hn hrem

/-- The voter sets, with one after the index of a new entry `e`: if the index was applied before, by an
entry that changes the configuration alike, it is there already. -/
theorem VotersInv.extend (h : VotersInv M procs V s) {e : LogEntry} (h1 : 1 ≤ e.index)
    (hsame : ∀ x, s.AppliedAt e.index x → x.data.change (V (e.index - 1)) = e.data.change (V (e.index - 1))) :
    ∃ V' : Int → Finset NodeID, V' e.index = e.data.change (V' (e.index - 1)) ∧ ∀ j, s.Covered j → V' j = V j := by
  by_cases hx : ∃ x, s.AppliedAt e.index x
  · obtain ⟨x, hx⟩ := hx
    exact ⟨V, (h.change _ x hx).2.2.trans (hsame x hx), fun j _ => rfl⟩
  · refine ⟨Function.update V e.index (e.data.change (V (e.index - 1))), ?_, fun j hj => ?_⟩
    · rw [Function.update_self, Function.update_of_ne (by omega)]
    · refine Function.update_of_ne ?_ _ _
      rintro rfl
      exact hx (hj _ h1 (le_refl _))

theorem VotersInv.takes (h : VotersInv M procs V s) (hk : appliesAlike procs s a = true) (hs : s.step a = some s')
    {n : NodeID} {e : LogEntry} (hq : s.applying a = some (n, e)) : ∃ V', VotersInv M procs V' s' := by
  obtain ⟨hid, hrun, htaken, hsnap⟩ := h.frame hs
  simp only [appliesAlike, hq, Bool.and_eq_true, beq_iff_eq, List.all_eq_true, Bool.or_eq_true, bne_iff_ne,
    Bool.not_eq_true', Bool.or_eq_false_iff] at hk
  obtain ⟨hidx, halike⟩ := hk
  obtain ⟨h0, hcov⟩ := h.applied n
  obtain ⟨V', hnew, hold⟩ := h.extend (e := e) (by omega) fun x ⟨m, hm, hi⟩ => by
    rcases halike m (h.mem hm) x hm with (hc | hc) | ⟨hc, hc'⟩
    · exact absurd hi hc
    · rw [hc]
    · rw [Command.change_of_not_config hc, Command.change_of_not_config hc']
  have hprev : e.index - 1 = (s.raft n).lastApplied := by omega
  obtain ⟨hnow, hlast, hvoters⟩ := step_applying hs hq
  -- the entry is applied now, so every index up to its own is
  have happlied : s'.Covered e.index := by
    intro j h1 h2
    by_cases hj : j = e.index
    · exact ⟨e, n, by rw [hnow]; simp, hj.symm⟩
    · exact hcov.step hs j h1 (by omega)
  have hother : ∀ m, m ≠ n → (s'.raft m).lastApplied = (s.raft m).lastApplied ∧ SameMembers (s.raft m) (s'.raft m) := by
    intro m hm
    cases step_applies hs m with
    | idle _ hl hsame => exact ⟨hl, hsame⟩
    | take _ _ _ _ ha => rw [hq] at ha; cases ha; exact absurd rfl hm
    | install _ _ _ _ ha => subst ha; cases hq
  refine ⟨V', hid, hrun, htaken, ?_, fun i x hx => ?_, fun m => ?_, fun m hm hrem => ?_, hsnap⟩
  · rw [hold 0 fun j h1 h2 => by omega]; exact h.origin
  · rcases appliedAt_of_step hs hx with hx | ⟨m, hm, rfl⟩
    · obtain ⟨h1, h2, h3⟩ := h.change i x hx
      rw [hold i h2, hold (i - 1) (h2.le (by omega))]
      exact ⟨h1, h2.step hs, h3⟩
    · rw [hq] at hm; cases hm
      exact ⟨by omega, happlied, hnew⟩
  · by_cases hmn : m = n
    · subst hmn
      rw [hlast, ← hidx]; exact ⟨by omega, happlied⟩
    · rw [(hother m hmn).1]; exact ⟨(h.applied m).1, (h.applied m).2.step hs⟩
  · by_cases hmn : m = n
    · subst hmn
      obtain ⟨hrem, hv⟩ := hvoters hrem
      rw [hv, h.voters m hm hrem, hlast, ← hidx, hnew, hprev, hold _ hcov]
    · obtain ⟨hl, hsame⟩ := hother m hmn
      rw [hsame.removed] at hrem
      rw [hsame.voters, hl, hold _ (h.applied m).2]; exact h.voters m hm hrem

theorem VotersInv.step (h : VotersInv M procs V s) (hk : configKept procs s a = true)
    (ha : appliesAlike procs s a = true) (hs : s.step a = some s') : ∃ V', VotersInv M procs V' s' := by
  cases hq : s.applying a with
  | none => exact ⟨V, h.quiet hk hs hq⟩
  | some x => exact h.takes ha hs hq

theorem VotersInv.start (M : Members) (procs : List NodeID) {peersOf : NodeID → List NodeID}
    (snapshotter restorer : Bool) (hp : ∀ n ∈ M.ids, peersOf n = M.peersOf n) :
    VotersInv M procs (fun _ => M.ids.toFinset) (Cluster.start procs peersOf snapshotter restorer) := by
  refine ⟨fun n => rfl, fun n hn => hn, fun n hn => absurd rfl hn, rfl, ?_, fun n => ⟨le_refl _, ?_⟩, fun n hn _ => ?_,
    ⟨?_, ?_, ?_⟩⟩
  · rintro i e ⟨n, hm, _⟩; cases hm
  · intro j h1 h2
    have h2 : j ≤ 0 := h2
    omega
  · rw [start_raft, Raft.voters]
    simp only
    rw [hp n hn]; exact voters_eq hn
  · rintro n snap (h | h) <;> cases h
  · intro n t snap ht; cases ht
  · intro p hp; cases hp

/-- Voter-set agreement: in every run in which an index is applied alike everywhere and no snapshot takes
a node over a configuration entry, two members that are still in the cluster and have the same
`lastApplied` have the same voters. -/
theorem voters_agree (M : Members) (procs : List NodeID) {h : List (Cluster × Action)} {s : Cluster}
    (hr : (M.openMachine procs).Run (fun s a => (configKept procs s a && appliesAlike procs s a) = true) h s)
    {n m : NodeID} (hn : n ∈ M.ids) (hm : m ∈ M.ids) (hrn : (s.raft n).removedFromCluster = false)
    (hrm : (s.raft m).removedFromCluster = false) (hl : (s.raft n).lastApplied = (s.raft m).lastApplied) :
    (s.raft n).voters = (s.raft m).voters := by
  have hi : ∃ V, VotersInv M procs V s := by
    refine Machine.Run.invariant (I := fun s => ∃ V, VotersInv M procs V s) ?_ ?_ hr
    · rintro s ⟨peersOf, snapshotter, restorer, hp, rfl⟩
      exact ⟨_, .start M procs snapshotter restorer hp⟩
    · rintro s a s' ⟨V, hV⟩ hok hs
      rw [Bool.and_eq_true] at hok
      exact hV.step hok.1 hok.2 hs
  obtain ⟨V, hV⟩ := hi
  rw [hV.voters n hn hrn, hV.voters m hm hrm, hl]

theorem openMachine_init (M : Members) (procs : List NodeID) (snapshotter restorer : Bool) :
    (M.openMachine procs).init (Cluster.start procs M.peersOf snapshotter restorer) :=
  ⟨_, _, _, fun _ _ => rfl, rfl⟩

/-- A tells B that the entry is committed, and B applies it too. -/
def addedByB : List Action :=
  addD ++ [.run 1 .go {}, .run 3 .go {}, .run 3 .go {}, .run 4 .go {}, .deliver 2 {}, .applierTake "B" {}]

theorem voters_agree_addedByB :
    ∃ h s, (threeNodes.openMachine ["A", "B", "C", "D"]).Run (fun s a =>
        (configKept ["A", "B", "C", "D"] s a && appliesAlike ["A", "B", "C", "D"] s a) = true) h s ∧
      (s.raft "A").lastApplied = 1 ∧ "D" ∈ (s.raft "A").voters ∧ (s.raft "A").voters = (s.raft "B").voters := by
  obtain ⟨h, s, hr, h1, h2, h3, h4, h5⟩ := Machine.exists_run (fun s a =>
      (configKept ["A", "B", "C", "D"] s a && appliesAlike ["A", "B", "C", "D"] s a) = true)
    (fun _ s => (s.raft "A").lastApplied = 1 ∧ (s.raft "B").lastApplied = 1 ∧ "D" ∈ (s.raft "A").voters ∧
      (s.raft "A").removedFromCluster = false ∧ (s.raft "B").removedFromCluster = false)
    (openMachine_init threeNodes ["A", "B", "C", "D"] false false) addedByB (by decide +kernel)
  exact ⟨h, s, hr, h1, h3,
    voters_agree threeNodes _ hr (by decide) (by decide) h4 h5 (h1.trans h2.symm)⟩

/-- A compacts its log and sends C, which has not seen the entry, its snapshot. -/
def snapshotOverD : List Action :=
  addD ++ [.forceSnapshot "A" {}, .run 2 .go {}, .run 4 .go {}, .run 4 .go {}, .deliver 2 {}]

theorem snapshotOverD_voters_differ :
    ∃ h s, (threeNodes.openMachine ["A", "B", "C", "D"]).Run
        (fun s a => appliesAlike ["A", "B", "C", "D"] s a = true) h s ∧
      (s.raft "A").removedFromCluster = false ∧ (s.raft "C").removedFromCluster = false ∧
      (s.raft "A").lastApplied = 1 ∧ (s.raft "C").lastApplied = 1 ∧
      "D" ∈ (s.raft "A").voters ∧ "D" ∉ (s.raft "C").voters :=
  Machine.exists_run (fun s a => appliesAlike ["A", "B", "C", "D"] s a = true)
    (fun _ s => (s.raft "A").removedFromCluster = false ∧ (s.raft "C").removedFromCluster = false ∧
      (s.raft "A").lastApplied = 1 ∧ (s.raft "C").lastApplied = 1 ∧
      "D" ∈ (s.raft "A").voters ∧ "D" ∉ (s.raft "C").voters)
    (openMachine_init threeNodes ["A", "B", "C", "D"] true false) snapshotOverD (by decide +kernel)

end Cluster

end Mimori
