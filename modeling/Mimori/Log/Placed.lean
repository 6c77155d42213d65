/-
The index invariant over whole runs: every log is in place and every request carries a segment without
gaps. The three conditions say where the code breaks it: a batch skipped before another batch, an index
beyond the `int32` of the messages, a snapshot older than the base of the log it is installed on.
-/
import Mimori.Log.Index
import Mimori.Log.Progress

namespace Mimori

open Raft

namespace Cluster

/-! ## Conditions -/

/-- `sendBatchesWithPipeline` skips no batch that others follow. -/
def noGap (s : Cluster) : Action → Bool
  | .run i .fail _ =>
    match s.tasks[i]? with
    | some (_, .pipeline args) => decide (args.entries.length ≤ maxEntriesPerBatch)
    | _ => true
  | _ => true

/-- The last indices of the running nodes' logs fit the `int32` of the messages. -/
def indicesFit (s : Cluster) : Bool := s.procs.all fun n => decide (Fits (s.raft n).lastLogIndex)

/-- A snapshot that is installed is not older than the base of the log. -/
def freshSnapshot (s : Cluster) : Action → Bool
  | .deliver call _ =>
    match s.requests[call]? with
    | some ⟨_, n, .installSnapshot req⟩ =>
      decide (req.term < (s.raft n).term) || decide ((s.raft n).logBaseIndex ≤ req.lastIncludedIndex)
    | _ => true
  | _ => true

def inPlace (s : Cluster) (a : Action) : Bool := s.noGap a && s.indicesFit && s.freshSnapshot a

/-- A snapshot that is not refused does not go back behind the base of the log. -/
theorem freshSnapshot_base {s : Cluster} {a : Action} (h : s.freshSnapshot a = true) {call : Nat} {io : Io}
    {src n : NodeID} {req : InstallSnapshotRequest} (ha : a = .deliver call io)
    (hp : s.requests[call]? = some ⟨src, n, .installSnapshot req⟩) (ht : (s.raft n).term ≤ req.term) :
    (s.raft n).logBaseIndex ≤ req.lastIncludedIndex := by
  subst ha
  simp only [freshSnapshot, hp, Bool.or_eq_true, decide_eq_true_eq] at h
  omega

/-! ## Segments -/

/-- The entries of a request follow its previous index. -/
structure Consecutive (prev : Int) (es : List LogEntry) : Prop where
  nonneg : 0 ≤ prev
  fits : Fits prev
  numbered : Numbered (prev + 1) es
  entryFits : ∀ e ∈ es, Fits e.index

theorem fits_of_le {i j : Int} (hi : 0 ≤ i) (hij : i ≤ j) (hj : Fits j) : Fits i := ⟨by omega, by have := hj.2; omega⟩

theorem toWire_index {e : LogEntry} (h : Fits e.index) : e.toWire.index = e.index := int32_of_fits h

theorem Consecutive.of_reads {r : Raft} (h : Indexed r) (hf : Fits r.lastLogIndex) {args : AppendArgs}
    (hr : Reads r args) : Consecutive args.prevLogIndex args.entries := by
  have hb := h.base
  have hbase := hr.base
  have hlast := hr.last
  have hl := h.lastLogIndex
  have hidx : ∀ e ∈ r.log, Fits e.index := by
    intro e he
    obtain ⟨k, hk, rfl⟩ := List.getElem_of_mem he
    have hi := h.numbered k _ (List.getElem?_eq_getElem hk)
    refine fits_of_le ?_ ?_ hf <;> omega
  refine ⟨by omega, fits_of_le (by omega) hlast hf, ?_, ?_⟩
  · intro k e he
    rw [hr.entries, List.getElem?_map] at he
    obtain ⟨x, hx, rfl⟩ := Option.map_eq_some_iff.1 he
    have hm : x ∈ r.log := List.mem_of_mem_drop (List.mem_of_getElem? hx)
    rw [toWire_index (hidx x hm)]
    have hd := h.numbered.drop _ k x hx
    omega
  · intro e he
    rw [hr.entries] at he
    obtain ⟨x, hx, rfl⟩ := List.mem_map.1 he
    have hm := hidx x (List.mem_of_mem_drop hx)
    rw [toWire_index hm]; exact hm

theorem Consecutive.batch {a : AppendArgs} (h : Consecutive a.prevLogIndex a.entries) :
    Consecutive (currentBatch a).prevLogIndex (currentBatch a).entries :=
  ⟨h.nonneg, h.fits, h.numbered.take _, fun e he => h.entryFits e (List.mem_of_mem_take he)⟩

/-- After a batch is sent the loop stands right behind its last entry. -/
theorem afterSent_prev {a : AppendArgs} (hn : Numbered (a.prevLogIndex + 1) a.entries) (hne : a.entries ≠ []) :
    (afterSent a).prevLogIndex = a.prevLogIndex + (a.entries.take maxEntriesPerBatch).length ∧
      ∃ e, a.entries[(a.entries.take maxEntriesPerBatch).length - 1]? = some e ∧
        (afterSent a).prevLogIndex = e.index ∧ (afterSent a).prevLogTerm = e.term := by
  have hlen : 0 < (a.entries.take maxEntriesPerBatch).length := by
    rw [List.length_take]
    have := List.length_pos_iff.2 hne
    unfold maxEntriesPerBatch; omega
  have hle : (a.entries.take maxEntriesPerBatch).length ≤ a.entries.length := by rw [List.length_take]; omega
  have hmax : (a.entries.take maxEntriesPerBatch).length ≤ maxEntriesPerBatch := by rw [List.length_take]; omega
  have hget : (a.entries.take maxEntriesPerBatch).getLast? =
      a.entries[(a.entries.take maxEntriesPerBatch).length - 1]? := by
    rw [List.getLast?_eq_getElem?, List.getElem?_take, if_pos (by omega)]
  have he := List.getElem?_eq_getElem (l := a.entries)
    (by omega : (a.entries.take maxEntriesPerBatch).length - 1 < a.entries.length)
  have hi := hn _ _ he
  unfold afterSent
  rw [hget, he]
  simp only
  exact ⟨by omega, _, rfl, rfl, rfl⟩

theorem Consecutive.sent {a : AppendArgs} (h : Consecutive a.prevLogIndex a.entries) (hne : a.entries ≠ []) :
    Consecutive (afterSent a).prevLogIndex (afterSent a).entries := by
  obtain ⟨hp, e, he, hi, _⟩ := afterSent_prev h.numbered hne
  have hnn := h.nonneg
  refine ⟨by omega, by rw [hi]; exact h.entryFits e (List.mem_of_getElem? he), ?_, ?_⟩
  · rw [afterSent_entries]
    intro k x hx
    have hd := h.numbered.drop maxEntriesPerBatch k x hx
    have hlen : (a.entries.take maxEntriesPerBatch).length = maxEntriesPerBatch := by
      rw [List.getElem?_drop] at hx
      have := (List.getElem?_eq_some_iff.1 hx).1
      rw [List.length_take]; omega
    rw [hlen] at hp
    omega
  · rw [afterSent_entries]
    exact fun x hx => h.entryFits x (List.mem_of_mem_drop hx)

/-- A skipped batch leaves no gap when nothing is left to send. -/
theorem Consecutive.refused {a : AppendArgs} (h : Consecutive a.prevLogIndex a.entries)
    (hlen : a.entries.length ≤ maxEntriesPerBatch) :
    Consecutive (afterRefused a).prevLogIndex (afterRefused a).entries := by
  have hnil : (afterRefused a).entries = [] := List.drop_eq_nil_of_le hlen
  refine ⟨h.nonneg, h.fits, ?_, ?_⟩
  · rw [hnil]; exact .nil
  · rw [hnil]; intro e he; cases he

theorem Consecutive.ackedIndex_nonneg {a : AppendArgs} (h : Consecutive a.prevLogIndex a.entries) :
    0 ≤ ackedIndex a := by
  unfold ackedIndex
  rw [List.getLast?_eq_getElem?]
  have hnn := h.nonneg
  cases he : a.entries[a.entries.length - 1]? with
  | none => exact hnn
  | some e =>
    have := h.numbered _ e he
    simp only; omega

theorem Consecutive.request {a : AppendArgs} (h : Consecutive a.prevLogIndex a.entries) :
    Consecutive (appendEntriesRequest a).prevLogIndex (appendEntriesRequest a).entries := by
  have he : (appendEntriesRequest a).prevLogIndex = a.prevLogIndex := int32_of_fits h.fits
  rw [he]; exact ⟨h.nonneg, h.fits, h.numbered, h.entryFits⟩

/-! ## The invariant -/

/-- The snapshot a transfer goroutine carries. -/
def snapOf : Task → Option Snapshot
  | .sendSnapshotLoaded _ snap => some snap
  | .awaitSnapshot _ snap _ => some snap
  | _ => none

structure IndexInv (s : Cluster) : Prop where
  node : ∀ n, Indexed (s.raft n)
  next : ∀ n, NextPos (s.raft n)
  args : ∀ n t args, (n, t) ∈ s.tasks → argsOf t = some args → Consecutive args.prevLogIndex args.entries
  request : ∀ p ∈ s.requests, ∀ req, p.req = .appendEntries req → Consecutive req.prevLogIndex req.entries
  snapTask : ∀ n t snap, (n, t) ∈ s.tasks → snapOf t = some snap →
    0 ≤ snap.lastIncludedIndex ∧ Fits snap.lastIncludedIndex
  snapRequest : ∀ p ∈ s.requests, ∀ req, p.req = .installSnapshot req → 0 ≤ req.lastIncludedIndex

theorem setAll_pos {m : IndexMap} (h : ∀ p v, m p = some v → 1 ≤ v) {x : Int} (hx : 1 ≤ x) (ps : List NodeID) :
    ∀ p v, m.setAll ps x p = some v → 1 ≤ v := by
  intro p v hv
  unfold IndexMap.setAll at hv
  split at hv
  · cases hv; exact hx
  · exact h p v hv

theorem TakesOffice.nextPos {r r' : Raft} (hi : Indexed r) (hn : NextPos r) (h : TakesOffice r r') : NextPos r' := by
  have := hi.base_le_last
  have := hi.base
  unfold NextPos
  rw [h.next]; exact setAll_pos hn (by omega) _

theorem SameProgress.nextPos {r r' : Raft} (hn : NextPos r) (h : SameProgress r r') : NextPos r' := by
  unfold NextPos; rw [h.next]; exact hn

theorem applyConfigChangeLocked_nextPos {r : Raft} (isAdd : Bool) (nodeID : NodeID) (io : Io)
    (hlast : 0 ≤ r.lastLogIndex) (hn : NextPos r) : NextPos (r.applyConfigChangeLocked isAdd nodeID io) := by
  have hsave : ∀ (r₁ : Raft) (b : Bool), NextPos r₁ → NextPos (r₁.saveMeta b) :=
    fun r₁ b h => SameProgress.nextPos h (saveMeta_progress r₁ b)
  have ho := applyConfigChangeLocked_outcome r isAdd nodeID io
  generalize r.applyConfigChangeLocked isAdd nodeID io = out at ho ⊢
  cases ho with
  | self => exact hn
  | leaves =>
    refine hsave _ _ fun p v hv => ?_
    cases hv
  | known => exact hsave _ _ hn
  | added => exact hsave _ _ (setAll_pos hn (by omega) _)
  | dropped =>
    refine hsave _ _ fun p v hv => ?_
    simp only at hv
    split at hv
    · cases hv
    · exact hn p v hv

theorem Indexed.last_nonneg {r : Raft} (hi : Indexed r) : 0 ≤ r.lastLogIndex := by
  have := hi.base_le_last
  have := hi.base
  omega

theorem takeNext_nextPos {r : Raft} (io : Io) (hi : Indexed r) (hn : NextPos r) : NextPos (r.takeNext io).1 := by
  have hlast := Indexed.last_nonneg hi
  rw [takeNext_eq]
  cases r.pendingEntry with
  | none => exact hn
  | some e =>
    simp only
    unfold handleConfigChangeIfNeeded
    split
    · exact applyConfigChangeLocked_nextPos _ _ _ hlast hn
    · exact hn

theorem Indexed.afterApply {r : Raft} (h : Indexed r) (io : Io) : Indexed (r.afterApply io) := by
  rcases afterApply_compacts r io with ⟨_, hs⟩ | ⟨_, snap, hs⟩
  · exact h.of_sameLog hs.toSameLog
  · exact h.compact hs.compacts (h.own_within hs.own).1

variable {s s' : Cluster} {a : Action}

theorem updateCommitIndexLocked_maps (r : Raft) :
    r.updateCommitIndexLocked.nextIndex = r.nextIndex ∧ r.updateCommitIndexLocked.matchIndex = r.matchIndex := by
  unfold updateCommitIndexLocked
  split
  · exact ⟨rfl, rfl⟩
  · split <;> exact ⟨rfl, rfl⟩

theorem IndexInv.nodeNext (h : IndexInv s) {n : NodeID} {r : Raft} (hs : ProgressStep s n r a) : NextPos r := by
  have hi := h.node n
  have hn := h.next n
  cases hs with
  | same _ hp => exact SameProgress.nextPos hn hp
  | office _ hp => exact TakesOffice.nextPos hi hn hp
  | follow _ _ _ _ _ _ _ hp => unfold NextPos; rw [hp.next]; exact hn
  | install _ _ _ _ _ _ _ _ hp _ _ => unfold NextPos; rw [hp]; exact hn
  | refused _ _ _ _ _ _ hp =>
    have := hi.base
    unfold NextPos
    rw [hp.next.2]
    exact setAll_pos hn (by have := hp.next.1; omega) _
  | acked _ _ _ args _ _ hx _ _ _ hp =>
    have hack := (h.args n _ args (List.mem_of_getElem? hx) rfl).ackedIndex_nonneg
    unfold NextPos
    rw [hp, (updateCommitIndexLocked_maps _).1]
    unfold recordProgress
    split
    · exact hn
    · exact setAll_pos hn (by omega) _
  | alone _ _ _ _ hp => unfold NextPos; rw [hp, (updateCommitIndexLocked_maps _).1]; exact hn
  | sent _ _ _ _ snap _ hx hp =>
    have := (h.snapTask n _ snap (List.mem_of_getElem? hx) rfl).1
    rw [hp]; exact setAll_pos hn (by omega) _
  | take _ hp => rw [hp]; exact takeNext_nextPos _ hi hn
  | done _ hp =>
    rw [hp]; exact takeNext_nextPos _ (Indexed.afterApply hi _) (SameProgress.nextPos hn (afterApply_rest ..).toSameProgress)

theorem IndexInv.nodeLog (h : IndexInv s) (hf : s.freshSnapshot a = true) {n : NodeID} {r : Raft}
    (hs : LogStep s n r a) : Indexed r := by
  have hi := h.node n
  cases hs with
  | same _ hl => exact hi.of_sameLog hl
  | append _ cmd hl => exact hi.append hl
  | merge call io src req hp _ hl => exact hi.merge hl (h.request _ (List.mem_of_getElem? hp) req rfl).numbered
  | install call io src req hp _ ht hl => exact hi.compact hl (freshSnapshot_base hf rfl hp ht)
  | snapshot _ snap hl => exact hi.compact hl.compacts (hi.own_within hl.own).1

theorem IndexInv.newArgs (h : IndexInv s) (hg : s.noGap a = true) {n : NodeID} {args : AppendArgs}
    (hfit : Fits (s.raft n).lastLogIndex) (ha : ArgsFrom s n a args) : Consecutive args.prevLogIndex args.entries := by
  cases ha with
  | read i io ret T leaderID p rest _ hx hb =>
    exact .of_reads (h.node n) hfit (heartbeatTo_reads (h.node n) (h.next n _) hb).1
  | batch _ args hx => exact (h.args n _ args hx rfl).batch
  | sent _ args hx hne => exact (h.args n _ args hx rfl).sent hne
  | refused i io args hx hne =>
    refine (h.args n _ args (List.mem_of_getElem? hx) rfl).refused ?_
    simpa [noGap, hx] using hg
  | same _ _ hx => exact h.args n _ args hx rfl

/-- The snapshot of a new transfer goroutine is the one the node has in memory, or that of an earlier
goroutine. -/
theorem NewTask.snap {n : NodeID} {t : Task} {snap : Snapshot} (h : NewTask s a n t) (ht : snapOf t = some snap) :
    (∃ i io peer, a = .run i .go io ∧ s.tasks[i]? = some (n, .sendSnapshot peer) ∧
        (s.raft n).snapshotToSend = some snap) ∨
      ∃ t', (n, t') ∈ s.tasks ∧ snapOf t' = some snap := by
  cases h with
  | next i c io _ t _ hx hsp =>
    cases hsp with
    | loaded peer snap' hs => cases ht; exact .inl ⟨i, io, peer, rfl, hx, hs⟩
    | awaitSnapshot peer snap' => cases ht; exact .inr ⟨_, List.mem_of_getElem? hx, rfl⟩
    | _ => cases ht
  | _ => cases ht

/-- A node sends the snapshot its log starts from. -/
theorem Indexed.snapshotToSend {r : Raft} (h : Indexed r) {snap : Snapshot} (hs : r.snapshotToSend = some snap) :
    r.snapshot = some snap := by
  unfold Raft.snapshotToSend at hs
  cases hm : r.snapshot with
  | none => rw [hm, (h.fresh hm).2] at hs; cases hs
  | some x => rw [hm] at hs; exact hs

theorem IndexInv.base_mono (h : IndexInv s) (hf : s.freshSnapshot a = true) (hs : s.step a = some s') (n : NodeID) :
    (s.raft n).logBaseIndex ≤ (s'.raft n).logBaseIndex := by
  rcases step_at hs n with heq | ⟨_, hk⟩
  · rw [heq]
  · have hsave := hk.saveStep
    generalize s'.raft n = r at hsave
    cases hsave with
    | same _ hb => rw [hb]
    | install call io src req hp _ ht hc =>
      rw [hc.base]
      exact freshSnapshot_base hf rfl hp ht
    | own _ snap hs =>
      rw [hs.compacts.base]
      exact ((h.node n).own_within hs.own).1

theorem IndexInv.step (h : IndexInv s) (hok : s.inPlace a = true) (hs : s.step a = some s') : IndexInv s' := by
  simp only [inPlace, Bool.and_eq_true] at hok
  obtain ⟨⟨hgap, hfit⟩, hfresh⟩ := hok
  have hfits : ∀ n ∈ s.procs, Fits (s.raft n).lastLogIndex := fun n hn =>
    of_decide_eq_true (List.all_eq_true.1 hfit n hn)
  have hnode : ∀ n, Indexed (s'.raft n) ∧ NextPos (s'.raft n) := by
    intro n
    rcases step_at hs n with heq | ⟨_, hm⟩
    · rw [heq]; exact ⟨h.node n, h.next n⟩
    · exact ⟨h.nodeLog hfresh hm.logStep, h.nodeNext hm.progress⟩
  refine ⟨fun n => (hnode n).1, fun n => (hnode n).2, fun n t args ht hargs => ?_, fun p hp req hreq => ?_,
    fun n t snap ht hsnap => ?_, fun p hp req hreq => ?_⟩
  · rcases step_tasks hs ht with ht | ⟨hn, ht⟩
    · exact h.args n t args ht hargs
    · exact h.newArgs hgap (hfits n hn) (ht.args hargs)
  · rcases step_packets hs hp with hp | ⟨_, hq⟩
    · exact h.request p hp req hreq
    · cases hq with
      | appendEntries i io n args hx => cases hreq; exact (h.args n _ args (List.mem_of_getElem? hx) rfl).request
      | _ => cases hreq
  · rcases step_tasks hs ht with ht | ⟨hn, ht⟩
    · exact h.snapTask n t snap ht hsnap
    · rcases ht.snap hsnap with ⟨i, io, peer, _, _, hsend⟩ | ⟨t', ht', hs'⟩
      · have hi := h.node n
        have hb := hi.snapshot snap (Indexed.snapshotToSend hi hsend)
        have h0 := hi.base
        exact ⟨by omega, fits_of_le (by omega) (by rw [hb]; exact hi.base_le_last) (hfits n hn)⟩
      · exact h.snapTask n t' snap ht' hs'
  · rcases step_packets hs hp with hp | ⟨_, hq⟩
    · exact h.snapRequest p hp req hreq
    · cases hq with
      | installSnapshot i io n peer snap hx =>
        cases hreq
        have hsn := h.snapTask n _ snap (List.mem_of_getElem? hx) rfl
        have he : ((s.raft n).installSnapshotRequest snap).lastIncludedIndex = snap.lastIncludedIndex :=
          int32_of_fits hsn.2
        rw [he]; exact hsn.1
      | _ => cases hreq

theorem IndexInv.start (procs : List NodeID) (peersOf : NodeID → List NodeID) (snapshotter restorer : Bool) :
    IndexInv (Cluster.start procs peersOf snapshotter restorer) := by
  refine ⟨fun n => ⟨le_refl _, by rw [start_raft]; simp, ?_, ?_, ?_⟩, ?_, ?_, ?_, ?_, ?_⟩
  · rw [start_raft]; exact Numbered.cons_iff.2 ⟨rfl, .nil⟩
  · intro snap h; cases h
  · intro _; exact ⟨rfl, rfl⟩
  · intro n
    unfold NextPos
    rw [start_raft]
    exact setAll_pos (fun p v h => by cases h) (le_refl _) _
  · intro n t args h; cases h
  · intro p h; cases h
  · intro n t snap h; cases h
  · intro p h; cases h

theorem IndexInv.run {ok : Cluster → Action → Prop} {h : List (Cluster × Action)} (hr : machine.Run ok h s)
    (hok : ∀ s a, ok s a → s.inPlace a = true) : IndexInv s := by
  refine Machine.Run.invariant ?_ (fun s a s' hi ha hs => hi.step (hok s a ha) hs) hr
  rintro s ⟨procs, peersOf, snapshotter, restorer, _, rfl⟩
  exact .start ..

end Cluster

end Mimori
