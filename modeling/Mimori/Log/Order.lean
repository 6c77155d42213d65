/-
The log of a node and the indices beside it, in every state of a run: positions and indices of the log
agree, `logBaseIndex ≤ lastApplied ≤ commitIndex ≤ lastLogIndex`, and none of the first three goes back.
Both rest on snapshots that are not older than what the node has: `InstallSnapshot` looks at the term of
a request only.
-/
import Mimori.Log.Placed

namespace Mimori

open Raft

namespace Cluster

/-! ## The log -/

/-- In every run that keeps the conditions `inPlace`, no log is empty, every position holds the entry of
its index, and `entryAt` finds exactly the entry it is asked for. -/
theorem log_in_place {h : List (Cluster × Action)} {s : Cluster}
    (hr : machine.Run (fun s a => s.inPlace a = true) h s) (n : NodeID) :
    (s.raft n).log ≠ [] ∧
      (∀ (k : Nat) (e : LogEntry), (s.raft n).log[k]? = some e → e.index = (s.raft n).logBaseIndex + k) ∧
      ∀ i e, (s.raft n).entryAt i = some e ↔ e ∈ (s.raft n).log ∧ e.index = i := by
  have hi := (IndexInv.run hr fun _ _ hok => hok).node n
  exact ⟨hi.ne, hi.numbered, fun i e => hi.entryAt_iff⟩

theorem log_in_place_firstApplied :
    ∃ h s, machine.Run (fun s a => s.inPlace a = true) h s ∧ (s.raft "B").log.length = 2 ∧
      ∀ (k : Nat) (e : LogEntry), (s.raft "B").log[k]? = some e → e.index = (s.raft "B").logBaseIndex + k := by
  obtain ⟨h, s, hr, hlen⟩ := Machine.exists_run (fun s a => Cluster.inPlace s a = true)
    (fun _ s => (s.raft "B").log.length = 2) (machine_init threeNodes true false) firstApplied (by decide +kernel)
  exact ⟨h, s, hr, hlen, (log_in_place hr "B").2.1⟩

/-- With three entries in its log, A builds a snapshot request for C at the first and another at the
third. The second request reaches C first. -/
def lateSnapshot : List Action :=
  electA ++ [.propose "A" (.put [1] [2]) {}, .propose "A" (.put [3] [4]) {}, .propose "A" (.put [5] [6]) {},
    .run 1 .go {}, .run 1 .go {}, .run 1 .go {}, .run 1 .go {}, .run 1 .go {}, .run 3 .go {}, .deliver 1 {},
    .run 4 (.reply 1) {}, .applierTake "A" {}, .forceSnapshot "A" {}, .run 1 .go {}, .run 3 .go {}, .run 3 .go {},
    .run 3 .go {}, .run 3 .go {}, .run 5 .go {}, .run 5 .go {}, .applierSend "A", .applierDone "A" {},
    .applierSend "A", .applierDone "A" {}, .forceSnapshot "A" {}, .run 4 .go {}, .run 5 .go {}, .run 5 .go {},
    .run 5 .go {}, .run 5 .go {}, .run 7 .go {}, .run 7 .go {}, .deliver 3 {}, .deliver 2 {}]

/-- The older snapshot goes in front of the mark of the newer one: the log of C has no entry 2, and
`entryAt` returns entry 3 in its place. -/
theorem lateSnapshot_leaves_gap :
    ∃ h s, machine.Run (fun s a => (s.noGap a && s.indicesFit) = true) h s ∧
      (s.raft "C").logBaseIndex = 1 ∧ (s.raft "C").log.map LogEntry.index = [1, 3] ∧
      ((s.raft "C").entryAt 2).map LogEntry.index = some 3 :=
  Machine.exists_run (fun s a => (Cluster.noGap s a && Cluster.indicesFit s) = true)
    (fun _ s => (s.raft "C").logBaseIndex = 1 ∧ (s.raft "C").log.map LogEntry.index = [1, 3] ∧
      ((s.raft "C").entryAt 2).map LogEntry.index = some 3)
    (machine_init threeNodes true false) lateSnapshot (by decide +kernel)

/-! ## The indices -/

/-- A snapshot that is installed reaches at least as far as the commit index. -/
def forwardSnapshot (s : Cluster) : Action → Bool
  | .deliver call _ =>
    match s.requests[call]? with
    | some ⟨_, n, .installSnapshot req⟩ =>
      decide (req.term < (s.raft n).term) || decide ((s.raft n).commitIndex ≤ req.lastIncludedIndex)
    | _ => true
  | _ => true

/-- An accepted AppendEntries request brings no entry of another term for a committed index. -/
def keepsCommitted (s : Cluster) (a : Action) : Bool :=
  match s.accepts a with
  | some (_, n, req) => req.entries.all fun e =>
    decide ((s.raft n).commitIndex < e.index) || ((s.raft n).entryAt e.index).all (·.term == e.term)
  | none => true

def orderKept (s : Cluster) (a : Action) : Bool :=
  s.noGap a && s.indicesFit && s.forwardSnapshot a && s.keepsCommitted a

structure Ordered (r : Raft) : Prop where
  base : r.logBaseIndex ≤ r.lastApplied
  applied : r.lastApplied ≤ r.commitIndex
  commit : r.commitIndex ≤ r.lastLogIndex

/-- None of the indices goes back from `r` to `r'`. -/
structure Forward (r r' : Raft) : Prop where
  base : r.logBaseIndex ≤ r'.logBaseIndex
  applied : r.lastApplied ≤ r'.lastApplied
  commit : r.commitIndex ≤ r'.commitIndex

end Cluster

namespace Raft

/-- A prefix the entries agree with outlives the loop of `AppendEntries`. -/
theorem mergeEntry_keeps {b : Int} {p log : List LogEntry} {e : LogEntry} (hp : p <+: log)
    (he : b ≤ e.index → ∀ old, p[(e.index - b).toNat]? = some old → old.term = e.term) :
    p <+: mergeEntry b log e := by
  unfold mergeEntry
  simp only
  split
  · exact hp
  · rename_i hoff
    cases hold : log[(e.index - b).toNat]? with
    | none => exact hp.trans (List.prefix_append ..)
    | some old =>
      simp only
      split
      · rename_i hterm
        -- the conflict lies beyond the prefix, and so does the cut
        have hlen : p.length ≤ (e.index - b).toNat := by
          by_contra hlt
          have hget := hp.getElem (by omega : (e.index - b).toNat < p.length)
          refine hterm (he (by omega) old ?_)
          rw [← hold, List.getElem?_eq_getElem (by omega), hget, ← List.getElem?_eq_getElem]
        exact (List.prefix_take_iff.2 ⟨hp, hlen⟩).trans (List.prefix_append ..)
      · exact hp

theorem mergeEntries_keeps {b : Int} {p : List LogEntry} :
    ∀ {es log : List LogEntry}, p <+: log →
      (∀ e ∈ es, b ≤ e.index → ∀ old, p[(e.index - b).toNat]? = some old → old.term = e.term) →
      p <+: mergeEntries b log es
  | [], _, hp, _ => hp
  | e :: es, log, hp, he => by
    rw [mergeEntries_cons]
    exact mergeEntries_keeps (mergeEntry_keeps hp (he e List.mem_cons_self))
      fun x hx => he x (List.mem_cons_of_mem e hx)

/-- Entries that contradict none of the log up to index `i` leave it there. -/
theorem Indexed.merge_keeps {r r' : Raft} (h : Indexed r) {req : AppendEntriesRequest} (hm : Merges r r' req) {i : Int}
    (hk : ∀ e ∈ req.entries, (decide (i < e.index) || (r.entryAt e.index).all (·.term == e.term)) = true) :
    r.log.take (i + 1 - r.logBaseIndex).toNat <+: r'.log := by
  rw [hm.log]
  refine mergeEntries_keeps (List.take_prefix ..) fun e he hb old hold => ?_
  rw [List.getElem?_take] at hold
  split at hold
  · rename_i hlt
    have hagree := hk e he
    rw [h.entryAt hb, hold] at hagree
    simp only [Bool.or_eq_true, decide_eq_true_eq, Option.all_some, beq_iff_eq] at hagree
    rcases hagree with hbeyond | hterm
    · omega
    · exact hterm
  · cases hold

theorem Indexed.prefix_le_last {r r' : Raft} (h : Indexed r) (h' : Indexed r') (hb : r'.logBaseIndex = r.logBaseIndex)
    {i : Int} (hi : i ≤ r.lastLogIndex) (hp : r.log.take (i + 1 - r.logBaseIndex).toNat <+: r'.log) :
    i ≤ r'.lastLogIndex := by
  have hlen := hp.length_le
  rw [List.length_take] at hlen
  have h1 := h.lastLogIndex
  have h2 := h'.lastLogIndex
  omega

theorem Indexed.compact_last {r r' : Raft} (h : Indexed r) {snap : Snapshot} (hc : Compacts r r' snap)
    (hb : r.logBaseIndex ≤ snap.lastIncludedIndex) (hl : snap.lastIncludedIndex ≤ r.lastLogIndex) :
    r'.lastLogIndex = r.lastLogIndex := by
  have h1 := h.lastLogIndex
  have h2 := (h.compact hc hb).lastLogIndex
  rw [hc.base, hc.log, h.compact_eq, List.length_cons, List.length_drop] at h2
  omega

theorem Indexed.snapshotted_last {r r' : Raft} (h : Indexed r) {io : Io} {snap : Snapshot}
    (hs : Snapshotted r r' io snap) : r'.lastLogIndex = r.lastLogIndex :=
  h.compact_last hs.compacts (h.own_within hs.own).1 (h.own_within hs.own).2

end Raft

namespace Cluster

variable {s s' : Cluster} {a : Action} {n : NodeID} {r : Raft}

/-- What a step does to `lastApplied` and `commitIndex` when the log still reaches the commit index. -/
theorem ProgressStep.ordered (h : ProgressStep s n r a) (hi : Indexed r) (ho : Ordered (s.raft n))
    (hf : s.forwardSnapshot a = true) (hl : (s.raft n).commitIndex ≤ r.lastLogIndex) :
    (s.raft n).lastApplied ≤ r.lastApplied ∧ (s.raft n).commitIndex ≤ r.commitIndex ∧
      r.lastApplied ≤ r.commitIndex ∧ r.commitIndex ≤ r.lastLogIndex := by
  have happ := ho.applied
  have hup : ∀ {q : Raft}, q.commitIndex = (s.raft n).commitIndex → q.lastApplied = (s.raft n).lastApplied →
      r = q.updateCommitIndexLocked → (s.raft n).lastApplied ≤ r.lastApplied ∧
        (s.raft n).commitIndex ≤ r.commitIndex ∧ r.lastApplied ≤ r.commitIndex ∧ r.commitIndex ≤ r.lastLogIndex := by
    rintro q hc ha rfl
    have hlast := (updateCommitIndexLocked_data q).lastLogIndex
    rcases updateCommitIndexLocked_cases q with he | ⟨N, e, he, _, hlt, hle, _⟩
    · rw [he] at hl ⊢; omega
    · rw [hlast, he]; simp only; omega
  have htake : ∀ {q : Raft} {io : Io}, SameProgress (s.raft n) q → r = (q.takeNext io).1 →
      (s.raft n).lastApplied ≤ r.lastApplied ∧ (s.raft n).commitIndex ≤ r.commitIndex ∧
        r.lastApplied ≤ r.commitIndex ∧ r.commitIndex ≤ r.lastLogIndex := by
    rintro q io hq rfl
    have hc := hq.commit
    have ha := hq.applied
    rcases takeNext_progress q io with ⟨_, he⟩ | ⟨e, he, _, h1, h2⟩
    · rw [he] at hl ⊢; simp only at hl ⊢; omega
    · have := (pendingEntry_some he).2
      omega
  cases h with
  | same _ h => rw [h.applied, h.commit]; omega
  | office _ h => rw [h.applied, h.commit]; omega
  | follow _ _ _ req _ _ _ h =>
    have hc := h.commit
    rw [h.applied]
    split at hc
    · split at hc <;> omega
    · omega
  | install call io src req hp ht hc ha _ _ hb =>
    have := hi.base_le_last
    simp only [forwardSnapshot, hp, Bool.or_eq_true, decide_eq_true_eq] at hf
    omega
  | refused _ _ _ _ _ _ h => rw [h.applied, h.commit]; omega
  | acked _ _ _ args _ _ _ _ _ _ h => exact hup (recordProgress_indices _ args).1 (recordProgress_indices _ args).2 h
  | alone _ _ _ _ h => exact hup rfl rfl h
  | sent _ _ _ _ _ _ _ h => subst h; exact ⟨le_refl _, le_refl _, happ, hl⟩
  | take _ h => exact htake (.refl _) h
  | done _ h => exact htake (afterApply_rest ..).toSameProgress h

/-- What a step does to the two ends of the log. -/
theorem LogStep.ordered (h : LogStep s n r a) (hi : Indexed (s.raft n)) (hi' : Indexed r) (ho : Ordered (s.raft n))
    (hf : s.forwardSnapshot a = true) (hk : s.keepsCommitted a = true) :
    (s.raft n).commitIndex ≤ r.lastLogIndex ∧ (s.raft n).logBaseIndex ≤ r.logBaseIndex ∧
      (r.logBaseIndex ≤ (s.raft n).lastApplied ∨ r.logBaseIndex ≤ r.lastApplied) := by
  obtain ⟨hbase, happ, hcommit⟩ := ho
  cases h with
  | same _ h => rw [h.lastLogIndex, h.base]; exact ⟨hcommit, le_refl _, .inl hbase⟩
  | append _ cmd h =>
    have h1 := hi.lastLogIndex
    have h2 := hi'.lastLogIndex
    rw [h.base, h.log, List.length_append, List.length_singleton] at h2
    rw [h.base]
    exact ⟨by push_cast at h2; omega, le_refl _, .inl hbase⟩
  | merge call io src req hp _ h hsucc =>
    rw [h.base]
    refine ⟨hi.prefix_le_last hi' h.base hcommit ?_, le_refl _, .inl hbase⟩
    have hacc : s.accepts (.deliver call io) = some (src, n, req) := accepts_deliver hp hsucc
    rw [keepsCommitted, hacc, List.all_eq_true] at hk
    exact hi.merge_keeps h hk
  | install call io src req hp hr ht h =>
    have hlast := hi'.base_le_last
    have hb := h.base
    simp only [forwardSnapshot, hp, Bool.or_eq_true, decide_eq_true_eq] at hf
    simp only at hb
    refine ⟨by omega, by omega, ?_⟩
    rcases installSnapshot_progress (s.raft n) req (s.envOf n io) with ⟨_, he⟩ | ⟨_, he, _⟩
    · rw [hr, he]; exact .inl hbase
    · rw [← hr] at he; exact .inr (by omega)
  | snapshot _ snap h =>
    rw [hi.snapshotted_last h, h.compacts.base, h.own.index]
    exact ⟨hcommit, hbase, .inl (le_refl _)⟩

structure OrderInv (s : Cluster) : Prop where
  index : IndexInv s
  ordered : ∀ n, Ordered (s.raft n)

theorem OrderInv.inPlace (h : OrderInv s) (hok : s.orderKept a = true) : s.inPlace a = true := by
  simp only [orderKept, Bool.and_eq_true] at hok
  obtain ⟨⟨⟨hgap, hfit⟩, hforward⟩, _⟩ := hok
  simp only [Cluster.inPlace, Bool.and_eq_true]
  refine ⟨⟨hgap, hfit⟩, ?_⟩
  unfold forwardSnapshot at hforward
  unfold freshSnapshot
  split
  · split
    · rename_i call io _ src n req hp
      simp only [hp, Bool.or_eq_true, decide_eq_true_eq] at hforward ⊢
      have ho := h.ordered n
      have := ho.base
      have := ho.applied
      omega
    · rfl
  · rfl

theorem OrderInv.node (h : OrderInv s) (hok : s.orderKept a = true) (hs : s.step a = some s') (n : NodeID) :
    Ordered (s'.raft n) ∧ Forward (s.raft n) (s'.raft n) := by
  have hi' := (h.index.step (h.inPlace hok) hs).node n
  simp only [orderKept, Bool.and_eq_true] at hok
  have hstay : Ordered (s.raft n) ∧ Forward (s.raft n) (s.raft n) :=
    ⟨h.ordered n, le_refl _, le_refl _, le_refl _⟩
  rcases step_at hs n with heq | ⟨_, hm⟩
  · rw [heq]; exact hstay
  · obtain ⟨hcommit, hbase, happ⟩ := hm.logStep.ordered (h.index.node n) hi' (h.ordered n) hok.1.2 hok.2
    obtain ⟨h1, h2, h3, h4⟩ := hm.progress.ordered hi' (h.ordered n) hok.1.2 hcommit
    exact ⟨⟨by omega, h3, h4⟩, hbase, h1, h2⟩

theorem OrderInv.start (procs : List NodeID) (peersOf : NodeID → List NodeID) (snapshotter restorer : Bool) :
    OrderInv (Cluster.start procs peersOf snapshotter restorer) := by
  refine ⟨.start .., fun n => ?_⟩
  rw [start_raft]
  exact ⟨le_refl _, le_refl _, le_refl _⟩

/-- In every run that keeps the conditions `orderKept`, the indices of every node are in order, and the
next step moves none of them back. -/
theorem indices_ordered {h : List (Cluster × Action)} {s : Cluster}
    (hr : machine.Run (fun s a => s.orderKept a = true) h s) (n : NodeID) :
    Ordered (s.raft n) ∧
      ∀ a s', s.orderKept a = true → s.step a = some s' → Forward (s.raft n) (s'.raft n) := by
  have hinv : OrderInv s := by
    refine Machine.Run.invariant ?_ ?_ hr
    · rintro s ⟨procs, peersOf, snapshotter, restorer, _, rfl⟩
      exact .start ..
    · intro s a s' hi hok hs
      exact ⟨hi.index.step (hi.inPlace hok) hs, fun n => (hi.node hok hs n).1⟩
  exact ⟨hinv.ordered n, fun a s' hok hs => (hinv.node hok hs n).2⟩

/-- C, which missed both entries, gets the snapshot A took at the first one, and then the second entry
with A's commit index. -/
def snapshotThenAppend : List Action :=
  electA ++ [.propose "A" (.put [1] [2]) {}, .propose "A" (.put [3] [4]) {}, .run 1 .go {}, .run 1 .go {},
    .run 1 .go {}, .run 1 .go {}, .run 1 .go {}, .run 3 .go {}, .deliver 1 {}, .run 4 (.reply 1) {},
    .applierTake "A" {}, .forceSnapshot "A" {}, .run 1 .go {}, .run 3 .go {}, .run 3 .go {}, .run 3 .go {},
    .run 3 .go {}, .run 5 .go {}, .run 5 .go {}, .deliver 2 {}, .run 5 (.reply 2) {}, .run 4 .go {}, .run 4 .go {},
    .run 4 .go {}, .run 4 .go {}, .run 4 .go {}, .run 6 .go {}, .run 6 .go {}, .deliver 3 {}]

theorem indices_ordered_snapshotThenAppend :
    ∃ h s, machine.Run (fun s a => s.orderKept a = true) h s ∧ (s.raft "C").logBaseIndex = 1 ∧
      (s.raft "C").commitIndex = 2 ∧ Ordered (s.raft "C") := by
  obtain ⟨h, s, hr, hb, hc⟩ := Machine.exists_run (fun s a => Cluster.orderKept s a = true)
    (fun _ s => (s.raft "C").logBaseIndex = 1 ∧ (s.raft "C").commitIndex = 2)
    (machine_init threeNodes true false) snapshotThenAppend (by decide +kernel)
  exact ⟨h, s, hr, hb, hc, (indices_ordered hr "C").1⟩

/-- The same snapshot request once more takes the commit index of C back. -/
theorem repeatedSnapshot_goes_back :
    ∃ h s, machine.Run (fun s a => (s.noGap a && s.indicesFit && s.keepsCommitted a) = true) h s ∧
      (h.head?.map fun x => (x.1.raft "C").commitIndex) = some 2 ∧ (s.raft "C").commitIndex = 1 :=
  Machine.exists_run (fun s a => (Cluster.noGap s a && Cluster.indicesFit s && Cluster.keepsCommitted s a) = true)
    (fun h s => (h.head?.map fun x => (x.1.raft "C").commitIndex) = some 2 ∧ (s.raft "C").commitIndex = 1)
    (machine_init threeNodes true false) (snapshotThenAppend ++ [.deliver 2 {}]) (by decide +kernel)

end Cluster

end Mimori
