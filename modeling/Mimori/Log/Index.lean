/-
Log positions and indices. The entry at position `k` of a log has index `logBaseIndex + k`, and the
entries of a request follow its previous index without a gap. This holds in every run in which no
batch is skipped for want of a pipeline permit, indices fit the messages, and no snapshot older than
the log is installed.
-/
import Mimori.Cluster.Fixed
import Mimori.Base.TermLog
import Mathlib.Tactic

namespace Mimori

open Raft

/-! ## Numbered entries -/

/-- The entries have the indices `b`, `b + 1`, … -/
def Numbered (b : Int) (l : List LogEntry) : Prop := ∀ (k : Nat) (e : LogEntry), l[k]? = some e → e.index = b + k

namespace Numbered

variable {b : Int} {l : List LogEntry} {e : LogEntry}

theorem nil : Numbered b [] := by
  intro k e h; simp at h

theorem cons_iff : Numbered b (e :: l) ↔ e.index = b ∧ Numbered (b + 1) l := by
  constructor
  · intro h
    refine ⟨by simpa using h 0 e rfl, fun k x hx => ?_⟩
    have := h (k + 1) x (by simpa using hx)
    push_cast at this; omega
  · rintro ⟨h1, h2⟩ k x hx
    cases k with
    | zero => cases hx; simpa using h1
    | succ k =>
      have := h2 k x (by simpa using hx)
      push_cast; omega

instance instDecidable : ∀ (b : Int) (l : List LogEntry), Decidable (Numbered b l)
  | _, [] => isTrue nil
  | b, e :: l =>
    have := instDecidable (b + 1) l
    decidable_of_iff (e.index = b ∧ Numbered (b + 1) l) cons_iff.symm

theorem take (h : Numbered b l) (n : Nat) : Numbered b (l.take n) := by
  intro k x hx
  rw [List.getElem?_take] at hx
  split at hx
  · exact h k x hx
  · cases hx

theorem drop (h : Numbered b l) (n : Nat) : Numbered (b + n) (l.drop n) := by
  intro k x hx
  rw [List.getElem?_drop] at hx
  have := h (n + k) x hx
  push_cast at this; omega

theorem concat (h : Numbered b l) (he : e.index = b + l.length) : Numbered b (l ++ [e]) := by
  intro k x hx
  rcases Nat.lt_or_ge k l.length with hk | hk
  · rw [List.getElem?_append_left hk] at hx; exact h k x hx
  · rw [List.getElem?_append_right hk] at hx
    have h0 : k - l.length = 0 := by
      have := (List.getElem?_eq_some_iff.1 hx).1
      simpa using this
    rw [h0] at hx
    cases hx
    have : k = l.length := by omega
    rw [this]; exact he

theorem unique (h : Numbered b l) {x y : LogEntry} (hx : x ∈ l) (hy : y ∈ l) (hxy : x.index = y.index) : x = y := by
  obtain ⟨i, hi⟩ := List.mem_iff_getElem?.1 hx
  obtain ⟨j, hj⟩ := List.mem_iff_getElem?.1 hy
  have h1 := h i x hi
  have h2 := h j y hj
  obtain rfl : i = j := by omega
  rw [hi] at hj
  exact Option.some.inj hj

theorem filter_eq_drop : ∀ {l : List LogEntry} {b : Int} {i : Int}, Numbered b l →
    l.filter (fun e => decide (i < e.index)) = l.drop (i - b + 1).toNat
  | [], _, _, _ => by simp
  | e :: l, b, i, h => by
    obtain ⟨h1, h2⟩ := cons_iff.1 h
    have ih : l.filter (fun e => decide (i < e.index)) = l.drop (i - (b + 1) + 1).toNat := filter_eq_drop h2
    rw [List.filter_cons, h1, ih]
    by_cases hi : i < b
    · have hz : (i - b + 1).toNat = 0 := by omega
      have hz' : (i - (b + 1) + 1).toNat = 0 := by omega
      rw [hz, hz']; simp [hi]
    · have hs : (i - b + 1).toNat = (i - (b + 1) + 1).toNat + 1 := by omega
      rw [hs, List.drop_succ_cons]; simp [hi]

theorem compact (h : Numbered b l) {i : Int} (hi : b ≤ i) (t : Int) : Numbered i (Raft.compact l i t) := by
  have hd := h.drop (i - b + 1).toNat
  rw [show b + ((i - b + 1).toNat : Int) = i + 1 by omega] at hd
  unfold Raft.compact
  rw [h.filter_eq_drop]
  exact cons_iff.2 ⟨rfl, hd⟩

end Numbered

namespace Raft

variable {r : Raft} {i b : Int}

theorem entryAt_getElem? (hi : r.logBaseIndex ≤ i) : r.entryAt i = r.log[(i - r.logBaseIndex).toNat]? := by
  unfold entryAt
  split
  · rename_i he
    rw [List.isEmpty_iff.1 he]; simp
  · rw [if_neg (by omega)]
    simp only
    split
    · rename_i hc
      rw [eq_comm, List.getElem?_eq_none_iff]
      omega
    · rfl

theorem base_le_of_entryAt {e : LogEntry} (he : r.entryAt i = some e) : r.logBaseIndex ≤ i := by
  by_contra hlt
  unfold entryAt at he
  rw [if_pos (by omega : i < r.logBaseIndex)] at he
  split at he <;> cases he

theorem entryAt_eq_none (h : i < r.logBaseIndex) : r.entryAt i = none := by
  unfold entryAt
  rw [if_pos h, ite_self]

/-! ## Logs in place -/

/-- Positions and indices of the log agree, and the base is that of the snapshot in memory. -/
structure Indexed (r : Raft) : Prop where
  base : 0 ≤ r.logBaseIndex
  ne : r.log ≠ []
  numbered : Numbered r.logBaseIndex r.log
  snapshot : ∀ snap, r.snapshot = some snap → snap.lastIncludedIndex = r.logBaseIndex
  fresh : r.snapshot = none → r.logBaseIndex = 0 ∧ r.disk.snapFile = none

namespace Indexed

variable {r r' : Raft}

theorem length_pos (h : Indexed r) : 0 < r.log.length := List.length_pos_iff.2 h.ne

theorem lastLogIndex (h : Indexed r) : r.lastLogIndex + 1 = r.logBaseIndex + r.log.length := by
  have hl := h.length_pos
  have hlast : r.log.getLast? = r.log[r.log.length - 1]? := List.getLast?_eq_getElem? ..
  unfold Raft.lastLogIndex
  rw [hlast, List.getElem?_eq_getElem (by omega)]
  have := h.numbered (r.log.length - 1) _ (List.getElem?_eq_getElem (by omega))
  simp only
  omega

theorem base_le_last (h : Indexed r) : r.logBaseIndex ≤ r.lastLogIndex := by
  have := h.lastLogIndex
  have := h.length_pos
  omega

theorem entryAt (_h : Indexed r) {i : Int} (hi : r.logBaseIndex ≤ i) :
    r.entryAt i = r.log[(i - r.logBaseIndex).toNat]? := entryAt_getElem? hi

theorem entryAt_some (h : Indexed r) {i : Int} {e : LogEntry} (he : r.entryAt i = some e) :
    e.index = i ∧ r.logBaseIndex ≤ i ∧ i ≤ r.lastLogIndex := by
  have hi := base_le_of_entryAt he
  rw [h.entryAt hi] at he
  have hlen := (List.getElem?_eq_some_iff.1 he).1
  have hidx := h.numbered _ e he
  have := h.lastLogIndex
  omega

theorem own_within (h : Indexed r) {snap : Snapshot} (ho : OwnSnapshot r snap) :
    r.logBaseIndex ≤ snap.lastIncludedIndex ∧ snap.lastIncludedIndex ≤ r.lastLogIndex := by
  obtain ⟨e, he, _⟩ := ho.entry
  rw [ho.index]
  exact (h.entryAt_some he).2

theorem entryAt_isSome (h : Indexed r) {i : Int} (hb : r.logBaseIndex ≤ i) (hl : i ≤ r.lastLogIndex) :
    ∃ e, r.entryAt i = some e := by
  have := h.lastLogIndex
  rw [h.entryAt hb, List.getElem?_eq_getElem (by omega)]
  exact ⟨_, rfl⟩

/-- `entryAt` finds exactly the entry it is asked for. -/
theorem entryAt_iff (h : Indexed r) {i : Int} {e : LogEntry} : r.entryAt i = some e ↔ e ∈ r.log ∧ e.index = i := by
  refine ⟨fun he => ⟨entryAt_mem he, (h.entryAt_some he).1⟩, ?_⟩
  rintro ⟨hm, rfl⟩
  obtain ⟨k, hk⟩ := List.mem_iff_getElem?.1 hm
  have hidx := h.numbered k e hk
  have hpos : (e.index - r.logBaseIndex).toNat = k := by omega
  rw [h.entryAt (by omega), hpos]
  exact hk

theorem of_sameLog (h : Indexed r) (hs : SameLog r r') : Indexed r' := by
  refine ⟨by rw [hs.base]; exact h.base, by rw [hs.log]; exact h.ne, by rw [hs.base, hs.log]; exact h.numbered, ?_, ?_⟩
  · intro snap hsn; rw [hs.snapshot] at hsn; rw [hs.base]; exact h.snapshot snap hsn
  · intro hn; rw [hs.snapshot] at hn; rw [hs.base, hs.file]; exact h.fresh hn

theorem append (h : Indexed r) {cmd : Command} (ha : Appends r r' cmd) : Indexed r' := by
  have hl := h.lastLogIndex
  refine ⟨by rw [ha.base]; exact h.base, by rw [ha.log]; simp, ?_, ?_, ?_⟩
  · rw [ha.base, ha.log]; exact h.numbered.concat (by simp only; omega)
  · intro snap hsn; rw [ha.snapshot] at hsn; rw [ha.base]; exact h.snapshot snap hsn
  · intro hn; rw [ha.snapshot] at hn; rw [ha.base, ha.file]; exact h.fresh hn

/-- The log after compaction at an index it does not lie beyond. -/
theorem compact_eq (h : Indexed r) (i t : Int) :
    compact r.log i t = boundary i t :: r.log.drop (i - r.logBaseIndex + 1).toNat := by
  unfold compact
  rw [← h.numbered.filter_eq_drop]

theorem compact (h : Indexed r) {snap : Snapshot} (hc : Compacts r r' snap)
    (hi : r.logBaseIndex ≤ snap.lastIncludedIndex) : Indexed r' := by
  have hb := h.base
  refine ⟨by rw [hc.base]; omega, by rw [hc.log]; unfold Raft.compact; simp, ?_, ?_, ?_⟩
  · rw [hc.base, hc.log]; exact h.numbered.compact hi _
  · intro s hs; rw [hc.snapshot] at hs; cases hs; exact hc.base.symm
  · intro hn; rw [hc.snapshot] at hn; cases hn

end Indexed

/-! ## Reading the log -/

theorem filterMap_range_getElem? : ∀ l : List LogEntry, (List.range l.length).filterMap (fun k => l[k]?) = l
  | [] => rfl
  | x :: l => by
    rw [List.length_cons, List.range_succ_eq_map, List.filterMap_cons, List.filterMap_map]
    simpa [Function.comp_def] using filterMap_range_getElem? l

/-- The entries from index `lo` to the end of the log. -/
theorem Indexed.filterMap_entryAt (h : Indexed r) {lo : Int} (hlo : r.logBaseIndex ≤ lo) :
    (indices lo r.lastLogIndex).filterMap r.entryAt = r.log.drop (lo - r.logBaseIndex).toNat := by
  have hl := h.lastLogIndex
  have hread : ∀ k : Nat, r.entryAt (lo + k) = (r.log.drop (lo - r.logBaseIndex).toNat)[k]? := by
    intro k
    rw [h.entryAt (by omega), List.getElem?_drop]
    congr 1
    omega
  have hlen : (r.lastLogIndex - lo + 1).toNat = (r.log.drop (lo - r.logBaseIndex).toNat).length := by
    rw [List.length_drop]; omega
  unfold indices
  rw [List.filterMap_map, hlen]
  have hfun : (r.entryAt ∘ fun k : Nat => lo + (k : Int)) = fun k => (r.log.drop (lo - r.logBaseIndex).toNat)[k]? :=
    funext hread
  rw [hfun]
  exact filterMap_range_getElem? _

/-- What `sendHeartbeats` reads for a peer that is not behind the snapshot. -/
structure Reads (r : Raft) (a : AppendArgs) : Prop where
  base : r.logBaseIndex ≤ a.prevLogIndex
  last : a.prevLogIndex ≤ r.lastLogIndex
  prevTerm : ∃ e, r.entryAt a.prevLogIndex = some e ∧ a.prevLogTerm = e.term
  entries : a.entries = (r.log.drop (a.prevLogIndex + 1 - r.logBaseIndex).toNat).map LogEntry.toWire
  commit : a.freshCommit = r.commitIndex

/-- Every recorded `nextIndex` is positive. -/
def NextPos (r : Raft) : Prop := ∀ p v, r.nextIndex p = some v → 1 ≤ v

theorem heartbeatTo_reads (h : Indexed r) {p : NodeID} (hn : ∀ v, r.nextIndex p = some v → 1 ≤ v) {T : Int}
    {leaderID : NodeID} {args : AppendArgs} (hb : r.heartbeatTo T leaderID p = .batches args) :
    Reads r args ∧ args.peer = p ∧ args.term = T ∧ args.leaderID = leaderID := by
  -- a peer at or below the base is behind the snapshot
  have hnext : r.behindSnapshot (r.nextIdx p) = false → r.logBaseIndex + 1 ≤ r.nextIdx p := by
    intro hbs
    by_contra hc
    cases hsn : r.snapshot with
    | some snap =>
      have := h.snapshot snap hsn
      simp only [behindSnapshot, hsn, decide_eq_false_iff_not] at hbs
      omega
    | none =>
      have hb0 := (h.fresh hsn).1
      unfold nextIdx IndexMap.get at hc
      cases hv : r.nextIndex p with
      | none => simp [hv, hb0] at hc
      | some v =>
        have := hn v hv
        simp only [hv, Option.getD_some] at hc
        split at hc <;> omega
  obtain ⟨hbs, hlast, rfl⟩ := heartbeatTo_batches hb
  have hge := hnext hbs
  have hbase : r.logBaseIndex ≤ r.nextIdx p - 1 := by omega
  obtain ⟨e, he⟩ := h.entryAt_isSome hbase hlast
  refine ⟨⟨hbase, hlast, ⟨e, he, by simp [he]⟩, ?_, rfl⟩, rfl, rfl, rfl⟩
  simp only
  rw [h.filterMap_entryAt (by omega)]
  congr 3
  omega

/-- A successful answer stands for the last index of its request. -/
theorem ackedIndex_eq {a : AppendArgs} (h : Numbered (a.prevLogIndex + 1) a.entries) :
    ackedIndex a = a.prevLogIndex + a.entries.length := by
  unfold ackedIndex
  rw [List.getLast?_eq_getElem?]
  cases he : a.entries[a.entries.length - 1]? with
  | none =>
    have := List.getElem?_eq_none_iff.1 he
    simp only; omega
  | some e =>
    have hlen := (List.getElem?_eq_some_iff.1 he).1
    have := h _ e he
    simp only; omega

/-! ## Writing the log -/

theorem mergeEntries_cons (b : Int) (log : List LogEntry) (e : LogEntry) (es : List LogEntry) :
    mergeEntries b log (e :: es) = mergeEntries b (mergeEntry b log e) es := rfl

/-- Entries below the base are skipped; from the base on, merging is overwriting in place. -/
theorem mergeEntries_eq_splice :
    ∀ {es log : List LogEntry} {prev : Int}, Numbered (prev + 1) es → b ≤ prev + 1 →
      mergeEntries b log es = TermLog.splice LogEntry.term log (prev + 1 - b).toNat es
  | [], _, _, _, _ => rfl
  | e :: es, log, prev, hn, hb => by
    obtain ⟨h1, h2⟩ := Numbered.cons_iff.1 hn
    have hoff : e.index - b = prev + 1 - b := by rw [h1]
    have hnext : (prev + 1 + 1 - b).toNat = (prev + 1 - b).toNat + 1 := by omega
    have ih : ∀ log, mergeEntries b log es = TermLog.splice LogEntry.term log ((prev + 1 - b).toNat + 1) es := by
      intro log
      rw [← hnext]
      exact mergeEntries_eq_splice h2 (by omega)
    rw [mergeEntries_cons]
    unfold mergeEntry TermLog.splice
    simp only [hoff]
    rw [if_neg (by omega)]
    cases log[(prev + 1 - b).toNat]? with
    | none => exact ih _
    | some old =>
      simp only
      split
      · exact ih _
      · exact ih _

theorem mergeEntries_skip {log : List LogEntry} :
    ∀ {es : List LogEntry} {prev : Int}, Numbered (prev + 1) es → prev + 1 ≤ b →
      mergeEntries b log es = mergeEntries b log (es.drop (b - (prev + 1)).toNat)
  | [], _, _, _ => by simp
  | e :: es, prev, hn, hb => by
    obtain ⟨h1, h2⟩ := Numbered.cons_iff.1 hn
    by_cases heq : prev + 1 = b
    · have hz : (b - (prev + 1)).toNat = 0 := by omega
      rw [hz, List.drop_zero]
    · have hs : (b - (prev + 1)).toNat = (b - (prev + 1 + 1)).toNat + 1 := by omega
      have hskip : mergeEntry b log e = log := by
        unfold mergeEntry
        simp only
        rw [if_pos (by omega)]
      rw [mergeEntries_cons, hskip, hs, List.drop_succ_cons]
      exact mergeEntries_skip h2 (by omega)

/-- One turn of the loop keeps positions and indices in step, for an entry inside the log or right
after it. -/
theorem mergeEntry_numbered {log : List LogEntry} {e : LogEntry} (hn : Numbered b log) (hne : log ≠ [])
    (hi : e.index ≤ b + log.length) :
    Numbered b (mergeEntry b log e) ∧ mergeEntry b log e ≠ [] ∧ e.index + 1 ≤ b + (mergeEntry b log e).length := by
  have hpos : 0 < log.length := List.length_pos_iff.2 hne
  unfold mergeEntry
  simp only
  split
  · rename_i hneg
    exact ⟨hn, hne, by omega⟩
  · rename_i hoff
    cases hold : log[(e.index - b).toNat]? with
    | none =>
      have hlen : log.length ≤ (e.index - b).toNat := List.getElem?_eq_none_iff.1 hold
      simp only
      refine ⟨hn.concat (by omega), by simp, ?_⟩
      rw [List.length_append, List.length_singleton]; push_cast; omega
    | some old =>
      have hlen : (e.index - b).toNat < log.length := (List.getElem?_eq_some_iff.1 hold).1
      simp only
      split
      · refine ⟨(hn.take _).concat ?_, by simp, ?_⟩
        · rw [List.length_take]; omega
        · rw [List.length_append, List.length_take, List.length_singleton]; omega
      · exact ⟨hn, hne, by omega⟩

theorem mergeEntries_numbered :
    ∀ {es log : List LogEntry} {prev : Int}, Numbered b log → log ≠ [] → Numbered (prev + 1) es →
      prev + 1 ≤ b + log.length → Numbered b (mergeEntries b log es) ∧ mergeEntries b log es ≠ []
  | [], _, _, hn, hne, _, _ => ⟨hn, hne⟩
  | e :: es, log, prev, hn, hne, hes, hp => by
    obtain ⟨h1, h2⟩ := Numbered.cons_iff.1 hes
    obtain ⟨m1, m2, m3⟩ := mergeEntry_numbered hn hne (by omega : e.index ≤ b + log.length)
    rw [mergeEntries_cons]
    exact mergeEntries_numbered m1 m2 h2 (by omega)

/-- The consistency check finds the previous index inside the log, or it is 0. -/
theorem logConsistent_cases {t : Int} (hc : r.logConsistent i t = true) :
    i ≤ 0 ∨ ∃ e, r.entryAt i = some e ∧ e.term = t := by
  unfold logConsistent at hc
  split at hc
  · split at hc
    · cases hc
    · split at hc
      · cases hc
      · rename_i e he; exact .inr ⟨e, he, by simpa using hc⟩
  · exact .inl (by omega)

theorem Indexed.merge {r' : Raft} (h : Indexed r) {req : AppendEntriesRequest} (hm : Merges r r' req)
    (hn : Numbered (req.prevLogIndex + 1) req.entries) : Indexed r' := by
  have hl := h.lastLogIndex
  have hprev : req.prevLogIndex + 1 ≤ r.logBaseIndex + r.log.length := by
    rcases logConsistent_cases hm.consistent with hz | ⟨e, he, _⟩
    · have := h.base
      have := h.length_pos
      omega
    · have := (h.entryAt_some he).2.2
      omega
  obtain ⟨h1, h2⟩ := mergeEntries_numbered h.numbered h.ne hn hprev
  refine ⟨by rw [hm.base]; exact h.base, by rw [hm.log]; exact h2, by rw [hm.base, hm.log]; exact h1, ?_, ?_⟩
  · intro snap hs; rw [hm.snapshot] at hs; rw [hm.base]; exact h.snapshot snap hs
  · intro hs; rw [hm.snapshot] at hs; rw [hm.base, hm.file]; exact h.fresh hs

end Raft

end Mimori
