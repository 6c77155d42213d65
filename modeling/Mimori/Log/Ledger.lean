/-
The logs of a run as history: for each term who led it and the log its leader had. Every log of a node
is made of leaders' logs, every request carries a segment of one, and every snapshot stands at an entry
of one. A node may have compacted its log, so the log meant here is the one it would have without that.
-/
import Mimori.Log.Index

namespace Mimori

open Raft TermLog

/-- Who was elected in each term, and the log that node has, or had when it left the term. -/
structure Ledger where
  lead : Int → Option NodeID
  log : Int → List LogEntry
  vacant : ∀ T, lead T = none → log T = []
  path : ∀ T, Path LogEntry.term log (log T)
  terms : ∀ T, ∀ e ∈ log T, 0 ≤ e.term ∧ e.term ≤ T
  numbered : ∀ T, Numbered 1 (log T)

namespace Ledger

/-! ## Growth -/

/-- A log of a node in term `T`, made of leaders' logs. -/
structure Sound (L : Ledger) (T : Int) (p : List LogEntry) : Prop where
  path : Path LogEntry.term L.log p
  terms : ∀ e ∈ p, 0 ≤ e.term ∧ e.term ≤ T
  numbered : Numbered 1 p

/-- `L'` has what `L` has. -/
structure Extends (L L' : Ledger) : Prop where
  lead : ∀ T n, L.lead T = some n → L'.lead T = some n
  log : ∀ T, L.log T <+: L'.log T

variable {L L' : Ledger} {T T' : Int} {p : List LogEntry} {n : NodeID}

theorem Extends.refl (L : Ledger) : Extends L L := ⟨fun _ _ h => h, fun _ => List.prefix_rfl⟩

theorem sound_log (L : Ledger) (T : Int) : L.Sound T (L.log T) := ⟨L.path T, L.terms T, L.numbered T⟩

theorem Sound.mono (h : L.Sound T p) (hL : Extends L L') (hT : T ≤ T') : L'.Sound T' p :=
  ⟨h.path.mono hL.log, fun e he => ⟨(h.terms e he).1, le_trans (h.terms e he).2 hT⟩, h.numbered⟩

theorem Sound.take (h : L.Sound T p) (k : Nat) : L.Sound T (p.take k) :=
  ⟨h.path.take k, fun e he => h.terms e (List.mem_of_mem_take he), h.numbered.take k⟩

/-- `p` can become the log of the leader of term `T`. -/
structure Grows (L : Ledger) (T : Int) (p : List LogEntry) : Prop where
  pre : L.log T <+: p
  path : Path LogEntry.term (Function.update L.log T p) p
  terms : ∀ e ∈ p, 0 ≤ e.term ∧ e.term ≤ T
  numbered : Numbered 1 p

theorem Grows.log (h : L.Grows T p) (t : Int) : L.log t <+: Function.update L.log T p t := by
  rw [Function.update_apply]
  split
  · rename_i ht; rw [ht]; exact h.pre
  · exact List.prefix_rfl

/-- `n` leads term `T` with the log `p`. -/
def grow (L : Ledger) (T : Int) (n : NodeID) (p : List LogEntry) (h : L.Grows T p) : Ledger where
  lead := Function.update L.lead T (some n)
  log := Function.update L.log T p
  vacant := by
    intro t ht
    rw [Function.update_apply] at ht ⊢
    split at ht
    · cases ht
    · rename_i hne; rw [if_neg hne]; exact L.vacant t ht
  path := by
    intro t
    by_cases ht : t = T
    · subst ht; rw [Function.update_self]; exact h.path
    · rw [Function.update_of_ne ht]; exact (L.path t).mono h.log
  terms := by
    intro t
    by_cases ht : t = T
    · subst ht; rw [Function.update_self]; exact h.terms
    · rw [Function.update_of_ne ht]; exact L.terms t
  numbered := by
    intro t
    by_cases ht : t = T
    · subst ht; rw [Function.update_self]; exact h.numbered
    · rw [Function.update_of_ne ht]; exact L.numbered t

theorem grow_extends (h : L.Grows T p) (hn : L.lead T = none ∨ L.lead T = some n) : Extends L (L.grow T n p h) := by
  refine ⟨fun t m hm => ?_, h.log⟩
  show Function.update L.lead T (some n) t = some m
  rw [Function.update_apply]
  split
  · rename_i ht
    rw [ht] at hm
    rcases hn with hn | hn <;> rw [hn] at hm
    · cases hm
    · exact hm
  · exact hm

@[simp] theorem grow_log (h : L.Grows T p) : (L.grow T n p h).log = Function.update L.log T p := rfl

@[simp] theorem grow_lead (h : L.Grows T p) : (L.grow T n p h).lead = Function.update L.lead T (some n) := rfl

theorem Sound.grows (h : L.Sound T p) (hT : L.lead T = none) : L.Grows T p := by
  have hpre : L.log T <+: p := by rw [L.vacant T hT]; exact List.nil_prefix
  refine ⟨hpre, h.path.mono fun t => ?_, h.terms, h.numbered⟩
  rw [Function.update_apply]
  split
  · rename_i ht; rw [ht]; exact hpre
  · exact List.prefix_rfl

theorem grows_concat {e : LogEntry} (hT : 0 ≤ T) (ht : e.term = T) (hi : e.index = 1 + (L.log T).length) :
    L.Grows T (L.log T ++ [e]) := by
  refine ⟨List.prefix_append _ _, ?_, fun x hx => ?_, (L.numbered T).concat hi⟩
  · refine TermLog.Path.concat ((L.path T).mono fun t => ?_) ?_
    · rw [Function.update_apply]
      split
      · rename_i h; rw [h]; exact List.prefix_append _ _
      · exact List.prefix_rfl
    · rw [ht, Function.update_self]
  · rcases List.mem_append.1 hx with hx | hx
    · exact L.terms T x hx
    · rw [List.mem_singleton.1 hx, ht]; exact ⟨hT, le_refl _⟩

/-! ## What requests and snapshots carry -/

/-- `n` led term `T`, and `es` follow the first `prev` entries of its log, the last of which has term
`prevTerm`. -/
structure Segment (L : Ledger) (n : NodeID) (T prev prevTerm : Int) (es : List LogEntry) : Prop where
  lead : L.lead T = some n
  nonneg : 0 ≤ prev
  len : prev.toNat ≤ (L.log T).length
  prevTerm : prevTerm = termAt LogEntry.term 0 (L.log T) prev.toNat
  entries : ((L.log T).drop prev.toNat).take es.length = es

/-- The first `i` entries of some leader's log end in an entry of term `t`, which is at most `T`. -/
structure Anchored (L : Ledger) (T i t : Int) : Prop where
  nonneg : 0 ≤ t
  le : t ≤ T
  entry : i.toNat ≤ (L.log t).length ∧ termAt LogEntry.term 0 (L.log t) i.toNat = t

theorem Anchored.mono {i t : Int} (h : L.Anchored T i t) (hL : Extends L L') (hT : T ≤ T') : L'.Anchored T' i t := by
  refine ⟨h.nonneg, le_trans h.le hT, ?_⟩
  obtain ⟨hlen, hterm⟩ := h.entry
  obtain ⟨rest, hrest⟩ := hL.log t
  rw [← hrest, termAt_append hlen]
  exact ⟨by rw [List.length_append]; omega, hterm⟩

/-- Where a sound log has an entry there is an anchor. -/
theorem Sound.anchored (h : L.Sound T p) {i : Int} (hi : i.toNat ≤ p.length) {t : Int} (h0 : 0 ≤ t) (hT : t ≤ T)
    (ht : termAt LogEntry.term 0 p i.toNat = t) : L.Anchored T i t := by
  refine ⟨h0, hT, ?_⟩
  cases hk : i.toNat with
  | zero => exact ⟨Nat.zero_le _, by rw [hk] at ht; exact ht⟩
  | succ k =>
    rw [hk] at hi ht
    have hx := List.getElem?_eq_getElem (by omega : k < p.length)
    rw [termAt_succ hx] at ht
    have hpath := h.path k _ hx
    rw [ht] at hpath
    have hlen : k + 1 ≤ (L.log t).length := by
      have := congrArg List.length hpath
      simp only [List.length_take] at this
      omega
    refine ⟨hlen, ?_⟩
    rw [← termAt_take (le_refl _), hpath, termAt_take (le_refl _), termAt_succ hx, ht]

variable {prev prevTerm : Int} {es : List LogEntry}

theorem Segment.entries_length (h : L.Segment n T prev prevTerm es) : prev.toNat + es.length ≤ (L.log T).length := by
  have := congrArg List.length h.entries
  have hlen := h.len
  simp only [List.length_take, List.length_drop] at this
  omega

theorem Segment.mono (h : L.Segment n T prev prevTerm es) (hL : Extends L L') : L'.Segment n T prev prevTerm es := by
  obtain ⟨rest, hrest⟩ := hL.log T
  have hlen := h.len
  have hall := h.entries_length
  refine ⟨hL.lead T n h.lead, h.nonneg, ?_, ?_, ?_⟩
  · rw [← hrest, List.length_append]; omega
  · rw [← hrest, termAt_append hlen]; exact h.prevTerm
  · rw [← hrest, List.drop_append_of_le_length hlen, List.take_append_of_le_length (by rw [List.length_drop]; omega)]
    exact h.entries

theorem Segment.take (h : L.Segment n T prev prevTerm es) (k : Nat) : L.Segment n T prev prevTerm (es.take k) := by
  refine ⟨h.lead, h.nonneg, h.len, h.prevTerm, ?_⟩
  have := congrArg (List.take k) h.entries
  rw [List.take_take] at this
  rw [List.length_take]; exact this

theorem Segment.drop (h : L.Segment n T prev prevTerm es) {k : Nat} (hk : k < es.length) {e : LogEntry}
    (he : es[k]? = some e) : L.Segment n T (prev + (k + 1 : Nat)) e.term (es.drop (k + 1)) := by
  have hall := h.entries_length
  have hnn := h.nonneg
  have hidx : (prev + (k + 1 : Nat)).toNat = prev.toNat + (k + 1) := by omega
  have hget : (L.log T)[prev.toNat + k]? = some e := by
    rw [← List.getElem?_drop, ← he, ← congrArg (fun l => l[k]?) h.entries]
    simp only [List.getElem?_take, if_pos hk]
  refine ⟨h.lead, by omega, by omega, ?_, ?_⟩
  · rw [hidx, ← Nat.add_assoc, termAt_succ hget]
  · have hd := congrArg (List.drop (k + 1)) h.entries
    rw [List.drop_take, List.drop_drop] at hd
    rw [hidx, List.length_drop]; exact hd

end Ledger

namespace Raft

/-! ## Whole logs -/

/-- `p` is the log the node would have without compaction. -/
def Whole (r : Raft) (p : List LogEntry) : Prop := Window LogEntry.term 0 p r.logBaseIndex.toNat r.log

namespace Whole

variable {r r' : Raft} {p q : List LogEntry}

theorem log_length (h : Whole r p) : r.log.length + r.logBaseIndex.toNat = p.length + 1 := by
  obtain ⟨x, hlog, _⟩ := h.log
  have hlen := h.len
  rw [hlog, List.length_cons, List.length_drop]; omega

theorem lastLogIndex (h : Whole r p) (hi : Indexed r) : r.lastLogIndex = p.length := by
  have := hi.lastLogIndex
  have := hi.base
  have := h.log_length
  omega

/-- Beyond the base a node reads its whole log. -/
theorem entryAt (h : Whole r p) (hi : Indexed r) {i : Int} (hb : r.logBaseIndex < i) :
    r.entryAt i = p[i.toNat - 1]? := by
  have hb0 := hi.base
  rw [hi.entryAt (by omega), show (i - r.logBaseIndex).toNat = (i - r.logBaseIndex).toNat - 1 + 1 by omega,
    Window.getElem? h]
  congr 1
  omega

/-- At the base, too, the term is that of the whole log. -/
theorem entryAt_term (h : Whole r p) (hi : Indexed r) {i : Int} {e : LogEntry} (he : r.entryAt i = some e) :
    i.toNat ≤ p.length ∧ termAt LogEntry.term 0 p i.toNat = e.term := by
  obtain ⟨_, hb, hl⟩ := hi.entryAt_some he
  have hb0 := hi.base
  rw [h.lastLogIndex hi] at hl
  refine ⟨by omega, ?_⟩
  rcases lt_or_eq_of_le hb with hb | hb
  · rw [h.entryAt hi hb] at he
    rw [show i.toNat = i.toNat - 1 + 1 by omega, termAt_succ he]
  · obtain ⟨x, hlog, hx⟩ := h.log
    rw [hi.entryAt (le_of_eq hb), show (i - r.logBaseIndex).toNat = 0 by omega, hlog] at he
    cases he
    rw [← hb]; exact hx.symm

theorem lastLogTerm (h : Whole r p) : r.lastLogTerm = termAt LogEntry.term 0 p p.length := by
  obtain ⟨x, hlog, hx⟩ := h.log
  have hlen := h.len
  unfold Raft.lastLogTerm
  rw [hlog]
  cases hd : p.drop r.logBaseIndex.toNat with
  | nil =>
    have : p.length = r.logBaseIndex.toNat := by
      have := List.drop_eq_nil_iff.1 hd
      omega
    rw [this]; exact hx
  | cons y l =>
    have hpos : 0 < p.length - r.logBaseIndex.toNat := by
      rw [← List.length_drop, hd]; simp
    rw [← hd, List.getLast?_cons, List.getLast?_drop, if_neg (by omega), List.getLast?_eq_getElem?]
    obtain ⟨z, hz⟩ : ∃ z, p[p.length - 1]? = some z := ⟨_, List.getElem?_eq_getElem (by omega)⟩
    have hterm : termAt LogEntry.term 0 p (p.length - 1 + 1) = z.term := termAt_succ hz
    rw [hz, show p.length = p.length - 1 + 1 by omega, hterm]; rfl

theorem of_same (h : Whole r p) (hs : SameLog r r') : Whole r' p := by
  unfold Whole; rw [hs.base, hs.log]; exact h

theorem append (h : Whole r p) {cmd : Command} (ha : Appends r r' cmd) :
    Whole r' (p ++ [⟨r.lastLogIndex + 1, r.term, cmd⟩]) := by
  obtain ⟨x, hlog, hx⟩ := h.log
  have hlen := h.len
  unfold Whole
  rw [ha.base, ha.log]
  refine ⟨by rw [List.length_append]; omega, x, ?_, ?_⟩
  · rw [hlog, List.drop_append_of_le_length hlen]; rfl
  · rw [hx, termAt_append hlen]

/-- Compaction at an index that the log holds, with the term it has there. -/
theorem compact (h : Whole r p) (hi : Indexed r) {snap : Snapshot} (hc : Compacts r r' snap)
    (hb : r.logBaseIndex ≤ snap.lastIncludedIndex) (hl : snap.lastIncludedIndex ≤ r.lastLogIndex)
    (ht : termAt LogEntry.term 0 p snap.lastIncludedIndex.toNat = snap.lastIncludedTerm) : Whole r' p := by
  obtain ⟨x, hlog, _⟩ := h.log
  have hb0 := hi.base
  rw [h.lastLogIndex hi] at hl
  unfold Whole
  rw [hc.base, hc.log, hi.compact_eq, hlog]
  refine ⟨by omega, boundary snap.lastIncludedIndex snap.lastIncludedTerm, ?_, ht.symm⟩
  rw [show (snap.lastIncludedIndex - r.logBaseIndex + 1).toNat =
    (snap.lastIncludedIndex - r.logBaseIndex).toNat + 1 by omega, List.drop_succ_cons, List.drop_drop]
  congr 2
  omega

theorem snapshotted (h : Whole r p) (hi : Indexed r) {io : Io} {snap : Snapshot} (hs : Snapshotted r r' io snap) :
    Whole r' p := by
  obtain ⟨e, he, ht⟩ := hs.own.entry
  obtain ⟨_, hterm⟩ := h.entryAt_term hi he
  exact h.compact hi hs.compacts (hi.own_within hs.own).1 (hi.own_within hs.own).2 (by rw [hs.own.index, hterm, ht])

/-- Compaction at the end of the log or beyond it: what is below the snapshot is taken from the log `q`. -/
theorem compact_beyond (hi : Indexed r) {snap : Snapshot} (hc : Compacts r r' snap)
    (hl : r.lastLogIndex ≤ snap.lastIncludedIndex) (hq : snap.lastIncludedIndex.toNat ≤ q.length)
    (ht : termAt LogEntry.term 0 q snap.lastIncludedIndex.toNat = snap.lastIncludedTerm) :
    Whole r' (q.take snap.lastIncludedIndex.toNat) := by
  have hlast := hi.lastLogIndex
  have hb0 := hi.base
  unfold Whole
  rw [hc.base, hc.log, hi.compact_eq]
  refine ⟨by rw [List.length_take]; omega, boundary snap.lastIncludedIndex snap.lastIncludedTerm, ?_, ?_⟩
  · rw [List.drop_of_length_le (by omega), List.drop_of_length_le (by rw [List.length_take]; omega)]
  · rw [termAt_take (le_refl _)]; exact ht.symm

/-- Merging the segment `es` of the path `q` after the first `prev` entries. A log whose compacted part is that
of `q` stays as it is if it holds the segment already, and otherwise becomes `q` up to the end of the segment. -/
theorem merge {LL : Int → List LogEntry} (h : Whole r p) (hi : Indexed r) {req : AppendEntriesRequest}
    (hm : Merges r r' req) (hn : Numbered (req.prevLogIndex + 1) req.entries) (hp : Path LogEntry.term LL p)
    (hq : Path LogEntry.term LL q) (h0 : 0 ≤ req.prevLogIndex) (hlen : req.prevLogIndex.toNat ≤ q.length)
    (hprev : req.prevLogTerm = termAt LogEntry.term 0 q req.prevLogIndex.toNat)
    (hes : (q.drop req.prevLogIndex.toNat).take req.entries.length = req.entries) :
    ∃ p', Whole r' p' ∧ (p' = p ∨ p' = q.take (req.prevLogIndex.toNat + req.entries.length)) ∧
      (p.take r.logBaseIndex.toNat = q.take r.logBaseIndex.toNat →
        Overwritten p q (req.prevLogIndex.toNat + req.entries.length) p') := by
  have hb0 := hi.base
  unfold Whole
  rw [hm.base, hm.log]
  -- the log holds the previous entry, or the request starts from the beginning
  have hover : r.logBaseIndex ≤ req.prevLogIndex + 1 → req.prevLogIndex.toNat ≤ p.length →
      p.take req.prevLogIndex.toNat = q.take req.prevLogIndex.toNat →
      ∃ p', Window LogEntry.term 0 p' r.logBaseIndex.toNat (mergeEntries r.logBaseIndex r.log req.entries) ∧
        (p' = p ∨ p' = q.take (req.prevLogIndex.toNat + req.entries.length)) ∧
        (p.take r.logBaseIndex.toNat = q.take r.logBaseIndex.toNat →
          Overwritten p q (req.prevLogIndex.toNat + req.entries.length) p') := by
    intro hb hk hpre
    obtain ⟨p', hw, hp'⟩ := Window.overwrite hp hq h
      (by omega : r.logBaseIndex.toNat ≤ req.prevLogIndex.toNat + 1) hk hpre hes
    rw [mergeEntries_eq_splice hn hb,
      show (req.prevLogIndex + 1 - r.logBaseIndex).toNat = req.prevLogIndex.toNat + 1 - r.logBaseIndex.toNat by omega]
    exact ⟨p', hw, hp'.imp And.left And.left, fun _ => hp'⟩
  rcases logConsistent_cases hm.consistent with hz | ⟨e, he, ht⟩
  · have hz : req.prevLogIndex.toNat = 0 := by omega
    rcases Int.lt_or_le 1 r.logBaseIndex with hb | hb
    · -- the entries below the base are skipped, whatever they are
      obtain ⟨k, hk⟩ : ∃ k, r.logBaseIndex.toNat = k + 1 := ⟨r.logBaseIndex.toNat - 1, by omega⟩
      have hw : Window LogEntry.term 0 p (k + 1) r.log := hk ▸ h
      have hskip : mergeEntries r.logBaseIndex r.log req.entries =
          splice LogEntry.term r.log 0 (req.entries.drop k) := by
        have hd := hn.drop k
        rw [show req.prevLogIndex + 1 + (k : Int) = (r.logBaseIndex - 1) + 1 by omega] at hd
        rw [mergeEntries_skip hn (by omega), show (r.logBaseIndex - (req.prevLogIndex + 1)).toNat = k by omega,
          mergeEntries_eq_splice hd (by omega), show (r.logBaseIndex - 1 + 1 - r.logBaseIndex).toNat = 0 by omega]
      rw [hskip, hk]
      rcases Nat.lt_or_ge k req.entries.length with hlt | hge
      · have hes' : (q.drop k).take (req.entries.drop k).length = req.entries.drop k := by
          have hd := congrArg (List.drop k) hes
          rw [hz, List.drop_zero, List.drop_take] at hd
          rw [List.length_drop]; exact hd
        obtain ⟨p', hw', hp'⟩ := hw.overwrite_base hp hq hes'
        rw [List.length_drop, show k + (req.entries.length - k) = req.prevLogIndex.toNat + req.entries.length by
          omega] at hp'
        exact ⟨p', hw', hp'⟩
      · rw [List.drop_of_length_le hge]
        exact ⟨p, hw, .inl rfl, fun hpre => .inl ⟨rfl, take_eq_of_le hpre (by omega)⟩⟩
    · exact hover (by omega) (by omega) (by rw [hz]; rfl)
  · obtain ⟨hk, hterm⟩ := h.entryAt_term hi he
    have hbase := (hi.entryAt_some he).2.1
    exact hover (by omega) hk (hp.agree_termAt hq hk hlen (by rw [hterm, ht, hprev]))

end Whole

end Raft

end Mimori
