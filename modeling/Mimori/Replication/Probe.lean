/-
How a peer catches up with a leader, one exchange after the other, whatever both have compacted. A leader sends from
`nextIndex` on. As long as the peer's log differs before that, `nextIndex` goes back by one; from there on every batch is
accepted, and cuts off what the peer has beyond it. So the peer never commits more than the batch has shown to be common.
-/
import Mimori.Log.Merge
import Mimori.Replication.Rounds

namespace Mimori

namespace Raft

variable {r r' q q' : Raft} {p : NodeID} {a : AppendArgs} {i k T : Int}

/-! ## What two logs share -/

/-- Both logs have an entry of index `i`, of one term. -/
def Shares (r q : Raft) (i : Int) : Prop := ∃ t, r.entryTerm i = some t ∧ q.entryTerm i = some t

theorem entryTerm_sameLog (h : SameLog r r') (i : Int) : r'.entryTerm i = r.entryTerm i := by
  unfold entryTerm
  rw [h.entryAt]

theorem Shares.congr (h : Shares r q i) (hr : r'.entryTerm i = r.entryTerm i) (hq : q'.entryTerm i = q.entryTerm i) :
    Shares r' q' i := by
  obtain ⟨t, h1, h2⟩ := h
  exact ⟨t, hr.trans h1, hq.trans h2⟩

theorem shares_sameLog (hr : SameLog r r') (hq : SameLog q q') : Shares r' q' i ↔ Shares r q i := by
  constructor
  · rintro h
    exact h.congr (entryTerm_sameLog hr i).symm (entryTerm_sameLog hq i).symm
  · rintro h
    exact h.congr (entryTerm_sameLog hr i) (entryTerm_sameLog hq i)

theorem Shares.le_last (h : Shares r q i) (hq : Indexed q) : i ≤ q.lastLogIndex := by
  obtain ⟨t, _, ht⟩ := h
  obtain ⟨e, he, _⟩ := Option.map_eq_some_iff.1 ht
  exact (hq.entryAt_some he).2.2

/-! ## What a leader sends -/

/-- A peer whose next index lies in the log is sent entries. -/
theorem heartbeatTo_within (hi : Indexed r) (hn : r.nextIndex p = some k) (hlo : r.logBaseIndex < k)
    (hhi : k ≤ r.lastLogIndex + 1) (T : Int) (leaderID : NodeID) :
    ∃ args, r.heartbeatTo T leaderID p = .batches args ∧ args.prevLogIndex = k - 1 := by
  have hb := hi.base
  have hnext : r.nextIdx p = k := by
    unfold nextIdx IndexMap.get
    rw [hn, Option.getD_some, if_neg (by omega)]
  have hsnap : r.behindSnapshot k = false := by
    unfold behindSnapshot
    cases hs : r.snapshot with
    | none => rfl
    | some snap =>
      have := hi.snapshot snap hs
      exact decide_eq_false (by omega)
  unfold heartbeatTo
  simp only [hnext, hsnap, Bool.false_eq_true, if_false]
  rw [if_neg (by omega)]
  exact ⟨_, rfl, rfl⟩

/-- The arguments of a batch for `p` from index `k` on: the entry before it, and some of the entries that follow. -/
structure Sends (r : Raft) (p : NodeID) (k : Int) (a : AppendArgs) : Prop where
  peer : a.peer = p
  term : a.term = r.term
  leader : a.leaderID = r.id
  prev : a.prevLogIndex = k - 1
  prevTerm : r.entryTerm (k - 1) = some a.prevLogTerm
  entries : a.entries <+: r.log.drop (k - r.logBaseIndex).toNat
  some : a.entries ≠ []

/-- What the leader reads for a peer with entries to come begins with such a batch. -/
theorem heartbeatTo_sends (hi : Indexed r) (hfit : EntriesFit r.log) (hn : r.nextIndex p = some k)
    (hlo : r.logBaseIndex < k) (hhi : k ≤ r.lastLogIndex) :
    ∃ args, r.heartbeatTo r.term r.id p = .batches args ∧ args.entries ≠ [] ∧ Sends r p k (currentBatch args) := by
  have hb := hi.base
  have hlast := hi.lastLogIndex
  obtain ⟨args, hargs, hprev⟩ := heartbeatTo_within hi hn hlo (by omega) r.term r.id
  obtain ⟨hreads, hpeer, hterm, hleader⟩ := heartbeatTo_reads hi (fun v hv => by
    rw [hn] at hv
    cases hv
    omega) hargs
  have hentries : args.entries = r.log.drop (k - r.logBaseIndex).toNat := by
    have hwire : (r.log.drop (k - r.logBaseIndex).toNat).map LogEntry.toWire = r.log.drop (k - r.logBaseIndex).toNat := by
      conv_rhs => rw [← List.map_id (r.log.drop _)]
      exact List.map_congr_left fun e he => toWire_eq (hfit e (List.mem_of_mem_drop he))
    rw [hreads.entries, hprev, Int.sub_add_cancel, hwire]
  have hne : args.entries ≠ [] := by
    rw [hentries]
    intro h
    have := List.drop_eq_nil_iff.1 h
    omega
  refine ⟨args, hargs, hne, hpeer, hterm, hleader, hprev, ?_, ?_, ?_⟩
  · obtain ⟨e, he, ht⟩ := hreads.prevTerm
    rw [hprev] at he
    rw [entryTerm, he]
    exact congrArg Option.some ht.symm
  · rw [← hentries]
    exact List.take_prefix _ _
  · intro h
    rcases List.take_eq_nil_iff.1 h with h | h
    · cases h
    · exact hne h

namespace Sends

theorem getElem? (h : Sends r p k a) {j : Nat} (hj : j < a.entries.length) :
    a.entries[j]? = r.log[(k - r.logBaseIndex).toNat + j]? := by
  obtain ⟨rest, hrest⟩ := h.entries
  rw [← List.getElem?_drop, ← hrest, List.getElem?_append_left hj]

theorem numbered (h : Sends r p k a) (hi : Indexed r) (hlo : r.logBaseIndex < k) : Numbered k a.entries := by
  intro j e he
  have hj := (List.getElem?_eq_some_iff.1 he).1
  rw [h.getElem? hj] at he
  have := hi.numbered _ e he
  omega

theorem last_le (h : Sends r p k a) (hi : Indexed r) (hlo : r.logBaseIndex < k) :
    k - 1 + a.entries.length ≤ r.lastLogIndex := by
  obtain ⟨rest, hrest⟩ := h.entries
  have hlen := congrArg List.length hrest
  have hpos := List.length_pos_iff.2 h.some
  rw [List.length_append, List.length_drop] at hlen
  have := hi.lastLogIndex
  omega

theorem request (h : Sends r p k a) (hi : Indexed r) (hfit : EntriesFit r.log) (hT : Fits r.term) :
    (appendEntriesRequest a).term = r.term ∧ (appendEntriesRequest a).leaderId = r.id ∧
      (appendEntriesRequest a).prevLogIndex = k - 1 ∧ (appendEntriesRequest a).prevLogTerm = a.prevLogTerm ∧
      (appendEntriesRequest a).entries = a.entries := by
  obtain ⟨e, he, hterm⟩ := Option.map_eq_some_iff.1 h.prevTerm
  have hidx := (hi.entryAt_some he).1
  have hmem : e ∈ r.log := by
    rw [hi.entryAt (base_le_of_entryAt he)] at he
    exact List.mem_of_getElem? he
  obtain ⟨hfi, hft⟩ := hfit e hmem
  refine ⟨?_, h.leader, ?_, ?_, rfl⟩
  · show int32 a.term = r.term
    rw [h.term, int32_of_fits hT]
  · show int32 a.prevLogIndex = k - 1
    rw [h.prev, ← hidx, int32_of_fits hfi]
  · show int32 a.prevLogTerm = a.prevLogTerm
    rw [← hterm, int32_of_fits hft]

end Sends

/-! ## A peer that lags -/

/-- Peer `p`, in the state `q`, still lacks the leader's entry of its next index `k`. Neither of the two has compacted it,
and they share the last entry that one of them has. -/
structure Lags (r q : Raft) (p : NodeID) (k : Int) : Prop where
  next : r.nextIndex p = some k
  base : r.logBaseIndex < k ∧ q.logBaseIndex < k
  within : k ≤ r.lastLogIndex
  differ : ¬ Shares r q k
  common : Shares r q (max r.logBaseIndex q.logBaseIndex)

namespace Lags

theorem congr (h : Lags r q p k) (hr : SameLog r r') (hn : r'.nextIndex p = r.nextIndex p) : Lags r' q p k := by
  refine ⟨hn.trans h.next, ?_, ?_, ?_, ?_⟩
  · rw [hr.base]; exact h.base
  · rw [hr.lastLogIndex]; exact h.within
  · rw [shares_sameLog hr (.refl q)]; exact h.differ
  · rw [hr.base, shares_sameLog hr (.refl q)]; exact h.common

/-- The check of the peer finds out whether the logs share the entry before. -/
theorem consistent_iff (h : Lags r q p k) (hr : Indexed r) (hs : Sends r p k a) :
    q.logConsistent (k - 1) a.prevLogTerm = true ↔ Shares r q (k - 1) := by
  have hb := hr.base
  obtain ⟨hlo, hlo'⟩ := h.base
  unfold logConsistent
  split
  · rw [if_neg (by omega)]
    constructor
    · intro hc
      cases he : q.entryAt (k - 1) with
      | none => simp [he] at hc
      | some e =>
        refine ⟨_, hs.prevTerm, ?_⟩
        simp only [he, beq_iff_eq] at hc
        rw [entryTerm, he, ← hc]; rfl
    · rintro ⟨t, ht, ht'⟩
      obtain ⟨e, he, hte⟩ := Option.map_eq_some_iff.1 ht'
      rw [hs.prevTerm] at ht
      cases ht
      simp only [he, beq_iff_eq]
      exact hte
  · -- index 0 is not checked: neither log is compacted
    refine iff_of_true rfl ?_
    have hcommon := h.common
    rwa [show max r.logBaseIndex q.logBaseIndex = k - 1 by omega] at hcommon

theorem lacks (h : Lags r q p k) (hr : Indexed r) (hs : Sends r p k a) :
    ∃ e ∈ a.entries, ¬ Holds q.logBaseIndex q.log e := by
  obtain ⟨hlo, hlo'⟩ := h.base
  have hpos := List.length_pos_iff.2 hs.some
  obtain ⟨e, he⟩ : ∃ e, a.entries[0]? = some e := ⟨_, List.getElem?_eq_getElem hpos⟩
  have hidx := hs.numbered hr hlo 0 e he
  refine ⟨e, List.mem_of_getElem? he, fun hold => h.differ ?_⟩
  obtain ⟨old, hold, hterm⟩ := hold (by omega)
  rw [hs.getElem? hpos, Nat.add_zero] at he
  rw [show e.index - q.logBaseIndex = k - q.logBaseIndex by omega] at hold
  refine ⟨e.term, ?_, ?_⟩
  · rw [entryTerm, hr.entryAt (by omega), he]; rfl
  · rw [entryTerm, entryAt_getElem? (by omega), hold]
    exact congrArg Option.some hterm

/-- What an accepted batch leaves: the log of the peer ends with it, and shares its last entry with the leader. -/
theorem accepted (h : Lags r q p k) (hr : Indexed r) (hq : Indexed q) (hs : Sends r p k a) {req : AppendEntriesRequest}
    (hm : Merges q q' req) (hprev : req.prevLogIndex = k - 1) (hent : req.entries = a.entries) :
    q'.lastLogIndex = k - 1 + a.entries.length ∧ Shares r q' (k - 1 + a.entries.length) ∧
      Shares r q' (max r.logBaseIndex q.logBaseIndex) := by
  obtain ⟨hlo, hlo'⟩ := h.base
  have hnum := hs.numbered hr hlo
  have hpos := List.length_pos_iff.2 hs.some
  have hnum' : Numbered (req.prevLogIndex + 1) req.entries := by rw [hprev, hent, Int.sub_add_cancel]; exact hnum
  have hle := hm.prev_le hq.base hq.ne
  have hlast : q'.lastLogIndex = k - 1 + a.entries.length := by
    rcases hm.lastLogIndex hnum' with hl | ⟨_, hall⟩
    · rw [hl, AppendEntriesRequest.lastIndex, hprev, hent]
    · obtain ⟨e, he, hnot⟩ := h.lacks hr hs
      exact absurd (hall e (hent ▸ he)) hnot
  refine ⟨hlast, ?_, ?_⟩
  · obtain ⟨e, he⟩ : ∃ e, a.entries[a.entries.length - 1]? = some e := ⟨_, List.getElem?_eq_getElem (by omega)⟩
    have hidx := hnum _ e he
    obtain ⟨old, hold, hterm⟩ := mergeEntries_holds hq.numbered hq.ne hnum' hle e (hent ▸ List.mem_of_getElem? he) (by omega)
    rw [hs.getElem? (by omega)] at he
    refine ⟨e.term, ?_, ?_⟩
    · rw [entryTerm, hr.entryAt (by omega), show (k - 1 + (a.entries.length : Int) - r.logBaseIndex).toNat =
        (k - r.logBaseIndex).toNat + (a.entries.length - 1) by omega, he]
      rfl
    · rw [entryTerm, entryAt_getElem? (by rw [hm.base]; omega), hm.log, hm.base,
        show k - 1 + (a.entries.length : Int) - q.logBaseIndex = e.index - q.logBaseIndex by omega, hold]
      exact congrArg Option.some hterm
  · refine h.common.congr rfl ?_
    rw [entryTerm, entryTerm, entryAt_getElem? (by rw [hm.base]; omega), entryAt_getElem? (by omega), hm.log, hm.base,
      mergeEntries_below hnum' hle (by rw [hprev]; omega)]

end Lags

/-! ## One exchange -/

/-- What an exchange leaves of a leader `r` and a peer `q`: the batch was refused, and the next index went one back, or it
was accepted, and the leader counts the peer's log, which ends with the batch. -/
inductive Exchanged (r q : Raft) (p : NodeID) (k : Int) (r' q' : Raft) (accepted : Bool) : Prop
  | refused (ha : accepted = false) (hno : ¬ Shares r q (k - 1))
      (hr : r' = { r with nextIndex := r.nextIndex.setAll [p] (k - 1) }) (hl : Lags r' q' p (k - 1))
  | counted (m : Int) (ha : accepted = true) (hk : k ≤ m) (hm : m ≤ r.lastLogIndex) (hlast : q'.lastLogIndex = m)
      (hr : r' = ({ r with
        matchIndex := r.matchIndex.setAll [p] m
        nextIndex := r.nextIndex.setAll [p] (m + 1) } : Raft).updateCommitIndexLocked)
      (hs : Shares r' q' m) (hl : m < r.lastLogIndex → Lags r' q' p (m + 1))

theorem updateCommitIndexLocked_next (r : Raft) : r.updateCommitIndexLocked.nextIndex = r.nextIndex ∧
    r.updateCommitIndexLocked.matchIndex = r.matchIndex ∧ r.updateCommitIndexLocked.lastApplied = r.lastApplied := by
  rcases updateCommitIndexLocked_cases r with h | ⟨N, _, h, _⟩ <;> rw [h]
  · exact ⟨rfl, rfl, rfl⟩
  · exact ⟨rfl, rfl, rfl⟩

theorem Lags.exchange (h : Lags r q p k) (hr : Indexed r) (hq : Indexed q) (hs : Sends r p k a) (hfit : EntriesFit r.log)
    (hT : Fits r.term) (hknown : q.isKnownNode r.id = true) (hterm : q.term ≤ r.term) (hqfit : Fits q.term)
    (hp : p ∈ r.peers) (io io' : Io) :
    Exchanged r q p k (r.handleAppendResponse a (q.appendEntries (appendEntriesRequest a) io).2 io').1
      (q.appendEntries (appendEntriesRequest a) io).1 (q.appendEntries (appendEntriesRequest a) io).2.success := by
  obtain ⟨hlo, hlo'⟩ := h.base
  obtain ⟨hreqT, hreqL, hreqP, hreqPT, hreqE⟩ := hs.request hr hfit hT
  have hpos := List.length_pos_iff.2 hs.some
  have hget : r.nextIndex.get a.peer = k := by
    rw [hs.peer, IndexMap.get, h.next]; rfl
  obtain ⟨_, hresp, hsucc⟩ := appendEntries_known (hreqL.symm ▸ hknown) (hreqT.symm ▸ hterm) io
  rw [hreqP, hreqPT] at hsucc
  have hle : (q.appendEntries (appendEntriesRequest a) io).2.term ≤ r.term := by
    rw [hresp, int32_of_fits hqfit]; exact hterm
  have hmerge := appendEntries_merges q (appendEntriesRequest a) io
  generalize q.appendEntries (appendEntriesRequest a) io = answer at *
  rcases hmerge with ⟨hf, hsame⟩ | ⟨ht, hm⟩
  · -- the logs differ before the batch, so there is room to go back
    have hno : ¬ Shares r q (k - 1) := by
      rw [← h.consistent_iff hr hs, ← hsucc, hf]
      exact Bool.false_ne_true
    have hroom : max r.logBaseIndex q.logBaseIndex < k - 1 := by
      by_contra hge
      have hcommon := h.common
      rw [show max r.logBaseIndex q.logBaseIndex = k - 1 by omega] at hcommon
      exact hno hcommon
    have hsnap : r.behindSnapshot k = false := by
      unfold behindSnapshot
      cases hsn : r.snapshot with
      | none => rfl
      | some snap =>
        have := hr.snapshot snap hsn
        exact decide_eq_false (by omega)
    have hr' : (r.handleAppendResponse a answer.2 io').1 = { r with nextIndex := r.nextIndex.setAll [p] (k - 1) } := by
      unfold handleAppendResponse
      rw [if_neg (by omega), hf, hget, hsnap]
      simp only [Bool.not_false, if_true, Bool.false_eq_true, if_false]
      rw [if_pos (by omega), hs.peer]
    have hrl : SameLog r (r.handleAppendResponse a answer.2 io').1 := (handleAppendResponse_data ..).toSameLog
    refine .refused hf hno hr' ⟨by rw [hr']; simp [IndexMap.setAll], ?_, ?_, ?_, ?_⟩
    · rw [hrl.base, hsame.base]; omega
    · rw [hrl.lastLogIndex]
      have := h.within
      omega
    · rw [shares_sameLog hrl hsame.toSameLog]; exact hno
    · rw [hrl.base, hsame.base, shares_sameLog hrl hsame.toSameLog]; exact h.common
  · have hacked : ackedIndex a = k - 1 + a.entries.length := by
      rw [ackedIndex_eq (by rw [hs.prev, Int.sub_add_cancel]; exact hs.numbered hr hlo), hs.prev]
    obtain ⟨hlast, hshare, hcommon⟩ := h.accepted hr hq hs hm hreqP hreqE
    have hr' : (r.handleAppendResponse a answer.2 io').1 = ({ r with
        matchIndex := r.matchIndex.setAll [p] (k - 1 + a.entries.length)
        nextIndex := r.nextIndex.setAll [p] (k - 1 + a.entries.length + 1) } : Raft).updateCommitIndexLocked := by
      unfold handleAppendResponse recordProgress
      simp only [ht, hs.peer, Bool.not_true, Bool.false_eq_true, if_false, List.contains_eq_mem, hp, decide_true, hs.some,
        false_and, hacked]
      rw [if_neg (by omega)]
    have hrl : SameLog r (r.handleAppendResponse a answer.2 io').1 := (handleAppendResponse_data ..).toSameLog
    have hshare' : ∀ {i}, Shares r answer.1 i → Shares (r.handleAppendResponse a answer.2 io').1 answer.1 i :=
      fun hi => (shares_sameLog hrl (.refl _)).2 hi
    refine .counted (k - 1 + a.entries.length) ht (by omega) (hs.last_le hr hlo) hlast hr' (hshare' hshare) fun hlt =>
      ⟨?_, ?_, ?_, ?_, ?_⟩
    · rw [hr', (updateCommitIndexLocked_next _).1]
      simp [IndexMap.setAll]
    · rw [hrl.base, hm.base]; omega
    · rw [hrl.lastLogIndex]; omega
    · intro hsh
      have := hsh.le_last (hq.merge hm (by rw [hreqP, hreqE, Int.sub_add_cancel]; exact hs.numbered hr hlo))
      omega
    · rw [hrl.base, hm.base]
      exact hshare' hcommon

end Raft

end Mimori
