/-
What a step makes of the log a node would have without compaction. The ledger determines this log from what
the node still has of it, so it can be read off the step: it stays, the leader appends to it, a request
writes a segment of a leader's log over it, or a snapshot replaces what lies below its index.
-/
import Mimori.Log.Matching
import Mimori.Base.Chosen

namespace Mimori

open Raft TermLog

namespace Cluster

variable {M : Members} {s s' : Cluster} {a : Action} {n : NodeID} {L L' : Ledger}
  {full full' : NodeID → List LogEntry} {p : List LogEntry}

/-! ## Terms of requests -/

theorem step_accepts_term (hs : s.step a = some s') {src : NodeID} {req : AppendEntriesRequest}
    (ha : s.accepts a = some (src, n, req)) : (s'.raft n).term = req.term := by
  obtain ⟨_, _, _, _, _, hr, _, _, _, hsucc⟩ := step_accepts hs ha
  rw [hr]; exact appendEntries_term hsucc

/-- What an installed snapshot makes of a node. -/
structure Installs (r r' : Raft) (req : InstallSnapshotRequest) : Prop where
  term : r'.term = req.term
  log : Compacts r r' ⟨req.lastIncludedIndex, req.lastIncludedTerm, req.data⟩
  commit : r'.commitIndex = req.lastIncludedIndex
  applied : r'.lastApplied = req.lastIncludedIndex

theorem step_installs (hs : s.step a = some s') {call : Nat} {io : Io} (ha : a = .deliver call io) {src : NodeID}
    {req : InstallSnapshotRequest} (hp : s.requests[call]? = some ⟨src, n, .installSnapshot req⟩)
    (ht : (s.raft n).term ≤ req.term) : Installs (s.raft n) (s'.raft n) req := by
  subst ha
  obtain ⟨q, hq, _, rfl⟩ := step_deliver hs
  rw [hp] at hq
  cases hq
  have hr : (s.handle call ⟨src, n, .installSnapshot req⟩ io).raft n =
      ((s.raft n).installSnapshot req (s.envOf n io)).1 := if_pos rfl
  rw [hr]
  rcases installSnapshot_compacts (s.raft n) req (s.envOf n io) with ⟨hlt, _⟩ | ⟨_, hc, _⟩
  · omega
  rcases installSnapshot_progress (s.raft n) req (s.envOf n io) with ⟨hlt, _⟩ | ⟨h1, h2, _⟩
  · omega
  exact ⟨installSnapshot_term ht, hc, h1, h2⟩

/-! ## Whole logs -/

/-- What a step makes of the whole log `p` of a node. -/
inductive Moves (s : Cluster) (a : Action) (s' : Cluster) (L : Ledger) (n : NodeID) (p : List LogEntry) :
    List LogEntry → Prop
  | same : Moves s a s' L n p p
  | append (e : LogEntry) (hl : (s.raft n).state = .leader) (ht : (s'.raft n).term = (s.raft n).term) :
      Moves s a s' L n p (p ++ [e])
  | merge (src : NodeID) (req : AppendEntriesRequest) (p' : List LogEntry) (ha : s.accepts a = some (src, n, req))
      (hover : p.take (s.raft n).logBaseIndex.toNat = (L.log req.term).take (s.raft n).logBaseIndex.toNat →
        Overwritten p (L.log req.term) (req.prevLogIndex.toNat + req.entries.length) p') : Moves s a s' L n p p'
  | install (call : Nat) (io : Io) (src : NodeID) (req : InstallSnapshotRequest) (p' : List LogEntry)
      (ha : a = .deliver call io) (hp : s.requests[call]? = some ⟨src, n, .installSnapshot req⟩)
      (hterm : (s.raft n).term ≤ req.term)
      (htake : p'.take req.lastIncludedIndex.toNat = (L.log req.lastIncludedTerm).take req.lastIncludedIndex.toNat)
      (hdrop : p'.drop req.lastIncludedIndex.toNat = p.drop req.lastIncludedIndex.toNat) : Moves s a s' L n p p'

/-- The whole log of a node is the only one that fits. -/
theorem LogInv.full_eq (h : LogInv M L full s) (hw : Whole (s.raft n) p)
    (hp : Path LogEntry.term L.log (p.take (s.raft n).logBaseIndex.toNat)) : full n = p :=
  Window.unique (h.nodes.sound n).path hp (h.nodes.whole n) hw

theorem LogInv.full_of_same (h : LogInv M L full s) (h' : LogInv M L' full' s') (hL : Ledger.Extends L L')
    (hs : SameLog (s.raft n) (s'.raft n)) : full' n = full n :=
  h'.full_eq ((h.nodes.whole n).of_same hs) (((h.nodes.sound n).path.mono hL.log).take _)

/-- The log of a node up to one of its entries is that of the leader of the entry's term. -/
theorem LogInv.leader_take (h : LogInv M L full s) {i t : Int} (hlen : i.toNat ≤ (full n).length)
    (ht : termAt LogEntry.term 0 (full n) i.toNat = t) :
    i.toNat ≤ (L.log t).length ∧ (L.log t).take i.toNat = (full n).take i.toNat := by
  have hbnd := (h.nodes.sound n).termAt_bounds (h.stable.elect.votes.nonneg n) i.toNat
  rw [ht] at hbnd
  obtain ⟨hlen', ht'⟩ := ((h.nodes.sound n).anchored hlen hbnd.1 hbnd.2 ht).entry
  exact ⟨hlen', (L.path t).agree_termAt (h.nodes.sound n).path hlen' hlen (ht'.trans ht.symm)⟩

/-- The entries beyond the snapshot a log is compacted to. -/
theorem Whole.compact_drop {r r' : Raft} {q : List LogEntry} (h : Whole r p) (hi : Indexed r) {snap : Snapshot}
    (hc : Compacts r r' snap) (hb : r.logBaseIndex ≤ snap.lastIncludedIndex) (h' : Whole r' q) :
    q.drop snap.lastIncludedIndex.toNat = p.drop snap.lastIncludedIndex.toNat := by
  obtain ⟨x, hlog, _⟩ := h.log
  obtain ⟨y, hlog', _⟩ := h'.log
  have hb0 := hi.base
  rw [hc.log, hi.compact_eq, hlog, show (snap.lastIncludedIndex - r.logBaseIndex + 1).toNat =
    (snap.lastIncludedIndex - r.logBaseIndex).toNat + 1 by omega, List.drop_succ_cons, List.drop_drop, hc.base] at hlog'
  injection hlog' with _ hdrop
  rw [← hdrop]
  congr 1
  omega

/-- A node that accepts a request, and whose compacted part is that of the request's leader, has the log of this
leader up to the end of the request. -/
theorem LogInv.accepted (h : LogInv M L full s) (hL : Ledger.Extends L L') (h' : LogInv M L' full' s')
    (hs : s.step a = some s') {src : NodeID} {req : AppendEntriesRequest} (ha : s.accepts a = some (src, n, req))
    (hpre : (full n).take (s.raft n).logBaseIndex.toNat = (L.log req.term).take (s.raft n).logBaseIndex.toNat) :
    Overwritten (full n) (L.log req.term) (req.prevLogIndex.toNat + req.entries.length) (full' n) := by
  obtain ⟨call, io, _, hp, _, _, hm, _⟩ := step_accepts hs ha
  have hmem := List.mem_of_getElem? hp
  have hseg := h.carried.append _ hmem req rfl
  obtain ⟨p', hw', hcases, hover⟩ := (h.nodes.whole n).merge (h.stable.index.node n) hm
    (h.stable.index.request _ hmem req rfl).numbered (h.nodes.sound n).path (L.path req.term) hseg.nonneg hseg.len
    hseg.prevTerm hseg.entries
  have hp' : Path LogEntry.term L.log p' := by
    rcases hcases with rfl | rfl
    · exact (h.nodes.sound n).path
    · exact (L.path req.term).take _
  rw [h'.full_eq hw' ((hp'.mono hL.log).take _)]
  exact hover hpre

/-- A node that installs a snapshot has what the snapshot stands for, and beyond it what it had. -/
theorem LogInv.snapshot_replaces (h : LogInv M L full s) (hL : Ledger.Extends L L') (h' : LogInv M L' full' s')
    (hok : s.logsKept a = true) (hs : s.step a = some s') {call : Nat} {io : Io} (ha : a = .deliver call io)
    {src : NodeID} {req : InstallSnapshotRequest} (hp : s.requests[call]? = some ⟨src, n, .installSnapshot req⟩)
    (ht : (s.raft n).term ≤ req.term) :
    (full' n).take req.lastIncludedIndex.toNat = (L.log req.lastIncludedTerm).take req.lastIncludedIndex.toNat ∧
      (full' n).drop req.lastIncludedIndex.toNat = (full n).drop req.lastIncludedIndex.toNat := by
  have hc := (step_installs hs ha hp ht).log
  have hw' := h'.nodes.whole n
  have hbase := freshSnapshot_base (logsKept_parts hok).fresh ha hp ht
  obtain ⟨hanch, _⟩ := h.carried.install _ (List.mem_of_getElem? hp) req rfl
  obtain ⟨hlen, hterm⟩ := (hanch.mono hL (le_refl _)).entry
  obtain ⟨y, hlog, hy⟩ := hw'.log
  have hlen' := hw'.len
  rw [hc.base] at hy hlen'
  rw [hc.log] at hlog
  injection hlog with hy' _
  refine ⟨?_, Whole.compact_drop (h.nodes.whole n) (h.stable.index.node n) hc hbase hw'⟩
  rw [(h'.nodes.sound n).path.agree_termAt (L'.path req.lastIncludedTerm) hlen' hlen (by rw [← hy, ← hy', hterm]; rfl)]
  exact take_of_isPrefix (hL.log _) hanch.entry.1

theorem LogInv.moves (h : LogInv M L full s) (hL : Ledger.Extends L L') (h' : LogInv M L' full' s')
    (hok : s.logsKept a = true) (hs : s.step a = some s') (n : NodeID) : Moves s a s' L n (full n) (full' n) := by
  have hsame : SameLog (s.raft n) (s'.raft n) → Moves s a s' L n (full n) (full' n) := by
    intro hl
    rw [h.full_of_same h' hL hl]; exact .same
  rcases step_at hs n with heq | ⟨_, hk⟩
  · exact hsame (by rw [heq]; exact .refl _)
  · have hi := h.stable.index.node n
    have hw := h.nodes.whole n
    have hpath := (h.nodes.sound n).path.mono hL.log
    have hlog := hk.logStep
    generalize hr : s'.raft n = r at hlog
    cases hlog with
    | same _ hl => exact hsame (hr ▸ hl)
    | append _ cmd happ hv =>
      rw [← hr] at happ hv
      rw [h'.full_eq (hw.append happ) (by rw [happ.base, List.take_append_of_le_length hw.len]; exact hpath.take _)]
      exact .append _ happ.leader hv.term
    | merge call io src req hp hra hm hsucc =>
      have ha : s.accepts (.deliver call io) = some (src, n, req) := accepts_deliver hp hsucc
      exact .merge src req _ ha (h.accepted hL h' hs ha)
    | install call io src req hp hra ht hc =>
      obtain ⟨htake, hdrop⟩ := h.snapshot_replaces hL h' hok hs rfl hp ht
      exact .install call io src req _ rfl hp ht htake hdrop
    | snapshot _ snap hsn =>
      rw [← hr] at hsn
      rw [h'.full_eq (hw.snapshotted hi hsn) (hpath.take _)]
      exact .same

end Cluster

end Mimori
