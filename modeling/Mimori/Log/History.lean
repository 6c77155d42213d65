/-
The ledger of a run: in every run without configuration changes that keeps the conditions of elections
and of log positions, in which only a leader speaks as one and no snapshot is installed below entries that
conflict with it, there is a ledger all logs, requests and snapshots come from. Each step leaves it as it
is, adds a leader to a term that had none, or an entry to the log of the leader in office.
-/
import Mimori.Log.Ledger
import Mimori.Log.Placed
import Mimori.Election.Leaders
import Mimori.Replication.Addressed

namespace Mimori

open Raft TermLog

namespace Raft

/-! ## Terms after a request -/

theorem appendEntries_term {r : Raft} {req : AppendEntriesRequest} {io : Io}
    (h : (r.appendEntries req io).2.success = true) : (r.appendEntries req io).1.term = req.term := by
  have ho := appendEntries_outcome r req io
  generalize r.appendEntries req io = out at h ho ⊢
  cases ho with
  | ignored => cases h
  | refused => cases h
  | accepted _ ht =>
    simp only
    rw [(advanceCommit_same _ _).term, (saveLog_rest _ _).term]
    exact adoptTerm_term r req.term io ht

theorem installSnapshot_term {r : Raft} {req : InstallSnapshotRequest} {io : Io} (h : r.term ≤ req.term) :
    (r.installSnapshot req io).1.term = req.term := by
  have ho := installSnapshot_outcome r req io
  generalize r.installSnapshot req io = out at ho ⊢
  cases ho with
  | stale hlt => omega
  | installed => exact (saveLog_rest (r.afterInstalling req io) io.saveLog).term.trans (adoptTerm_term r req.term io h)

end Raft

/-- The terms of a sound log lie between 0 and the node's term. -/
theorem Ledger.Sound.termAt_bounds {L : Ledger} {T : Int} {p : List LogEntry} (h : L.Sound T p) (hT : 0 ≤ T) (k : Nat) :
    0 ≤ termAt LogEntry.term 0 p k ∧ termAt LogEntry.term 0 p k ≤ T := by
  cases k with
  | zero => exact ⟨le_refl _, hT⟩
  | succ k =>
    cases hx : p[k]? with
    | none => simp only [termAt, hx]; exact ⟨le_refl _, hT⟩
    | some x => rw [termAt_succ hx]; exact h.terms x (List.mem_of_getElem? hx)

namespace Cluster

/-! ## Conditions -/

/-- A snapshot that is installed has the term the log has at its index, if the log goes on after it. -/
def matchingSnapshot (s : Cluster) : Action → Bool
  | .deliver call _ =>
    match s.requests[call]? with
    | some ⟨_, n, .installSnapshot req⟩ =>
      decide (req.term < (s.raft n).term) || decide ((s.raft n).lastLogIndex ≤ req.lastIncludedIndex) ||
        ((s.raft n).entryAt req.lastIncludedIndex).all fun e => e.term == req.lastIncludedTerm
    | _ => true
  | _ => true

/-- A goroutine reads the log or the term of its node to send entries or a snapshot only while the node leads
the term it sends them in. -/
def speaksInOffice (s : Cluster) : Action → Bool
  | .run i .go _ =>
    match s.tasks[i]? with
    | some (n, .heartbeatPeers _ term _ (_ :: _)) => (s.raft n).state == .leader && (s.raft n).term == term
    | some (n, .sendSnapshotLoaded _ _) => (s.raft n).state == .leader
    | _ => true
  | _ => true

/-- The conditions under which logs match. -/
def logsKept (s : Cluster) (a : Action) : Bool :=
  s.fairElections a && s.inPlace a && s.matchingSnapshot a && s.speaksInOffice a

/-! ## Invariants without history -/

structure Stable (M : Members) (s : Cluster) : Prop where
  elect : ElectionInv M s
  index : IndexInv s
  addressed : Addressed M s

variable {M : Members} {s s' : Cluster} {a : Action} {n src : NodeID} {args : AppendArgs}

/-- The parts of `logsKept`. -/
structure LogsKept (s : Cluster) (a : Action) : Prop where
  fair : s.fairElections a = true
  terms : s.termsFit = true
  place : s.inPlace a = true
  gap : s.noGap a = true
  indices : s.indicesFit = true
  fresh : s.freshSnapshot a = true
  snapshots : s.matchingSnapshot a = true
  office : s.speaksInOffice a = true

theorem logsKept_parts (h : s.logsKept a = true) : LogsKept s a := by
  simp only [logsKept, Bool.and_eq_true] at h
  obtain ⟨⟨⟨hfair, hplace⟩, hsnap⟩, hoffice⟩ := h
  have hf := hfair
  have hp := hplace
  simp only [fairElections, inPlace, Bool.and_eq_true] at hf hp
  exact ⟨hfair, hf.1.2, hplace, hp.1.1, hp.1.2, hp.2, hsnap, hoffice⟩

theorem Stable.step (h : Stable M s) (hok : s.logsKept a = true) (hs : s.step a = some s') : Stable M s' := by
  have hparts := logsKept_parts hok
  exact ⟨h.elect.step hparts.fair hs, h.index.step hparts.place hs, h.addressed.step h.elect.fixed hs⟩

theorem Stable.start (M : Members) (snapshotter restorer : Bool) :
    Stable M (Cluster.start M.ids M.peersOf snapshotter restorer) :=
  ⟨.start .., .start .., .start ..⟩

theorem fits_term (hfit : s.termsFit = true) (hn : n ∈ s.procs) : Fits (s.raft n).term :=
  of_decide_eq_true (List.all_eq_true.1 hfit n hn)

theorem fits_index (hfit : s.indicesFit = true) (hn : n ∈ s.procs) : Fits (s.raft n).lastLogIndex :=
  of_decide_eq_true (List.all_eq_true.1 hfit n hn)

/-! ## The logs of the nodes -/

variable {L L' : Ledger} {full : NodeID → List LogEntry}

/-- `full n` is the log of `n` without compaction. It is made of leaders' logs, and a leader's is the one
of its term. -/
structure NodeLogs (L : Ledger) (full : NodeID → List LogEntry) (s : Cluster) : Prop where
  whole : ∀ n, Whole (s.raft n) (full n)
  sound : ∀ n, L.Sound (s.raft n).term (full n)
  current : ∀ n, (s.raft n).state = .leader → L.log (s.raft n).term = full n

/-- What goroutines, requests and snapshots carry comes from the ledger. -/
structure Carried (L : Ledger) (s : Cluster) : Prop where
  args : ∀ n t args, (n, t) ∈ s.tasks → argsOf t = some args →
    L.Segment n args.term args.prevLogIndex args.prevLogTerm args.entries ∧
      0 ≤ args.term ∧ Fits args.term
  append : ∀ p ∈ s.requests, ∀ req, p.req = .appendEntries req →
    L.Segment p.src req.term req.prevLogIndex req.prevLogTerm req.entries
  snap : ∀ n snap, (s.raft n).snapshot = some snap →
    L.Anchored (s.raft n).term snap.lastIncludedIndex snap.lastIncludedTerm
  snapTask : ∀ n t snap, (n, t) ∈ s.tasks → snapOf t = some snap →
    L.Anchored (s.raft n).term snap.lastIncludedIndex snap.lastIncludedTerm
  install : ∀ p ∈ s.requests, ∀ req, p.req = .installSnapshot req →
    L.Anchored req.term req.lastIncludedIndex req.lastIncludedTerm ∧ L.lead req.term = some p.src

theorem Carried.mono (h : Carried L s) (hL : Ledger.Extends L L') : Carried L' s := by
  refine ⟨fun n t args ht ha => ?_, fun p hp req hr => (h.append p hp req hr).mono hL,
    fun n snap hs => (h.snap n snap hs).mono hL (le_refl _),
    fun n t snap ht hs => (h.snapTask n t snap ht hs).mono hL (le_refl _), fun p hp req hr => ?_⟩
  · obtain ⟨h1, h2⟩ := h.args n t args ht ha
    exact ⟨h1.mono hL, h2⟩
  · obtain ⟨h1, h2⟩ := h.install p hp req hr
    exact ⟨h1.mono hL (le_refl _), hL.lead _ _ h2⟩

/-- The invariant of the run: the ledger `L` and the whole logs `full`. -/
structure LogInv (M : Members) (L : Ledger) (full : NodeID → List LogEntry) (s : Cluster) : Prop where
  stable : Stable M s
  lead : LeadInv M L.lead s
  nodes : NodeLogs L full s
  carried : Carried L s

/-! ## Goroutines and requests -/

/-- What a leader reads from its log to send it is a segment of the log of its term. -/
theorem LogInv.reads (h : LogInv M L full s) (hl : (s.raft n).state = .leader) (hfit : Fits (s.raft n).term)
    (hidx : Fits (s.raft n).lastLogIndex) (hr : Reads (s.raft n) args) :
    L.Segment n (s.raft n).term args.prevLogIndex args.prevLogTerm args.entries := by
  have hi := h.stable.index.node n
  have hw := h.nodes.whole n
  have hb0 := hi.base
  have hbase := hr.base
  have hlast := hr.last
  rw [hw.lastLogIndex hi] at hlast hidx
  obtain ⟨e, he, hterm⟩ := hr.prevTerm
  obtain ⟨hk, ht⟩ := hw.entryAt_term hi he
  obtain ⟨x, hlog, _⟩ := hw.log
  have hwire : ∀ e ∈ full n, e.toWire = e := by
    intro e he
    obtain ⟨k, hk, rfl⟩ := List.getElem_of_mem he
    have h1 := (h.nodes.sound n).numbered k _ (List.getElem?_eq_getElem hk)
    obtain ⟨h2, h3⟩ := (h.nodes.sound n).terms _ he
    unfold LogEntry.toWire
    rw [int32_of_fits (fits_of_le (by omega) (by omega) hidx), int32_of_fits (fits_of_le h2 h3 hfit)]
  have hentries : args.entries = (full n).drop args.prevLogIndex.toNat := by
    rw [hr.entries, hlog, show (args.prevLogIndex + 1 - (s.raft n).logBaseIndex).toNat =
      (args.prevLogIndex - (s.raft n).logBaseIndex).toNat + 1 by omega, List.drop_succ_cons, List.drop_drop]
    rw [show (s.raft n).logBaseIndex.toNat + (args.prevLogIndex - (s.raft n).logBaseIndex).toNat =
      args.prevLogIndex.toNat by omega]
    exact (List.map_congr_left fun e he => hwire e (List.mem_of_mem_drop he)).trans (List.map_id' _)
  have hcur := h.nodes.current n hl
  refine ⟨h.lead.leader n hl, by omega, by rw [hcur]; exact hk, by rw [hcur, hterm, ht], ?_⟩
  rw [hcur, hentries]; exact List.take_of_length_le (le_refl _)

/-- The next batch follows the last entry of the one before. -/
theorem segment_sent (hn : Numbered (args.prevLogIndex + 1) args.entries) (hne : args.entries ≠ [])
    (h : L.Segment n args.term args.prevLogIndex args.prevLogTerm args.entries) :
    L.Segment n args.term (afterSent args).prevLogIndex (afterSent args).prevLogTerm (afterSent args).entries := by
  obtain ⟨hp, e, he, _, ht⟩ := afterSent_prev hn hne
  have hlen : (args.entries.take maxEntriesPerBatch).length - 1 < args.entries.length :=
    (List.getElem?_eq_some_iff.1 he).1
  have hpos : 0 < (args.entries.take maxEntriesPerBatch).length := by
    rw [List.length_take]
    have := List.length_pos_iff.2 hne
    unfold maxEntriesPerBatch; omega
  have hd := h.drop hlen he
  rw [show (args.entries.take maxEntriesPerBatch).length - 1 + 1 = (args.entries.take maxEntriesPerBatch).length by omega]
    at hd
  rw [hp, ht, afterSent_entries]
  rcases Nat.le_total maxEntriesPerBatch args.entries.length with hle | hle
  · rw [List.length_take, Nat.min_eq_left hle] at hd ⊢; exact hd
  · rw [List.length_take, Nat.min_eq_right hle, List.drop_of_length_le (le_refl _)] at hd
    rw [List.length_take, Nat.min_eq_right hle, List.drop_of_length_le hle]; exact hd

theorem LogInv.newArgs (h : LogInv M L full s) (hok : s.logsKept a = true) (hn : n ∈ s.procs)
    (ha : ArgsFrom s n a args) :
    L.Segment n args.term args.prevLogIndex args.prevLogTerm args.entries ∧
      0 ≤ args.term ∧ Fits args.term := by
  have hterm := (logsKept_parts hok).terms
  have hgap := (logsKept_parts hok).gap
  have hidx := (logsKept_parts hok).indices
  have hspeak := (logsKept_parts hok).office
  cases ha with
  | read i io ret T leaderID p rest _ hx hb =>
    obtain ⟨hl, rfl⟩ : (s.raft n).state = .leader ∧ (s.raft n).term = T := by
      simpa only [speaksInOffice, hx, Bool.and_eq_true, beq_iff_eq] using hspeak
    obtain ⟨hr, _, ht, _⟩ := heartbeatTo_reads (h.stable.index.node n) (h.stable.index.next n _) hb
    rw [ht]
    exact ⟨h.reads hl (fits_term hterm hn) (fits_index hidx hn) hr, h.stable.elect.votes.nonneg n,
      fits_term hterm hn⟩
  | batch _ args hx =>
    obtain ⟨h1, h2⟩ := h.carried.args n _ args hx rfl
    exact ⟨h1.take _, h2⟩
  | sent _ args hx hne =>
    obtain ⟨h1, h2⟩ := h.carried.args n _ args hx rfl
    rw [afterSent_term]
    exact ⟨segment_sent (h.stable.index.args n _ args hx rfl).numbered hne h1, h2⟩
  | refused i io args hx hne =>
    obtain ⟨h1, h2⟩ := h.carried.args n _ args (List.mem_of_getElem? hx) rfl
    have hlen : args.entries.length ≤ maxEntriesPerBatch := by simpa [noGap, hx] using hgap
    have hnil : (afterRefused args).entries = [] := List.drop_of_length_le hlen
    rw [hnil]
    exact ⟨⟨h1.lead, h1.nonneg, h1.len, h1.prevTerm, rfl⟩, h2⟩
  | same _ _ hx => exact h.carried.args n _ args hx rfl

/-- The request of `sendAppendEntriesBatch` carries the segment unchanged. -/
theorem segment_request (hT : 0 ≤ args.term) (hf : Fits args.term) (hp : Fits args.prevLogIndex)
    (h : L.Segment n args.term args.prevLogIndex args.prevLogTerm args.entries) :
    (appendEntriesRequest args).term = args.term ∧
      L.Segment n (appendEntriesRequest args).term (appendEntriesRequest args).prevLogIndex
        (appendEntriesRequest args).prevLogTerm (appendEntriesRequest args).entries := by
  obtain ⟨h1, h2⟩ := (L.sound_log args.term).termAt_bounds hT args.prevLogIndex.toNat
  have hpt : Fits args.prevLogTerm := by rw [h.prevTerm]; exact fits_of_le h1 h2 hf
  simp only [appendEntriesRequest]
  rw [int32_of_fits hf, int32_of_fits hp, int32_of_fits hpt]
  exact ⟨rfl, h⟩

theorem LogInv.nodeSnapshot (h : LogInv M L full s) (hs : s.step a = some s') {snap : Snapshot}
    (hsnap : (s'.raft n).snapshot = some snap) :
    L.Anchored (s'.raft n).term snap.lastIncludedIndex snap.lastIncludedTerm := by
  have hle := step_le_term hs n
  have hold : ∀ {snap : Snapshot}, (s.raft n).snapshot = some snap →
      L.Anchored (s'.raft n).term snap.lastIncludedIndex snap.lastIncludedTerm :=
    fun hx => (h.carried.snap n _ hx).mono (.refl L) hle
  rcases step_at hs n with heq | ⟨_, hm⟩
  · rw [heq] at hsnap; exact hold hsnap
  · cases hm.saveStep with
    | same _ _ hsame => rw [hsame] at hsnap; exact hold hsnap
    | install call io src req hp hr ht hc =>
      rw [hc.snapshot] at hsnap
      cases hsnap
      rw [hr, installSnapshot_term ht]
      exact (h.carried.install _ (List.mem_of_getElem? hp) req rfl).1
    | own _ x hx =>
      rw [hx.compacts.snapshot] at hsnap
      cases hsnap
      obtain ⟨e, he, ht⟩ := hx.own.entry
      have hi := h.stable.index.node n
      obtain ⟨hlen, hterm⟩ := (h.nodes.whole n).entryAt_term hi he
      have hb := (h.nodes.sound n).termAt_bounds (h.stable.elect.votes.nonneg n) (s.raft n).lastApplied.toNat
      rw [hterm] at hb
      rw [hx.own.index, ht]
      exact ((h.nodes.sound n).anchored hlen hb.1 hb.2 hterm).mono (.refl L) hle

theorem LogInv.carriedStep (h : LogInv M L full s) (hok : s.logsKept a = true) (hs : s.step a = some s') :
    Carried L s' := by
  have hfits := (logsKept_parts hok).terms
  have hspeak := (logsKept_parts hok).office
  have hle := step_le_term hs
  refine ⟨fun n t args ht hargs => ?_, fun p hp req hr => ?_, fun n snap hsnap => h.nodeSnapshot hs hsnap,
    fun n t snap ht hsnap => ?_, fun p hp req hr => ?_⟩
  · rcases step_tasks hs ht with ht | ⟨hn, ht⟩
    · exact h.carried.args n t args ht hargs
    · exact h.newArgs hok hn (ht.args hargs)
  · rcases step_packets hs hp with hp | ⟨_, hq⟩
    · exact h.carried.append p hp req hr
    · cases hq with
      | appendEntries i io n args hx =>
        cases hr
        have hm := List.mem_of_getElem? hx
        obtain ⟨h1, hT, h3⟩ := h.carried.args n _ args hm rfl
        exact (segment_request hT h3 (h.stable.index.args n _ args hm rfl).fits h1).2
      | _ => cases hr
  · rcases step_tasks hs ht with ht | ⟨_, ht⟩
    · exact (h.carried.snapTask n t snap ht hsnap).mono (.refl L) (hle n)
    · rcases ht.snap hsnap with ⟨i, io, peer, _, _, hsend⟩ | ⟨t', ht', hs'⟩
      · have hmem := Indexed.snapshotToSend (h.stable.index.node n) hsend
        exact (h.carried.snap n snap hmem).mono (.refl L) (hle n)
      · exact (h.carried.snapTask n t' snap ht' hs').mono (.refl L) (hle n)
  · rcases step_packets hs hp with hp | ⟨hsrc, hq⟩
    · exact h.carried.install p hp req hr
    · cases hq with
      | installSnapshot i io n peer snap hx =>
        cases hr
        have hm := List.mem_of_getElem? hx
        have hanch := h.carried.snapTask n _ snap hm rfl
        have hfit := fits_term hfits hsrc
        have hidx := (h.stable.index.snapTask n _ snap hm rfl).2
        simp only [installSnapshotRequest]
        rw [int32_of_fits hfit, int32_of_fits hidx, int32_of_fits (fits_of_le hanch.nonneg hanch.le hfit)]
        have hl : (s.raft n).state = .leader := by simpa only [speaksInOffice, hx, beq_iff_eq] using hspeak
        exact ⟨hanch, h.lead.leader n hl⟩
      | _ => cases hr

/-! ## Steps of the history -/

/-- How the ledger and the whole logs change in a step. -/
inductive Evolves (s : Cluster) (a : Action) (s' : Cluster) (L : Ledger) (full : NodeID → List LogEntry) :
    Ledger → (NodeID → List LogEntry) → Prop
  | same (ha : s.accepts a = none) : Evolves s a s' L full L full
  | elect (n : NodeID) (hl : (s'.raft n).state = .leader) (hnone : L.lead (s'.raft n).term = none)
      (ha : s.accepts a = none) (hg : L.Grows (s'.raft n).term (full n)) :
      Evolves s a s' L full (L.grow (s'.raft n).term n (full n) hg) full
  | append (n : NodeID) (e : LogEntry) (hl : (s.raft n).state = .leader) (ht : e.term = (s.raft n).term)
      (ha : s.accepts a = none) (hg : L.Grows (s.raft n).term (full n ++ [e])) :
      Evolves s a s' L full (L.grow (s.raft n).term n (full n ++ [e]) hg) (Function.update full n (full n ++ [e]))
  | merge (src n : NodeID) (req : AppendEntriesRequest) (p : List LogEntry) (ha : s.accepts a = some (src, n, req))
      (hover : (s.raft n).logBaseIndex = 0 →
        Overwritten (full n) (L.log req.term) (req.prevLogIndex.toNat + req.entries.length) p) :
      Evolves s a s' L full L (Function.update full n p)
  | install (n : NodeID) (p : List LogEntry) (ha : s.accepts a = none) (hs : (s'.raft n).snapshot ≠ none) :
      Evolves s a s' L full L (Function.update full n p)

theorem Evolves.extends {full' : NodeID → List LogEntry} (h : LogInv M L full s) (he : Evolves s a s' L full L' full') :
    Ledger.Extends L L' := by
  cases he with
  | same => exact .refl L
  | elect n _ hnone _ hg => exact Ledger.grow_extends hg (.inl hnone)
  | append n _ hl _ _ hg => exact Ledger.grow_extends hg (.inr (h.lead.leader n hl))
  | merge => exact .refl L
  | install => exact .refl L

/-- A leader of a term that it had been elected in before led it before. -/
theorem LogInv.was_leader (h : LogInv M L full s) (hs : s.step a = some s') (hl : (s'.raft n).state = .leader)
    (hlead : L.lead (s'.raft n).term = some n) : (s.raft n).state = .leader ∧ (s'.raft n).term = (s.raft n).term := by
  obtain ⟨hle, hst⟩ := h.lead.office _ n hlead
  have heq := le_antisymm (step_le_term hs n) hle
  refine ⟨?_, heq.symm⟩
  rcases h.stable.elect.fixed.termMove hs n with hm | ⟨_, hsame | ⟨hc, _⟩, _⟩
  · omega
  · rw [← hsame]; exact hl
  · exact absurd hc (hst heq).1

theorem LogInv.next (h : LogInv M L full s) (hok : s.logsKept a = true) (hs : s.step a = some s')
    {full' : NodeID → List LogEntry} (hL : Ledger.Extends L L') (hlead : LeadInv M L'.lead s')
    (hnodes : NodeLogs L' full' s') : LogInv M L' full' s' :=
  ⟨h.stable.step hok hs, hlead, hnodes, (h.carriedStep hok hs).mono hL⟩

theorem LogInv.sameLogs (h : LogInv M L full s) (hok : s.logsKept a = true) (hs : s.step a = some s')
    (hlead : LeadInv M L.lead s') (hsame : ∀ n, SameLog (s.raft n) (s'.raft n)) : LogInv M L full s' := by
  refine h.next hok hs (.refl L) hlead ⟨fun n => (h.nodes.whole n).of_same (hsame n), fun n => ?_, fun n hn => ?_⟩
  · exact (h.nodes.sound n).mono (.refl L) (step_le_term hs n)
  · obtain ⟨h1, h2⟩ := h.was_leader hs hn (hlead.leader n hn)
    rw [h2]; exact h.nodes.current n h1

/-- A step that changes the log of one node, which does not lead after it. -/
theorem LogInv.updated (h : LogInv M L full s) (hok : s.logsKept a = true) (hs : s.step a = some s')
    (hlead : LeadInv M L.lead s') {p : List LogEntry} (hother : ∀ m, m ≠ n → s'.raft m = s.raft m)
    (hw : Whole (s'.raft n) p) (hp : L.Sound (s'.raft n).term p) (hc : (s'.raft n).state = .leader → p = full n) :
    LogInv M L (Function.update full n p) s' := by
  refine h.next hok hs (.refl L) hlead ⟨fun m => ?_, fun m => ?_, fun m hm => ?_⟩
  · by_cases hmn : m = n
    · subst hmn; rw [Function.update_self]; exact hw
    · rw [Function.update_of_ne hmn, hother m hmn]; exact h.nodes.whole m
  · by_cases hmn : m = n
    · subst hmn; rw [Function.update_self]; exact hp
    · rw [Function.update_of_ne hmn, hother m hmn]; exact h.nodes.sound m
  · obtain ⟨h1, h2⟩ := h.was_leader hs hm (hlead.leader m hm)
    rw [h2, h.nodes.current m h1]
    by_cases hmn : m = n
    · subst hmn; rw [Function.update_self]; exact (hc hm).symm
    · rw [Function.update_of_ne hmn]

/-! ## Elections -/

/-- A step in which a node is elected leaves the logs alone. -/
theorem LogInv.elected_same (h : LogInv M L full s) (hs : s.step a = some s') (hl : (s'.raft n).state = .leader)
    (hnone : L.lead (s'.raft n).term = none) : (∀ m, SameLog (s.raft m) (s'.raft m)) ∧ s.accepts a = none := by
  have hnot : (s.raft n).state = .leader → (s'.raft n).term ≠ (s.raft n).term := by
    intro hst ht
    rw [ht, h.lead.leader n hst] at hnone; cases hnone
  -- the new leader neither keeps its role nor steps down, and only elections do neither
  have hdown : ¬ SameOrDown (s.raft n) (s'.raft n) := by
    rintro (hsame | hdown)
    · exact hnot (hsame.state ▸ hl) hsame.term
    · rw [hdown.state] at hl; cases hl
  constructor
  · rcases step_node hs with heq | ⟨k, _, hk, hother⟩
    · intro m; rw [heq]; exact .refl _
    · by_cases hn : n = k
      · subst hn
        intro m
        by_cases hm : m = n
        · subst hm
          cases hk.logStep with
          | same _ hsame => exact hsame
          | append _ _ _ hv => exact absurd (.inl hv) hdown
          | merge _ _ _ _ _ hr =>
            rw [hr] at hdown
            exact absurd (appendEntries_move ..) hdown
          | install _ _ _ _ _ hr =>
            rw [hr] at hdown
            exact absurd (installSnapshot_move ..) hdown
          | snapshot _ _ _ hr =>
            rcases hr.votes with ⟨hst, _⟩ | ⟨hst, _⟩
            · exact absurd hr.term (hnot (hst ▸ hl))
            · rw [hst] at hl; cases hl
        · rw [hother m hm]; exact .refl _
      · exact absurd (congrArg Raft.term (hother n hn)) (hnot (hother n hn ▸ hl))
  · cases ha : s.accepts a with
    | none => rfl
    | some x =>
      obtain ⟨src, k, req⟩ := x
      obtain ⟨_, _, _, _, _, hr, _, hother, _⟩ := step_accepts hs ha
      by_cases hn : n = k
      · subst hn
        rw [hr] at hdown
        exact absurd (appendEntries_move ..) hdown
      · exact absurd (congrArg Raft.term (hother n hn)) (hnot (hother n hn ▸ hl))

theorem LogInv.elected (h : LogInv M L full s) (hok : s.logsKept a = true) (hs : s.step a = some s')
    (hl : (s'.raft n).state = .leader) (hnone : L.lead (s'.raft n).term = none)
    (hlead : LeadInv M (Function.update L.lead (s'.raft n).term (some n)) s') :
    ∃ L' full', Evolves s a s' L full L' full' ∧ LogInv M L' full' s' := by
  obtain ⟨hsame, ha⟩ := h.elected_same hs hl hnone
  have hle := step_le_term hs
  have hg : L.Grows (s'.raft n).term (full n) := ((h.nodes.sound n).mono (.refl L) (hle n)).grows hnone
  have hL := Ledger.grow_extends (n := n) hg (.inl hnone)
  refine ⟨_, _, .elect n hl hnone ha hg, h.next hok hs hL hlead ⟨fun m => (h.nodes.whole m).of_same (hsame m),
    fun m => (h.nodes.sound m).mono hL (hle m), fun m hm => ?_⟩⟩
  have hm' := hlead.leader m hm
  rw [Function.update_apply] at hm'
  rw [Ledger.grow_log, Function.update_apply]
  split at hm'
  · rename_i ht
    cases hm'
    rw [if_pos ht]
  · rename_i ht
    obtain ⟨h1, h2⟩ := h.was_leader hs hm hm'
    rw [if_neg ht, h2]; exact h.nodes.current m h1

/-! ## Entries and snapshots -/

/-- A leader sends to its peers, so the receiver of a request does not lead the request's term. -/
theorem LeadInv.receiver {lead : Int → Option NodeID} (h : LeadInv M lead s) {T : Int} (hsrc : lead T = some src)
    (hn : n ∈ M.peersOf src) (ht : (s.raft n).term = T) : (s.raft n).state ≠ .leader := by
  intro hl
  have := h.leader n hl
  rw [ht, hsrc] at this
  cases this
  exact M.not_mem_peersOf _ hn

theorem LogInv.appended (h : LogInv M L full s) (hok : s.logsKept a = true) (hs : s.step a = some s')
    (hlead : LeadInv M L.lead s') (ha : s.accepts a = none) (hother : ∀ m, m ≠ n → s'.raft m = s.raft m)
    {cmd : Command} (happ : Appends (s.raft n) (s'.raft n) cmd) (hv : SameVotes (s.raft n) (s'.raft n)) :
    ∃ L' full', Evolves s a s' L full L' full' ∧ LogInv M L' full' s' := by
  have hT := h.lead.leader n happ.leader
  have hcur := h.nodes.current n happ.leader
  have hi := h.stable.index.node n
  have hlen := (h.nodes.whole n).lastLogIndex hi
  have hg : L.Grows (s.raft n).term (full n ++ [⟨(s.raft n).lastLogIndex + 1, (s.raft n).term, cmd⟩]) := by
    have := Ledger.grows_concat (L := L) (T := (s.raft n).term) (e := ⟨(s.raft n).lastLogIndex + 1, (s.raft n).term, cmd⟩)
      (h.stable.elect.votes.nonneg n) rfl (by rw [hcur]; show (s.raft n).lastLogIndex + 1 = _; omega)
    rwa [hcur] at this
  have hL := Ledger.grow_extends (n := n) hg (.inr hT)
  have hsame : (L.grow (s.raft n).term n _ hg).lead = L.lead := by
    rw [Ledger.grow_lead, ← hT, Function.update_eq_self]
  refine ⟨_, _, .append n _ happ.leader rfl ha hg, h.next hok hs hL (hsame ▸ hlead)
    ⟨fun m => ?_, fun m => ?_, fun m hm => ?_⟩⟩
  · by_cases hmn : m = n
    · subst hmn; rw [Function.update_self]; exact (h.nodes.whole m).append happ
    · rw [Function.update_of_ne hmn, hother m hmn]; exact h.nodes.whole m
  · by_cases hmn : m = n
    · subst hmn
      have hself := (L.grow (s.raft m).term m _ hg).sound_log (s.raft m).term
      rw [Ledger.grow_log, Function.update_self] at hself
      rw [Function.update_self, hv.term]; exact hself
    · rw [Function.update_of_ne hmn, hother m hmn]; exact (h.nodes.sound m).mono hL (le_refl _)
  · rw [Ledger.grow_log]
    by_cases hmn : m = n
    · subst hmn; rw [hv.term, Function.update_self, Function.update_self]
    · -- another leader has another term
      obtain ⟨h1, h2⟩ := h.was_leader hs hm (hlead.leader m hm)
      have hne : (s.raft m).term ≠ (s.raft n).term := by
        intro heq
        have := h.lead.leader m h1
        rw [heq, hT] at this
        exact hmn (Option.some.inj this).symm
      rw [h2, Function.update_of_ne hne, Function.update_of_ne hmn]; exact h.nodes.current m h1

theorem LogInv.merged (h : LogInv M L full s) (hok : s.logsKept a = true) (hs : s.step a = some s')
    (hlead : LeadInv M L.lead s') {req : AppendEntriesRequest} (ha : s.accepts a = some (src, n, req)) :
    ∃ L' full', Evolves s a s' L full L' full' ∧ LogInv M L' full' s' := by
  obtain ⟨call, io, _, hp, _, hr, hm, hother, _, hsucc⟩ := step_accepts hs ha
  have hmem := List.mem_of_getElem? hp
  have hseg := h.carried.append _ hmem req rfl
  have hterm : (s'.raft n).term = req.term := by rw [hr]; exact appendEntries_term hsucc
  obtain ⟨p, hw, hcases, hover⟩ := (h.nodes.whole n).merge (h.stable.index.node n) hm
    (h.stable.index.request _ hmem req rfl).numbered (h.nodes.sound n).path (L.path req.term) hseg.nonneg hseg.len
    hseg.prevTerm hseg.entries
  refine ⟨_, _, .merge src n req p ha fun hb => hover (by rw [hb]; rfl), h.updated hok hs hlead hother hw ?_ fun hn => ?_⟩
  · rcases hcases with rfl | rfl
    · exact (h.nodes.sound n).mono (.refl L) (step_le_term hs n)
    · rw [hterm]; exact (L.sound_log req.term).take _
  · exact absurd hn (hlead.receiver hseg.lead (h.stable.addressed.append _ hmem req rfl) hterm)

theorem LogInv.installed (h : LogInv M L full s) {call : Nat} {io : Io} (hok : s.logsKept (.deliver call io) = true)
    (hs : s.step (.deliver call io) = some s') (hlead : LeadInv M L.lead s') {req : InstallSnapshotRequest}
    (hp : s.requests[call]? = some ⟨src, n, .installSnapshot req⟩)
    (hr : s'.raft n = ((s.raft n).installSnapshot req (s.envOf n io)).1) (ht : (s.raft n).term ≤ req.term)
    (hc : Compacts (s.raft n) (s'.raft n) ⟨req.lastIncludedIndex, req.lastIncludedTerm, req.data⟩)
    (hother : ∀ m, m ≠ n → s'.raft m = s.raft m) :
    ∃ L' full', Evolves s (.deliver call io) s' L full L' full' ∧ LogInv M L' full' s' := by
  have hmem := List.mem_of_getElem? hp
  have hi := h.stable.index.node n
  obtain ⟨hanch, hsrc⟩ := h.carried.install _ hmem req rfl
  have hterm : (s'.raft n).term = req.term := by rw [hr]; exact installSnapshot_term ht
  have hbase := freshSnapshot_base (logsKept_parts hok).fresh rfl hp ht
  have hmatch := (logsKept_parts hok).snapshots
  simp only [matchingSnapshot, hp, Bool.or_eq_true, decide_eq_true_eq] at hmatch
  have hstate := hlead.receiver hsrc (h.stable.addressed.install _ hmem req rfl) hterm
  have hacc : s.accepts (.deliver call io) = none := by simp only [accepts, hp]
  have hsnap : (s'.raft n).snapshot ≠ none := by rw [hc.snapshot]; exact Option.some_ne_none _
  by_cases hlast : (s.raft n).lastLogIndex ≤ req.lastIncludedIndex
  · obtain ⟨hlen, hterm'⟩ := hanch.entry
    refine ⟨_, _, .install n _ hacc hsnap, h.updated hok hs hlead hother (Whole.compact_beyond hi hc hlast hlen hterm') ?_
      fun hn => absurd hn hstate⟩
    rw [hterm]; exact ((L.sound_log _).take _).mono (.refl L) hanch.le
  · have hle : req.lastIncludedIndex ≤ (s.raft n).lastLogIndex := by omega
    obtain ⟨e, he⟩ := hi.entryAt_isSome hbase hle
    replace hmatch := hmatch.resolve_left (by omega)
    rw [he] at hmatch
    obtain ⟨_, het⟩ := (h.nodes.whole n).entryAt_term hi he
    refine ⟨_, _, .install n (full n) hacc hsnap, h.updated hok hs hlead hother
      ((h.nodes.whole n).compact hi hc hbase hle (het.trans (by simpa using hmatch))) ?_ fun _ => rfl⟩
    exact (h.nodes.sound n).mono (.refl L) (step_le_term hs n)

theorem LogInv.step (h : LogInv M L full s) (hok : s.logsKept a = true) (hs : s.step a = some s') :
    ∃ L' full', Evolves s a s' L full L' full' ∧ LogInv M L' full' s' := by
  rcases h.lead.step h.stable.elect (h.stable.step hok hs).elect hs with hlead | ⟨n, hl, hnone, hlead⟩
  · cases ha : s.accepts a with
    | some x => exact h.merged hok hs hlead ha
    | none =>
      rcases step_node hs with heq | ⟨n, _, hn, hother⟩
      · exact ⟨L, full, .same ha, h.sameLogs hok hs hlead fun m => by rw [heq]; exact .refl _⟩
      · have hlog := hn.logStep
        generalize hr' : s'.raft n = r at hlog
        cases hlog with
        | same _ hsame =>
          refine ⟨L, full, .same ha, h.sameLogs hok hs hlead fun m => ?_⟩
          by_cases hm : m = n
          · subst hm; rw [hr']; exact hsame
          · rw [hother m hm]; exact .refl _
        | append _ _ happ hv => exact h.appended hok hs hlead ha hother (hr' ▸ happ) (hr' ▸ hv)
        | merge call io src req hp _ _ hsucc => rw [accepts_deliver hp hsucc] at ha; cases ha
        | install call io src req hp hr ht hc => exact h.installed hok hs hlead hp (hr'.trans hr) ht (hr' ▸ hc) hother
        | snapshot _ snap hsn =>
          subst hr'
          have := h.updated hok hs hlead hother ((h.nodes.whole n).snapshotted (h.stable.index.node n) hsn)
            ((h.nodes.sound n).mono (.refl L) (step_le_term hs n)) fun _ => rfl
          rw [Function.update_eq_self] at this
          exact ⟨L, full, .same ha, this⟩
  · exact h.elected hok hs hl hnone hlead

/-- Nobody has been elected. -/
def Ledger.blank : Ledger where
  lead := fun _ => none
  log := fun _ => []
  vacant := fun _ _ => rfl
  path := fun _ => .nil
  terms := fun _ => nofun
  numbered := fun _ => .nil

theorem LogInv.start (M : Members) (snapshotter restorer : Bool) :
    LogInv M Ledger.blank (fun _ => []) (Cluster.start M.ids M.peersOf snapshotter restorer) := by
  refine ⟨.start .., .start .., ⟨fun n => ?_, fun n => ⟨.nil, nofun, .nil⟩, nofun⟩, ?_⟩
  · rw [start_raft]
    exact ⟨Nat.le_refl 0, boundary 0 0, rfl, rfl⟩
  · refine ⟨?_, ?_, ?_, ?_, ?_⟩
    · intro n t args ht; cases ht
    · intro p hp; cases hp
    · intro n snap hs; cases hs
    · intro n t snap ht; cases ht
    · intro p hp; cases hp

end Cluster

end Mimori
