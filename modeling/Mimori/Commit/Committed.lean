/-
What is committed. The commit index of a node comes from its own count as a leader, from the request of a
leader, or from a snapshot; so what it covers is chosen, and the leader of the term it was counted in has
committed it as well, as long as it is in office. Compaction stays within what is applied, and what is applied
within what is committed: this is what leader completeness needs to know about snapshots.
-/
import Mimori.Commit.Complete
import Mimori.Apply.Taken
import Mimori.Log.Agreement

namespace Mimori

open Raft TermLog

namespace Raft

theorem updateCommitIndexLocked_leader {r : Raft} (h : r.commitIndex < r.updateCommitIndexLocked.commitIndex) :
    r.updateCommitIndexLocked.state = .leader := by
  rcases updateCommitIndexLocked_cases r with he | ⟨N, e, he, hl, _⟩ <;> rw [he] at h ⊢
  · omega
  · exact hl

theorem Follows.commit_le {r r' : Raft} {leaderCommit : Int} (h : Follows r r' leaderCommit)
    (hlt : r.commitIndex < r'.commitIndex) : r'.commitIndex ≤ leaderCommit := by
  have hc := h.commit
  split at hc
  · split at hc <;> omega
  · omega

end Raft

namespace Cluster

variable {M : Members} {s s' : Cluster} {a : Action} {n : NodeID} {T T' : Int} {c j : Nat} {L L' : Ledger}
  {full full' : NodeID → List LogEntry} {p q : List LogEntry}

/-! ## Conditions -/

/-- A request that is accepted brings nothing beyond its own end into question for the commit index. -/
def commitWithin (s : Cluster) (a : Action) : Bool :=
  match s.accepts a with
  | some (_, n, req) => (s.raft n).commitsVerified req
  | none => true

/-- The conditions under which only chosen entries are committed: elections are fair and logs stay in place and match
(`logsKept`), a leader counts an answer only in the term of its request, and a request that is accepted brings nothing
beyond its own end into question for the commit index. -/
def choicesKept (s : Cluster) (a : Action) : Bool := s.acksKept a && s.commitWithin a

/-! ## Committed prefixes -/

/-- The first `c` entries of `p` are committed in a term up to `T`: they are chosen, and the leader of this
term has committed them, as long as it is in office. -/
def Committed (M : Members) (L : Ledger) (s : Cluster) (T : Int) (c : Nat) (p : List LogEntry) : Prop :=
  c = 0 ∨ ∃ t l, t ≤ T ∧ L.lead t = some l ∧
    ((s.raft l).state = .leader → (s.raft l).term = t → (c : Int) ≤ (s.raft l).commitIndex) ∧ ChosenUpTo M L s t c p

theorem Committed.chosen (h : Committed M L s T c p) : ChosenUpTo M L s T c p := by
  rcases h with rfl | ⟨t, l, ht, _, _, hc⟩
  · exact .inl rfl
  · exact hc.congr ht rfl

theorem Committed.le_length (h : Committed M L s T c p) : c ≤ p.length := h.chosen.le_length

theorem Committed.le (h : Committed M L s T c p) (hj : j ≤ c) : Committed M L s T j p := by
  rcases h with rfl | ⟨t, l, ht, hl, hoff, hc⟩
  · exact .inl (Nat.le_zero.1 hj)
  · exact .inr ⟨t, l, ht, hl, fun hst h => le_trans (Int.ofNat_le.2 hj) (hoff hst h), hc.le hj⟩

theorem Committed.congr (h : Committed M L s T c p) (hT : T ≤ T') (hpq : q.take c = p.take c) :
    Committed M L s T' c q := by
  rcases h with rfl | ⟨t, l, ht, hl, hoff, hc⟩
  · exact .inl rfl
  · exact .inr ⟨t, l, le_trans ht hT, hl, hoff, hc.congr (le_refl _) hpq⟩

theorem Committed.step (h : Committed M L s T c p) (hst : Stepped M s a s' L full L' full') :
    Committed M L' s' T c p := by
  rcases h with rfl | ⟨t, l, ht, hl, hoff, hc⟩
  · exact .inl rfl
  · refine .inr ⟨t, l, ht, hst.extends.lead t l hl, fun hlead hterm => ?_, hc.mono hst.advances⟩
    obtain ⟨hled, hsame⟩ := hst.before.logs.was_leader hst.step hlead (hterm.symm ▸ hl)
    exact le_trans (hoff hled (hsame.symm.trans hterm))
      (hst.before.logs.commit_mono hst.extends hst.after.logs hst.step hlead)

/-- What is committed in the log of a leader stays so while this log grows. -/
theorem Committed.log {t : Int} (h : Committed M L s T c (L.log t)) (hst : Stepped M s a s' L full L' full') :
    Committed M L' s' T c (L'.log t) :=
  (h.congr (le_refl _) (take_of_isPrefix (hst.extends.log t) h.le_length)).step hst

/-- Entry `e` is committed, in its place. -/
def CommittedEntry (M : Members) (L : Ledger) (s : Cluster) (e : LogEntry) : Prop :=
  ∃ (T : Int) (p : List LogEntry) (k : Nat), e.index = k + 1 ∧ p[k]? = some e ∧ Committed M L s T (k + 1) p

theorem CommittedEntry.step {e : LogEntry} (h : CommittedEntry M L s e) (hst : Stepped M s a s' L full L' full') :
    CommittedEntry M L' s' e := by
  obtain ⟨T, p, k, hk, hp, hc⟩ := h
  exact ⟨T, p, k, hk, hp, hc.step hst⟩

/-! ## The invariant -/

structure CommitInv (M : Members) (L : Ledger) (full : NodeID → List LogEntry) (s : Cluster) : Prop where
  inv : CompleteInv M L full s
  base : ∀ n, (s.raft n).logBaseIndex ≤ (s.raft n).lastApplied
  applied : ∀ n, (s.raft n).lastApplied ≤ (s.raft n).commitIndex
  commit : ∀ n, Committed M L s (s.raft n).term (s.raft n).commitIndex.toNat (full n)
  args : ∀ n t args, (n, t) ∈ s.tasks → argsOf t = some args →
    Fits args.freshCommit ∧ Committed M L s args.term args.freshCommit.toNat (L.log args.term)
  request : ∀ q ∈ s.requests, ∀ req, q.req = .appendEntries req →
    Committed M L s req.term req.leaderCommit.toNat (L.log req.term)
  snap : ∀ n snap, (s.raft n).snapshot = some snap →
    Committed M L s (s.raft n).term snap.lastIncludedIndex.toNat (L.log snap.lastIncludedTerm)
  snapTask : ∀ n t snap, (n, t) ∈ s.tasks → snapOf t = some snap →
    Committed M L s (s.raft n).term snap.lastIncludedIndex.toNat (L.log snap.lastIncludedTerm)
  install : ∀ q ∈ s.requests, ∀ req, q.req = .installSnapshot req →
    Committed M L s req.term req.lastIncludedIndex.toNat (L.log req.lastIncludedTerm)
  taken : ∀ n, ∀ e ∈ (s.app n).taken, ∃ (T : Int) (p : List LogEntry) (k : Nat), e.index = k + 1 ∧ p[k]? = some e ∧
    Committed M L s T (k + 1) p

theorem CommitInv.settles (h : CommitInv M L full s) : Settles M L full s := by
  refine ⟨fun n => (h.commit n).chosen.le ?_, fun q hq req hreq => (h.install q hq req hreq).chosen⟩
  have := h.base n
  have := h.applied n
  omega

/-! ## Commit indices -/

theorem CommitInv.committed_kept (h : CommitInv M L full s) (hst : Stepped M s a s' L full L' full') (n : NodeID) :
    Committed M L' s' (s'.raft n).term (s.raft n).commitIndex.toNat (full' n) := by
  have hc := h.commit n
  have hkeep : (full' n).take (s.raft n).commitIndex.toNat = (full n).take (s.raft n).commitIndex.toNat :=
    h.inv.keeps h.settles hst rfl hc.le_length fun T hT hled => h.inv.complete.settled hc.chosen hT hled
  exact (hc.congr (hst.le_term n) hkeep).step hst

/-- What a leader commits is chosen. -/
theorem CommitInv.counted_chosen (h : CommitInv M L full s) (hst : Stepped M s a s' L full L' full')
    (hl : (s'.raft n).state = .leader) (hlt : (s.raft n).commitIndex < (s'.raft n).commitIndex) :
    Committed M L' s' (s'.raft n).term (s'.raft n).commitIndex.toNat (full' n) := by
  obtain ⟨⟨e, he, ht⟩, hmaj, hack⟩ := hst.committed hl hlt
  have hlogs := hst.after.logs
  have hlead := hlogs.lead.leader n hl
  have hcur := hlogs.nodes.current n hl
  have hpos : 0 < (s'.raft n).commitIndex := lt_of_le_of_lt (hst.before.counts.commit n) hlt
  have hbase : (s.raft n).logBaseIndex < (s'.raft n).commitIndex :=
    lt_of_le_of_lt (le_trans (h.base n) (h.applied n)) hlt
  obtain ⟨k, hk⟩ : ∃ k : Nat, (s'.raft n).commitIndex = k + 1 := ⟨((s'.raft n).commitIndex - 1).toNat, by omega⟩
  have hnat : (s'.raft n).commitIndex.toNat = k + 1 := by omega
  obtain ⟨hlen, hterm⟩ := (hlogs.nodes.whole n).entryAt_term (hlogs.stable.index.node n) he
  rw [hnat] at hlen hterm ⊢
  obtain ⟨x, hx⟩ : ∃ x, (full' n)[k]? = some x := ⟨_, List.getElem?_eq_getElem hlen⟩
  rw [termAt_succ hx] at hterm
  refine .inr ⟨(s'.raft n).term, n, le_refl _, hlead, fun _ _ => by push_cast; omega, .inr ⟨(s'.raft n).term, k + 1,
    le_refl _, ⟨⟨k, x, rfl, ?_, by rw [hterm, ht]⟩, _, counted_majority (hlogs.stable.elect.fixed.peers n)
      (hlogs.lead.won _ n hlead).1 hmaj, fun p hp => ⟨?_, ?_⟩⟩, le_refl _, by rw [← hcur]; rfl⟩⟩
  · show (L'.log (s'.raft n).term)[k]? = some x
    rw [hcur]; exact hx
  · rw [hcur]; exact hlen
  · rcases Finset.mem_insert.1 hp with rfl | hp
    · exact .inl hlead
    · refine .inr ⟨n, (hack hbase p (List.mem_toFinset.1 hp)).le ?_⟩
      push_cast; omega

/-- What a follower commits is chosen. -/
theorem CommitInv.followed_chosen (h : CommitInv M L full s) (hst : Stepped M s a s' L full L' full')
    (hok : s.commitWithin a = true) {src : NodeID} {req : AppendEntriesRequest}
    (ha : s.accepts a = some (src, n, req)) (hf : Follows (s.raft n) (s'.raft n) req.leaderCommit)
    (hlt : (s.raft n).commitIndex < (s'.raft n).commitIndex) :
    Committed M L' s' (s'.raft n).term (s'.raft n).commitIndex.toNat (full' n) := by
  obtain ⟨_, _, _, hp, _, _, hm, _⟩ := step_accepts hst.step ha
  have hwithin : (s'.raft n).commitIndex ≤ req.lastIndex := by
    simp only [commitWithin, ha] at hok
    have hn := (h.inv.inv.logs.stable.index.request _ (List.mem_of_getElem? hp) req rfl).numbered
    have := hm.commit_le hf hn hok
    omega
  rw [AppendEntriesRequest.lastIndex] at hwithin
  have hle := hf.commit_le hlt
  have hc := (h.request _ (List.mem_of_getElem? hp) req rfl).le (j := (s'.raft n).commitIndex.toNat) (by omega)
  have hnn := (h.inv.inv.logs.accepts_segment hst.step ha).nonneg
  have htake := take_eq_of_le (h.inv.accepted h.settles hst ha).take (j := (s'.raft n).commitIndex.toNat) (by omega)
  exact (hc.congr (le_of_eq (step_accepts_term hst.step ha).symm) htake).step hst

theorem CommitInv.commit_step (h : CommitInv M L full s) (hst : Stepped M s a s' L full L' full')
    (hok : s.commitWithin a = true) (n : NodeID) :
    Committed M L' s' (s'.raft n).term (s'.raft n).commitIndex.toNat (full' n) := by
  by_cases hlt : (s.raft n).commitIndex < (s'.raft n).commitIndex
  · by_cases hl : (s'.raft n).state = .leader
    · exact h.counted_chosen hst hl hlt
    rcases step_at hst.step n with heq | ⟨_, hk⟩
    · rw [heq] at hlt; omega
    · have hcs := h.inv.inv.logs.countStep hk
      generalize hr : s'.raft n = r at hcs
      cases hcs with
      | same _ hcm => rw [hr, hcm] at hlt; omega
      | office _ ho => rw [hr, ho.commit] at hlt; omega
      | follow _ src req ha hf => exact hr ▸ h.followed_chosen hst hok ha (hr ▸ hf) hlt
      | install call io src req hp ht =>
        have hin := step_installs hst.step rfl hp ht
        have htake := (h.inv.inv.logs.snapshot_replaces hst.extends hst.after.logs hst.logsKept hst.step rfl hp ht).1
        rw [← hr, hin.commit, hin.term]
        exact ((h.install _ (List.mem_of_getElem? hp) req rfl).congr (le_refl _) htake).step hst
      | acked i j io args call resp hx hra hsucc heq =>
        rw [hr, heq, ← (recordProgress_indices (s.raft n) args).1] at hlt
        rw [hr, heq] at hl
        exact absurd (updateCommitIndexLocked_leader hlt) hl
      | alone _ heq =>
        rw [hr, heq] at hlt hl
        exact absurd (updateCommitIndexLocked_leader hlt) hl
      | sent _ _ _ _ _ heq => rw [hr, heq] at hlt; exact absurd hlt (lt_irrefl _)
  · exact (h.committed_kept hst n).le (by omega)

/-- A commit index goes back only to that of an installed snapshot. -/
theorem CommitInv.commit_forward (h : CommitInv M L full s) (hst : Stepped M s a s' L full L' full') (n : NodeID) :
    (s.raft n).commitIndex ≤ (s'.raft n).commitIndex ∨ ∃ req, Installs (s.raft n) (s'.raft n) req := by
  rcases step_at hst.step n with heq | ⟨_, hk⟩
  · rw [heq]; exact .inl (le_refl _)
  · have hlen := (h.committed_kept hst n).le_length
    have hlast := (hst.after.logs.nodes.whole n).lastLogIndex (hst.after.logs.stable.index.node n)
    have hcs := h.inv.inv.logs.countStep hk
    generalize hr : s'.raft n = r at hcs hlast
    cases hcs with
    | same _ hc => rw [hc]; exact .inl (le_refl _)
    | office _ ho => rw [ho.commit]; exact .inl (le_refl _)
    | follow _ src req _ hf =>
      left
      rw [hf.commit]
      split
      · split <;> omega
      · exact le_refl _
    | install call io src req hp ht => exact .inr ⟨req, hr ▸ step_installs hst.step rfl hp ht⟩
    | acked i j io args call resp hx hra hsucc he =>
      left
      rw [he, ← (recordProgress_indices (s.raft n) args).1]; exact updateCommitIndexLocked_le _
    | alone _ he => rw [he]; exact .inl (updateCommitIndexLocked_le _)
    | sent _ _ _ _ _ he => rw [he]; exact .inl (le_refl _)

/-- Compaction stays within what is applied, and that within what is committed. -/
theorem CommitInv.bounds_step (h : CommitInv M L full s) (hst : Stepped M s a s' L full L' full') (n : NodeID) :
    (s'.raft n).logBaseIndex ≤ (s'.raft n).lastApplied ∧ (s'.raft n).lastApplied ≤ (s'.raft n).commitIndex := by
  have hb := h.base n
  have ha := h.applied n
  have hinst : ∀ req, Installs (s.raft n) (s'.raft n) req → (s'.raft n).logBaseIndex ≤ (s'.raft n).lastApplied ∧
      (s'.raft n).lastApplied ≤ (s'.raft n).commitIndex := by
    intro req hin
    rw [hin.log.base, hin.applied, hin.commit]
    exact ⟨le_refl _, le_refl _⟩
  rcases h.commit_forward hst n with hle | ⟨req, hin⟩
  swap
  · exact hinst req hin
  have htakes := step_takes h.inv.inv.logs.stable.index hst.step n
  have happ : (s.raft n).lastApplied ≤ (s'.raft n).lastApplied ∧ (s'.raft n).lastApplied ≤ (s'.raft n).commitIndex ∨
      ∃ req, Installs (s.raft n) (s'.raft n) req := by
    cases htakes with
    | idle _ hl => left; omega
    | take e _ hl _ hc => left; omega
    | install call io src req hact hp hterm => exact .inr ⟨req, step_installs hst.step hact hp hterm⟩
  rcases happ with ⟨h1, h2⟩ | ⟨req, hin⟩
  swap
  · exact hinst req hin
  refine ⟨?_, h2⟩
  rcases step_at hst.step n with heq | ⟨_, hk⟩
  · rw [heq]; exact hb
  · have hsave := hk.saveStep
    generalize hr : s'.raft n = r at hsave h1
    cases hsave with
    | same _ hbase => rw [hbase]; omega
    | install call io src req hp _ ht => exact hr ▸ (hinst req (step_installs hst.step rfl hp ht)).1
    | own _ snap hs => rw [hs.compacts.base, hs.own.index]; exact h1

/-! ## Requests -/

theorem CommitInv.newArgs (h : CommitInv M L full s) (hok : s.logsKept a = true) (hn : n ∈ s.procs)
    {args : AppendArgs} (ha : ArgsFrom s n a args) :
    Fits args.freshCommit ∧ Committed M L s args.term args.freshCommit.toNat (L.log args.term) := by
  have hidx := (logsKept_parts hok).indices
  have hspeak := (logsKept_parts hok).office
  cases ha with
  | read i io ret T leaderID p rest _ hx hb =>
    obtain ⟨hl, rfl⟩ : (s.raft n).state = .leader ∧ (s.raft n).term = T := by
      simpa only [speaksInOffice, hx, Bool.and_eq_true, beq_iff_eq] using hspeak
    have hi := h.inv.inv.logs.stable.index
    obtain ⟨hr, _, ht, _⟩ := heartbeatTo_reads (hi.node n) (hi.next n _) hb
    have hlen := (h.commit n).le_length
    have hlast := (h.inv.inv.logs.nodes.whole n).lastLogIndex (hi.node n)
    have h0 := h.inv.inv.counts.commit n
    rw [hr.commit, ht, h.inv.inv.logs.nodes.current n hl]
    exact ⟨fits_of_le h0 (by omega) (fits_index hidx hn), h.commit n⟩
  | batch _ args hx => exact h.args n _ args hx rfl
  | sent _ args hx hne =>
    rw [afterSent_term, afterSent_freshCommit]
    exact h.args n _ args hx rfl
  | refused i io args hx hne => exact h.args n _ args (List.mem_of_getElem? hx) rfl
  | same _ _ hx => exact h.args n _ args hx rfl

theorem CommitInv.request_step (h : CommitInv M L full s) (hs : s.step a = some s') {q : Packet} (hq : q ∈ s'.requests)
    {req : AppendEntriesRequest} (hreq : q.req = .appendEntries req) :
    Committed M L s req.term req.leaderCommit.toNat (L.log req.term) := by
  rcases step_packets hs hq with hq | ⟨_, hnew⟩
  · exact h.request q hq req hreq
  · cases hnew with
    | appendEntries i io n args hx =>
      cases hreq
      have hmem := List.mem_of_getElem? hx
      obtain ⟨_, _, hfit⟩ := h.inv.inv.logs.carried.args n _ args hmem rfl
      obtain ⟨hfc, hc⟩ := h.args n _ args hmem rfl
      simp only [appendEntriesRequest]
      rw [int32_of_fits hfit, int32_of_fits hfc]
      exact hc
    | _ => cases hreq

/-! ## Snapshots -/

/-- A snapshot in the memory of a node: it was there, the node takes it of what it has applied, or it is
installed. -/
theorem CommitInv.snap_step (h : CommitInv M L full s) (hst : Stepped M s a s' L full L' full') {snap : Snapshot}
    (hsnap : (s'.raft n).snapshot = some snap) :
    Committed M L s (s'.raft n).term snap.lastIncludedIndex.toNat (L.log snap.lastIncludedTerm) := by
  have hlogs := h.inv.inv.logs
  have hold : (s.raft n).snapshot = some snap →
      Committed M L s (s'.raft n).term snap.lastIncludedIndex.toNat (L.log snap.lastIncludedTerm) :=
    fun hx => (h.snap n snap hx).congr (hst.le_term n) rfl
  rcases step_at hst.step n with heq | ⟨_, hk⟩
  · rw [heq] at hsnap; exact hold hsnap
  · have hsave := hk.saveStep
    generalize hr : s'.raft n = r at hsave hsnap
    cases hsave with
    | same _ _ hsame => rw [hsame] at hsnap; exact hr ▸ hold hsnap
    | install call io src req hp _ ht hc =>
      rw [hc.snapshot] at hsnap
      cases hsnap
      rw [← hr, (step_installs hst.step rfl hp ht).term]
      exact h.install _ (List.mem_of_getElem? hp) req rfl
    | own _ x hx =>
      rw [hx.compacts.snapshot] at hsnap
      cases hsnap
      obtain ⟨e, he, ht⟩ := hx.own.entry
      obtain ⟨hlen, hterm⟩ := (hlogs.nodes.whole n).entryAt_term (hlogs.stable.index.node n) he
      have hle := h.applied n
      rw [hx.own.index, ht, ← hr]
      exact ((h.commit n).le (by omega)).congr (hst.le_term n) (hlogs.leader_take hlen hterm).2

theorem CommitInv.snapTask_step (h : CommitInv M L full s) (hst : Stepped M s a s' L full L' full') {t : Task}
    {snap : Snapshot} (ht : (n, t) ∈ s'.tasks) (hsnap : snapOf t = some snap) :
    Committed M L s (s'.raft n).term snap.lastIncludedIndex.toNat (L.log snap.lastIncludedTerm) := by
  refine Committed.congr ?_ (hst.le_term n) rfl
  rcases step_tasks hst.step ht with ht | ⟨_, ht⟩
  · exact h.snapTask n t snap ht hsnap
  · rcases ht.snap hsnap with ⟨i, io, peer, _, _, hsend⟩ | ⟨t', ht', hs'⟩
    · exact h.snap n snap (Indexed.snapshotToSend (h.inv.inv.logs.stable.index.node n) hsend)
    · exact h.snapTask n t' snap ht' hs'

/-- What the sender of a snapshot puts on the wire is what it has. -/
theorem LogInv.sentSnapshot (h : LogInv M L full s) (hok : s.logsKept a = true) (hn : n ∈ s.procs) {peer : NodeID}
    {snap : Snapshot} (ht : (n, .sendSnapshotLoaded peer snap) ∈ s.tasks) :
    Fits (s.raft n).term ∧ Fits snap.lastIncludedIndex ∧ Fits snap.lastIncludedTerm := by
  have hfit := fits_term (logsKept_parts hok).terms hn
  have hanch := h.carried.snapTask n _ snap ht rfl
  exact ⟨hfit, (h.stable.index.snapTask n _ snap ht rfl).2, fits_of_le hanch.nonneg hanch.le hfit⟩

theorem CommitInv.install_step (h : CommitInv M L full s) (hst : Stepped M s a s' L full L' full') {q : Packet}
    (hq : q ∈ s'.requests) {req : InstallSnapshotRequest} (hreq : q.req = .installSnapshot req) :
    Committed M L s req.term req.lastIncludedIndex.toNat (L.log req.lastIncludedTerm) := by
  rcases step_packets hst.step hq with hq | ⟨hsrc, hnew⟩
  · exact h.install q hq req hreq
  · cases hnew with
    | installSnapshot i io n peer snap hx =>
      cases hreq
      have hm := List.mem_of_getElem? hx
      obtain ⟨hfit, hidx, hterm⟩ := h.inv.inv.logs.sentSnapshot hst.logsKept hsrc hm
      simp only [installSnapshotRequest]
      rw [int32_of_fits hfit, int32_of_fits hidx, int32_of_fits hterm]
      exact h.snapTask n _ snap hm rfl
    | _ => cases hreq

/-! ## Applied entries -/

/-- At an index that node `n` has committed, its log has the committed entry, or at its base the term of it. -/
theorem CommitInv.entry_committed (h : CommitInv M L full s) {i : Int} {x : LogEntry}
    (hx : (s.raft n).entryAt i = some x) (hi : 0 < i) (hc : i ≤ (s.raft n).commitIndex) :
    ∃ y, CommittedEntry M L s y ∧ y.index = i ∧ y.term = x.term ∧ ((s.raft n).logBaseIndex < i → y = x) := by
  have hlogs := h.inv.inv.logs
  have hin := hlogs.stable.index.node n
  obtain ⟨k, rfl⟩ : ∃ k : Nat, i = k + 1 := ⟨(i - 1).toNat, by omega⟩
  obtain ⟨hlen, hterm⟩ := (hlogs.nodes.whole n).entryAt_term hin hx
  rw [show ((k : Int) + 1).toNat = k + 1 by omega] at hlen hterm
  obtain ⟨y, hy⟩ : ∃ y, (full n)[k]? = some y := ⟨_, List.getElem?_eq_getElem hlen⟩
  have hnum := (hlogs.nodes.sound n).numbered k y hy
  refine ⟨y, ⟨_, full n, k, by omega, hy, (h.commit n).le (by omega)⟩, by omega, ?_, fun hb => ?_⟩
  · simpa [termAt, hy] using hterm
  · rw [(hlogs.nodes.whole n).entryAt hin hb, show ((k : Int) + 1).toNat - 1 = k by omega, hy] at hx
    exact Option.some.inj hx

theorem CommitInv.entry_eq (h : CommitInv M L full s) {x y : LogEntry} (hx : CommittedEntry M L s x)
    (hy : CommittedEntry M L s y) (hi : x.index = y.index) : x = y := by
  obtain ⟨_, p, k, hk, hp, hc⟩ := hx
  obtain ⟨_, q, l, hl, hq, hc'⟩ := hy
  obtain rfl : k = l := by omega
  have hagree := h.inv.complete.agree (fun T => L.led_of_ne_nil) hc.chosen hc'.chosen (le_refl _) (le_refl _)
  have hget := congrArg (fun z => z[k]?) hagree
  simp only [List.getElem?_take, if_pos (Nat.lt_succ_self k), hp, hq] at hget
  exact Option.some.inj hget

/-- What the applier takes is committed. -/
theorem CommitInv.taken_step (h : CommitInv M L full s) (hs : s.step a = some s') {e : LogEntry}
    (he : e ∈ (s'.app n).taken) : ∃ (T : Int) (p : List LogEntry) (k : Nat), e.index = k + 1 ∧ p[k]? = some e ∧
      Committed M L s T (k + 1) p := by
  cases step_takes h.inv.inv.logs.stable.index hs n with
  | idle ht => rw [ht] at he; exact h.taken n e he
  | install _ _ _ _ _ _ _ ht => rw [ht] at he; exact h.taken n e he
  | take x ht _ hx hc =>
    rw [ht] at he
    rcases List.mem_append.1 he with he | he
    · exact h.taken n e he
    · obtain rfl := List.mem_singleton.1 he
      have hbase := h.base n
      have hb0 := (h.inv.inv.logs.stable.index.node n).base
      obtain ⟨y, hy, _, _, hsame⟩ := h.entry_committed hx (by omega) (by omega)
      exact hsame (by omega) ▸ hy

/-! ## Runs -/

theorem CommitInv.step (h : CommitInv M L full s) (hok : s.choicesKept a = true) (hs : s.step a = some s') :
    ∃ L' full', Stepped M s a s' L full L' full' ∧ CommitInv M L' full' s' := by
  simp only [choicesKept, Bool.and_eq_true] at hok
  obtain ⟨L', full', hst⟩ := h.inv.inv.step hok.1 hs
  refine ⟨L', full', hst, h.inv.step h.settles hst, fun n => (h.bounds_step hst n).1, fun n => (h.bounds_step hst n).2,
    h.commit_step hst hok.2, fun n t args ht hargs => ?_, fun q hq req hreq => (h.request_step hs hq hreq).log hst,
    fun n snap hsnap => (h.snap_step hst hsnap).log hst, fun n t snap ht hsnap => (h.snapTask_step hst ht hsnap).log hst,
    fun q hq req hreq => (h.install_step hst hq hreq).log hst, fun n e he => ?_⟩
  · have hold : Fits args.freshCommit ∧ Committed M L s args.term args.freshCommit.toNat (L.log args.term) := by
      rcases step_tasks hs ht with ht | ⟨hn, ht⟩
      · exact h.args n t args ht hargs
      · exact h.newArgs hst.logsKept hn (ht.args hargs)
    exact ⟨hold.1, hold.2.log hst⟩
  · exact CommittedEntry.step (h.taken_step hs he) hst

theorem CommitInv.start (M : Members) (snapshotter restorer : Bool) :
    CommitInv M Ledger.blank (fun _ => []) (Cluster.start M.ids M.peersOf snapshotter restorer) := by
  refine ⟨.start M snapshotter restorer, fun n => ?_, fun n => ?_, fun n => .inl ?_, ?_, ?_, fun n snap hs => ?_, ?_, ?_, ?_⟩
  · rw [start_raft]
  · rw [start_raft]
  · rw [start_raft]; rfl
  · intro n t args ht; cases ht
  · intro q hq; cases hq
  · rw [start_raft] at hs; cases hs
  · intro n t snap ht; cases ht
  · intro q hq; cases hq
  · intro n e he; cases he

/-- Two entries of one index that nodes have taken to apply are the same. -/
theorem CommitInv.taken_eq (h : CommitInv M L full s) {m : NodeID} {x y : LogEntry} (hx : x ∈ (s.app n).taken)
    (hy : y ∈ (s.app m).taken) (hi : x.index = y.index) : x = y :=
  h.entry_eq (h.taken n x hx) (h.taken m y hy) hi

end Cluster

end Mimori
