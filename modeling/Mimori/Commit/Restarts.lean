/-
Commitment and restarts. A node that comes back has its log and its snapshot, and forgets what it has committed beyond
the snapshot and whom it has counted. It leads no more; whatever it has accepted, and whatever it has sent that is still
on its way, stands. So nothing that was chosen is lost, and everything that is known of a run so far remains true.
-/
import Mimori.Commit.Committed
import Mimori.Election.Restarts

namespace Mimori

open Raft TermLog

namespace Cluster

variable {M : Members} {s s' : Cluster} {n m : NodeID} {L : Ledger} {T : Int} {c : Nat} {p : List LogEntry}
  {full : NodeID → List LogEntry} {d : Disk} {io : Io} {r r' : Raft}

/-! ## Conditions -/

/-- The files hold the snapshot and the log of the node. -/
def logHeld (d : Disk) (r : Raft) : Bool :=
  d.snapFile == r.snapshot && (d.logFile == some r.log || (d.logFile == none && r.log == [boundary 0 0]))

/-- A process that comes back finds the log of the one that died. -/
def logsFound (s : Cluster) (l : RestartAction) : Bool :=
  match s.restartDisk l with
  | some (n, d) => logHeld d (s.raft n)
  | none => true

/-- The conditions under which committed entries are for ever, with restarts: every step keeps `choicesKept`, and a process
that comes back is a member that finds the log it had and a meta file that is not behind it. -/
def recoversKept (M : Members) (s : Cluster) : RestartAction → Bool
  | .life (.step a) => s.choicesKept a
  | l => s.fairRestarts M l && s.logsFound l

/-! ## A node that comes back -/

/-- The node comes back with its log and its snapshot, and has committed and applied what the snapshot holds. -/
structure Recovers (r r' : Raft) : Prop extends ComesBack r r' where
  log : r'.log = r.log
  base : r'.logBaseIndex = r.logBaseIndex
  snapshot : r'.snapshot = r.snapshot
  commit : r'.commitIndex = r.logBaseIndex
  applied : r'.lastApplied = r.logBaseIndex
  waiters : ∀ i, r'.waiters i = none

/-- `New` loads the log it finds, when its first entry is that of the snapshot, and the base is the index of this entry. -/
theorem loadLog_held (hne : r.log ≠ []) (hd : logHeld d r = true)
    (hhead : ∀ snap e l, r.snapshot = some snap → r.log = e :: l →
      e.index = snap.lastIncludedIndex ∧ e.term = snap.lastIncludedTerm) :
    (loadLog d).1 = r.log ∧ ∀ e l, r.log = e :: l → (loadLog d).2 = e.index := by
  simp only [logHeld, Bool.and_eq_true, Bool.or_eq_true, beq_iff_eq] at hd
  obtain ⟨hsnap, hlog⟩ := hd
  obtain ⟨e, l, hel⟩ := List.exists_cons_of_ne_nil hne
  have hentries : (if (d.logFile.getD []).isEmpty then [boundary 0 0] else d.logFile.getD []) = e :: l := by
    rcases hlog with hlog | ⟨hlog, hfresh⟩ <;> rw [hlog]
    · rw [hel]; rfl
    · rw [← hel, hfresh]; rfl
  unfold loadLog
  simp only
  rw [hentries, hsnap, hel]
  cases hs : r.snapshot with
  | none =>
    refine ⟨rfl, fun e' l' he => ?_⟩
    cases he
    rfl
  | some snap =>
    obtain ⟨hidx, hterm⟩ := hhead snap e l hs hel
    simp only
    rw [if_neg (not_not.2 hidx), ← hidx, ← hterm]
    refine ⟨rfl, fun e' l' he => ?_⟩
    cases he
    rfl

theorem Recovers.of_held (hi : Indexed r) (hd : logHeld d r = true) (hf : MemberFiles M n d)
    (hhead : ∀ snap e l, r.snapshot = some snap → r.log = e :: l → e.term = snap.lastIncludedTerm)
    (hc : ComesBack r (new n (M.peersOf n) d io)) : Recovers r (new n (M.peersOf n) d io) := by
  have hidx : ∀ e l, r.log = e :: l → e.index = r.logBaseIndex := by
    intro e l hel
    have hnum := hi.numbered
    rw [hel] at hnum
    exact (Numbered.cons_iff.1 hnum).1
  obtain ⟨hlog, hbase⟩ := loadLog_held hi.ne hd fun snap e l hs hel =>
    ⟨(hidx e l hel).trans (hi.snapshot snap hs).symm, hhead snap e l hs hel⟩
  obtain ⟨e, l, hel⟩ := List.exists_cons_of_ne_nil hi.ne
  have hsnap : d.snapFile = r.snapshot := by
    simp only [logHeld, Bool.and_eq_true, beq_iff_eq] at hd
    exact hd.1
  have hindex : (d.snapFile.map Snapshot.lastIncludedIndex).getD 0 = r.logBaseIndex := by
    rw [hsnap]
    cases hs : r.snapshot with
    | none => exact (hi.fresh hs).1.symm
    | some snap => exact hi.snapshot snap hs
  refine ⟨hc, ?_, ?_, ?_, ?_, ?_, fun i => ?_⟩ <;> rw [new_unreplayed n (M.peersOf n) io hf.log]
  · exact hlog
  · exact (hbase e l hel).trans (hidx e l hel)
  · exact hsnap
  · exact hindex
  · exact hindex
  · rfl

/-- The snapshot of a node and the first entry of its log are of one term. -/
theorem CommitInv.head_term (h : CommitInv M L full s) {snap : Snapshot} {e : LogEntry} {l : List LogEntry}
    (hs : (s.raft n).snapshot = some snap) (hl : (s.raft n).log = e :: l) : e.term = snap.lastIncludedTerm := by
  have hlogs := h.inv.inv.logs
  have hbase := (hlogs.stable.index.node n).snapshot snap hs
  obtain ⟨_, x, hx, hterm⟩ := hlogs.nodes.whole n
  rw [hl] at hx
  cases hx
  have hle : (s.raft n).logBaseIndex.toNat ≤ (s.raft n).commitIndex.toNat := by
    have := h.base n
    have := h.applied n
    omega
  have hagree := h.inv.complete.agree (fun _ => L.led_of_ne_nil) (h.commit n).chosen (h.snap n snap hs).chosen hle
    (le_of_eq (by rw [hbase]))
  obtain ⟨_, hanch⟩ := (hlogs.carried.snap n snap hs).entry
  rw [hterm, ← termAt_take (le_refl _), hagree, termAt_take (le_refl _), ← hbase]
  exact hanch

/-! ## The invariants -/

/-- `s'` is `s` with node `n` started again. -/
structure Restarted (s s' : Cluster) (n : NodeID) : Prop where
  node : Recovers (s.raft n) (s'.raft n)
  other : ∀ m, m ≠ n → s'.raft m = s.raft m
  left : s'.tasks = s.tasks.filter fun x => x.1 ≠ n
  requests : s'.requests = s.requests
  replies : s'.replies = s.replies
  answers : s'.answers = s.answers
  app : ∀ m, s'.app m = if m = n then { store := (s.app n).store } else s.app m

theorem Restarted.tasks (h : Restarted s s' n) {x : NodeID × Task} (hx : x ∈ s'.tasks) : x ∈ s.tasks := by
  rw [h.left] at hx
  exact (List.mem_filter.1 hx).1

theorem Restarted.gone (h : Restarted s s' n) {x : NodeID × Task} (hx : x ∈ s'.tasks) : x.1 ≠ n := by
  rw [h.left] at hx
  exact of_decide_eq_true (List.mem_filter.1 hx).2

/-- What holds of every node, and is kept by the node that comes back, holds of every node after it. -/
theorem Restarted.forall {P : NodeID → Raft → Prop} (h : Restarted s s' n) (hn : P n (s'.raft n))
    (hP : ∀ m, P m (s.raft m)) (m : NodeID) : P m (s'.raft m) := by
  by_cases hm : m = n
  · rw [hm]; exact hn
  · rw [h.other m hm]; exact hP m

theorem Restarted.le_term (h : Restarted s s' n) (m : NodeID) : (s.raft m).term ≤ (s'.raft m).term :=
  h.forall (P := fun m r => (s.raft m).term ≤ r.term) h.node.le_term (fun _ => le_refl _) m

theorem Restarted.leader (h : Restarted s s' n) (hl : (s'.raft m).state = .leader) : s'.raft m = s.raft m := by
  refine h.other m fun hm => ?_
  rw [hm, h.node.state] at hl
  cases hl

theorem Restarted.acked (h : Restarted s s' n) {q : NodeID} {k : Int} : s'.Acked m q T k ↔ s.Acked m q T k := by
  unfold Acked
  rw [h.requests, h.replies]

theorem Restarted.granted (h : Restarted s s' n) {q : NodeID} : s'.Granted q m T ↔ s.Granted q m T := by
  unfold Granted VoteRequest
  rw [h.requests, h.replies]

/-- The members hold what they held, and some may have passed further terms. -/
theorem Restarted.advances (h : Restarted s s' n) : Advances (view L s) (view L s') := by
  have hholds : ∀ q t k, (view L s').holds q t k ↔ (view L s).holds q t k := by
    intro q t k
    exact and_congr Iff.rfl (or_congr Iff.rfl (exists_congr fun _ => h.acked))
  exact ⟨h.le_term, fun _ => List.prefix_rfl, fun q t k => (hholds q t k).2, fun q t k hh => .inl ((hholds q t k).1 hh)⟩

theorem Restarted.mayChoose (h : Restarted s s' n) {t : Int} {k : Nat} (hc : MayChoose M L s' t k) : MayChoose M L s t k :=
  hc.back h.advances hc.tip

theorem Restarted.committed (h : Restarted s s' n) (hc : Committed M L s T c p) : Committed M L s' T c p := by
  rcases hc with rfl | ⟨t, l, ht, hl, hoff, hch⟩
  · exact .inl rfl
  · refine .inr ⟨t, l, ht, hl, fun hlead hterm => ?_, hch.mono h.advances⟩
    have heq := h.leader hlead
    rw [heq] at hlead hterm ⊢
    exact hoff hlead hterm

/-- In the term of something that a node sent before it came back, it came back in this very term. -/
theorem Restarted.same_term (h : Restarted s s' n) (hT : (s'.raft m).term = T) (hle : T ≤ (s.raft m).term) :
    (s.raft m).term = T := by
  have := h.le_term m
  omega

theorem NodeLogs.restarted (h : NodeLogs L full s) (hr : Restarted s s' n) : NodeLogs L full s' := by
  refine ⟨hr.forall (P := fun m r => Whole r (full m)) ?_ h.whole, fun m => ?_, fun m hm => ?_⟩
  · have hw := h.whole n
    unfold Whole at hw ⊢
    rw [hr.node.log, hr.node.base]
    exact hw
  · exact (h.sound m).mono (.refl L) (hr.le_term m)
  · have heq := hr.leader hm
    rw [heq] at hm ⊢
    exact h.current m hm

theorem Carried.restarted (h : Carried L s) (hr : Restarted s s' n) : Carried L s' := by
  refine ⟨fun m t args ht => h.args m t args (hr.tasks ht), ?_, fun m snap hs => ?_, fun m t snap ht hs => ?_, ?_⟩
  · rw [hr.requests]; exact h.append
  · have hs' : (s.raft m).snapshot = some snap := by
      have hsame := hr.forall (P := fun m r => r.snapshot = (s.raft m).snapshot) hr.node.snapshot (fun _ => rfl) m
      rw [← hsame]; exact hs
    exact (h.snap m snap hs').mono (.refl L) (hr.le_term m)
  · exact (h.snapTask m t snap (hr.tasks ht) hs).mono (.refl L) (hr.le_term m)
  · rw [hr.requests]; exact h.install

theorem Counts.restarted (h : Counts M s) (hi : IndexInv s) (hr : Restarted s s' n) : Counts M s' := by
  refine ⟨hr.forall (P := fun _ r => 0 ≤ r.commitIndex) ?_ h.commit, fun m t snap ht hs => ?_, fun m hm q hq hlt => ?_⟩
  · rw [hr.node.commit]; exact (hi.node n).base
  · have hsame := hr.forall (P := fun m r => r.logBaseIndex = (s.raft m).logBaseIndex) hr.node.base (fun _ => rfl) m
    rw [hsame]; exact h.snap m t snap (hr.tasks ht) hs
  · have heq := hr.leader hm
    rw [heq] at hm hlt ⊢
    exact hr.acked.2 (h.acked m hm q hq hlt)

theorem Addressed.restarted (h : Addressed M s) (hr : Restarted s s' n) : Addressed M s' := by
  refine ⟨fun m t ht => h.task m t (hr.tasks ht), ?_, ?_, fun m args call ht => ?_⟩ <;> rw [hr.requests]
  · exact h.append
  · exact h.install
  · exact h.await m args call (hr.tasks ht)

theorem CompleteInv.restarted (h : CompleteInv M L full s) (hr : Restarted s s' n) (hinv : CountInv M L full s') :
    CompleteInv M L full s' := by
  have hvotes := h.inv.logs.stable.elect.votes
  refine ⟨hinv, fun m q t k hack => ?_, fun t t' k htt hled hc => h.complete t t' k htt hled (hr.mayChoose hc),
    fun q t k hc hh => ?_, fun q hq req hreq hterm => ?_, fun q m t hg hterm hnone t' k hlt hc hh => ?_⟩
  · exact (h.acked m q t k (hr.acked.1 hack)).trans (hr.le_term q)
  · exact h.kept q t k (hr.mayChoose hc) ⟨hh.1, hh.2.imp_right fun ⟨m, hack⟩ => ⟨m, hr.acked.1 hack⟩⟩
  · -- the request is of the term in which the node came back
    rw [hr.requests] at hq
    obtain ⟨src, dst, r⟩ := q
    cases hreq
    obtain ⟨call, hcall⟩ := List.getElem?_of_mem hq
    exact h.asked _ hq req rfl (hr.same_term hterm (hvotes.request call src dst req hcall).2.2)
  · have hg := hr.granted.1 hg
    obtain ⟨call, _, ⟨req, hcall, ht, _⟩, _⟩ := id hg
    have hle := (hvotes.request call m q req hcall).2.2
    exact h.voted q m t hg (hr.same_term hterm (ht ▸ hle)) hnone t' k hlt (hr.mayChoose hc)
      ⟨hh.1, hh.2.imp_right fun ⟨x, hack⟩ => ⟨x, hr.acked.1 hack⟩⟩

theorem CommitInv.restarted (h : CommitInv M L full s) (hr : Restarted s s' n) (hinv : CompleteInv M L full s') :
    CommitInv M L full s' := by
  have hbase := h.base n
  have happ := h.applied n
  refine ⟨hinv, hr.forall (P := fun _ r => r.logBaseIndex ≤ r.lastApplied) ?_ h.base,
    hr.forall (P := fun _ r => r.lastApplied ≤ r.commitIndex) ?_ h.applied, fun m => ?_,
    fun m t args ht ha => ?_, fun q hq req hreq => ?_, fun m snap hs => ?_, fun m t snap ht hs => ?_,
    fun q hq req hreq => ?_, fun m e he => ?_⟩
  · rw [hr.node.base, hr.node.applied]
  · rw [hr.node.applied, hr.node.commit]
  · have hle : (s'.raft m).commitIndex.toNat ≤ (s.raft m).commitIndex.toNat := by
      refine hr.forall (P := fun m r => r.commitIndex.toNat ≤ (s.raft m).commitIndex.toNat) ?_ (fun _ => le_refl _) m
      rw [hr.node.commit]
      omega
    exact hr.committed (((h.commit m).le hle).congr (hr.le_term m) rfl)
  · obtain ⟨hfit, hc⟩ := h.args m t args (hr.tasks ht) ha
    exact ⟨hfit, hr.committed hc⟩
  · rw [hr.requests] at hq
    exact hr.committed (h.request q hq req hreq)
  · have hs' : (s.raft m).snapshot = some snap := by
      have hsame := hr.forall (P := fun m r => r.snapshot = (s.raft m).snapshot) hr.node.snapshot (fun _ => rfl) m
      rw [← hsame]; exact hs
    exact hr.committed ((h.snap m snap hs').congr (hr.le_term m) rfl)
  · exact hr.committed ((h.snapTask m t snap (hr.tasks ht) hs).congr (hr.le_term m) rfl)
  · rw [hr.requests] at hq
    exact hr.committed (h.install q hq req hreq)
  · rw [hr.app] at he
    split at he
    · cases he
    · obtain ⟨t, q, k, hk, hq, hc⟩ := h.taken m e he
      exact ⟨t, q, k, hk, hq, hr.committed hc⟩

/-- The files that hold a log in place have one base. -/
theorem logHeld_diskAt (hi : Indexed r) (hd : logHeld d r = true) : DiskAt r.logBaseIndex d := by
  simp only [logHeld, Bool.and_eq_true, Bool.or_eq_true, beq_iff_eq] at hd
  obtain ⟨hsnap, hlog⟩ := hd
  refine ⟨hi.base, fun snap hs => hi.snapshot snap (hsnap.symm.trans hs), fun hs => (hi.fresh (hsnap.symm.trans hs)).1,
    fun f hf => ?_, fun hf => ?_⟩
  · rcases hlog with hlog | ⟨hlog, _⟩ <;> rw [hlog] at hf
    · cases hf
      exact ⟨hi.ne, hi.numbered⟩
    · cases hf
  · rcases hlog with hlog | ⟨_, hlog⟩
    · rw [hlog] at hf; cases hf
    · have hnum := hi.numbered
      rw [hlog] at hnum
      exact (Numbered.cons_iff.1 hnum).1.symm

theorem CommitInv.restart (h : CommitInv M L full s) (hf : FoundBy M s n d) (hd : logHeld d (s.raft n) = true) (io : Io) :
    Restarted s (s.restart n (M.peersOf n) d io) n ∧ CommitInv M L full (s.restart n (M.peersOf n) d io) := by
  have hlogs := h.inv.inv.logs
  have hi := hlogs.stable.index.node n
  have hfixed := hlogs.stable.elect.fixed
  have hback := hf.comesBack hfixed io
  have hrec : Recovers (s.raft n) ((s.restart n (M.peersOf n) d io).raft n) := by
    have hnew : ComesBack (s.raft n) (new n (M.peersOf n) d io) :=
      hf.files.comesBack (hfixed.id n) (hfixed.peers n) (hfixed.removed n) hf.forward io
    obtain ⟨_, h1, h2, h3, h4, h5, h6⟩ := Recovers.of_held hi hd hf.files (fun snap e l hs hl => h.head_term hs hl) hnew
    refine ⟨hback, ?_, ?_, ?_, ?_, ?_, fun i => ?_⟩ <;> rw [restart_raft, if_pos rfl]
    · exact h1
    · exact h2
    · exact h3
    · exact h4
    · exact h5
    · exact h6 i
  have hr : Restarted s (s.restart n (M.peersOf n) d io) n := by
    refine ⟨hrec, fun m hm => ?_, rfl, rfl, rfl, rfl, restart_app s n _ d io⟩
    rw [restart_raft, if_neg hm]
  refine ⟨hr, h.restarted hr (h.inv.restarted hr ⟨⟨⟨?_, ?_, ?_⟩, ?_, ?_, ?_⟩, ?_⟩)⟩
  · exact hlogs.stable.elect.restart hf.member hf.files hback
  · exact hlogs.stable.index.restart (logHeld_diskAt hi hd) (M.peersOf n) io
  · exact hlogs.stable.addressed.restarted hr
  · exact hlogs.lead.restart hback
  · exact hlogs.nodes.restarted hr
  · exact hlogs.carried.restarted hr
  · exact h.inv.inv.counts.restarted hlogs.stable.index hr

/-! ## Steps with restarts -/

theorem choicesKept_fair {a : Action} (h : s.choicesKept a = true) : s.fairElections a = true := by
  simp only [choicesKept, acksKept, Bool.and_eq_true] at h
  exact (logsKept_parts h.1.1).fair

theorem recoversKept_parts {l : RestartAction} (hok : s.recoversKept M l = true) :
    s.fairRestarts M l = true ∧ (∀ a, l = .life (.step a) → s.choicesKept a = true) ∧
      (∀ n d, s.restartDisk l = some (n, d) → logHeld d (s.raft n) = true) := by
  by_cases hl : ∃ a, l = .life (.step a)
  · obtain ⟨a, rfl⟩ := hl
    refine ⟨choicesKept_fair hok, fun b hb => ?_, fun n d hd => ?_⟩
    · cases hb; exact hok
    · cases hd
  · have hparts : s.fairRestarts M l = true ∧ s.logsFound l = true := by
      rcases l with (a | _) | _
      · exact absurd ⟨a, rfl⟩ hl
      · simpa only [recoversKept, Bool.and_eq_true] using hok
      · simpa only [recoversKept, Bool.and_eq_true] using hok
    refine ⟨hparts.1, fun a ha => absurd ⟨a, ha⟩ hl, fun n d hd => ?_⟩
    have hfound := hparts.2
    rw [logsFound, hd] at hfound
    exact hfound

/-- A step with restarts keeps what is known of the run, and what is committed. -/
theorem CommitInv.restartStep {l : RestartAction} (h : CommitInv M L full s) (hsaved : MembersSaved M s)
    (hok : s.recoversKept M l = true) (hs : s.restartStep l = some s') :
    MembersSaved M s' ∧ ∃ L' full', CommitInv M L' full' s' ∧
      ∀ T c p, Committed M L s T c p → Committed M L' s' T c p := by
  obtain ⟨hfair, hkept, hheld⟩ := recoversKept_parts hok
  obtain ⟨hsaved', ⟨a, hl, _, hs⟩ | ⟨n, d, io, hd, hf, rfl⟩⟩ := hsaved.restartStep hfair hs
  · obtain ⟨L', full', hst, hi⟩ := h.step (hkept a hl) hs
    exact ⟨hsaved', L', full', hi, fun T c p hc => hc.step hst⟩
  · obtain ⟨hr, hi⟩ := h.restart hf (hheld n d hd) io
    exact ⟨hsaved', L, full, hi, fun T c p hc => hr.committed hc⟩

end Cluster

end Mimori
