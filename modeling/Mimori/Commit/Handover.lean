/-
Leadership transfer. `TransferLeadershipInternal` hands over to a peer whose match index has reached the commit index.
A match index beyond the base of the log was acknowledged in the leader's term; up to the base it may be the value a new
leader starts from, or that of a snapshot nobody got. A peer that has confirmed the log of a term keeps those entries of it
that all later leaders have, and what is committed is among them.
-/
import Mimori.Commit.Quorum
import Mimori.Commit.Committed
import Mimori.Replication.Transfer

namespace Mimori

open Raft TermLog

/-- What passed the checks of `TransferLeadershipInternal`. -/
theorem Raft.transferLeadershipInternal_ok {r : Raft} {target : NodeID} {ts : List Task}
    (h : r.transferLeadershipInternal target = .ok ts) :
    r.state = .leader ∧ target ∈ r.peers ∧ r.commitIndex ≤ r.matchIndex.get target := by
  unfold transferLeadershipInternal at h
  split at h
  · cases h
  rename_i hl
  split at h
  · cases h
  split at h
  · cases h
  rename_i hp
  split at h
  · cases h
  rename_i m hm
  split at h
  · cases h
  rename_i hle
  refine ⟨not_not.1 hl, by simpa using hp, ?_⟩
  rw [IndexMap.get, hm]
  exact not_lt.1 hle

namespace Cluster

/-! ## Confirmations -/

/-- `p` has answered a snapshot of `n` that reaches up to index `m`, and not with a term above the `T` of the request. -/
def SnapshotTaken (s : Cluster) (n p : NodeID) (T m : Int) : Prop :=
  ∃ call req resp, s.requests[call]? = some ⟨n, p, .installSnapshot req⟩ ∧
    (call, .installSnapshot resp) ∈ s.replies ∧ resp.term ≤ req.term ∧ req.term = T ∧ m ≤ req.lastIncludedIndex

/-- `p` has confirmed the log of `n` in term `T` up to index `m`. -/
def Confirmed (s : Cluster) (n p : NodeID) (T m : Int) : Prop := s.Acked n p T m ∨ s.SnapshotTaken n p T m

variable {M : Members} {s s' : Cluster} {a : Action} {n p : NodeID} {T T' m : Int} {c : Nat} {L L' : Ledger}
  {full full' : NodeID → List LogEntry}

theorem Confirmed.le (h : s.Confirmed n p T m) {k : Int} (hk : k ≤ m) : s.Confirmed n p T k := by
  rcases h with h | ⟨call, req, resp, hp, hr, hterm, hT, hm⟩
  · exact .inl (h.le hk)
  · exact .inr ⟨call, req, resp, hp, hr, hterm, hT, le_trans hk hm⟩

/-- A confirmation was there before, or is given in this step. -/
inductive NewlyConfirmed (s : Cluster) (n p : NodeID) (T m : Int) : Action → Prop
  | accepts (a : Action) (req : AppendEntriesRequest) (ha : s.accepts a = some (n, p, req)) (hT : req.term = T)
      (hm : m ≤ req.prevLogIndex + req.entries.length) : NewlyConfirmed s n p T m a
  | installs (call : Nat) (io : Io) (req : InstallSnapshotRequest)
      (hp : s.requests[call]? = some ⟨n, p, .installSnapshot req⟩) (hle : (s.raft p).term ≤ req.term)
      (hT : req.term = T) (hm : m ≤ req.lastIncludedIndex) : NewlyConfirmed s n p T m (.deliver call io)

theorem Stepped.confirmed (h : Stepped M s a s' L full L' full') (hc : s'.Confirmed n p T m) :
    s.Confirmed n p T m ∨ NewlyConfirmed s n p T m a := by
  have hreplied := h.before.logs.stable.elect.votes.replied
  rcases hc with hc | ⟨call, req, resp, hp, hr, hterm, hT, hm⟩
  · rcases acked_of_step hreplied h.step hc with hc | ⟨req, ha, hT, hm⟩
    · exact .inl (.inl hc)
    · exact .inr (.accepts a req ha hT hm)
  · rcases step_reply_new h.step hr with hr | hnew
    · rw [step_request_of_lt h.step (hreplied _ hr)] at hp
      exact .inl (.inr ⟨call, req, resp, hp, hr, hterm, hT, hm⟩)
    · -- the answer has the term of before, so the request was not stale when it was handled
      generalize hv : Response.installSnapshot resp = v at hnew
      cases hnew with
      | installSnapshot _ io src k req' hp' =>
        cases hv
        rw [step_request_some h.step hp'] at hp
        cases hp
        obtain ⟨q, hq, hmem, _⟩ := step_deliver h.step
        rw [hp'] at hq
        cases hq
        rw [installSnapshot_respTerm, int32_of_fits (fits_term (logsKept_parts h.logsKept).terms hmem)] at hterm
        exact .inr (.installs call io req hp' hterm hT hm)
      | _ => cases hv

theorem CommitInv.confirmed_length (h : CommitInv M L full s) (hc : s.Confirmed n p T c) : c ≤ (L.log T).length := by
  rcases hc with hc | ⟨call, req, resp, hp, _, _, rfl, hm⟩
  · exact h.inv.inv.logs.acked_length hc
  · have hmem := List.mem_of_getElem? hp
    have := le_length_of_take_eq (h.inv.install_take h.settles hmem) (h.install _ hmem req rfl).le_length
    omega

/-- If the first `c` entries of a log are those of a later leader after a step, they were so before: a leader appends only
entries of its own term. -/
theorem Stepped.agreed (h : Stepped M s a s' L full L' full') (hT : T < T') {l : NodeID} (hled : L.lead T' = some l)
    (heq : (L'.log T').take c = (L.log T).take c) : (L.log T').take c = (L.log T).take c := by
  have hlogs := h.before.logs
  cases h.evolves with
  | same => exact heq
  | merge => exact heq
  | install => exact heq
  | elect k hl hnone =>
    have hne : T' ≠ (s'.raft k).term := by
      rintro rfl
      rw [hnone] at hled
      cases hled
    rw [Ledger.grow_log, Function.update_of_ne hne] at heq
    exact heq
  | append k e hl ht =>
    rw [Ledger.grow_log, Function.update_apply] at heq
    split at heq
    · rename_i hk
      rw [hk, hlogs.nodes.current k hl]
      rcases le_or_gt c (full k).length with hle | hlt
      · rwa [List.take_append_of_le_length hle] at heq
      · -- the new entry would be in the log of the earlier term
        have hget := congrArg (fun q => q[(full k).length]?) heq
        simp only [List.getElem?_take, if_pos hlt, List.getElem?_concat_length] at hget
        have := (L.terms T e (List.mem_of_getElem? hget.symm)).2
        omega
    · exact heq

/-! ## What is kept of it -/

/-- Who has confirmed the log of a term has reached it, and keeps the entries that all later leaders have. -/
structure HandoverInv (M : Members) (L : Ledger) (full : NodeID → List LogEntry) (s : Cluster) : Prop where
  inv : CommitInv M L full s
  term : ∀ n p T m, s.Confirmed n p T m → T ≤ (s.raft p).term
  kept : ∀ n p T (c : Nat), s.Confirmed n p T c →
    (∀ T' l, T < T' → L.lead T' = some l → (L.log T').take c = (L.log T).take c) → (full p).take c = (L.log T).take c

theorem HandoverInv.kept_step (h : HandoverInv M L full s) (hst : Stepped M s a s' L full L' full')
    (hc : s'.Confirmed n p T c)
    (hlater : ∀ T' l, T < T' → L'.lead T' = some l → (L'.log T').take c = (L'.log T).take c) :
    (full' p).take c = (L'.log T).take c := by
  have hcomp := h.inv.inv
  have hset := h.inv.settles
  have hlog : c ≤ (L.log T).length → (L'.log T).take c = (L.log T).take c := take_of_isPrefix (hst.extends.log T)
  rcases hst.confirmed hc with hold | hnew
  · -- the log of the term has only grown, and what the later leaders have they had before
    have hlen := h.inv.confirmed_length hold
    rw [hlog hlen] at hlater ⊢
    have hbefore : ∀ T' l, T < T' → L.lead T' = some l → (L.log T').take c = (L.log T).take c :=
      fun T' l hT hl => hst.agreed hT hl (hlater T' l hT (hst.extends.lead T' l hl))
    refine hcomp.keeps hset hst (h.kept n p T c hold hbefore) hlen fun T' hT' hled => ?_
    obtain ⟨l, hl⟩ := hled
    rcases lt_or_eq_of_le (le_trans (h.term n p T c hold) hT') with hlt | rfl
    · exact hbefore T' l hlt hl
    · rfl
  · cases hnew with
    | accepts _ req ha hT hm =>
      -- up to the end of an accepted request the log is the sender's
      subst hT
      have hseg := hst.before.logs.accepts_segment hst.step ha
      have hnn := hseg.nonneg
      have hlen := hseg.entries_length
      rw [hlog (by omega)]
      exact take_eq_of_le (hcomp.accepted hset hst ha).take (by omega)
    | installs call io req hp hle hT hm =>
      -- the snapshot stands for a committed prefix, which the log of the sender's term has too
      subst hT
      have hmem := List.mem_of_getElem? hp
      have htake := hcomp.install_take hset hmem
      have hlen := le_length_of_take_eq htake (h.inv.install _ hmem req rfl).le_length
      have hreplaced := hst.before.logs.snapshot_replaces hst.extends hst.after.logs hst.logsKept hst.step rfl hp hle
      rw [hlog (by omega)]
      exact take_eq_of_le (hreplaced.1.trans htake.symm) (by omega)

theorem HandoverInv.step (h : HandoverInv M L full s) (hok : s.choicesKept a = true) (hs : s.step a = some s') :
    ∃ L' full', HandoverInv M L' full' s' := by
  obtain ⟨L', full', hst, hinv⟩ := h.inv.step hok hs
  refine ⟨L', full', hinv, fun n p T m hc => ?_, fun n p T c hc hlater => h.kept_step hst hc hlater⟩
  rcases hst.confirmed hc with hold | hnew
  · exact le_trans (h.term n p T m hold) (hst.le_term p)
  · cases hnew with
    | accepts _ req ha hT => rw [← hT, step_accepts_term hs ha]
    | installs call io req hp hle hT => rw [← hT, (step_installs hs rfl hp hle).term]

theorem HandoverInv.run {h : List (Cluster × Action)} (hr : M.machine.Run (fun s a => s.choicesKept a = true) h s) :
    ∃ L full, HandoverInv M L full s := by
  refine hr.invariant (I := fun s => ∃ L full, HandoverInv M L full s) ?_ ?_
  · rintro s ⟨snapshotter, restorer, rfl⟩
    have hnone : ∀ n p T m, ¬ (Cluster.start M.ids M.peersOf snapshotter restorer).Confirmed n p T m := by
      rintro n p T m (⟨call, req, resp, hp, _⟩ | ⟨call, req, resp, hp, _⟩) <;> cases hp
    exact ⟨_, _, .start M snapshotter restorer, fun n p T m hc => absurd hc (hnone n p T m),
      fun n p T c hc => absurd hc (hnone n p T c)⟩
  · rintro s a s' ⟨L, full, hi⟩ hok hs
    exact hi.step hok hs

/-- A node that has confirmed the log of a leader up to its commit index has what the leader has committed. -/
theorem HandoverInv.committed_take (h : HandoverInv M L full s) (hl : (s.raft n).state = .leader)
    (hc : s.Confirmed n p (s.raft n).term (s.raft n).commitIndex) :
    (full p).take (s.raft n).commitIndex.toNat = (full n).take (s.raft n).commitIndex.toNat := by
  have hcur := h.inv.inv.inv.logs.nodes.current n hl
  have h0 := h.inv.inv.inv.counts.commit n
  have hsettled := (h.inv.commit n).chosen
  rw [← hcur] at hsettled ⊢
  refine h.kept n p _ _ (hc.le (by omega)) fun T' l hT hl' => ?_
  exact h.inv.inv.complete.settled hsettled (le_of_lt hT) ⟨l, hl'⟩

/-! ## Transfers -/

/-- The target has what the leader has at index `i`: the entry itself, at the base of the leader's log one of its term, or
a snapshot of the leader's log that covers it. -/
inductive CaughtUpAt (leader target : Raft) (i : Int) : Prop
  | entry (e : LogEntry) (he : target.entryAt i = some e)
      (hsame : ∀ x, leader.entryAt i = some x → e.term = x.term ∧ (leader.logBaseIndex < i → e = x)) :
      CaughtUpAt leader target i
  | snapshot (snap : Snapshot) (hs : target.snapshot = some snap) (hi : i ≤ snap.lastIncludedIndex)
      (hterm : ∀ x, leader.entryAt snap.lastIncludedIndex = some x → snap.lastIncludedIndex ≤ leader.commitIndex →
        snap.lastIncludedTerm = x.term) : CaughtUpAt leader target i

/-- The snapshot of a node stands for entries that every node has committed that has committed so much. -/
theorem CommitInv.snapshot_term (h : CommitInv M L full s) {snap : Snapshot} (hs : (s.raft p).snapshot = some snap)
    {x : LogEntry} (hx : (s.raft n).entryAt snap.lastIncludedIndex = some x)
    (hc : snap.lastIncludedIndex ≤ (s.raft n).commitIndex) : snap.lastIncludedTerm = x.term := by
  have hlogs := h.inv.inv.logs
  obtain ⟨hlen, hterm⟩ := (hlogs.carried.snap p snap hs).entry
  obtain ⟨hlen', hterm'⟩ := (hlogs.nodes.whole n).entryAt_term (hlogs.stable.index.node n) hx
  have hagree := h.inv.complete.agree (fun T => L.led_of_ne_nil) (h.snap p snap hs).chosen (h.commit n).chosen
    (le_refl _) (show snap.lastIncludedIndex.toNat ≤ _ by omega)
  rw [← hterm, ← hterm', ← termAt_take (le_refl _), hagree, termAt_take (le_refl _)]

/-- A node that has what the leader has committed has it in its log, or under its snapshot. -/
theorem CommitInv.caughtUpAt (h : CommitInv M L full s)
    (htake : (full p).take (s.raft n).commitIndex.toNat = (full n).take (s.raft n).commitIndex.toNat) {i : Int}
    (hi : 0 < i) (hle : i ≤ (s.raft n).commitIndex) : CaughtUpAt (s.raft n) (s.raft p) i := by
  have hwhole := h.inv.inv.logs.nodes.whole
  have hin := h.inv.inv.logs.stable.index.node
  obtain ⟨k, rfl⟩ : ∃ k : Nat, i = k + 1 := ⟨(i - 1).toNat, by omega⟩
  rcases lt_or_ge (s.raft p).logBaseIndex (k + 1) with hbase | hbase
  · -- the target has not compacted the entry
    have hlen := le_length_of_take_eq htake (h.commit n).le_length
    obtain ⟨e, he⟩ : ∃ e, (full p)[k]? = some e := ⟨_, List.getElem?_eq_getElem (by omega)⟩
    have hsame : (full n)[k]? = some e := by
      have hget := congrArg (fun q => q[k]?) htake
      simp only [List.getElem?_take, if_pos (show k < (s.raft n).commitIndex.toNat by omega)] at hget
      rw [← hget, he]
    refine .entry e ?_ fun x hx => ⟨?_, fun hb => ?_⟩
    · rw [(hwhole p).entryAt (hin p) hbase]
      exact he
    · have hterm := ((hwhole n).entryAt_term (hin n) hx).2
      rwa [show ((k : Int) + 1).toNat = k + 1 by omega, termAt_succ hsame] at hterm
    · rw [(hwhole n).entryAt (hin n) hb] at hx
      exact Option.some.inj (hsame.symm.trans hx)
  · cases hs : (s.raft p).snapshot with
    | none =>
      have := ((hin p).fresh hs).1
      omega
    | some snap =>
      refine .snapshot snap hs ?_ fun x hx hc => h.snapshot_term hs hx hc
      rw [(hin p).snapshot snap hs]
      exact hbase

/-- Leadership is only transferred to a caught-up node: in every run of a cluster with fixed membership that keeps the
conditions `choicesKept`, if `TransferLeadershipInternal` returns nil, and the target's match index is beyond the base of the
leader's log or the target has confirmed the leader's log up to the commit index in its term, then the target has
what the leader has at every index up to the commit index. -/
theorem transfer_caught_up (M : Members) {h : List (Cluster × Action)} {s : Cluster}
    (hr : M.machine.Run (fun s a => s.choicesKept a = true) h s) {n target : NodeID} {ts : List Task}
    (ht : (s.raft n).transferLeadershipInternal target = .ok ts)
    (hc : (s.raft n).logBaseIndex < (s.raft n).matchIndex.get target ∨
      s.Confirmed n target (s.raft n).term (s.raft n).commitIndex) {i : Int} (hi : 0 < i)
    (hle : i ≤ (s.raft n).commitIndex) : CaughtUpAt (s.raft n) (s.raft target) i := by
  obtain ⟨hl, hp, hmatch⟩ := transferLeadershipInternal_ok ht
  obtain ⟨L, full, hinv⟩ := HandoverInv.run hr
  have hcounts := hinv.inv.inv.inv
  have hconf : s.Confirmed n target (s.raft n).term (s.raft n).commitIndex := by
    rcases hc with hc | hc
    · -- a leader counts beyond its base only what was acknowledged in its term
      rw [hcounts.logs.stable.elect.fixed.peers n] at hp
      exact .inl ((hcounts.counts.acked n hl target hp hc).le hmatch)
    · exact hc
  exact hinv.inv.caughtUpAt (hinv.committed_take hl hconf) hi hle

/-- B has acknowledged the first entry and A has committed it. -/
theorem transfer_caught_up_firstAck :
    ∃ h s, threeNodes.machine.Run (fun s a => s.choicesKept a = true) h s ∧
      (∃ ts, (s.raft "A").transferLeadershipInternal "B" = .ok ts) ∧ (s.raft "A").commitIndex = 1 ∧
      CaughtUpAt (s.raft "A") (s.raft "B") 1 := by
  obtain ⟨h, s, hr, hok, hcommit, hbase⟩ := Machine.exists_run (fun s a => Cluster.choicesKept s a = true)
    (fun _ s => ((s.raft "A").transferLeadershipInternal "B").isOk = true ∧ (s.raft "A").commitIndex = 1 ∧
      (s.raft "A").logBaseIndex < (s.raft "A").matchIndex.get "B")
    (threeNodes.machine_init true true) (firstAppend ++ [.deliver 1 {}, .run 3 (.reply 1) {}]) (by decide +kernel)
  cases ht : (s.raft "A").transferLeadershipInternal "B" with
  | error e =>
    rw [ht] at hok
    cases hok
  | ok ts =>
    exact ⟨h, s, hr, ⟨ts, ht⟩, hcommit,
      transfer_caught_up threeNodes hr ht (.inl hbase) (by decide) (le_of_eq hcommit.symm)⟩

/-- A compacts its log up to the entry that only B has besides it, loses its office to B's higher term and is elected again:
it starts from the base of its log as the match index of C, too. -/
def electedCompacted : List Action :=
  firstApplied ++ ([.applierSend "A", .applierDone "A" {}, .forceSnapshot "A" {}, .tick 2000, .electionTimeout "B" 1500 {},
    .run 3 .go {}, .run 3 .go {}, .deliver 2 {}, .tick 2000, .electionTimeout "A" 1500 {}, .run 5 .go {}, .run 5 .go {},
    .deliver 3 {}, .run 6 (.reply 3) {}] : List Action)

/-- Then A hands over to C, which has nothing. And a late acknowledgement lets A hand over to B, which does not have the
entry that A has committed and has in its log. -/
theorem transfer_not_caught_up :
    (∃ h s, threeNodes.machine.Run (fun s a => s.choicesKept a = true) h s ∧
      ((s.raft "A").transferLeadershipInternal "C").isOk = true ∧ (s.raft "A").commitIndex = 1 ∧
      (s.raft "A").entryAt 1 = some (boundary 1 1) ∧ (s.raft "C").log = [boundary 0 0] ∧
      (s.raft "C").snapshot = none) ∧
    ∃ h s, threeNodes.machine.Run (fun s a => (s.plainLogs a && s.commitWithin a) = true) h s ∧
      ((s.raft "A").transferLeadershipInternal "B").isOk = true ∧ (s.raft "A").commitIndex = 2 ∧
      (s.raft "A").logBaseIndex = 0 ∧ (s.raft "A").entryAt 2 = some ⟨2, 5, .put [4] [4]⟩ ∧
      (s.raft "B").entryAt 2 ≠ some ⟨2, 5, .put [4] [4]⟩ ∧ (s.raft "B").snapshot = none := by
  constructor
  · exact Machine.exists_run (fun s a => Cluster.choicesKept s a = true)
      (fun _ s => ((s.raft "A").transferLeadershipInternal "C").isOk = true ∧ (s.raft "A").commitIndex = 1 ∧
        (s.raft "A").entryAt 1 = some (boundary 1 1) ∧ (s.raft "C").log = [boundary 0 0] ∧ (s.raft "C").snapshot = none)
      (threeNodes.machine_init true true) electedCompacted (by decide +kernel)
  · exact Machine.exists_run (fun s a => (Cluster.plainLogs s a && Cluster.commitWithin s a) = true)
      (fun _ s => ((s.raft "A").transferLeadershipInternal "B").isOk = true ∧ (s.raft "A").commitIndex = 2 ∧
        (s.raft "A").logBaseIndex = 0 ∧ (s.raft "A").entryAt 2 = some ⟨2, 5, .put [4] [4]⟩ ∧
        (s.raft "B").entryAt 2 ≠ some ⟨2, 5, .put [4] [4]⟩ ∧ (s.raft "B").snapshot = none)
      (threeNodes.machine_init false false) lateAck (by decide +kernel)

end Cluster

end Mimori
