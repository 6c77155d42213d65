/-
The places of calls in the log. Every entry of a leader's log comes from one call. A write that was answered has its
entry in the committed log, and a strong read was answered from the first entries of it. When a call is made, what the
calls answered before it have written and seen is committed; so the entry it proposes comes after that or never takes
its place, and a leader that passes the check of a read has executed it.
-/
import Mimori.Client.Calls
import Mimori.Commit.Reads

namespace Mimori

open Raft TermLog Linear

theorem Raft.propose_leader_appends {r : Raft} (hl : r.state = .leader) (cmd : Command) (io : Io) :
    Appends r (r.propose cmd io).1 cmd := by
  unfold propose
  rw [if_neg (not_not.2 hl)]
  refine Appends.trans_same ?_ (saveLog_sameLog _ _)
  exact ⟨hl, rfl, rfl, rfl, rfl⟩

namespace Cluster

variable {M : Members} {s s' : Cluster} {a : Action} {n : NodeID} {L L' : Ledger} {T : Int} {e : LogEntry}
  {full full' : NodeID → List LogEntry}

/-! ## Where the entries of the ledger come from -/

/-- The entry by which the log of a leader has grown. -/
theorem Stepped.appended_source (h : Stepped M s a s' L full L' full') (ha : s.accepts a = none)
    (hl : (s.raft n).state = .leader) (he : full' n = full n ++ [e]) (ht : e.term = (s.raft n).term) :
    Source s a n e.data ∧ e = ⟨(s.raft n).lastLogIndex + 1, (s.raft n).term, e.data⟩ := by
  have hlogs := h.before.logs
  have hlen : full' n ≠ full n := by
    rw [he]
    intro heq
    have := congrArg List.length heq
    rw [List.length_append, List.length_singleton] at this
    omega
  have hsame : ¬ SameLog (s.raft n) (s'.raft n) := fun hs => hlen (hlogs.full_of_same h.after.logs h.extends hs)
  rcases step_at h.step n with heq | ⟨_, hk⟩
  · rw [heq] at hsame; exact absurd (.refl _) hsame
  · have hi := hlogs.stable.index.node n
    have hw := hlogs.nodes.whole n
    have hpath := (hlogs.nodes.sound n).path.mono h.extends.log
    have hlog := hk.logStep
    generalize hr : s'.raft n = r at hlog
    cases hlog with
    | same _ hs => exact absurd (hr ▸ hs) hsame
    | append _ cmd happ hv hsrc =>
      rw [← hr] at happ
      have hfull := h.after.logs.full_eq (hw.append happ)
        (by rw [happ.base, List.take_append_of_le_length hw.len]; exact hpath.take _)
      rw [he] at hfull
      have hcons := List.append_cancel_left hfull
      cases hcons
      exact ⟨hsrc, rfl⟩
    | merge call io src req hp _ _ hsucc => rw [accepts_deliver hp hsucc] at ha; cases ha
    | install call io src req hp _ ht' _ =>
      -- who installs a snapshot does not lead any more
      have hterm := hlogs.appended_term h.extends h.after.logs h.logsKept h.step ha hl he ht
      exact absurd ((hlogs.stable.elect.fixed.termMove h.step n).leader hl hterm)
        (hlogs.install_not_leader h.extends h.after.logs h.step rfl hp ht')
    | snapshot _ snap hsn =>
      rw [← hr] at hsn
      exact absurd (h.after.logs.full_eq (hw.snapshotted hi hsn) (hpath.take _)) hlen

/-- An entry of the ledger was there, or a leader has just appended it. -/
theorem Stepped.ledger_entry (h : Stepped M s a s' L full L' full') (he : e ∈ L'.log T) :
    e ∈ L.log e.term ∨ ∃ n, Source s a n e.data ∧ (s.raft n).state = .leader ∧
      e = ⟨(s.raft n).lastLogIndex + 1, (s.raft n).term, e.data⟩ := by
  have hold : ∀ {t : Int}, e ∈ L.log t → e ∈ L.log e.term := fun hm => (L.path _).mem_log hm
  have hnode : ∀ m, e ∈ full m → e ∈ L.log e.term := fun m hm => (h.before.logs.nodes.sound m).path.mem_log hm
  have hsource := fun n e => h.appended_source (n := n) (e := e)
  cases h.evolves with
  | same => exact .inl (hold he)
  | merge => exact .inl (hold he)
  | install => exact .inl (hold he)
  | elect m =>
    rw [Ledger.grow_log, Function.update_apply] at he
    split at he
    · exact .inl (hnode m he)
    · exact .inl (hold he)
  | append m x hl ht ha =>
    rw [Ledger.grow_log, Function.update_apply] at he
    split at he
    · rcases List.mem_append.1 he with he | he
      · exact .inl (hnode m he)
      · obtain rfl := List.mem_singleton.1 he
        obtain ⟨hsrc, heq⟩ := hsource m e ha hl (Function.update_self ..) ht
        exact .inr ⟨m, hsrc, hl, heq⟩
    · exact .inl (hold he)

/-- What a leader proposes is new in the ledger. -/
theorem Stepped.proposed_entry (h : Stepped M s a s' L full L' full') {i : Nat} {io : Io} (ha : a = .run i .go io)
    {cmd : Command} (hx : s.tasks[i]? = some (n, .propose cmd)) (hl : (s.raft n).state = .leader)
    (he : e = ⟨(s.raft n).lastLogIndex + 1, (s.raft n).term, cmd⟩) : e ∈ L'.log e.term ∧ ∀ T, e ∉ L.log T := by
  have hlogs := h.before.logs
  have hi := hlogs.stable.index.node n
  have hw := hlogs.nodes.whole n
  have hcur := hlogs.nodes.current n hl
  have hlast := hw.lastLogIndex hi
  have hr : s'.raft n = ((s.raft n).propose cmd (s.envOf n io)).1 := step_propose (ha ▸ h.step) hx
  have hkeep := propose_rest (s.raft n) cmd (s.envOf n io)
  rw [← hr] at hkeep
  refine ⟨?_, fun T hm => ?_⟩
  · have happ : Appends (s.raft n) (s'.raft n) cmd := by
      rw [hr]; exact propose_leader_appends hl ..
    have hfull := h.after.logs.full_eq (hw.append happ) (by
      rw [happ.base, List.take_append_of_le_length hw.len]
      exact ((hlogs.nodes.sound n).path.mono h.extends.log).take _)
    have hcur' := h.after.logs.nodes.current n (hkeep.state.trans hl)
    rw [hkeep.term, hfull] at hcur'
    rw [he]
    show _ ∈ L'.log (s.raft n).term
    rw [hcur']
    exact List.mem_append_right _ (List.mem_singleton_self _)
  · have hm := (L.path T).mem_log hm
    rw [he] at hm
    have hm : _ ∈ L.log (s.raft n).term := hm
    rw [hcur] at hm
    obtain ⟨k, hk⟩ := List.mem_iff_getElem?.1 hm
    have hidx := (hlogs.nodes.sound n).numbered k _ hk
    have hlt := (List.getElem?_eq_some_iff.1 hk).1
    simp only at hidx
    omega

end Cluster

namespace Cluster

variable {M : Members} {s s' : Cluster} {n : NodeID} {L : Ledger} {T : Int} {c : Nat} {q : List LogEntry}

theorem Committed.entry (h : Committed M L s T c q) {j : Nat} (hj : j < c) :
    ∃ x, q[j]? = some x ∧ x.index = j + 1 ∧ CommittedEntry M L s x ∧ ∃ t, x ∈ L.log t := by
  have hc := h.le (show j + 1 ≤ c from hj)
  rcases h.chosen with rfl | ⟨t, m, _, hch, hcm, hq⟩
  · omega
  · have hlen := le_trans hcm hch.tip.le_length
    obtain ⟨x, hx⟩ : ∃ x, (L.log t)[j]? = some x := ⟨_, List.getElem?_eq_getElem (lt_of_lt_of_le hj hlen)⟩
    have hqx : q[j]? = some x := by
      have hget := congrArg (fun l => l[j]?) hq
      simp only [List.getElem?_take, if_pos hj] at hget
      rw [hget]; exact hx
    have hidx := L.numbered t j x hx
    exact ⟨x, hqx, by omega, ⟨T, q, j, by omega, hqx, hc⟩, t, List.mem_of_getElem? hx⟩

/-- Only a section that goes ahead takes a request up. -/
theorem step_serve_go {i : Nat} {ch : Choice} {io : Io} {req : ClientRequest}
    (hs : s.step (.run i ch io) = some s') (hx : s.tasks[i]? = some (n, .serve req)) : ch = .go := by
  obtain ⟨_, hrun⟩ := step_runTask hs hx
  cases ch with
  | go => rfl
  | fail => cases req <;> cases hrun
  | reply j => cases req <;> cases hrun

end Cluster

namespace Calls

open Cluster

variable {M : Members} {L L' : Ledger} {full full' : NodeID → List LogEntry} {pos pos' : Nat → Nat} {s : Calls}
  {a : Action} {c : Cluster} {n : NodeID} {k i : Nat} {ans : CallResult} {cmd : Command} {key : Bytes}

/-- The conditions under which the strong operations are linearizable, on the step of the cluster. -/
def readsKept (M : Members) (s : Calls) (b : CallsAction) : Bool := s.cluster.readsRecover M (onCluster b)

/-! ## Proposals and the ledger -/

/-- The entries of the ledger are those that calls have proposed, each by one call. -/
structure Filed (L : Ledger) (s : Calls) : Prop where
  placed : ∀ p ∈ s.proposals, p.entry ∈ L.log p.entry.term
  sourced : ∀ T, ∀ e ∈ L.log T, ∃ p ∈ s.proposals, p.entry = e
  entries : s.proposals.Pairwise fun p q => p.entry ≠ q.entry

theorem Booked.owner (h : Booked s) {x : NodeID × Task} (hx : s.cluster.tasks[i]? = some x) (hu : Unproposed x.2) :
    ∃ k, s.session.ownerOf i = some k := by
  have hlt : i < s.owners.length := h.owners ▸ (List.getElem?_eq_some_iff.1 hx).1
  cases ho : s.owners[i] with
  | some k => exact ⟨k, Option.join_eq_some_iff.2 (List.getElem?_eq_some_iff.2 ⟨hlt, ho⟩)⟩
  | none =>
    have hmem : (x, none) ∈ s.session.labelled :=
      List.mem_of_getElem? (List.getElem?_zip_eq_some.2 ⟨hx, List.getElem?_eq_some_iff.2 ⟨hlt, ho⟩⟩)
    exact absurd hu (h.unowned x hmem)

theorem Filed.after (h : Filed L s) (hb : Booked s) (hi : internal a = true)
    (hst : Stepped M s.cluster a c L full L' full') : Filed L' (s.after a c) := by
  have hnew : ∀ {p : Proposal}, s.session.proposes a = some p →
      p.entry ∈ L'.log p.entry.term ∧ ∀ T, p.entry ∉ L.log T := by
    intro p hp
    obtain ⟨i, io, cmd, ha, hx, _, hl, he⟩ := proposes_some hp
    exact hst.proposed_entry ha hx hl he
  refine ⟨fun p hp => ?_, fun T e he => ?_, ?_⟩
  · rcases mem_proposals_after.1 hp with hp | hp
    · exact (hst.extends.log _).subset (h.placed p hp)
    · exact (hnew hp).1
  · rcases hst.ledger_entry he with he | ⟨m, hsrc, hl, heq⟩
    · obtain ⟨p, hp, he⟩ := h.sourced _ e he
      exact ⟨p, mem_proposals_after.2 (.inl hp), he⟩
    · generalize hd : e.data = cmd at hsrc
      cases hsrc with
      | propose => cases hi
      | client i io _ cmd hx =>
        obtain ⟨k, ho⟩ := hb.owner hx trivial
        refine ⟨_, mem_proposals_after.2 (.inr (Session.proposes_of hx ho hl)), ?_⟩
        rw [heq, hd]
        rfl
      | configChange =>
        have hfair := (logsKept_parts hst.logsKept).fair
        simp [fairElections, noConfigChange] at hfair
  · show (s.proposals ++ (s.session.proposes a).toList).Pairwise _
    rw [List.pairwise_append]
    refine ⟨h.entries, ?_, fun p hp q hq heq => ?_⟩
    · cases s.session.proposes a with
      | none => exact List.Pairwise.nil
      | some p => exact List.pairwise_singleton ..
    · exact (hnew (Option.mem_toList.1 hq)).2 _ (heq ▸ h.placed p hp)

theorem Filed.arrived (h : Filed L s) {req : ClientRequest}
    (hst : Stepped M s.cluster (.client n req) c L full L' full') : Filed L' (s.arrived req c) := by
  refine ⟨fun p hp => (hst.extends.log _).subset (h.placed p hp), fun T e he => ?_, h.entries⟩
  rcases hst.ledger_entry he with he | ⟨m, hsrc, _⟩
  · exact h.sourced _ e he
  · cases hsrc

/-! ## The places of calls in the log -/

/-- Call `k` was answered `ans` at place `i` of the log: the entry it proposed is committed there, or it read what the
first `i` entries make. -/
inductive Answered (M : Members) (L : Ledger) (s : Calls) (k i : Nat) : CallResult → Prop
  | written (p : Proposal) (hp : p ∈ s.proposals) (hk : p.attempt = k) (hi : p.entry.index = i)
      (hc : CommittedEntry M L s.cluster p.entry) : Answered M L s k i .done
  | read (key : Bytes) (T : Int) (q : List LogEntry) (hreq : s.requests[k]? = some (.get key false))
      (hc : Committed M L s.cluster T i q) : Answered M L s k i (.value ((Store.replay [] (q.take i)).get key))

theorem Answered.committed (h : Answered M L s k i ans) : ∃ T q, Committed M L s.cluster T i q := by
  cases h with
  | written p _ _ hi hc =>
    obtain ⟨T, q, j, hj, _, hc⟩ := hc
    obtain rfl : i = j + 1 := by omega
    exact ⟨T, q, hc⟩
  | read _ T q _ hc => exact ⟨T, q, hc⟩

/-- What is known of the calls: `pos k` is the place at which call `k` was answered. The calls that were answered before
call `k` was made are at lower places than the entry it has proposed, unless this entry is lost; and not beyond what a
read has seen, or what the store has executed from which it will be answered. -/
structure Traced (M : Members) (L : Ledger) (full : NodeID → List LogEntry) (pos : Nat → Nat) (s : Calls) : Prop where
  serve : ServeInv M L full s.cluster
  booked : Booked s
  filed : Filed L s
  pending : s.session.Holds s.proposals
  answered : ∀ k ans, .respond k ans ∈ s.history → Answered M L s k (pos k) ans
  proposed : ∀ p ∈ s.proposals, (∀ i, Precedes s.history i p.attempt → (pos i : Int) < p.entry.index) ∨
    ∃ x, CommittedEntry M L s.cluster x ∧ x.index = p.entry.index ∧ x ≠ p.entry
  reading : ∀ n key k, ((n, .reading key), some k) ∈ s.session.labelled → s.requests[k]? = some (.get key false) →
    ∃ p j x, Executing False M L full s.cluster n p j x ∧ ∀ i, Precedes s.history i k → pos i ≤ j
  read : ∀ k key ans, s.requests[k]? = some (.get key false) → .respond k ans ∈ s.history →
    ∀ i, Precedes s.history i k → pos i ≤ pos k

theorem Traced.reached (h : Traced M L full pos s) {j : Nat} (hp : Precedes s.history i j) :
    ∃ T q, Committed M L s.cluster T (pos i) q := by
  obtain ⟨ans, hans⟩ := hp.responded
  exact (h.answered i ans hans).committed

/-- A new entry comes after what was answered before its call was made, or has lost its place already. -/
theorem Traced.proposed_new (h : Traced M L full pos s) (hst : Stepped M s.cluster a c L full L' full') {p : Proposal}
    (hp : s.session.proposes a = some p) :
    (∀ i, Precedes s.history i p.attempt → (pos i : Int) < p.entry.index) ∨
      ∃ x, CommittedEntry M L' c x ∧ x.index = p.entry.index ∧ x ≠ p.entry := by
  obtain ⟨j, io, cmd, ha, hx, _, hl, he⟩ := proposes_some hp
  by_cases hall : ∀ i, Precedes s.history i p.attempt → (pos i : Int) < p.entry.index
  · exact .inl hall
  · right
    push Not at hall
    obtain ⟨i, hi, hle⟩ := hall
    obtain ⟨T, q, hc⟩ := h.reached hi
    have hin := h.serve.pending.index.node p.node
    have hb := hin.base
    have hbl := hin.base_le_last
    have hidx : p.entry.index = (s.cluster.raft p.node).lastLogIndex + 1 := by rw [he]
    obtain ⟨x, _, hxi, hxc, t, hxt⟩ := hc.entry (j := (p.entry.index - 1).toNat) (by omega)
    refine ⟨x, hxc.step hst, by omega, ?_⟩
    rintro rfl
    exact (hst.proposed_entry ha hx hl he).2 t hxt

/-- A leader that passes the check of a strong read has executed all that was answered before the call was made. -/
theorem Traced.checked (h : Traced M L full pos s) {io : Io} (hok : s.cluster.readsKept (.run i .go io) = true)
    (hx : s.cluster.tasks[i]? = some (n, .serve (.get key false))) (hl : (s.cluster.raft n).isLeader = true) :
    ∃ p j x, Executing False M L full s.cluster n p j x ∧ ∀ m, Precedes s.history m k → pos m ≤ j := by
  obtain ⟨p, j, x, hex⟩ := h.serve.stores.node n
  refine ⟨p, j, x, hex, fun m hm => ?_⟩
  obtain ⟨T, q, hc⟩ := h.reached hm
  exact h.serve.stores.fresh (readsKept_parts hok).2.2 hx hl hex hc

/-- The node of a strong read that has passed the check has executed what was answered before the call was made. -/
theorem Traced.reading_step (h : Traced M L full pos s) (hok : s.cluster.readsKept a = true)
    (hs : s.cluster.step a = some c) (ht : ((n, .reading key), some k) ∈ (s.after a c).session.labelled)
    (hreq : s.requests[k]? = some (.get key false)) :
    ∃ p j x, Executing False M L full s.cluster n p j x ∧ ∀ i, Precedes s.history i k → pos i ≤ j := by
  cases h.booked.attends hs with
  | other _ _ _ hlab => exact h.reading n key k (hlab _ _ ht) hreq
  | handler i ch io m t u l rest ha hx ho hc _ _ hlab =>
    rcases hlab _ _ ht with ⟨_, ht⟩ | ⟨rfl, v, rfl, he⟩
    · exact h.reading n key k ht hreq
    · cases he
      obtain ⟨req, hreq', hhandles⟩ := h.booked.handles _ k (Session.mem_labelled hx ho)
      rw [hreq] at hreq'
      cases hreq'
      cases hc with
      | reads _ allowStale hl =>
        cases hhandles
        subst ha
        obtain rfl := step_serve_go hs hx
        exact h.checked hok hx hl
      | leased => cases hhandles

theorem Answered.mono (h : Answered M L s k i ans) {s' : Calls}
    (hcom : ∀ T c p, Committed M L s.cluster T c p → Committed M L' s'.cluster T c p)
    (hprop : s.proposals ⊆ s'.proposals) (hreq : ∀ req, s.requests[k]? = some req → s'.requests[k]? = some req) :
    Answered M L' s' k i ans := by
  cases h with
  | written p hp hk hi hc =>
    obtain ⟨T, q, j, hj, hq, hc⟩ := hc
    exact .written p (hprop hp) hk hi ⟨T, q, j, hj, hq, hcom _ _ _ hc⟩
  | read key T q hk hc => exact .read key T q (hreq _ hk) (hcom _ _ _ hc)

/-- A step of the cluster, once the places of the calls it answers are known. -/
theorem Traced.after (h : Traced M L full pos s) (hi : internal a = true) (hok : s.cluster.readsKept a = true)
    (hst : Stepped M s.cluster a c L full L' full') (hserve : ServeInv M L' full' c)
    (hnext : ∀ n p j x, Executing False M L full s.cluster n p j x →
      ∃ p' j' x', j ≤ j' ∧ Executing False M L' full' c n p' j' x')
    (hpos : ∀ i ans, .respond i ans ∈ s.history → pos' i = pos i)
    (hnew : ∀ k ans, Responds s a k ans → Answered M L s k (pos' k) ans ∧
      ((∃ v, ans = .value v) → ∀ i, Precedes s.history i k → pos i ≤ pos' k)) :
    Traced M L' full' pos' (s.after a c) := by
  have hwrites := (readsKept_parts hok).2.1
  have hbefore : ∀ {i j : Nat}, Precedes s.history i j → pos' i = pos i := by
    intro i j hij
    obtain ⟨ans, hans⟩ := hij.responded
    exact hpos i ans hans
  have hsub : s.proposals ⊆ (s.after a c).proposals := fun p hp => mem_proposals_after.2 (.inl hp)
  refine ⟨hserve, h.booked.after hi hst.step, h.filed.after h.booked hi hst,
    h.pending.step h.booked.owners h.serve.pending hwrites hst.step, fun k ans hans => ?_, fun p hp => ?_,
    fun n key k ht hreq => ?_, fun k key ans hreq hans i hij => ?_⟩
  · rcases mem_history_after.1 hans with hans | hans
    · rw [hpos k ans hans]
      exact (h.answered k ans hans).mono (fun _ _ _ hc => hc.step hst) hsub fun _ => id
    · obtain ⟨_, _, he, hr⟩ := responds_some hans
      cases he
      exact (hnew k ans hr).1.mono (fun _ _ _ hc => hc.step hst) hsub fun _ => id
  · have hcur : (∀ i, Precedes s.history i p.attempt → (pos i : Int) < p.entry.index) ∨
        ∃ x, CommittedEntry M L' c x ∧ x.index = p.entry.index ∧ x ≠ p.entry := by
      rcases mem_proposals_after.1 hp with hp | hp
      · rcases h.proposed p hp with hall | ⟨x, hx, hrest⟩
        · exact .inl hall
        · exact .inr ⟨x, hx.step hst, hrest⟩
      · exact h.proposed_new hst hp
    refine hcur.imp (fun hall i hij => ?_) id
    have hij := precedes_after.1 hij
    rw [hbefore hij]; exact hall i hij
  · obtain ⟨p, j, x, hex, hall⟩ := h.reading_step hok hst.step ht hreq
    obtain ⟨p', j', x', hle, hex'⟩ := hnext n p j x hex
    refine ⟨p', j', x', hex', fun i hij => ?_⟩
    have hij := precedes_after.1 hij
    rw [hbefore hij]; exact (hall i hij).trans hle
  · have hij := precedes_after.1 hij
    rw [hbefore hij]
    rcases mem_history_after.1 hans with hans | hans
    · rw [hpos k ans hans]; exact h.read k key ans hreq hans i hij
    · obtain ⟨_, _, he, hr⟩ := responds_some hans
      cases he
      obtain ⟨hans', hall⟩ := hnew k ans hr
      refine hall ?_ i hij
      cases hans' with
      | written p hp hk _ _ =>
        -- a read proposes nothing
        obtain ⟨req, hreq', hcmd⟩ := h.booked.command p hp
        rw [hk, show s.requests[k]? = some (.get key false) from hreq] at hreq'
        cases hreq'
        cases hcmd
      | read => exact ⟨_, rfl⟩

/-- When a write is answered, its entry is committed. -/
theorem Traced.respond_written (h : Traced M L full pos s) {io : Io} {index : Int} {ch : Nat}
    (hs : s.cluster.step (.run i .go io) = some c) (hx : s.cluster.tasks[i]? = some (n, .waiting index cmd ch))
    (ho : s.session.ownerOf i = some k) : ∃ j, Answered M L s k j .done := by
  have happlied := (h.serve.pending.waiting n index cmd ch (List.mem_of_getElem? hx)).closed (step_waiting hs hx)
  obtain ⟨p, hmem, hk, rfl, rfl, he | ⟨hlt, _⟩⟩ := h.pending n _ k index cmd (Session.mem_labelled hx ho) rfl
  · obtain ⟨T, q, j, hj, hq⟩ := h.serve.stores.inv.taken p.node p.entry he
    exact ⟨j + 1, .written p hmem hk (by push_cast; exact hj) ⟨T, q, j, hj, hq⟩⟩
  · exact absurd hlt (Int.not_lt.2 happlied)

/-- A read is answered from what its node has executed. -/
theorem Traced.respond_read (h : Traced M L full pos s) (hx : s.cluster.tasks[i]? = some (n, .reading key))
    (ho : s.session.ownerOf i = some k) (hstrong : s.requests[k]?.any ClientRequest.strong = true) :
    ∃ j, Answered M L s k j (.value ((s.cluster.app n).store.get key)) ∧ ∀ m, Precedes s.history m k → pos m ≤ j := by
  have hmem := Session.mem_labelled hx ho
  obtain ⟨req, hreq, ht⟩ := h.booked.handles _ k hmem
  cases ht with
  | reading _ allowStale =>
    rw [hreq] at hstrong
    cases allowStale with
    | true => cases hstrong
    | false =>
      -- the key may be ahead of the apply loop of a node that came back
      obtain ⟨p, j, x, hex, hall⟩ := h.reading n key k hmem hreq
      obtain ⟨T, hc⟩ := hex.committed
      obtain ⟨i, hji, hix, hval⟩ := hex.store.value key
      refine ⟨i, ?_, fun m hm => (hall m hm).trans hji⟩
      rw [hval]
      exact .read key T p hreq (hc.le hix)

theorem Traced.step_after (h : Traced M L full pos s) (hi : internal a = true) (hok : s.cluster.readsKept a = true)
    (hs : s.cluster.step a = some c) : ∃ L' full' pos', Traced M L' full' pos' (s.after a c) := by
  obtain ⟨L', full', hst, hserve, hnext⟩ := h.serve.step hok hs
  -- who is answered now was not answered before, so a place of its own can be recorded
  have hplace : ∀ (l j : Nat), l ∈ s.handled → ∀ i ans, .respond i ans ∈ s.history → Function.update pos l j i = pos i := by
    intro l j hl i ans hans
    refine Function.update_of_ne ?_ ..
    rintro rfl
    exact (h.booked.responded i ans hans).2 hl
  by_cases hr : ∃ k ans, Responds s a k ans
  · obtain ⟨l, ans, hr⟩ := hr
    have hone : ∀ k ans', Responds s a k ans' → k = l ∧ ans' = ans := by
      intro k ans' hr'
      cases hr <;> cases hr' <;> simp_all
    have hl := ((h.booked.attends hs).responded h.booked.nodup hr).1
    have hfound : ∃ j, Answered M L s l j ans ∧ ((∃ v, ans = .value v) → ∀ i, Precedes s.history i l → pos i ≤ j) := by
      cases hr with
      | written i io n index cmd ch _ hx ho =>
        obtain ⟨j, hj⟩ := h.respond_written hs hx ho
        refine ⟨j, hj, ?_⟩
        rintro ⟨v, hv⟩
        cases hv
      | read i io n key _ hx ho hstrong =>
        obtain ⟨j, hj, hall⟩ := h.respond_read hx ho hstrong
        exact ⟨j, hj, fun _ => hall⟩
    obtain ⟨j, hj, hall⟩ := hfound
    refine ⟨L', full', Function.update pos l j, h.after hi hok hst hserve hnext (hplace l j hl) fun k ans' hr' => ?_⟩
    obtain ⟨rfl, rfl⟩ := hone k ans' hr'
    rw [Function.update_self]
    exact ⟨hj, hall⟩
  · exact ⟨L', full', pos, h.after hi hok hst hserve hnext (fun _ _ _ => rfl) fun k ans hr' => absurd ⟨k, ans, hr'⟩ hr⟩

theorem Traced.step_arrived (h : Traced M L full pos s) {req : ClientRequest}
    (hok : s.cluster.readsKept (.client n req) = true) (hs : s.cluster.step (.client n req) = some c) :
    ∃ L' full', Traced M L' full' pos (s.arrived req c) := by
  have hwrites := (readsKept_parts hok).2.1
  obtain ⟨L', full', hst, hserve, hnext⟩ := h.serve.step hok hs
  have hkeep : ∀ {l : Nat} {r : ClientRequest}, s.requests[l]? = some r → (s.arrived req c).requests[l]? = some r := by
    intro l r hl
    show (s.requests ++ [req])[l]? = some r
    rw [List.getElem?_append_left (List.getElem?_eq_some_iff.1 hl).1]; exact hl
  have hback : ∀ {l : Nat} {r : ClientRequest}, l < s.requests.length → (s.arrived req c).requests[l]? = some r →
      s.requests[l]? = some r := by
    intro l r hlt hl
    have hl : (s.requests ++ [req])[l]? = some r := hl
    rwa [List.getElem?_append_left hlt] at hl
  -- the new call comes after others, but no earlier one does
  have hbefore : ∀ {i l : Nat}, l < s.requests.length → Precedes (s.arrived req c).history i l → Precedes s.history i l := by
    intro i l hlt hil
    rcases precedes_arrived hil with hil | ⟨rfl, _⟩
    · exact hil
    · omega
  have hold : ∀ {k : Nat} {ans : CallResult}, .respond k ans ∈ (s.arrived req c).history → .respond k ans ∈ s.history := by
    intro k ans hans
    rcases mem_history_arrived.1 hans with hans | ⟨_, he⟩
    · exact hans
    · cases he
  refine ⟨L', full', hserve, h.booked.arrived hs, h.filed.arrived hst, fun m t k i cmd ht hp => ?_,
    fun k ans hans => (h.answered k ans (hold hans)).mono (fun _ _ _ hc => hc.step hst) (List.Subset.refl _) fun _ => hkeep,
    fun p hp => ?_,
    fun m key k ht hreq => ?_, fun k key ans hreq hans i hij => ?_⟩
  · rcases h.booked.labelled_arrived hs ht with ht | ⟨he, _⟩
    · exact h.pending.kept h.serve.pending hwrites hs ht hp
    · cases he
      cases hp
  · rcases h.proposed p hp with hall | ⟨x, hx, hrest⟩
    · obtain ⟨r, hr, _⟩ := h.booked.command p hp
      exact .inl fun i hi => hall i (hbefore (List.getElem?_eq_some_iff.1 hr).1 hi)
    · exact .inr ⟨x, hx.step hst, hrest⟩
  · rcases h.booked.labelled_arrived hs ht with ht | ⟨he, _⟩
    · obtain ⟨r, hr, _⟩ := h.booked.handles _ k ht
      have hlt := (List.getElem?_eq_some_iff.1 hr).1
      obtain ⟨p, j, x, hex, hall⟩ := h.reading m key k ht (hback hlt hreq)
      obtain ⟨p', j', x', hle, hex'⟩ := hnext m p j x hex
      exact ⟨p', j', x', hex', fun i hi => le_trans (hall i (hbefore hlt hi)) hle⟩
    · cases he
  · have hans := hold hans
    have hlt := (h.booked.responded k ans hans).1
    exact h.read k key ans (hback hlt hreq) hans i (hbefore hlt hij)

/-- A process dies with the handlers of its calls and comes back. -/
theorem Traced.restarted (h : Traced M L full pos s) (hsaved : MembersSaved M c) (hr : Restarted s.cluster c n)
    (hc : CommitInv M L full c) : Traced M L full pos (s.restarted n c) := by
  obtain ⟨hserve, hnext⟩ := h.serve.restarted hsaved hr hc
  have hother : ∀ {m : NodeID} {t : Task} {o : Option Nat}, ((m, t), o) ∈ (s.restarted n c).session.labelled →
      ((m, t), o) ∈ s.session.labelled ∧ m ≠ n := by
    intro m t o hx
    rw [h.booked.labelled_restarted hr.left] at hx
    exact ⟨(List.mem_filter.1 hx).1, of_decide_eq_true (List.mem_filter.1 hx).2⟩
  refine ⟨hserve, h.booked.restarted hr.left, ⟨h.filed.placed, h.filed.sourced, h.filed.entries⟩,
    fun m t k i cmd ht hp => ?_,
    fun k ans hans => (h.answered k ans hans).mono (fun _ _ _ hc => hr.committed hc) (List.Subset.refl _) fun _ => id,
    fun p hp => ?_, fun m key k ht hreq => ?_, h.read⟩
  · obtain ⟨ht, hm⟩ := hother ht
    obtain ⟨p, hmem, hk, hpn, hi, hret⟩ := h.pending m t k i cmd ht hp
    refine ⟨p, hmem, hk, hpn, hi, ?_⟩
    show c.Retains m p.entry
    unfold Retains at hret ⊢
    rw [hr.other m hm, hr.app m, if_neg hm]
    exact hret
  · rcases h.proposed p hp with hall | ⟨x, ⟨T, q, j, hj, hq, hc⟩, hrest⟩
    · exact .inl hall
    · exact .inr ⟨x, ⟨T, q, j, hj, hq, hr.committed hc⟩, hrest⟩
  · obtain ⟨ht, hm⟩ := hother ht
    obtain ⟨p, j, x, hex, hall⟩ := h.reading m key k ht hreq
    obtain ⟨p', j', x', hle, hex'⟩ := hnext m p j x hex hm
    exact ⟨p', j', x', hex', fun i hi => (hall i hi).trans hle⟩

theorem Traced.start (M : Members) (snapshotter restorer : Bool) :
    Traced M Ledger.blank (fun _ => []) (fun _ => 0)
      { cluster := Cluster.start M.ids M.peersOf snapshotter restorer } := by
  refine ⟨.start M snapshotter restorer, .start rfl, ⟨?_, ?_, List.Pairwise.nil⟩, ?_, ?_, ?_, ?_, ?_⟩
  · intro p hp; cases hp
  · intro T e he; cases he
  · intro n t k i cmd ht
    have := (List.of_mem_zip ht).2
    cases this
  · intro k ans hans; cases hans
  · intro p hp; cases hp
  · intro n key k ht
    have := (List.of_mem_zip ht).2
    cases this
  · intro k key ans _ hans; cases hans

theorem Traced.run {h : List (Calls × CallsAction)} (hr : M.calls.Run (fun s b => s.readsKept M b = true) h s) :
    ∃ L full pos, Traced M L full pos s := by
  refine Machine.Run.invariant (I := fun s => ∃ L full pos, Traced M L full pos s) ?_ ?_ hr
  · rintro s ⟨_, ⟨snapshotter, restorer, rfl⟩, rfl⟩
    exact ⟨_, _, _, .start M snapshotter restorer⟩
  · rintro s b s' ⟨L, full, pos, h⟩ hok hs
    rcases step_cases hs with ⟨a, c, rfl, hi, hc, rfl⟩ | ⟨n, req, c, rfl, hc, rfl⟩ | ⟨l, n, d, c, rfl, hd, hc, rfl⟩
    · exact h.step_after hi hok hc
    · obtain ⟨L', full', h'⟩ := h.step_arrived hok hc
      exact ⟨L', full', pos, h'⟩
    · rcases h.serve.cases (l := l) hok hc with ⟨a, rfl, _⟩ | ⟨m, d', hd', hsaved, hr, hc⟩
      · cases hd
      · rw [hd] at hd'
        cases hd'
        exact ⟨L, full, pos, h.restarted hsaved hr hc⟩

end Calls

end Mimori
