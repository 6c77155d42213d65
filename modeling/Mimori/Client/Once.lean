/-
One write, one entry. A call that returns without error has had an entry of its own applied; but an attempt that
timed out may have left an entry too, which is committed when the retry is, over whatever was written in between.
The entry of the attempt that returned is the only one as long as an entry is proposed again only after the
places of those proposed before were lost to other entries.
-/
import Mimori.Client.Session
import Mimori.Commit.Committed
import Mimori.Apply.Acknowledged

namespace Mimori

open Raft

/-! ## Conditions -/

/-- Some node has committed an entry of another term in the place of `e`. -/
def Cluster.superseded (s : Cluster) (e : LogEntry) : Bool :=
  s.procs.any fun n => decide (e.index ≤ (s.raft n).commitIndex) &&
    ((s.raft n).entryAt e.index).any fun x => decide (x.term ≠ e.term)

/-- The conditions under which acknowledged writes are committed. -/
def Cluster.ackedCommitted (s : Cluster) (a : Action) : Bool :=
  s.choicesKept a && s.appendKeepsWrites a && s.installKeepsWrites a

namespace Session

/-- The step of the cluster that a step of a session takes. -/
def onCluster (s : Session) : SessionAction → Option Action
  | .cluster a => some a
  | .send n => some (.client n s.call.write.request)
  | _ => none

/-- Nothing is proposed on behalf of the call while an entry proposed before may be committed. -/
def retriesSuperseded (s : Session) : SessionAction → Bool
  | .cluster a => (s.proposes a).isNone || s.proposals.all fun p => s.cluster.superseded p.entry
  | _ => true

/-- The conditions under which a write takes effect once. -/
def onceKept (s : Session) (b : SessionAction) : Bool :=
  (s.onCluster b).all (fun a => s.cluster.ackedCommitted a) && s.retriesSuperseded b

/-! ## Committed entries -/

end Session

/-- A node has entry `e` in its log and has committed it. -/
def Cluster.Commits (s : Cluster) (e : LogEntry) : Prop :=
  ∃ n, (s.raft n).logBaseIndex < e.index ∧ e.index ≤ (s.raft n).commitIndex ∧ (s.raft n).entryAt e.index = some e

/-- Entry `e` was committed in a state of the run. -/
def EverCommitted (h : List (Session × SessionAction)) (s : Session) (e : LogEntry) : Prop :=
  s.cluster.Commits e ∨ ∃ x ∈ h, x.1.cluster.Commits e

theorem EverCommitted.cons {h : List (Session × SessionAction)} {s : Session} {e : LogEntry}
    (he : EverCommitted h s e) (b : SessionAction) (s' : Session) : EverCommitted ((s, b) :: h) s' e := by
  right
  rcases he with he | ⟨x, hx, he⟩
  · exact ⟨(s, b), List.mem_cons_self, he⟩
  · exact ⟨x, List.mem_cons_of_mem _ hx, he⟩

theorem Cluster.CommitInv.commits {M : Members} {L : Ledger} {full : NodeID → List LogEntry} {s : Cluster}
    (h : CommitInv M L full s) {e : LogEntry} (he : s.Commits e) : CommittedEntry M L s e := by
  obtain ⟨n, hb, hc, hat⟩ := he
  have hb0 := (h.inv.inv.logs.stable.index.node n).base
  obtain ⟨y, hy, _, _, hsame⟩ := h.entry_committed hat (by omega) hc
  exact hsame hb ▸ hy

/-- The place of a superseded entry belongs to another one. -/
theorem Cluster.CommitInv.superseded {M : Members} {L : Ledger} {full : NodeID → List LogEntry} {s : Cluster}
    (h : CommitInv M L full s) {e : LogEntry} (he : s.superseded e = true) (hi : 0 < e.index) :
    ∃ x, CommittedEntry M L s x ∧ x.index = e.index ∧ x ≠ e := by
  obtain ⟨n, _, hn⟩ := List.any_eq_true.1 he
  rw [Bool.and_eq_true, decide_eq_true_eq, Option.any_eq_true] at hn
  obtain ⟨hc, x, hx, hne⟩ := hn
  obtain ⟨y, hy, hidx, hterm, _⟩ := h.entry_committed hx hi hc
  refine ⟨y, hy, hidx, fun heq => ?_⟩
  subst heq
  exact of_decide_eq_true hne hterm.symm

/-- What a node takes to apply it has committed. -/
theorem Cluster.CommitInv.taken_commits {M : Members} {L : Ledger} {full : NodeID → List LogEntry} {s s' : Cluster}
    {a : Action} (h : CommitInv M L full s) (hs : s.step a = some s') {n : NodeID} {e : LogEntry}
    (he : e ∈ (s'.app n).taken) : e ∈ (s.app n).taken ∨ s.Commits e := by
  cases step_takes h.inv.inv.logs.stable.index hs n with
  | idle ht => rw [ht] at he; exact .inl he
  | install _ _ _ _ _ _ _ ht => rw [ht] at he; exact .inl he
  | take x ht _ hx hc =>
    rw [ht] at he
    rcases List.mem_append.1 he with he | he
    · exact .inl he
    · obtain rfl := List.mem_singleton.1 he
      obtain ⟨hidx, _⟩ := (h.inv.inv.logs.stable.index.node n).entryAt_some hx
      have hb := h.base n
      exact .inr ⟨n, by omega, by omega, by rw [hidx]; exact hx⟩

/-! ## The invariant -/

namespace Session

open Cluster

variable {M : Members} {L L' : Ledger} {full full' : NodeID → List LogEntry} {s s' : Session} {a : Action} {c : Cluster}

/-- What a session keeps: an attempt that waits has an entry of its own, which its node holds or has taken; an
answered attempt has one that was taken; and of the entries proposed so far all but the last have lost their
places. -/
structure SessionInv (M : Members) (L : Ledger) (full : NodeID → List LogEntry) (s : Session) : Prop where
  commit : CommitInv M L full s.cluster
  write : WriteInv s.cluster
  owners : s.owners.length = s.cluster.tasks.length
  pending : s.Holds s.proposals
  answered : ∀ k ∈ s.answered, ∃ p ∈ s.proposals, p.attempt = k ∧ p.entry ∈ (s.cluster.app p.node).taken
  returned : s.call.phase = .returned none → s.call.attempt ∈ s.answered
  index : ∀ p ∈ s.proposals, 0 < p.entry.index
  lost : s.proposals.Pairwise fun p _ => ∃ x, CommittedEntry M L s.cluster x ∧ x.index = p.entry.index ∧ x ≠ p.entry

theorem SessionInv.start {cluster : Cluster} (hc : CommitInv M L full cluster) (hw : WriteInv cluster)
    (ht : cluster.tasks = []) (client : Client) (write : ClientWrite) :
    SessionInv M L full (.start cluster client write) := by
  refine ⟨hc, hw, by rw [show (Session.start cluster client write).cluster = cluster from rfl, ht]; rfl,
    fun n t k i cmd hm => ?_, fun k hk => ?_, fun hp => ?_, fun p hp => ?_, List.Pairwise.nil⟩
  · have hm := (List.of_mem_zip hm).2
    cases hm
  · cases hk
  · cases hp
  · cases hp

/-- The cluster of a session after a step of its own. -/
theorem SessionInv.cluster_step (h : SessionInv M L full s) (hok : s.cluster.ackedCommitted a = true)
    (hs : s.cluster.step a = some c) : s.cluster.writesKept a = true ∧ WriteInv c ∧
      ∃ L' full', Stepped M s.cluster a c L full L' full' ∧ CommitInv M L' full' c := by
  simp only [ackedCommitted, Bool.and_eq_true] at hok
  obtain ⟨⟨hch, happ⟩, hins⟩ := hok
  obtain ⟨L', full', hst, hc⟩ := h.commit.step hch hs
  have hplace := (logsKept_parts hst.logsKept).place
  have hwrites : s.cluster.writesKept a = true := by
    simp only [writesKept, hplace, happ, hins, Bool.and_self]
  exact ⟨hwrites, h.write.step hwrites hs, L', full', hst, hc⟩

/-- An entry that was taken for an answered attempt stays so. -/
theorem SessionInv.answered_kept (h : SessionInv M L full s) (hok : s.cluster.writesKept a = true)
    (hs : s.cluster.step a = some c) {k : Nat} (hk : k ∈ s.answered) :
    ∃ p ∈ s.proposals, p.attempt = k ∧ p.entry ∈ (c.app p.node).taken := by
  have hins : s.cluster.installKeepsWrites a = true := by
    simp only [writesKept, Bool.and_eq_true] at hok; exact hok.2
  obtain ⟨p, hmem, hp, he⟩ := h.answered k hk
  exact ⟨p, hmem, hp, ((step_takes h.write.index hs p.node).grows hins).2.subset he⟩

theorem answers_some {k : Nat} (h : s.answers a = some k) :
    ∃ j io n i cmd ch, a = .run j .go io ∧ s.cluster.tasks[j]? = some (n, .waiting i cmd ch) ∧ s.ownerOf j = some k := by
  unfold answers at h
  split at h
  · rename_i j io
    split at h
    · rename_i n i cmd ch hx
      exact ⟨j, io, n, i, cmd, ch, rfl, hx, h⟩
    · cases h
  · cases h

theorem proposes_index {p : Proposal} (h : s.proposes a = some p) :
    p.entry.index = (s.cluster.raft p.node).lastLogIndex + 1 := by
  unfold proposes at h
  split at h
  · split at h
    · dsimp only at h
      split at h
      · cases h; rfl
      · cases h
    · cases h
  · cases h

/-- When a handler returns, its entry is applied. -/
theorem SessionInv.answered_new (h : SessionInv M L full s) (hok : s.cluster.writesKept a = true)
    (hs : s.cluster.step a = some c) {k : Nat} (hk : s.answers a = some k) :
    ∃ p ∈ s.proposals, p.attempt = k ∧ p.entry ∈ (c.app p.node).taken := by
  obtain ⟨j, io, n, i, cmd, ch, rfl, hx, ho⟩ := answers_some hk
  have hins : s.cluster.installKeepsWrites (.run j .go io) = true := by
    simp only [writesKept, Bool.and_eq_true] at hok; exact hok.2
  have happlied := (h.write.waiting n i cmd ch (List.mem_of_getElem? hx)).closed (step_waiting hs hx)
  obtain ⟨p, hmem, hp, rfl, rfl, he | ⟨hlt, _⟩⟩ := h.pending n _ k i cmd (mem_labelled hx ho) rfl
  · exact ⟨p, hmem, hp, ((step_takes h.write.index hs p.node).grows hins).2.subset he⟩
  · omega

theorem SessionInv.cluster (h : SessionInv M L full s) (hok : s.onceKept (.cluster a) = true)
    (hs : s.cluster.step a = some c) :
    ∃ L' full', Stepped M s.cluster a c L full L' full' ∧ SessionInv M L' full' { s with
      cluster := c
      owners := s.ownersAfter a c
      proposals := s.proposals ++ (s.proposes a).toList
      answered := s.answered ++ (s.answers a).toList } := by
  simp only [onceKept, onCluster, Option.all_some, Bool.and_eq_true] at hok
  obtain ⟨hacked, hretry⟩ := hok
  obtain ⟨hwrites, hwrite, L', full', hst, hcommit⟩ := h.cluster_step hacked hs
  refine ⟨L', full', hst, hcommit, hwrite, (ownersAfter_spec h.owners hs).1,
    h.pending.step h.owners h.write.toPendingInv hwrites hs, fun k hk => ?_,
    fun hp => List.mem_append_left _ (h.returned hp), fun p hp => ?_, ?_⟩
  · have hold : ∃ p ∈ s.proposals, p.attempt = k ∧ p.entry ∈ (c.app p.node).taken := by
      rcases List.mem_append.1 hk with hk | hk
      · exact h.answered_kept hwrites hs hk
      · exact h.answered_new hwrites hs (Option.mem_toList.1 hk)
    obtain ⟨p, hmem, hrest⟩ := hold
    exact ⟨p, List.mem_append_left _ hmem, hrest⟩
  · rcases List.mem_append.1 hp with hp | hp
    · exact h.index p hp
    · have hin := h.write.index.node p.node
      have hb := hin.base
      have hl := hin.base_le_last
      rw [proposes_index (Option.mem_toList.1 hp)]
      omega
  · rw [List.pairwise_append]
    refine ⟨h.lost.imp ?_, ?_, fun p hp q hq => ?_⟩
    · rintro p _ ⟨x, hx, hne⟩
      exact ⟨x, hx.step hst, hne⟩
    · cases s.proposes a with
      | none => exact List.Pairwise.nil
      | some p => exact List.pairwise_singleton ..
    · simp only [retriesSuperseded, Option.mem_toList.1 hq, Option.isNone_some, Bool.false_or, List.all_eq_true] at hretry
      obtain ⟨x, hx, hne⟩ := h.commit.superseded (hretry p hp) (h.index p hp)
      exact ⟨x, hx.step hst, hne⟩

/-- A request of the call arrives at a node. -/
theorem SessionInv.send (h : SessionInv M L full s) {n : NodeID} (hok : s.onceKept (.send n) = true)
    (hs : s.cluster.step (.client n s.call.write.request) = some c) (addr : String) :
    ∃ L' full', Stepped M s.cluster (.client n s.call.write.request) c L full L' full' ∧ SessionInv M L' full' { s with
      cluster := c
      owners := s.owners ++ [some s.call.attempt]
      call := { s.call with phase := .awaiting addr } } := by
  simp only [onceKept, onCluster, Option.all_some, Bool.and_eq_true] at hok
  obtain ⟨hwrites, hwrite, L', full', hst, hcommit⟩ := h.cluster_step hok.1 hs
  have htasks : c.tasks = s.cluster.tasks ++ [(n, .serve s.call.write.request)] := by
    cases Cluster.step_cases hs
    rfl
  refine ⟨L', full', hst, hcommit, hwrite, by simp [htasks, h.owners], fun m t k i cmd ht hp => ?_,
    fun k hk => h.answered_kept hwrites hs hk, fun hp => ?_, h.index, h.lost.imp ?_⟩
  · have ht : ((m, t), some k) ∈ c.tasks.zip (s.owners ++ [some s.call.attempt]) := ht
    rw [htasks, List.zip_append h.owners.symm, List.mem_append] at ht
    rcases ht with ht | ht
    · exact h.pending.kept h.write.toPendingInv hwrites hs ht hp
    · cases List.mem_singleton.1 ht
      cases hp
  · cases hp
  · rintro p _ ⟨x, hx, hne⟩
    exact ⟨x, hx.step hst, hne⟩

/-- What a session and its history keep. -/
structure OnceInv (M : Members) (h : List (Session × SessionAction)) (s : Session) (L : Ledger)
    (full : NodeID → List LogEntry) : Prop where
  session : SessionInv M L full s
  committed : ∀ e, EverCommitted h s e → CommittedEntry M L s.cluster e
  taken : ∀ n, ∀ e ∈ (s.cluster.app n).taken, EverCommitted h s e

theorem OnceInv.moved {h : List (Session × SessionAction)} (hi : OnceInv M h s L full) {b : SessionAction}
    (hst : Stepped M s.cluster a s'.cluster L full L' full') (hs' : SessionInv M L' full' s') :
    OnceInv M ((s, b) :: h) s' L' full' := by
  refine ⟨hs', fun e he => ?_, fun n e he => ?_⟩
  · rcases he with he | ⟨x, hx, he⟩
    · exact hs'.commit.commits he
    · refine (hi.committed e ?_).step hst
      rcases List.mem_cons.1 hx with rfl | hx
      · exact .inl he
      · exact .inr ⟨x, hx, he⟩
  · rcases hi.session.commit.taken_commits hst.step he with he | he
    · exact (hi.taken n e he).cons b s'
    · exact .inr ⟨(s, b), List.mem_cons_self, he⟩

theorem OnceInv.called {h : List (Session × SessionAction)} (hi : OnceInv M h s L full) {b : SessionAction} {call : Call}
    (hret : call.phase = .returned none → call.attempt ∈ s.answered) :
    OnceInv M ((s, b) :: h) { s with call := call } L full := by
  have hs := hi.session
  refine ⟨⟨hs.commit, hs.write, hs.owners, hs.pending, hs.answered, hret, hs.index, hs.lost⟩, fun e he => ?_,
    fun n e he => (hi.taken n e he).cons b _⟩
  rcases he with he | ⟨x, hx, he⟩
  · exact hs.commit.commits he
  · rcases List.mem_cons.1 hx with rfl | hx
    · exact hs.commit.commits he
    · exact hi.committed e (.inr ⟨x, hx, he⟩)

theorem OnceInv.run {h : List (Session × SessionAction)} (hr : M.sessions.Run (fun s b => s.onceKept b = true) h s) :
    ∃ L full, OnceInv M h s L full := by
  refine Machine.Run.history (I := fun h s => ∃ L full, OnceInv M h s L full) ?_ ?_ hr
  · rintro s ⟨_, client, write, ⟨snapshotter, restorer, rfl⟩, rfl⟩
    have hinv := SessionInv.start (CommitInv.start M snapshotter restorer) (WriteInv.start ..) rfl client write
    refine ⟨_, _, hinv, fun e he => ?_, fun n e he => ?_⟩
    · rcases he with he | ⟨x, hx, _⟩
      · exact hinv.commit.commits he
      · cases hx
    · cases he
  · rintro h s b s' _ ⟨L, full, hi⟩ hok hs
    cases step_moves hs with
    | cluster a c hc =>
      obtain ⟨L', full', hst, hinv⟩ := hi.session.cluster hok hc
      exact ⟨L', full', hi.moved hst hinv⟩
    | send n addr c hc =>
      obtain ⟨L', full', hst, hinv⟩ := hi.session.send hok hc addr
      exact ⟨L', full', hi.moved hst hinv⟩
    | call _ call hret => exact ⟨L, full, hi.called hret⟩

/-- A write takes effect once: in every run of a session that keeps the conditions `onceKept`, when the call has
returned without error, an entry proposed for the attempt that returned was committed, and no other entry proposed
on behalf of the call has ever been. -/
theorem write_takes_effect_once (M : Members) {h : List (Session × SessionAction)} {s : Session}
    (hr : M.sessions.Run (fun s b => s.onceKept b = true) h s) (hret : s.call.phase = .returned none) :
    ∃ (j : Nat) (p : Proposal), s.proposals[j]? = some p ∧ p.attempt = s.call.attempt ∧ EverCommitted h s p.entry ∧
      ∀ (i : Nat) (q : Proposal), s.proposals[i]? = some q → EverCommitted h s q.entry → i = j := by
  obtain ⟨L, full, hi⟩ := OnceInv.run hr
  have hs := hi.session
  obtain ⟨p, hmem, hp, he⟩ := hs.answered _ (hs.returned hret)
  obtain ⟨j, hj⟩ := List.mem_iff_getElem?.1 hmem
  have hcom := hi.taken _ _ he
  -- of two entries the earlier one has lost its place, so it is not committed
  have hlate : ∀ {i i' : Nat} {q q' : Proposal}, s.proposals[i]? = some q → s.proposals[i']? = some q' → i < i' →
      ¬ EverCommitted h s q.entry := by
    intro i i' q q' hq hq' hlt hcq
    obtain ⟨hi₁, rfl⟩ := List.getElem?_eq_some_iff.1 hq
    obtain ⟨hi₂, rfl⟩ := List.getElem?_eq_some_iff.1 hq'
    obtain ⟨x, hx, hidx, hne⟩ := List.pairwise_iff_getElem.1 hs.lost i i' hi₁ hi₂ hlt
    exact hne (hs.commit.entry_eq hx (hi.committed _ hcq) hidx)
  refine ⟨j, p, hj, hp, hcom, fun i q hq hcq => ?_⟩
  rcases lt_trichotomy i j with hlt | heq | hlt
  · exact absurd hcq (hlate hq hj hlt)
  · exact heq
  · exact absurd hcom (hlate hj hq hlt)

/-- A client of three nodes that puts a value. -/
def putSession : Session :=
  .start (Cluster.start threeNodes.ids threeNodes.peersOf false false)
    { seeds := ["A", "B", "C"], maxRetries := 3 } (.put [1] [2])

theorem putSession_init : threeNodes.sessions.init putSession :=
  ⟨_, _, _, threeNodes.machine_init false false, rfl⟩

/-- The leader A appends the entry and the client gives up on it. -/
def timedOut : List SessionAction :=
  electA.map .cluster ++ [.look { found := [some "A"] }, .send "A", .cluster (.run 2 .go {}), .cluster (.run 2 .go {}),
    .cluster (.run 2 .go {}), .fail .other]

/-- C is elected and commits an entry of its own at index 1. The second attempt goes to C, which commits the write at
index 2 and answers. -/
def secondAttempt : List SessionAction :=
  timedOut ++ ([.electionTimeout "C" 1500 {}, .tick 2000, .electionTimeout "C" 1500 {}, .run 4 .go {}, .run 5 .go {},
    .deliver 1 {}, .run 5 (.reply 1) {}, .propose "C" (.put [1] [3]) {}, .run 5 .go {}, .run 5 .go {}, .run 5 .go {},
    .run 5 .go {}, .run 7 .go {}, .run 7 .go {}, .deliver 2 {}, .run 8 (.reply 2) {}] : List Action).map .cluster ++
  [.look { found := [some "C"] }, .send "C"] ++
  ([.run 8 .go {}, .run 8 .go {}, .run 8 .go {}, .run 6 .go {}, .run 8 .go {}, .run 8 .go {}, .run 8 .go {},
    .run 8 .go {}, .run 10 .go {}, .run 10 .go {}, .deliver 3 {}, .run 11 (.reply 3) {}, .applierTake "C" {},
    .applierSend "C", .applierDone "C" {}, .applierSend "C", .applierDone "C" {},
    .run 7 .go {}] : List Action).map .cluster ++ [.ok]

theorem write_takes_effect_once_secondAttempt :
    ∃ h s, threeNodes.sessions.Run (fun s b => s.onceKept b = true) h s ∧ s.call.phase = .returned none ∧
      s.proposals = [⟨0, "A", ⟨1, 1, .put [1] [2]⟩⟩, ⟨1, "C", ⟨2, 2, .put [1] [2]⟩⟩] ∧
      ∃ (j : Nat) (p : Proposal), s.proposals[j]? = some p ∧ p.attempt = s.call.attempt ∧ EverCommitted h s p.entry ∧
        ∀ (i : Nat) (q : Proposal), s.proposals[i]? = some q → EverCommitted h s q.entry → i = j := by
  obtain ⟨h, s, hr, hret, hprop⟩ := Machine.exists_run (fun s b => Session.onceKept s b = true)
    (fun _ s => s.call.phase = .returned none ∧
      s.proposals = [⟨0, "A", ⟨1, 1, .put [1] [2]⟩⟩, ⟨1, "C", ⟨2, 2, .put [1] [2]⟩⟩])
    putSession_init secondAttempt (by decide +kernel)
  exact ⟨h, s, hr, hret, hprop, write_takes_effect_once threeNodes hr hret⟩

/-- Another client puts another value, which is committed together with the entry the first client has given up on, and
acknowledged. The first client then tries again. -/
def appliedTwice : List SessionAction :=
  timedOut ++ ([.client "A" (.put [1] [3]), .run 3 .go {}, .run 3 .go {}, .run 3 .go {}, .run 1 .go {}, .run 3 .go {},
    .run 3 .go {}, .run 4 .go {}, .run 4 .go {}, .deliver 1 {}, .run 5 (.reply 1) {}, .applierTake "A" {},
    .applierSend "A", .consume "A" true, .applierDone "A" {}, .applierSend "A", .consume "A" true, .applierDone "A" {},
    .run 1 .go {}, .run 1 .go {}] : List Action).map .cluster ++
  [.look { verified := true }, .send "A"] ++
  ([.run 3 .go {}, .run 3 .go {}, .run 3 .go {}, .run 1 .go {}, .run 3 .go {}, .run 3 .go {}, .run 3 .go {},
    .run 3 .go {}, .run 3 .go {}, .deliver 2 {}, .run 4 (.reply 2) {}, .applierTake "A" {}, .applierSend "A",
    .consume "A" true, .applierDone "A" {}, .run 2 .go {}] : List Action).map .cluster ++ [.ok]

/-- The call returns without error, both its entries are committed, and the second one has put the value back over the
one of the other client, which was acknowledged in between. -/
theorem retry_overwrites_acknowledged :
    ∃ h s, threeNodes.sessions.Run (fun s b => (s.onCluster b).all (fun a => s.cluster.ackedCommitted a) = true) h s ∧
      s.call.phase = .returned none ∧
      s.proposals = [⟨0, "A", ⟨1, 1, .put [1] [2]⟩⟩, ⟨1, "A", ⟨3, 1, .put [1] [2]⟩⟩] ∧
      (∀ p ∈ s.proposals, EverCommitted h s p.entry) ∧
      s.cluster.answers = [.written "A" 1 (.put [1] [2]), .written "A" 2 (.put [1] [3]), .written "A" 3 (.put [1] [2])] ∧
      (s.cluster.app "A").store.get [1] = some [2] := by
  obtain ⟨h, s, hr, hret, hprop, hcom, hans, hstore⟩ := Machine.exists_run
    (fun s b => (Session.onCluster s b).all (fun a => s.cluster.ackedCommitted a) = true)
    (fun _ s => s.call.phase = .returned none ∧
      s.proposals = [⟨0, "A", ⟨1, 1, .put [1] [2]⟩⟩, ⟨1, "A", ⟨3, 1, .put [1] [2]⟩⟩] ∧
      (∀ p ∈ s.proposals, (s.cluster.raft "A").logBaseIndex < p.entry.index ∧
        p.entry.index ≤ (s.cluster.raft "A").commitIndex ∧ (s.cluster.raft "A").entryAt p.entry.index = some p.entry) ∧
      s.cluster.answers = [.written "A" 1 (.put [1] [2]), .written "A" 2 (.put [1] [3]),
        .written "A" 3 (.put [1] [2])] ∧
      (s.cluster.app "A").store.get [1] = some [2])
    putSession_init appliedTwice (by decide +kernel)
  exact ⟨h, s, hr, hret, hprop, fun p hp => .inl ⟨"A", hcom p hp⟩, hans, hstore⟩

end Session

end Mimori
