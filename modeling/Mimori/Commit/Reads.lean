/-
Strong reads. `Server.Get` asks its node whether it is the leader and then reads the local store. A node may
believe it leads long after the others have elected another leader; a new leader may not have committed what
was acknowledged before it; and the store is behind the applier. A read is fresh when, at the check, a majority
has not passed the leader's term, the leader has committed the entries of earlier terms, and its store has
executed what is committed.
-/
import Mimori.Commit.Stores

namespace Mimori

open Raft TermLog

namespace Cluster

variable {M : Members} {s s' : Cluster} {a : Action} {l : RestartAction} {n : NodeID} {L L' : Ledger} {T : Int} {c : Nat}
  {full full' : NodeID → List LogEntry} {p : List LogEntry}

/-! ## Conditions -/

/-- A majority has not passed the term of node `n`. -/
def notSuperseded (s : Cluster) (n : NodeID) : Bool :=
  decide ((s.raft n).majority ≤
    1 + ((s.raft n).peers.filter fun m => decide ((s.raft m).term ≤ (s.raft n).term)).length)

/-- Node `n` has committed what its log has of earlier terms. -/
def inheritedCommitted (s : Cluster) (n : NodeID) : Bool :=
  (s.raft n).log.all fun e => decide (e.index ≤ (s.raft n).commitIndex) || e.term == (s.raft n).term

/-- The store of node `n` has executed what the node has committed. -/
def caughtUp (s : Cluster) (n : NodeID) : Bool :=
  (s.raft n).lastApplied == (s.raft n).commitIndex && (s.app n).drained

/-- A leader lets a strong read through only when its store holds everything that may be acknowledged. -/
def freshRead (s : Cluster) : Action → Bool
  | .run i .go _ =>
    match s.tasks[i]? with
    | some (n, .serve (.get _ false)) =>
      !(s.raft n).isLeader || (s.notSuperseded n && s.inheritedCommitted n && s.caughtUp n)
    | _ => true
  | _ => true

/-- The conditions under which strong reads are fresh. -/
def readsKept (s : Cluster) (a : Action) : Bool :=
  s.storesKept a && s.appendKeepsWrites a && s.installKeepsWrites a && s.freshRead a

/-! ## What a leader knows -/

/-- When a majority has not passed the term of a leader, nobody leads a later term. -/
theorem LogInv.no_later_leader (h : LogInv M L full s) (hl : (s.raft n).state = .leader)
    (hmaj : s.notSuperseded n = true) {l : NodeID} (hlead : L.lead T = some l) : T ≤ (s.raft n).term := by
  by_contra hlt
  have hn := (h.lead.won _ n (h.lead.leader n hl)).1
  obtain ⟨Q, hQ, hq⟩ := h.electors hlead
  obtain ⟨v, hv, hv'⟩ := hQ.meet (peers_majority (h.stable.elect.fixed.peers n) hn (of_decide_eq_true hmaj))
  have hterm := (hq v hv).1
  rcases Finset.mem_insert.1 hv' with rfl | hv'
  · omega
  · have := of_decide_eq_true (List.mem_filter.1 (List.mem_toFinset.1 hv')).2
    omega

/-- A leader that nobody has superseded, and that has committed what it has of earlier terms, has committed
whatever is committed anywhere. -/
theorem CommitInv.covers (h : CommitInv M L full s) (hl : (s.raft n).state = .leader)
    (hmaj : s.notSuperseded n = true) (hold : s.inheritedCommitted n = true) (hc : Committed M L s T c p) :
    (c : Int) ≤ (s.raft n).commitIndex := by
  have hlogs := h.inv.inv.logs
  have hlead := hlogs.lead.leader n hl
  rcases hc with rfl | ⟨t, l, _, hlt, hoff, hch⟩
  · exact h.inv.inv.counts.commit n
  rcases lt_or_eq_of_le (hlogs.no_later_leader hl hmaj hlt) with ht | rfl
  · have hin : (full n).take c = p.take c := by
      rw [← hlogs.nodes.current n hl]
      exact h.inv.complete.settled hch (le_of_lt ht) ⟨n, hlead⟩
    have hlen := le_length_of_take_eq hin hch.le_length
    have h0 := h.inv.inv.counts.commit n
    have hb := le_trans (h.base n) (h.applied n)
    rcases hch with rfl | ⟨t', m, ht', _, _, htake⟩
    · exact h0
    by_contra hlt
    -- the first entry that is not committed comes from an earlier term, and is one of the leader's own
    obtain ⟨k, hk⟩ : ∃ k : Nat, (s.raft n).commitIndex = k := ⟨(s.raft n).commitIndex.toNat, by omega⟩
    obtain ⟨x, hx⟩ : ∃ x, (full n)[k]? = some x := ⟨_, List.getElem?_eq_getElem (by omega)⟩
    have hearlier : x ∈ L.log t' := by
      have hget := congrArg (fun l => l[k]?) (hin.trans htake)
      simp only [List.getElem?_take, if_pos (show k < c by omega), hx] at hget
      exact List.mem_of_getElem? hget.symm
    have hmem : x ∈ (s.raft n).log := by
      have hat := (hlogs.nodes.whole n).entryAt (hlogs.stable.index.node n) (show (s.raft n).logBaseIndex < k + 1 by omega)
      rw [show ((k : Int) + 1).toNat - 1 = k by omega, hx] at hat
      exact entryAt_mem hat
    have hidx := (hlogs.nodes.sound n).numbered k x hx
    have hown := List.all_eq_true.1 hold x hmem
    simp only [Bool.or_eq_true, decide_eq_true_eq, beq_iff_eq] at hown
    have hbound := (L.terms t' x hearlier).2
    omega
  · rw [hlead] at hlt
    cases hlt
    exact hoff hl rfl

/-! ## What clients were told -/

theorem PendingInv.restarted (h : PendingInv s) (hr : Restarted s s' n) (hi : IndexInv s') : PendingInv s' := by
  have htaken : ∀ m, (s'.app m).taken = if m = n then [] else (s.app m).taken := by
    intro m
    rw [hr.app]
    split <;> rfl
  have hother : ∀ {m : NodeID} {t : Task}, (m, t) ∈ s'.tasks → (m, t) ∈ s.tasks ∧ s'.raft m = s.raft m ∧
      (s'.app m).taken = (s.app m).taken :=
    fun ht => ⟨hr.tasks ht, hr.other _ (hr.gone ht), (htaken _).trans (if_neg (hr.gone ht))⟩
  refine ⟨hi, hr.forall (P := fun _ r => r.lastApplied ≤ r.lastLogIndex) ?_ h.applied, fun m e he => ?_, fun m => ?_,
    hr.forall (P := fun _ r => ChansOk r) ?_ h.chans, fun m i cmd ch ht => ?_, fun m t i cmd ht hp => ?_⟩
  · rw [hr.node.applied, ← hr.node.base]; exact (hi.node n).base_le_last
  · rw [htaken] at he
    split at he
    · cases he
    · rename_i hm
      rw [hr.other m hm]; exact h.taken m e he
  · rw [htaken]
    split
    · exact List.Pairwise.nil
    · exact h.order m
  · intro j ch hj
    rw [hr.node.waiters] at hj; cases hj
  · obtain ⟨ht, hraft, _⟩ := hother ht
    rw [hraft]; exact h.waiting m i cmd ch ht
  · obtain ⟨ht, hraft, happ⟩ := hother ht
    unfold Applied
    rw [hraft, happ]
    exact h.pending m t i cmd ht hp

/-- What is known of the stores and of the clients in a run with restarts: every write that a client was told of is
committed. -/
structure ServeInv (M : Members) (L : Ledger) (full : NodeID → List LogEntry) (s : Cluster) : Prop where
  saved : MembersSaved M s
  stores : StoresInv False M L full s
  pending : PendingInv s
  told : ∀ m i cmd, .written m i cmd ∈ s.answers → ∃ e, e.index = i ∧ e.data = cmd ∧ CommittedEntry M L s e

/-- The conditions of a step are those under which the writes that clients wait for stay. -/
theorem readsKept_parts (hok : s.readsKept a = true) : s.storesKept a = true ∧ s.writesKept a = true ∧
    s.freshRead a = true := by
  simp only [readsKept, Bool.and_eq_true] at hok
  obtain ⟨⟨⟨hstores, happ⟩, hins⟩, hfresh⟩ := hok
  have hch := (storesKept_parts hstores).choices
  simp only [choicesKept, acksKept, Bool.and_eq_true] at hch
  have hplace := (logsKept_parts hch.1.1).place
  exact ⟨hstores, by simp only [writesKept, hplace, happ, hins, Bool.and_self], hfresh⟩

/-- A step that restarts nobody brings every apply loop forward. -/
theorem ServeInv.step (h : ServeInv M L full s) (hok : s.readsKept a = true) (hs : s.step a = some s') :
    ∃ L' full', Stepped M s a s' L full L' full' ∧ ServeInv M L' full' s' ∧
      ∀ n p j k, Executing False M L full s n p j k → ∃ p' j' k', j ≤ j' ∧ Executing False M L' full' s' n p' j' k' := by
  obtain ⟨hstores, hwrites, _⟩ := readsKept_parts hok
  obtain ⟨L', full', hst, hst'⟩ := h.stores.step hstores hs
  have hfair := choicesKept_fair (storesKept_parts hstores).choices
  have hsaved := (h.saved.restartStep (l := .life (.step a)) hfair hs).1
  refine ⟨L', full', hst, ⟨hsaved, hst', h.pending.step hwrites hs, fun m i cmd hans => ?_⟩,
    fun n p j k hk => h.stores.node_step hst hst'.inv (storesKept_parts hstores) hk⟩
  have hold : ∃ e, e.index = i ∧ e.data = cmd ∧ CommittedEntry M L s e := by
    rcases step_answers hs with he | ⟨ans, he, hnew⟩
    · rw [he] at hans; exact h.told m i cmd hans
    · rw [he, List.mem_append, List.mem_singleton] at hans
      rcases hans with hans | rfl
      · exact h.told m i cmd hans
      · obtain ⟨e, he, hidx, hcmd⟩ := h.pending.written hnew
        exact ⟨e, hidx, hcmd, h.stores.inv.taken m e he⟩
  obtain ⟨e, hidx, hcmd, he⟩ := hold
  exact ⟨e, hidx, hcmd, he.step hst⟩

/-- A restart leaves the apply loops of the other nodes where they are. -/
theorem ServeInv.restarted (h : ServeInv M L full s) (hsaved : MembersSaved M s') {m : NodeID} (hr : Restarted s s' m)
    (hc : CommitInv M L full s') :
    ServeInv M L full s' ∧ ∀ n p j k, Executing False M L full s n p j k → n ≠ m →
      ∃ p' j' k', j ≤ j' ∧ Executing False M L full s' n p' j' k' := by
  refine ⟨⟨hsaved, h.stores.restarted hr hc, h.pending.restarted hr hc.inv.inv.logs.stable.index, ?_⟩,
    fun n p j k hk hn => ?_⟩
  · rw [hr.answers]
    intro m i cmd hans
    obtain ⟨e, hidx, hcmd, T, p, k, hk, hp, hc⟩ := h.told m i cmd hans
    exact ⟨e, hidx, hcmd, T, p, k, hk, hp, hr.committed hc⟩
  · obtain ⟨j', hle, hk'⟩ := hk.restarted hr
    exact ⟨p, j', k, hle hn, hk'⟩

/-! ## Runs -/

/-- The conditions under which strong reads are fresh, with restarts. -/
def readsRecover (M : Members) (s : Cluster) : RestartAction → Bool
  | .life (.step a) => s.readsKept a
  | l => s.recoversKept M l

theorem readsRecover_recovers (h : s.readsRecover M l = true) : s.recoversKept M l = true := by
  rcases l with (a | _) | _
  · exact (storesKept_parts (readsKept_parts h).1).choices
  · exact h
  · exact h

/-- What a step with restarts does: it is a step under the conditions, or a member comes back. -/
theorem ServeInv.cases (h : ServeInv M L full s) (hok : s.readsRecover M l = true) (hs : s.restartStep l = some s') :
    (∃ a, l = .life (.step a) ∧ s.readsKept a = true ∧ s.step a = some s') ∨
      ∃ m d, s.restartDisk l = some (m, d) ∧ MembersSaved M s' ∧ Restarted s s' m ∧ CommitInv M L full s' := by
  obtain ⟨hfair, _, hheld⟩ := recoversKept_parts (readsRecover_recovers hok)
  obtain ⟨hsaved, ⟨a, rfl, _, hs⟩ | ⟨m, d, io, hd, hf, rfl⟩⟩ := h.saved.restartStep hfair hs
  · exact .inl ⟨a, rfl, hok, hs⟩
  · exact .inr ⟨m, d, hd, hsaved, h.stores.inv.restart hf (hheld m d hd) io⟩

/-- The apply loop of node `n` has executed at least the first `c` entries of the committed log. -/
def Served (M : Members) (n : NodeID) (c : Nat) (s : Cluster) : Prop :=
  ∃ L full, ServeInv M L full s ∧ ∃ p j k, c ≤ j ∧ Executing False M L full s n p j k

theorem Served.step (h : Served M n c s) (hok : s.readsRecover M l = true) (hs : s.restartStep l = some s')
    (hup : ∀ d, s.restartDisk l ≠ some (n, d)) : Served M n c s' := by
  obtain ⟨L, full, hi, p, j, k, hj, hk⟩ := h
  rcases hi.cases hok hs with ⟨a, rfl, hok, hs⟩ | ⟨m, d, hd, hsaved, hr, hc⟩
  · obtain ⟨L', full', _, hi', hnext⟩ := hi.step hok hs
    obtain ⟨p', j', k', hle, hk'⟩ := hnext n p j k hk
    exact ⟨L', full', hi', p', j', k', hj.trans hle, hk'⟩
  · obtain ⟨hi', hnext⟩ := hi.restarted hsaved hr hc
    have hne : n ≠ m := by
      rintro rfl
      exact hup d hd
    obtain ⟨p', j', k', hle, hk'⟩ := hnext n p j k hk hne
    exact ⟨L, full, hi', p', j', k', hj.trans hle, hk'⟩

theorem ServeInv.start (M : Members) (snapshotter restorer : Bool) :
    ServeInv M Ledger.blank (fun _ => []) (Cluster.start M.ids M.peersOf snapshotter restorer) := by
  refine ⟨(Reigns.start M snapshotter restorer).saved, .start False M snapshotter restorer,
    (WriteInv.start M.ids M.peersOf snapshotter restorer).toPendingInv, fun m i cmd hans => ?_⟩
  cases hans

theorem ServeInv.run {h : List (Cluster × RestartAction)}
    (hr : M.restarts.Run (fun s l => s.readsRecover M l = true) h s) : ∃ L full, ServeInv M L full s := by
  refine hr.invariant (I := fun s => ∃ L full, ServeInv M L full s) ?_ ?_
  · rintro s ⟨snapshotter, restorer, rfl⟩
    exact ⟨_, _, .start M snapshotter restorer⟩
  · rintro s l s' ⟨L, full, hi⟩ hok hs
    rcases hi.cases hok hs with ⟨a, rfl, hok, hs⟩ | ⟨m, d, _, hsaved, hr, hc⟩
    · obtain ⟨L', full', _, hi', _⟩ := hi.step hok hs
      exact ⟨L', full', hi'⟩
    · exact ⟨L, full, (hi.restarted hsaved hr hc).1⟩

/-- A node that may answer a strong read has executed whatever is committed anywhere. -/
theorem StoresInv.fresh (h : StoresInv False M L full s) {i : Nat} {io : Io} (hok : s.freshRead (.run i .go io) = true)
    {key : Bytes} (hx : s.tasks[i]? = some (n, .serve (.get key false))) (hl : (s.raft n).isLeader = true) {j k : Nat}
    (hk : Executing False M L full s n p j k) {q : List LogEntry} (hc : Committed M L s T c q) : c ≤ j := by
  simp only [freshRead, hx, hl, caughtUp, Bool.and_eq_true, Bool.not_true, Bool.false_or, beq_iff_eq] at hok
  obtain ⟨⟨hmaj, hold⟩, happ, hd⟩ := hok
  have hlead : (s.raft n).state = .leader := by
    simp only [isLeader, Bool.and_eq_true, beq_iff_eq] at hl
    exact hl.1
  have hcov := h.inv.covers hlead hmaj hold hc
  have hj := hk.caught_up h.inv hd
  omega

/-- After the check of a strong read, the store holds every write that was acknowledged before it. -/
theorem ServeInv.checked (h : ServeInv M L full s) {i : Nat} {io : Io} (hok : s.freshRead (.run i .go io) = true)
    {key : Bytes} (hx : s.tasks[i]? = some (n, .serve (.get key false))) (hl : (s.raft n).isLeader = true) :
    ∃ c, Served M n c s ∧ ∀ m (j : Int) cmd, .written m j cmd ∈ s.answers → j ≤ c := by
  obtain ⟨p, j, k, hk⟩ := h.stores.node n
  refine ⟨j, ⟨L, full, h, p, j, k, le_refl j, hk⟩, fun m i' cmd hans => ?_⟩
  obtain ⟨e, hidx, _, T, q, x, hx', _, hc⟩ := h.told m i' cmd hans
  have := h.stores.fresh hok hx hl hk hc
  omega

theorem Committed.numbered (h : Committed M L s T c p) : Numbered 1 (p.take c) := by
  rcases h.chosen with rfl | ⟨t, m, _, _, _, htake⟩
  · exact fun i e he => by cases he
  · rw [htake]; exact (L.numbered t).take c

end Cluster

end Mimori
