/-
Next indices. For a peer `sendHeartbeats` reads the log from `nextIndex` on, and the process dies when that lies beyond
the entry after the last. It does not die while its rounds come to every peer in office, answers are counted in the term of
their request, and nobody else writes to the log of a leader in its term.
-/
import Mimori.Commit.Acks
import Mimori.Log.Order

namespace Mimori

open Raft

namespace Raft

/-! ## Next indices after an entry is applied -/

theorem setAll_cases {m : IndexMap} {ps : List NodeID} {x v : Int} {p : NodeID} (h : m.setAll ps x p = some v) :
    (p ∈ ps ∧ v = x) ∨ (p ∉ ps ∧ m p = some v) := by
  unfold IndexMap.setAll at h
  split at h
  · rename_i hp
    cases h
    exact .inl ⟨hp, rfl⟩
  · rename_i hp
    exact .inr ⟨hp, h⟩

theorem applyConfigChangeLocked_next {r : Raft} {isAdd : Bool} {nodeID : NodeID} {io : Io} {p : NodeID} {v : Int}
    (hv : (r.applyConfigChangeLocked isAdd nodeID io).nextIndex p = some v) :
    (r.nextIndex p = some v ∧ (p ∈ r.peers → p ∈ (r.applyConfigChangeLocked isAdd nodeID io).peers)) ∨
      (v = r.lastLogIndex + 1 ∧ p ∈ (r.applyConfigChangeLocked isAdd nodeID io).peers) := by
  have hnext : ∀ (r₁ : Raft) (b : Bool), (r₁.saveMeta b).nextIndex = r₁.nextIndex :=
    fun r₁ b => (saveMeta_progress r₁ b).next
  have hpeers : ∀ (r₁ : Raft) (b : Bool), (r₁.saveMeta b).peers = r₁.peers := fun r₁ b => (saveMeta_same r₁ b).peers
  have ho := applyConfigChangeLocked_outcome r isAdd nodeID io
  generalize r.applyConfigChangeLocked isAdd nodeID io = out at hv ho ⊢
  cases ho with
  | self => exact .inl ⟨hv, fun hm => hm⟩
  | leaves =>
    rw [hnext] at hv
    cases hv
  | known =>
    rw [hnext] at hv
    rw [hpeers]
    exact .inl ⟨hv, fun hm => hm⟩
  | added =>
    rw [hnext] at hv
    rw [hpeers]
    rcases setAll_cases hv with ⟨hp, hv⟩ | ⟨_, hv⟩
    · exact .inr ⟨hv, List.mem_append_right _ hp⟩
    · exact .inl ⟨hv, List.mem_append_left _⟩
  | dropped =>
    rw [hnext] at hv
    rw [hpeers]
    simp only at hv
    split at hv
    · cases hv
    · rename_i hp
      exact .inl ⟨hv, fun hm => List.mem_filter.2 ⟨hm, by simpa using hp⟩⟩

theorem takeNext_next {r : Raft} {io : Io} {p : NodeID} {v : Int} (hv : (r.takeNext io).1.nextIndex p = some v) :
    (r.nextIndex p = some v ∧ (p ∈ r.peers → p ∈ (r.takeNext io).1.peers)) ∨
      (v = r.lastLogIndex + 1 ∧ p ∈ (r.takeNext io).1.peers) := by
  rw [takeNext_eq] at hv ⊢
  cases hp : r.pendingEntry with
  | none =>
    rw [hp] at hv
    exact .inl ⟨hv, fun hm => hm⟩
  | some e =>
    rw [hp] at hv
    simp only at hv ⊢
    unfold handleConfigChangeIfNeeded at hv ⊢
    split at hv
    · exact applyConfigChangeLocked_next hv
    · exact .inl ⟨hv, fun hm => hm⟩

theorem afterApply_last {r : Raft} (h : Indexed r) (io : Io) : (r.afterApply io).lastLogIndex = r.lastLogIndex := by
  rcases afterApply_compacts r io with ⟨_, hs⟩ | ⟨_, snap, hs⟩
  · exact hs.lastLogIndex
  · exact h.snapshotted_last hs

theorem recordProgress_next (r : Raft) (args : AppendArgs) :
    (r.recordProgress args).nextIndex = r.nextIndex ∨
      (r.recordProgress args).nextIndex = r.nextIndex.setAll [args.peer] (ackedIndex args + 1) := by
  unfold recordProgress
  split
  · exact .inl rfl
  · exact .inr rfl

end Raft

namespace Cluster

variable {s s' : Cluster} {a : Action} {n p : NodeID} {r : Raft} {v : Int}

/-! ## A step and the next indices -/

/-- Where a next index comes from. -/
inductive NextFrom (s : Cluster) (n : NodeID) (r : Raft) (p : NodeID) (v : Int) : Action → Prop
  /-- It was there, or lies below the one that was. -/
  | kept (a : Action) (v' : Int) (h : (s.raft n).nextIndex p = some v') (hle : v ≤ v')
      (hp : p ∈ (s.raft n).peers → p ∈ r.peers) : NextFrom s n r p v a
  /-- The node has won an election, or has added the peer. -/
  | fresh (a : Action) (h : v = (s.raft n).lastLogIndex + 1) (hp : p ∈ r.peers) : NextFrom s n r p v a
  | acked (i j : Nat) (io : Io) (args : AppendArgs) (call : Nat) (resp : AppendEntriesResponse)
      (hx : s.tasks[i]? = some (n, .awaitAppend args call)) (hr : s.replyTo call j = some (.appendEntries resp))
      (hs : resp.success = true) (hp : p ∈ r.peers) (h : v = ackedIndex args + 1) :
      NextFrom s n r p v (.run i (.reply j) io)
  | transferred (i : Nat) (c : Choice) (io : Io) (snap : Snapshot) (call : Nat)
      (hx : s.tasks[i]? = some (n, .awaitSnapshot p snap call)) (h : v = snap.lastIncludedIndex + 1) :
      NextFrom s n r p v (.run i c io)

theorem NodeStep.nextFrom (hi : IndexInv s) (hm : NodeStep s a n r) (hv : r.nextIndex p = some v) :
    NextFrom s n r p v a := by
  have hkept : (s.raft n).nextIndex p = some v → (p ∈ (s.raft n).peers → p ∈ r.peers) → NextFrom s n r p v a :=
    fun h hp => .kept _ v h (le_refl v) hp
  -- only the applier changes the peers, when it comes to a configuration entry
  rcases hm.applier_cases with ha | ⟨io, _, rfl⟩ | ⟨io, _, rfl⟩
  · have hpeers := (hm.members_other ha).peers
    have hin : p ∈ (s.raft n).peers → p ∈ r.peers := by
      rw [hpeers]
      exact fun hp => hp
    cases hm.progress with
    | same _ h => exact hkept (by rw [← h.next]; exact hv) hin
    | office _ h =>
      rw [h.next] at hv
      rcases setAll_cases hv with ⟨hp, rfl⟩ | ⟨_, hv⟩
      · exact .fresh _ rfl (hin hp)
      · exact hkept hv hin
    | follow _ _ _ _ _ _ _ h => exact hkept (by rw [← h.next]; exact hv) hin
    | install _ _ _ _ _ _ _ _ hn => exact hkept (by rw [← hn]; exact hv) hin
    | refused _ _ _ args _ _ h =>
      rw [h.next.2] at hv
      rcases setAll_cases hv with ⟨hp, rfl⟩ | ⟨_, hv⟩
      · -- the index of a peer that is moved back is there
        have hget := h.next.1
        have hbase := (hi.node n).base
        rw [← List.mem_singleton.1 hp] at hget ⊢
        cases hold : (s.raft n).nextIndex p with
        | none =>
          simp only [IndexMap.get, hold, Option.getD_none] at hget
          omega
        | some v' =>
          refine .kept _ v' hold ?_ hin
          simp only [IndexMap.get, hold, Option.getD_some]
          omega
      · exact hkept hv hin
    | acked i j io args call resp hx hr hs hp h =>
      rw [h, (updateCommitIndexLocked_maps _).1] at hv
      rcases recordProgress_next (s.raft n) args with he | he <;> rw [he] at hv
      · exact hkept hv hin
      · rcases setAll_cases hv with ⟨hp', rfl⟩ | ⟨_, hv⟩
        · refine .acked i j io args call resp hx hr hs (hin ?_) rfl
          rw [List.mem_singleton.1 hp']
          exact hp
        · exact hkept hv hin
    | alone _ _ _ _ h =>
      rw [h, (updateCommitIndexLocked_maps _).1] at hv
      exact hkept hv hin
    | sent i c io peer snap call hx h =>
      rw [h] at hv
      rcases setAll_cases hv with ⟨hp, rfl⟩ | ⟨_, hv⟩
      · rw [← List.mem_singleton.1 hp] at hx
        exact .transferred i c io snap call hx rfl
      · exact hkept hv hin
    | take io => exact absurd rfl (ha io).1
    | done io => exact absurd rfl (ha io).2
  · rcases takeNext_next hv with ⟨hv, hp⟩ | ⟨hv, hp⟩
    · exact hkept hv hp
    · exact .fresh _ hv hp
  · rcases takeNext_next hv with ⟨hv, hp⟩ | ⟨hv, hp⟩
    · rw [(afterApply_rest ..).next] at hv
      rw [(afterApply_rest ..).peers] at hp
      exact hkept hv hp
    · rw [afterApply_last (hi.node n)] at hv
      exact .fresh _ hv hp

/-! ## Conditions -/

/-- `sendHeartbeats` comes to a peer only while the node leads. -/
def roundInOffice (s : Cluster) : Action → Bool
  | .run i .go _ =>
    match s.tasks[i]? with
    | some (n, .heartbeatPeers _ _ _ (_ :: _)) => (s.raft n).state == .leader
    | _ => true
  | _ => true

/-- No leader is sent entries or a snapshot in its own term. -/
def unchallenged (s : Cluster) : Action → Bool
  | .deliver call _ =>
    match s.requests[call]? with
    | some ⟨_, n, .appendEntries req⟩ => (s.raft n).state != .leader || req.term != (s.raft n).term
    | some ⟨_, n, .installSnapshot req⟩ => (s.raft n).state != .leader || req.term != (s.raft n).term
    | _ => true
  | _ => true

/-- The conditions under which a round finds every next index within the log. -/
def heartbeatsKept (s : Cluster) (a : Action) : Bool :=
  s.inPlace a && s.roundInOffice a && s.timelyAck a && s.unchallenged a

/-! ## Leaders and their logs -/

theorem IndexInv.leader_last (hi : IndexInv s) (hu : s.unchallenged a = true) (hm : NodeStep s a n r)
    (hl : (s.raft n).state = .leader) (ht : r.term = (s.raft n).term) :
    (s.raft n).lastLogIndex ≤ r.lastLogIndex := by
  cases hm.logStep with
  | same _ h => exact le_of_eq h.lastLogIndex.symm
  | append _ cmd h =>
    have h1 := (hi.node n).lastLogIndex
    have h2 := ((hi.node n).append h).lastLogIndex
    rw [h.base, h.log, List.length_append, List.length_singleton] at h2
    omega
  | merge call io src req hp hr h hs =>
    -- entries of a later term are accepted only after a step down
    have hterm := appendEntries_term hs
    rw [← hr, ht] at hterm
    simp [unchallenged, hp, hl, hterm] at hu
  | install call io src req hp hr hle h =>
    have hterm := @installSnapshot_term _ _ (s.envOf n io) hle
    rw [← hr, ht] at hterm
    simp [unchallenged, hp, hl, hterm] at hu
  | snapshot _ snap h => rw [(hi.node n).snapshotted_last h]

/-- The arguments of a goroutine that sends entries: they are of a term the node has reached, not as a candidate of it,
and as long as it leads that term they end within its log. -/
structure ArgsWithin (r : Raft) (args : AppendArgs) : Prop where
  term : args.term ≤ r.term
  role : args.term = r.term → r.state ≠ .candidate
  last : r.state = .leader → args.term = r.term → args.prevLogIndex + args.entries.length ≤ r.lastLogIndex

theorem ArgsWithin.nodeStep {args : AppendArgs} (h : ArgsWithin (s.raft n) args) (hi : IndexInv s)
    (hu : s.unchallenged a = true) (hm : NodeStep s a n r) : ArgsWithin r args := by
  have hterm := h.term
  rcases hm.role with hlt | ⟨ht, hrole⟩
  · exact ⟨by omega, fun he => absurd he (by omega), fun _ he => absurd he (by omega)⟩
  · refine ⟨by omega, fun he => ?_, fun hl he => ?_⟩
    · have hne := h.role (he.trans ht)
      rcases hrole with hs | ⟨hc, _⟩ | hs
      · rw [hs]; exact hne
      · exact absurd hc hne
      · rw [hs]; exact nofun
    · have hlead : (s.raft n).state = .leader := by
        rcases hrole with hs | ⟨hc, _⟩ | hs
        · rw [← hs]; exact hl
        · exact absurd hc (h.role (he.trans ht))
        · rw [hl] at hs; cases hs
      exact le_trans (h.last hlead (he.trans ht)) (hi.leader_last hu hm hlead ht)

/-! ## The invariant -/

structure NextInv (s : Cluster) : Prop where
  index : IndexInv s
  leader : ∀ n, (s.raft n).state = .leader → ∀ p v, (s.raft n).nextIndex p = some v →
    v ≤ (s.raft n).lastLogIndex + 1
  stranger : ∀ n p v, p ∉ (s.raft n).peers → (s.raft n).nextIndex p = some v → v ≤ (s.raft n).logBaseIndex + 1
  round : ∀ n ret T leaderID rest, (n, .heartbeatPeers ret T leaderID rest) ∈ s.tasks → T ≤ (s.raft n).term
  args : ∀ n t args, (n, t) ∈ s.tasks → argsOf t = some args → ArgsWithin (s.raft n) args
  snap : ∀ n t snap, (n, t) ∈ s.tasks → snapOf t = some snap → snap.lastIncludedIndex ≤ (s.raft n).logBaseIndex

/-- A round was under way, or starts in the term of its node. -/
theorem NewTask.round {ret : Caller} {T : Int} {leaderID : NodeID} {rest : List NodeID}
    (hnew : NewTask s a n (.heartbeatPeers ret T leaderID rest)) :
    T = (s.raft n).term ∨ ∃ ret' leaderID' rest', (n, .heartbeatPeers ret' T leaderID' rest') ∈ s.tasks := by
  cases hnew with
  | next i c io _ u _ hx hsp =>
    cases hsp with
    | roundPeers => exact .inl rfl
    | nextPeer => exact .inr ⟨_, _, _, List.mem_of_getElem? hx⟩

namespace NextInv

theorem newArgs (h : NextInv s) (hok : s.roundInOffice a = true) {args : AppendArgs} (ha : ArgsFrom s n a args) :
    ArgsWithin (s.raft n) args := by
  cases ha with
  | read i io ret T leaderID p rest _ hx hb =>
    obtain ⟨hreads, _, hT, _⟩ := heartbeatTo_reads (h.index.node n) (h.index.next n p) hb
    have hlead : (s.raft n).state = .leader := by simpa [roundInOffice, hx] using hok
    refine ⟨hT ▸ h.round n _ _ _ _ (List.mem_of_getElem? hx), fun _ => (by rw [hlead]; exact nofun), fun _ _ => ?_⟩
    have h1 := (h.index.node n).lastLogIndex
    have h2 := hreads.base
    have h3 := hreads.last
    rw [hreads.entries, List.length_map, List.length_drop]
    omega
  | batch _ args hx =>
    obtain ⟨h1, h2, h3⟩ := h.args n _ args hx rfl
    refine ⟨h1, h2, fun hl he => le_trans ?_ (h3 hl he)⟩
    have := (List.take_sublist maxEntriesPerBatch args.entries).length_le
    simp only [currentBatch]
    omega
  | sent _ args hx hne =>
    obtain ⟨h1, h2, h3⟩ := h.args n _ args hx rfl
    obtain ⟨hprev, _⟩ := afterSent_prev (h.index.args n _ args hx rfl).numbered hne
    rw [List.length_take] at hprev
    refine ⟨by rw [afterSent_term]; exact h1, by rw [afterSent_term]; exact h2, fun hl he => ?_⟩
    rw [afterSent_term] at he
    have := h3 hl he
    rw [hprev, afterSent_entries, List.length_drop]
    omega
  | refused i io args hx =>
    obtain ⟨h1, h2, h3⟩ := h.args n _ args (List.mem_of_getElem? hx) rfl
    refine ⟨h1, h2, fun hl he => le_trans ?_ (h3 hl he)⟩
    simp only [afterRefused, List.length_drop]
    omega
  | same _ _ hx => exact h.args n _ args hx rfl

/-- The next index of a peer of a node that leads after the step. -/
theorem leader_step (h : NextInv s) (hack : s.timelyAck a = true) (hu : s.unchallenged a = true) (hm : NodeStep s a n r)
    (hl : r.state = .leader) (hv : r.nextIndex p = some v) : v ≤ r.lastLogIndex + 1 := by
  have hbase := (h.index.node n).base_le_last
  rcases hm.office with hno | ho
  · obtain ⟨hlead, hterm⟩ := hno hl
    have hlast := h.index.leader_last hu hm hlead hterm
    -- the node led before: every origin of the index lies within the log it had, which did not get shorter
    cases hm.nextFrom h.index hv with
    | kept _ v' hold hle =>
      have := h.leader n hlead p v' hold
      omega
    | fresh _ hfresh => omega
    | acked i j io args call resp hx hr hs _ hacked =>
      -- the entries were read in this term
      have hT : args.term = (s.raft n).term := by
        simp only [timelyAck, appendAnswered, hx, hr, hs, hlead] at hack
        exact (by simpa using hack : (s.raft n).term = args.term).symm
      have hmem := List.mem_of_getElem? hx
      have hle := (h.args n _ args hmem rfl).last hlead hT
      rw [ackedIndex_eq (h.index.args n _ args hmem rfl).numbered] at hacked
      omega
    | transferred i c io snap call hx hsent =>
      have := h.snap n _ snap (List.mem_of_getElem? hx) rfl
      omega
  · -- a node that wins sets the index of its peers, and the others lie at the base
    rw [ho.next] at hv
    rw [ho.log.lastLogIndex]
    rcases setAll_cases hv with ⟨_, rfl⟩ | ⟨hp, hv⟩
    · exact le_refl _
    · have := h.stranger n p v hp hv
      omega

theorem stranger_step (h : NextInv s) (hm : NodeStep s a n r) (hbase : (s.raft n).logBaseIndex ≤ r.logBaseIndex)
    (hp : p ∉ r.peers) (hv : r.nextIndex p = some v) : v ≤ r.logBaseIndex + 1 := by
  cases hm.nextFrom h.index hv with
  | kept _ v' hold hle hin =>
    have := h.stranger n p v' (fun hmem => hp (hin hmem)) hold
    omega
  | fresh _ _ hin => exact absurd hin hp
  | acked _ _ _ _ _ _ _ _ _ hin => exact absurd hin hp
  | transferred i c io snap call hx hsent =>
    have := h.snap n _ snap (List.mem_of_getElem? hx) rfl
    omega

theorem step (h : NextInv s) (hok : s.heartbeatsKept a = true) (hs : s.step a = some s') : NextInv s' := by
  simp only [heartbeatsKept, Bool.and_eq_true] at hok
  obtain ⟨⟨⟨hplace, hround⟩, hack⟩, hu⟩ := hok
  have hfresh : s.freshSnapshot a = true := by
    simp only [inPlace, Bool.and_eq_true] at hplace
    exact hplace.2
  have hbase := h.index.base_mono hfresh hs
  have hargs : ∀ n args, ArgsWithin (s.raft n) args → ArgsWithin (s'.raft n) args := by
    intro n args hold
    rcases step_at hs n with heq | ⟨_, hm⟩
    · rw [heq]; exact hold
    · exact hold.nodeStep h.index hu hm
  refine ⟨h.index.step hplace hs, fun n hl p v hv => ?_, fun n p v hp hv => ?_, fun n ret T leaderID rest ht => ?_,
    fun n t args ht ha => hargs n args ?_, fun n t snap ht hsnap => le_trans ?_ (hbase n)⟩
  · rcases step_at hs n with heq | ⟨_, hm⟩
    · rw [heq] at hl hv ⊢
      exact h.leader n hl p v hv
    · exact h.leader_step hack hu hm hl hv
  · rcases step_at hs n with heq | ⟨_, hm⟩
    · rw [heq] at hp hv ⊢
      exact h.stranger n p v hp hv
    · exact h.stranger_step hm (hbase n) hp hv
  · refine le_trans ?_ (step_le_term hs n)
    rcases step_tasks hs ht with ht | ⟨_, ht⟩
    · exact h.round n ret T leaderID rest ht
    · rcases ht.round with rfl | ⟨_, _, _, hold⟩
      · exact le_refl _
      · exact h.round n _ T _ _ hold
  · rcases step_tasks hs ht with ht | ⟨_, ht⟩
    · exact h.args n t args ht ha
    · exact h.newArgs hround (ht.args ha)
  · rcases step_tasks hs ht with ht | ⟨_, ht⟩
    · exact h.snap n t snap ht hsnap
    · rcases ht.snap hsnap with ⟨_, _, _, _, _, hsend⟩ | ⟨t', ht', hsnap'⟩
      · have hnode := h.index.node n
        exact le_of_eq (hnode.snapshot snap (Indexed.snapshotToSend hnode hsend))
      · exact h.snap n t' snap ht' hsnap'

theorem start {procs : List NodeID} {peersOf : NodeID → List NodeID} (snapshotter restorer : Bool) :
    NextInv (Cluster.start procs peersOf snapshotter restorer) := by
  refine ⟨.start .., ?_, ?_, ?_, ?_, ?_⟩
  · intro n hl
    cases hl
  · intro n p v hp hv
    rw [start_raft] at hp hv
    rcases setAll_cases (show (IndexMap.setAll (fun _ => none) (peersOf n) 1) p = some v from hv) with ⟨hin, _⟩ | ⟨_, hv⟩
    · exact absurd hin hp
    · cases hv
  · intro n ret T leaderID rest ht
    cases ht
  · intro n t args ht
    cases ht
  · intro n t snap ht
    cases ht

/-- A leader finds the next index of every node within its log. -/
theorem nextIdx_le (h : NextInv s) (hl : (s.raft n).state = .leader) (p : NodeID) :
    (s.raft n).nextIndex.get p ≤ (s.raft n).lastLogIndex + 1 ∧ (s.raft n).nextIdx p ≤ (s.raft n).lastLogIndex + 1 := by
  have hbase := (h.index.node n).base_le_last
  have hnonneg := (h.index.node n).base
  have hget : (s.raft n).nextIndex.get p ≤ (s.raft n).lastLogIndex + 1 := by
    unfold IndexMap.get
    cases hv : (s.raft n).nextIndex p with
    | none => show 0 ≤ _; omega
    | some v => exact h.leader n hl p v hv
  refine ⟨hget, ?_⟩
  unfold nextIdx
  split
  · omega
  · exact hget

end NextInv

/-- `sendHeartbeats` cannot panic: in every run from any peer lists that keeps the conditions `heartbeatsKept`, whenever a
round comes to a peer, the next index of the peer is at most one beyond the last index of the log, so the capacity given to
`make` is not negative, and the process lives on. -/
theorem heartbeats_cannot_panic {h : List (Cluster × Action)}
    (hr : machine.Run (fun s a => s.heartbeatsKept a = true) h s) {i : Nat} {io : Io} {ret : Caller} {T : Int}
    {leaderID : NodeID} {rest : List NodeID} (hx : s.tasks[i]? = some (n, .heartbeatPeers ret T leaderID (p :: rest)))
    (hok : s.heartbeatsKept (.run i .go io) = true) :
    (s.raft n).nextIndex.get p ≤ (s.raft n).lastLogIndex + 1 ∧
      0 ≤ (s.raft n).lastLogIndex - ((s.raft n).nextIdx p - 1) ∧
      (s.raft n).heartbeatTo T leaderID p ≠ .panic ∧
      ∀ s', s.step (.run i .go io) = some s' → s'.procs = s.procs := by
  have hinv : NextInv s := by
    refine hr.invariant ?_ fun s a s' hi hok hs => hi.step hok hs
    rintro s ⟨procs, peersOf, snapshotter, restorer, _, rfl⟩
    exact .start snapshotter restorer
  have hlead : (s.raft n).state = .leader := by
    simp only [heartbeatsKept, Bool.and_eq_true] at hok
    simpa [roundInOffice, hx] using hok.1.1.2
  obtain ⟨hget, hidx⟩ := hinv.nextIdx_le hlead p
  have hpanic : (s.raft n).heartbeatTo T leaderID p ≠ .panic := by
    unfold heartbeatTo
    simp only
    split
    · exact nofun
    · rw [if_neg (by omega)]
      exact nofun
  refine ⟨hget, by omega, hpanic, fun s' hs => ?_⟩
  obtain ⟨m, t, hx', _, hstep⟩ := step_run hs
  rw [hx] at hx'
  cases hx'
  cases hstep with
  | peerPanic _ _ _ _ _ hdead => exact absurd hdead hpanic
  | _ => rfl

/-- A leads with one entry and comes to B, which has none. -/
theorem heartbeats_cannot_panic_firstRound :
    ∃ h s s', machine.Run (fun s a => s.heartbeatsKept a = true) h s ∧ s.step (.run 1 .go {}) = some s' ∧
      (s.raft "A").lastLogIndex = 1 ∧ (s.raft "A").nextIndex.get "B" ≤ 2 ∧ s'.procs = s.procs := by
  obtain ⟨h, s, hr, ⟨hx, hok, hlast⟩, hs⟩ := Machine.exists_run (S := machine) (fun s a => s.heartbeatsKept a = true)
    (fun _ s => (s.tasks[1]? = some ("A", .heartbeatPeers .heartbeatLoop 1 "A" ["B", "C"]) ∧
      s.heartbeatsKept (.run 1 .go {}) = true ∧ (s.raft "A").lastLogIndex = 1) ∧
      (s.step (.run 1 .go {})).isSome = true)
    (machine_init threeNodes true true) (electA ++ [.propose "A" (.put [1] [2]) {}, .run 1 .go {}, .run 1 .go {}])
    (by decide +kernel)
  obtain ⟨s', hs'⟩ := Option.isSome_iff_exists.1 hs
  obtain ⟨hnext, _, _, hlive⟩ := heartbeats_cannot_panic hr hx hok
  rw [hlast] at hnext
  exact ⟨h, s, s', hr, hs', hlast, hnext, hlive s' hs'⟩

/-- A, which has two entries of its own, loses its office to B's higher term and is elected again in term 3: the next index
of B and of C is then 3. A begins a round. -/
def secondTerm : List Action :=
  electA ++ [.propose "A" (.put [1] [2]) {}, .propose "A" (.put [3] [4]) {}, .tick 2000, .electionTimeout "B" 1500 {},
    .run 2 .go {}, .run 2 .go {}, .deliver 1 {}, .tick 2000, .electionTimeout "A" 1500 {}, .run 4 .go {}, .run 4 .go {},
    .run 4 .go {}, .deliver 2 {}, .deliver 3 {}, .run 4 (.reply 2) {}, .run 1 .go {}, .run 5 .go {}]

/-- Before the round comes to B, C is elected in term 4 by B, and its first entry takes the place of both of A's. -/
def truncatedMidRound : List Action :=
  secondTerm ++ [.tick 2000, .electionTimeout "C" 1500 {}, .run 6 .go {}, .run 7 .go {}, .deliver 4 {},
    .run 7 (.reply 4) {}, .propose "C" (.put [5] [6]) {}, .run 7 .go {}, .run 7 .go {}, .run 7 .go {}, .run 8 .go {},
    .run 8 .go {}, .deliver 5 {}]

/-- The round of A goes on after A has stepped down: it finds the next index 3 over a log that ends at 1, and the negative
capacity ends the process. -/
theorem truncatedMidRound_panics :
    ∃ h s, machine.Run (fun s a => (s.inPlace a && s.timelyAck a && s.unchallenged a) = true) h s ∧
      (s.tasks[5]? = some ("A", .heartbeatPeers .heartbeatLoop 3 "A" ["B", "C"]) ∧
        (s.raft "A").lastLogIndex = 1 ∧ (s.raft "A").nextIndex.get "B" = 3 ∧
        (s.raft "A").lastLogIndex - ((s.raft "A").nextIdx "B" - 1) = -1 ∧
        (s.raft "A").heartbeatTo 3 "A" "B" = .panic ∧
        "A" ∈ s.procs ∧ (s.step (.run 5 .go {})).any (fun s' => "A" ∉ s'.procs) = true) :=
  Machine.exists_run (S := machine) (fun s a => (s.inPlace a && s.timelyAck a && s.unchallenged a) = true) _
    (machine_init threeNodes true true) truncatedMidRound (by decide +kernel)

end Cluster

end Mimori
