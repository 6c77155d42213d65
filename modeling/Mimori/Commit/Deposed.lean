/-
A leader of an old term learns of a newer one. Its heartbeat goroutine comes round to a node that knows the newer term, and
the answer ends its office. Rounds do not end the process on the way, also not after restarts: the next indices of a leader
lie within its log. A peer that is behind the snapshot is taken to have it once it was sent, and gets entries from then on.
-/
import Mimori.Commit.Delivery
import Mimori.Replication.NextIndex

namespace Mimori

open Raft

namespace Raft

variable {r : Raft} {io : Io}

theorem appendEntries_refuses {req : AppendEntriesRequest} (h : req.term < r.term) (io : Io) :
    r.appendEntries req io = (r, ⟨int32 r.term, false⟩) := by
  unfold appendEntries
  simp only [if_pos h]
  split <;> rfl

theorem handleAppendResponse_newer {a : AppendArgs} {resp : AppendEntriesResponse} (h : r.term < resp.term) (io : Io) :
    (r.handleAppendResponse a resp io).1.term = resp.term ∧ (r.handleAppendResponse a resp io).1.state = .follower := by
  unfold handleAppendResponse
  rw [if_pos h]
  unfold saveMeta
  split <;> exact ⟨rfl, rfl⟩

end Raft

namespace Cluster

variable {M : Members} {L : Ledger} {full : NodeID → List LogEntry} {s s' : Cluster} {n m a b : NodeID} {B K T : Int}

/-! ## Next indices, with restarts -/

/-- Nobody else speaks in the term of a leader. -/
theorem CommitInv.unchallenged (h : CommitInv M L full s) (a : Action) : s.unchallenged a = true := by
  have hlogs := h.inv.inv.logs
  unfold Cluster.unchallenged
  split
  · split
    · rename_i src n req hp
      have hmem := List.mem_of_getElem? hp
      by_cases ht : req.term = (s.raft n).term
      · have := hlogs.lead.receiver (hlogs.carried.append _ hmem req rfl).lead
          (hlogs.stable.addressed.append _ hmem req rfl) ht.symm
        rw [bne_iff_ne.2 this, Bool.true_or]
      · rw [bne_iff_ne.2 ht, Bool.or_true]
    · rename_i src n req hp
      have hmem := List.mem_of_getElem? hp
      by_cases ht : req.term = (s.raft n).term
      · have := hlogs.lead.receiver (hlogs.carried.install _ hmem req rfl).2
          (hlogs.stable.addressed.install _ hmem req rfl) ht.symm
        rw [bne_iff_ne.2 this, Bool.true_or]
      · rw [bne_iff_ne.2 ht, Bool.or_true]
    · rfl
  · rfl

theorem CommitInv.heartbeatsKept {a : Action} (h : CommitInv M L full s) (hok : s.choicesKept a = true) :
    s.heartbeatsKept a = true := by
  simp only [choicesKept, acksKept, logsKept, Bool.and_eq_true] at hok
  obtain ⟨⟨⟨⟨⟨_, hplace⟩, _⟩, hspeak⟩, hack⟩, _⟩ := hok
  have hround : s.roundInOffice a = true := by
    unfold roundInOffice
    split
    · split
      · rename_i hx
        simp only [speaksInOffice, hx, Bool.and_eq_true] at hspeak
        exact hspeak.1
      · rfl
    · rfl
  simp only [Cluster.heartbeatsKept, hplace, hround, hack, h.unchallenged a, Bool.and_self]

theorem NextInv.restart {d : Disk} {io : Io} (h : NextInv s) (hf : MemberFiles M n d)
    (hr : Restarted s (s.restart n (M.peersOf n) d io) n) (hi : IndexInv (s.restart n (M.peersOf n) d io)) :
    NextInv (s.restart n (M.peersOf n) d io) := by
  -- the goroutines of the node are gone
  have htask : ∀ {m : NodeID} {t : Task}, (m, t) ∈ (s.restart n (M.peersOf n) d io).tasks →
      (m, t) ∈ s.tasks ∧ (s.restart n (M.peersOf n) d io).raft m = s.raft m := by
    intro m t ht
    obtain ⟨ht, hm⟩ := List.mem_filter.1 ht
    exact ⟨ht, hr.other m (of_decide_eq_true hm)⟩
  refine ⟨hi, fun m hl p v hv => ?_, fun m p v hp hv => ?_, fun m ret T l rest ht => ?_, fun m t args ht ha => ?_,
    fun m t snap ht hs => ?_⟩
  · have heq := hr.leader hl
    rw [heq] at hl hv ⊢
    exact h.leader m hl p v hv
  · by_cases hm : m = n
    · subst hm
      rw [restart_raft, if_pos rfl] at hp hv
      simp only [new_unreplayed m (M.peersOf m) io hf.log] at hp hv
      rcases setAll_cases hv with ⟨hin, _⟩ | ⟨_, hv⟩
      · exact absurd hin hp
      · cases hv
    · rw [hr.other m hm] at hp hv ⊢
      exact h.stranger m p v hp hv
  · obtain ⟨ht, hraft⟩ := htask ht
    rw [hraft]; exact h.round m ret T l rest ht
  · obtain ⟨ht, hraft⟩ := htask ht
    rw [hraft]; exact h.args m t args ht ha
  · obtain ⟨ht, hraft⟩ := htask ht
    rw [hraft]; exact h.snap m t snap ht hs

/-- What is known of every state of a run with restarts, the next indices and the heartbeat goroutines of leaders
included. -/
structure Poised (M : Members) (s : Cluster) : Prop where
  saved : MembersSaved M s
  inv : ∃ L full, CommitInv M L full s
  next : NextInv s
  beats : Beating s

theorem Poised.restartStep {l : RestartAction} (h : Poised M s) (hok : s.recoversKept M l = true)
    (hs : s.restartStep l = some s') : Poised M s' := by
  obtain ⟨L, full, hi⟩ := h.inv
  obtain ⟨hfair, hkept, hheld⟩ := recoversKept_parts hok
  have hbeats := h.beats.restartStep hs
  obtain ⟨hsaved', ⟨a, hl, _, hstep⟩ | ⟨n, d, io, hd, hf, rfl⟩⟩ := h.saved.restartStep hfair hs
  · obtain ⟨L', full', _, hi'⟩ := hi.step (hkept a hl) hstep
    exact ⟨hsaved', ⟨L', full', hi'⟩, h.next.step (hi.heartbeatsKept (hkept a hl)) hstep, hbeats⟩
  · obtain ⟨hr, hi'⟩ := hi.restart hf (hheld n d hd) io
    exact ⟨hsaved', ⟨L, full, hi'⟩, h.next.restart hf.files hr hi'.inv.inv.logs.stable.index, hbeats⟩

theorem Poised.run {h : List (Cluster × RestartAction)}
    (hr : M.restarts.Run (fun s l => s.recoversKept M l = true) h s) : Poised M s := by
  refine hr.invariant ?_ fun s l s' hi hok hs => hi.restartStep hok hs
  rintro s ⟨snapshotter, restorer, rfl⟩
  refine ⟨(Reigns.start M snapshotter restorer).saved, ⟨_, _, .start M snapshotter restorer⟩, .start snapshotter restorer,
    fun n _ hl => ?_⟩
  cases hl

theorem Poised.onward (h : Poised M s) (ho : Onward M s s') : Poised M s' :=
  Machine.Leads.invariant (fun _ _ _ hi hok hs => hi.restartStep hok hs) ho h

theorem NextInv.lives (h : NextInv s) (hl : (s.raft n).state = .leader) (T : Int) (leaderID p : NodeID) :
    (s.raft n).heartbeatTo T leaderID p ≠ .panic := by
  have hle := (h.nextIdx_le hl p).2
  unfold heartbeatTo
  simp only
  split
  · exact nofun
  · rw [if_neg (by omega)]
    exact nofun

/-! ## To the ticker -/

/-- The goroutine of a leader without peers comes back to its ticker. -/
theorem Calm.returnsAlone (hc : Calm M B K s) (hbp : b ∈ s.procs) (hx : (b, .heartbeatAlone .heartbeatLoop) ∈ s.tasks) :
    ∃ s', Onward M s s' ∧ Calm M B K s' ∧ Moved s s' b ∧ SameVotes (s.raft b) (s'.raft b) ∧
      (b, .heartbeatLoop) ∈ s'.tasks := by
  have hv := updateCommitIndexLocked_same (s.raft b)
  have hlog := (updateCommitIndexLocked_data (s.raft b)).toSameLog
  obtain ⟨s', ho, hc', hgo⟩ := hc.goes (r := (s.raft b).updateCommitIndexLocked) [.heartbeatLoop] hbp hx
    (fun i hi => by simp only [speaksInOffice, hi]) (fun i => by simp only [runTask, dropTask_raft, resume])
    (by rw [hv.term]; exact hc.terms b hbp) (by rw [hlog.lastLogIndex]; exact hc.indices b hbp)
  exact ⟨s', ho, hc', .of_node hgo.procs hgo.answers hgo.other (by rw [hgo.node]; exact hlog) (by rw [hgo.node, hv.term]),
    by rw [hgo.node]; exact hv, hgo.new _ List.mem_cons_self⟩

theorem Rests.moved (h : Rests s s') (n : NodeID) : Moved s s' n := .of_raft h.procs h.answers h.raft n

theorem Spawns.moved {t : Task} {ts : List Task} (h : Spawns s s' n t ts) (m : NodeID) : Moved s s' m :=
  .of_raft h.procs h.answers h.raft m

/-- So does a round of its term. -/
theorem Calm.returnsRound {l : NodeID} {rest : List NodeID} (hc : Calm M B K s) (hn : NextInv s) (hbp : b ∈ s.procs)
    (hl : (s.raft b).state = .leader) (hx : (b, .heartbeatPeers .heartbeatLoop (s.raft b).term l rest) ∈ s.tasks) :
    ∃ s', Onward M s s' ∧ Calm M B K s' ∧ Moved s s' b ∧ SameVotes (s.raft b) (s'.raft b) ∧
      (b, .heartbeatLoop) ∈ s'.tasks := by
  obtain ⟨s', ho, hc', hrest, hloop, _⟩ := hc.comesRound rest hbp hl rfl hx fun p _ => hn.lives hl _ l p
  exact ⟨s', ho, hc', hrest.moved b, by rw [hrest.raft]; exact .refl _, hloop⟩

/-- The heartbeat goroutine of a leader comes back to its ticker. -/
theorem Calm.returns (hc : Calm M B K s) (hp : Poised M s) (hbp : b ∈ s.procs) (hl : (s.raft b).state = .leader) :
    ∃ s', Onward M s s' ∧ Calm M B K s' ∧ Moved s s' b ∧ SameVotes (s.raft b) (s'.raft b) ∧
      (b, .heartbeatLoop) ∈ s'.tasks := by
  obtain ⟨t, ht, hbeats⟩ := hp.beats b hbp hl
  unfold Task.beats at hbeats
  split at hbeats
  · exact ⟨s, .refl s, hc, .refl s b, .refl _, ht⟩
  · by_cases hpeers : M.peersOf b = []
    · obtain ⟨s₁, ho₁, hc₁, hsp⟩ := hc.spawns [.heartbeatAlone .heartbeatLoop] hbp ht
        (fun i hi => by simp only [speaksInOffice, hi]) fun i => by
          simp only [runTask, dropTask_raft, hc.fixed.peers, if_pos hpeers]
      obtain ⟨s', ho, hc', hm, hv, hloop⟩ := hc₁.returnsAlone (hsp.procs ▸ hbp) (hsp.new _ List.mem_cons_self)
      exact ⟨s', ho₁.trans ho, hc', (hsp.moved b).trans hm, hsp.raft ▸ hv, hloop⟩
    · obtain ⟨s₁, ho₁, hc₁, hsp⟩ := hc.spawns [.heartbeatPeers .heartbeatLoop (s.raft b).term b (M.peersOf b)] hbp ht
        (fun i hi => by simp only [speaksInOffice, hi]) fun i => by
          simp only [runTask, dropTask_raft, hc.fixed.peers, hc.fixed.id, if_neg hpeers]
      have hx := hsp.new _ List.mem_cons_self
      rw [← hsp.raft] at hx hl
      obtain ⟨s', ho, hc', hm, hv, hloop⟩ := hc₁.returnsRound (hp.onward ho₁).next (hsp.procs ▸ hbp) hl hx
      exact ⟨s', ho₁.trans ho, hc', (hsp.moved b).trans hm, hsp.raft ▸ hv, hloop⟩
  · rw [beq_iff_eq.1 hbeats] at ht
    exact hc.returnsRound hp.next hbp hl ht
  · exact hc.returnsAlone hbp ht
  · cases hbeats

/-! ## The news -/

/-- A request of an old term brings back the newer one. -/
theorem Calm.hears {x : AppendArgs} (hc : Calm M B K s) (hbp : b ∈ s.procs) (hap : x.peer ∈ s.procs) (hne : x.peer ≠ b)
    (hx : (b, .sendAppend x) ∈ s.tasks) (hT : x.term = (s.raft b).term) (hlt : (s.raft b).term < (s.raft x.peer).term) :
    ∃ s', Onward M s s' ∧ Calm M B K s' ∧ Moved s s' b ∧ (s'.raft b).state = .follower ∧
      (s'.raft b).term = (s.raft x.peer).term := by
  have hreq : (appendEntriesRequest x).term < (s.raft x.peer).term := by
    show int32 x.term < _
    rw [hT, int32_of_fits (hc.fitsTerm hbp)]
    exact hlt
  have hresp : int32 (s.raft x.peer).term = (s.raft x.peer).term := int32_of_fits (hc.fitsTerm hap)
  have hnews : ∀ io, ((s.raft b).handleAppendResponse x ⟨int32 (s.raft x.peer).term, false⟩ io).1.term =
        int32 (s.raft x.peer).term ∧
      ((s.raft b).handleAppendResponse x ⟨int32 (s.raft x.peer).term, false⟩ io).1.state = .follower :=
    fun io => handleAppendResponse_newer (hlt.trans_eq hresp.symm) io
  obtain ⟨s', io, io', ho, hc', hprocs, hans, hra, hrb, hother, _⟩ := hc.trip hx hbp hap hne hT.symm
    (fun io => by
      rw [appendEntries_refuses hreq io]
      refine ⟨fun h => ?_, hc.terms _ hap, hc.indices _ hap⟩
      simp [acceptsEntries, Int.not_le.2 hreq] at h)
    fun io io' => by
      rw [appendEntries_refuses hreq io, (hnews io').1]
      exact hresp.le.trans (hc.terms _ hap)
  rw [appendEntries_refuses hreq io] at hra hrb
  obtain ⟨hterm, hstate⟩ := hnews io'
  refine ⟨s', ho, hc', .of_node hprocs hans (fun m hm => ?_) ?_ ?_,
    by rw [hrb]; exact hstate, by rw [hrb, hterm]; exact hresp⟩
  · by_cases hma : m = x.peer
    · rw [hma, hra]
    · exact hother m hm hma
  · rw [hrb]; exact (handleAppendResponse_data ..).toSameLog
  · rw [hrb, hterm, hresp]; exact hlt.le

/-- A round that has entries for a node of a newer term ends the office. -/
theorem Calm.informed {x : AppendArgs} (hc : Calm M B K s) (hp : Poised M s) (hbp : b ∈ s.procs) (hap : a ∈ s.procs)
    (hne : a ≠ b) (hname : a ≠ "") (hl : (s.raft b).state = .leader) (hx : (b, .heartbeatLoop) ∈ s.tasks)
    (hlt : (s.raft b).term < (s.raft a).term) (hto : (s.raft b).heartbeatTo (s.raft b).term b a = .batches x) :
    ∃ s', Onward M s s' ∧ Calm M B K s' ∧ Moved s s' b ∧ (s'.raft b).state = .follower ∧
      (s'.raft b).term = (s.raft a).term := by
  have hpeer : a ∈ M.peersOf b := List.mem_filter.2 ⟨hc.fixed.procs a hap, decide_eq_true hne⟩
  obtain ⟨s₁, ho₁, hc₁, hrest, _, hall⟩ := hc.round hbp hl hx (List.ne_nil_of_mem hpeer) fun p _ => hp.next.lives hl _ b p
  have hbatch : (b, batchTask x) ∈ s₁.tasks := hall a hpeer hname _ (by simp only [peerTask, hto])
  obtain ⟨_, _, hargs⟩ := heartbeatTo_batches hto
  have hxa : x.peer = a := by rw [hargs]
  have hxT : x.term = (s.raft b).term := by rw [hargs]
  -- the batch goes out at once, or is the first of a pipeline
  obtain ⟨s₂, y, ho₂, hc₂, hraft, hprocs, hans, hya, hyT, hy⟩ : ∃ s₂ y, Onward M s₁ s₂ ∧ Calm M B K s₂ ∧
      s₂.raft = s.raft ∧ s₂.procs = s.procs ∧ s₂.answers = s.answers ∧ y.peer = a ∧ y.term = (s.raft b).term ∧
      (b, .sendAppend y) ∈ s₂.tasks := by
    unfold batchTask at hbatch
    by_cases hnil : x.entries = []
    · rw [if_pos hnil] at hbatch
      exact ⟨s₁, x, .refl _, hc₁, hrest.raft, hrest.procs, hrest.answers, hxa, hxT, hbatch⟩
    · rw [if_neg hnil] at hbatch
      obtain ⟨s₂, ho₂, hc₂, hsp⟩ := hc₁.spawns [.sendAppend (currentBatch x), .pipeline (afterSent x)]
        (hrest.procs ▸ hbp) hbatch (fun i hi => by simp only [speaksInOffice, hi]) fun i => by
          simp only [runTask, if_neg hnil]
      exact ⟨s₂, currentBatch x, ho₂, hc₂, hsp.raft.trans hrest.raft, hsp.procs.trans hrest.procs,
        hsp.answers.trans hrest.answers, hxa, hxT, hsp.new _ List.mem_cons_self⟩
  subst hya
  rw [← hraft] at hyT hlt
  obtain ⟨s', ho, hc', hm, hstate, hterm⟩ := hc₂.hears (hprocs ▸ hbp) (hprocs ▸ hap) hne hy hyT hlt
  exact ⟨s', (ho₁.trans ho₂).trans ho, hc', (Moved.of_raft hprocs hans hraft b).trans hm, hstate, hraft ▸ hterm⟩

/-- A snapshot is sent, and its receiver is taken to have it. -/
theorem Calm.transfers {snap : Snapshot} (hc : Calm M B K s) (hbp : b ∈ s.procs) (hl : (s.raft b).state = .leader)
    (hx : (b, .sendSnapshot a) ∈ s.tasks) (hsnap : (s.raft b).snapshot = some snap)
    (hloop : (b, .heartbeatLoop) ∈ s.tasks) :
    ∃ s', Onward M s s' ∧ Calm M B K s' ∧ Moved s s' b ∧ s'.raft b = (s.raft b).snapshotSent a snap ∧
      (b, .heartbeatLoop) ∈ s'.tasks := by
  obtain ⟨s₁, ho₁, hc₁, hsp⟩ := hc.spawns [.sendSnapshotLoaded a snap] hbp hx
    (fun i hi => by simp only [speaksInOffice, hi]) fun i => by
      simp only [runTask, dropTask_raft, snapshotToSend, hsnap, Option.orElse_some]
  have hbp₁ : b ∈ s₁.procs := hsp.procs ▸ hbp
  have hloop₁ := hsp.kept _ hloop (by rintro ⟨⟩)
  -- the request goes out
  obtain ⟨i, hi⟩ := List.getElem?_of_mem (hsp.new _ List.mem_cons_self)
  have hs₂ : s₁.step (.run i .go {}) = some ((s₁.dropTask i).send b a
      (.installSnapshot ((s₁.raft b).installSnapshotRequest snap)) (.awaitSnapshot a snap)) := by
    simp only [step, hi, if_pos hbp₁]
    rfl
  have hspeak : s₁.speaksInOffice (.run i .go {}) = true := by
    simp only [speaksInOffice, hi, hsp.raft, hl, beq_self_eq_true]
  obtain ⟨ho₂, hc₂⟩ := (Orderly.go {} hspeak).rests hc₁ hs₂ rfl rfl
  have hloop₂ : (b, .heartbeatLoop) ∈ ((s₁.dropTask i).send b a
      (.installSnapshot ((s₁.raft b).installSnapshotRequest snap)) (.awaitSnapshot a snap)).tasks :=
    List.mem_append_left _ (mem_dropTask hi hloop₁ (by rintro ⟨⟩))
  have hwait : (b, .awaitSnapshot a snap s₁.requests.length) ∈ ((s₁.dropTask i).send b a
      (.installSnapshot ((s₁.raft b).installSnapshotRequest snap)) (.awaitSnapshot a snap)).tasks :=
    List.mem_append_right _ (List.mem_singleton_self _)
  have hm₂ : Moved s ((s₁.dropTask i).send b a
      (.installSnapshot ((s₁.raft b).installSnapshotRequest snap)) (.awaitSnapshot a snap)) b :=
    (hsp.moved b).trans (.of_raft (by rfl) (by rfl) (by rfl) b)
  have hraft₂ : ((s₁.dropTask i).send b a
      (.installSnapshot ((s₁.raft b).installSnapshotRequest snap)) (.awaitSnapshot a snap)).raft = s.raft := hsp.raft
  generalize (s₁.dropTask i).send b a
    (.installSnapshot ((s₁.raft b).installSnapshotRequest snap)) (.awaitSnapshot a snap) = s₂ at *
  -- whatever comes of it
  obtain ⟨j, hj⟩ := List.getElem?_of_mem hwait
  have hs₃ : s₂.step (.run j .fail {}) = some ((s₂.dropTask j).setRaft b ((s.raft b).snapshotSent a snap)) := by
    simp only [step, hj, if_pos (show b ∈ s₂.procs by rw [hm₂.procs]; exact hbp), runTask, dropTask_raft, hraft₂]
  have hnode : ((s₂.dropTask j).setRaft b ((s.raft b).snapshotSent a snap)).raft b = (s.raft b).snapshotSent a snap :=
    Function.update_self ..
  have hm₃ : Moved s₂ ((s₂.dropTask j).setRaft b ((s.raft b).snapshotSent a snap)) b := by
    refine .of_node (by rfl) (by rfl) (fun m hm => Function.update_of_ne hm _ _) ?_ ?_ <;> rw [hnode, hraft₂]
    · exact ⟨rfl, rfl, rfl, rfl⟩
    · exact le_refl _
  obtain ⟨ho₃, hc₃⟩ := (Orderly.lost {} hj).moved hc₂ hs₃ hm₃ (hm₂.procs ▸ hbp) (by rw [hnode]; exact hc.terms b hbp)
  exact ⟨_, (ho₁.trans ho₂).trans ho₃, hc₃, hm₂.trans hm₃, hnode, mem_dropTask hj hloop₂ (by rintro ⟨⟩)⟩

/-- A leader with a peer that knows a newer term loses its office. -/
theorem Calm.deposes (hc : Calm M B K s) (hp : Poised M s) (hbp : b ∈ s.procs) (hap : a ∈ s.procs) (hname : a ≠ "")
    (hl : (s.raft b).state = .leader) (hlt : (s.raft b).term < (s.raft a).term) :
    ∃ s', Onward M s s' ∧ Calm M B K s' ∧ Moved s s' b ∧ (s'.raft b).state = .follower ∧
      (s'.raft b).term = (s.raft a).term := by
  have hne : a ≠ b := by
    rintro rfl
    exact lt_irrefl _ hlt
  have hpeer : a ∈ M.peersOf b := List.mem_filter.2 ⟨hc.fixed.procs a hap, decide_eq_true hne⟩
  obtain ⟨s₁, ho₁, hc₁, hm₁, hv₁, hloop₁⟩ := hc.returns hp hbp hl
  have hp₁ := hp.onward ho₁
  have hbp₁ : b ∈ s₁.procs := hm₁.procs ▸ hbp
  have hap₁ : a ∈ s₁.procs := hm₁.procs ▸ hap
  have hl₁ : (s₁.raft b).state = .leader := hv₁.state.trans hl
  have hlt₁ : (s₁.raft b).term < (s₁.raft a).term := by rw [hv₁.term, hm₁.other a hne]; exact hlt
  cases hto : (s₁.raft b).heartbeatTo (s₁.raft b).term b a with
  | panic => exact absurd hto (hp₁.next.lives hl₁ _ _ _)
  | batches x =>
    obtain ⟨s', ho, hc', hm, hstate, hterm⟩ := hc₁.informed hp₁ hbp₁ hap₁ hne hname hl₁ hloop₁ hlt₁ hto
    exact ⟨s', ho₁.trans ho, hc', hm₁.trans hm, hstate, by rw [hterm, hm₁.other a hne]⟩
  | snapshot =>
    -- a peer behind the snapshot is first sent that
    obtain ⟨s₂, ho₂, hc₂, hrest, hloop₂, hall⟩ := hc₁.round hbp₁ hl₁ hloop₁ (List.ne_nil_of_mem hpeer)
      fun p _ => hp₁.next.lives hl₁ _ b p
    have hsend : (b, .sendSnapshot a) ∈ s₂.tasks := hall a hpeer hname _ (by simp only [peerTask, hto])
    obtain ⟨snap, hsnap⟩ : ∃ snap, (s₁.raft b).snapshot = some snap := by
      cases hs : (s₁.raft b).snapshot with
      | some snap => exact ⟨snap, rfl⟩
      | none =>
        exfalso
        unfold heartbeatTo behindSnapshot at hto
        simp only [hs, Bool.false_eq_true, if_false] at hto
        split at hto <;> cases hto
    obtain ⟨s₃, ho₃, hc₃, hm₃, hnode, hloop₃⟩ := hc₂.transfers (hrest.procs ▸ hbp₁) (hrest.raft ▸ hl₁) hsend
      (hrest.raft ▸ hsnap) hloop₂
    have hm : Moved s s₃ b := (hm₁.trans (hrest.moved b)).trans hm₃
    have ho : Onward M s s₃ := (ho₁.trans ho₂).trans ho₃
    rw [hrest.raft] at hnode
    have hi := hc₁.indexed b
    have hbase := hi.snapshot snap hsnap
    have hle := hi.base_le_last
    have hlast : (s₃.raft b).lastLogIndex = (s₁.raft b).lastLogIndex := by rw [hnode]; rfl
    have hbase₃ : (s₃.raft b).logBaseIndex = (s₁.raft b).logBaseIndex := by rw [hnode]; rfl
    obtain ⟨x, hto₃, _⟩ := heartbeatTo_within (hc₃.indexed b) (p := a) (k := snap.lastIncludedIndex + 1)
      (by rw [hnode]; exact if_pos (List.mem_singleton_self _)) (by rw [hbase₃]; omega) (by rw [hlast]; omega)
      (s₃.raft b).term b
    have hl₃ : (s₃.raft b).state = .leader := by rw [hnode]; exact hl₁
    have hlt₃ : (s₃.raft b).term < (s₃.raft a).term := by
      rw [hm.other a hne, hnode]
      exact hv₁.term.le.trans_lt hlt
    obtain ⟨s', ho', hc', hm', hstate, hterm⟩ := hc₃.informed (hp.onward ho) (hm.procs ▸ hbp) (hm.procs ▸ hap) hne hname
      hl₃ hloop₃ hlt₃ hto₃
    exact ⟨s', ho.trans ho', hc', hm.trans hm', hstate, by rw [hterm, hm.other a hne]⟩

end Cluster

end Mimori
