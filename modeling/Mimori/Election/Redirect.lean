/-
Where a node that is not the leader sends its clients. It names `leader`, which should never be the node
itself. A leader that a newer term deposes keeps its own name there, unless AppendEntries of the new leader
or the answer to TimeoutNow deposes it; in runs in which this does not happen to a leader the hint never
points back. Heartbeats and TimeoutNow requests do not do it either, since nobody sends them to itself.
-/
import Mimori.Election.Hint
import Mimori.Storage.Roster
import Mimori.Replication.Addressed

namespace Mimori

open Raft

namespace Raft

/-! ## Peers -/

/-- Node `n` is not among its peers, in memory and in the meta file. -/
structure Apart (n : NodeID) (r : Raft) : Prop where
  id : r.id = n
  peers : n ∉ r.peers
  saved : n ∉ r.savedMeta.peers

theorem apart_iff {n : NodeID} {r : Raft} : Apart n r ↔ Roster (fun peers => n ∉ peers) n r := by
  constructor
  · rintro ⟨hid, hp, hs⟩; exact ⟨hid, hp, hs⟩
  · rintro ⟨hid, hp, hs⟩; exact ⟨hid, hp, hs⟩

/-- A configuration entry does not make a node its own peer. -/
theorem not_mem_configured {n : NodeID} {peers : List NodeID} (h : n ∉ peers) (e : LogEntry) :
    n ∉ configured n peers e := by
  have hm : membership n e n = none ∨ membership n e n = some false := by
    unfold membership
    split
    · split
      · split
        · exact .inl rfl
        · exact .inr rfl
      · exact .inl rfl
    · exact .inl rfl
  intro hc
  have hread := contains_configured n peers e n
  rw [List.contains_iff_mem.2 hc] at hread
  rcases hm with hm | hm <;> rw [hm] at hread
  · exact h (List.contains_iff_mem.1 hread.symm)
  · cases hread

end Raft

namespace Cluster

variable {s s' : Cluster} {a : Action} {n : NodeID} {r : Raft}

/-- No node is among its own peers, whatever is proposed. -/
abbrev AllApart (s : Cluster) : Prop := Rostered (fun n peers => n ∉ peers) (fun _ => True) s

theorem allApart_iff : AllApart s ↔ ∀ n, Apart n (s.raft n) := by
  constructor
  · intro h n; exact apart_iff.2 (h.roster n)
  · intro h; exact ⟨⟨⟨by simp, by simp, by simp, by simp⟩, by simp⟩, fun n => apart_iff.1 (h n)⟩

theorem offers_true (a : Action) : Offers (fun _ => True) a := by
  cases a <;> exact trivial

/-! ## Requests that name their sender -/

/-- A goroutine of node `n` that sends AppendEntries or TimeoutNow does so in the name of `n` and to others. -/
def outward (n : NodeID) : Task → Bool
  | .heartbeatPeers _ _ leaderID rest => leaderID == n && !rest.contains n
  | .pipeline args => args.leaderID == n && args.peer != n
  | .sendAppend args => args.leaderID == n && args.peer != n
  | .awaitAppend args _ => args.leaderID == n && args.peer != n
  | .timeoutNow target => target != n
  | .awaitTimeoutNow target _ => target != n
  | _ => true

/-- The request does not name its receiver as the leader. -/
def namesOther (p : Packet) : Bool :=
  match p.req with
  | .appendEntries req => req.leaderId != p.dst
  | .timeoutNow req => req.leaderId != p.dst
  | _ => true

theorem step_transfer {target : NodeID} (hs : s.step (.transferLeadership n target) = some s') :
    s'.tasks = s.tasks ∨ target ≠ (s.raft n).id := by
  cases step_cases hs with
  | transferLeadership _ _ started hn he =>
    right
    rintro rfl
    unfold transferLeadershipInternal at he
    rw [if_pos rfl] at he
    split at he <;> cases he
  | transferRefused => exact .inl rfl

/-- What a node sends names itself, and nobody sends to itself. -/
structure Outward (s : Cluster) : Prop where
  apart : ∀ n, Apart n (s.raft n)
  task : ∀ n t, (n, t) ∈ s.tasks → outward n t = true
  request : ∀ p ∈ s.requests, namesOther p = true

/-- The requests of a round name its leader and go to the peer of their turn. -/
theorem outward_batches {ret : Caller} {T : Int} {leaderID q : NodeID} {rest : List NodeID} {r : Raft} {args : AppendArgs}
    (h : outward n (.heartbeatPeers ret T leaderID (q :: rest)) = true)
    (hb : r.heartbeatTo T leaderID q = .batches args) : outward n (.sendAppend args) = true := by
  obtain ⟨_, _, rfl⟩ := heartbeatTo_batches hb
  simp only [outward, List.contains_cons, Bool.not_or, Bool.and_eq_true] at h ⊢
  exact ⟨h.1, by rw [bne, Bool.beq_comm]; exact h.2.1⟩

theorem Outward.newTask (h : Outward s) (hs : s.step a = some s') {t : Task} (ht : (n, t) ∈ s'.tasks)
    (hnew : NewTask s a n t) : outward n t = true := by
  cases hnew with
  | next i c io _ u _ hx hsp =>
    have hold := h.task n u (List.mem_of_getElem? hx)
    cases hsp with
    | roundPeers ret => simp [outward, (h.apart n).id, (h.apart n).peers]
    | nextPeer ret T leaderID q rest =>
      simp only [outward, List.contains_cons, Bool.not_or, Bool.and_eq_true] at hold ⊢
      exact ⟨hold.1, hold.2.2⟩
    | peerHeartbeat ret T leaderID q rest args hb => exact outward_batches hold hb
    | peerBatches ret T leaderID q rest args hb => exact outward_batches hold hb
    | batch args => exact hold
    | batchSent args => simp only [outward, afterSent_leaderID, afterSent_peer]; exact hold
    | batchRefused args => exact hold
    | awaitAppend args => exact hold
    | awaitTimeoutNow target => exact hold
    | _ => rfl
  | transfer _ target =>
    rcases step_transfer hs with he | hne
    · rw [he] at ht; exact h.task n _ ht
    · rw [(h.apart n).id] at hne
      simpa [outward] using hne
  | _ => rfl

theorem Outward.step (h : Outward s) (hs : s.step a = some s') : Outward s' := by
  refine ⟨fun n => ?_, fun n t ht => ?_, fun p hp => ?_⟩
  · have hall := (allApart_iff.2 h.apart).step (fun _ _ => trivial) (fun _ _ e hp _ => not_mem_configured hp e)
      (offers_true a) hs
    exact allApart_iff.1 hall n
  · rcases step_tasks hs ht with hold | ⟨_, hnew⟩
    · exact h.task n t hold
    · exact h.newTask hs ht hnew
  · rcases step_packets hs hp with hp | ⟨_, hq⟩
    · exact h.request p hp
    · cases hq with
      | appendEntries i io m args hx =>
        have hold := h.task m _ (List.mem_of_getElem? hx)
        simp only [outward, Bool.and_eq_true, beq_iff_eq, bne_iff_ne] at hold
        show (args.leaderID != args.peer) = true
        rw [hold.1, bne_iff_ne]
        exact hold.2.symm
      | timeoutNow i io m target hx =>
        have hold := h.task m _ (List.mem_of_getElem? hx)
        simp only [outward, bne_iff_ne] at hold
        show ((s.raft m).id != target) = true
        rw [(h.apart m).id, bne_iff_ne]
        exact hold.symm
      | _ => rfl

/-! ## Conditions -/

/-- A node is started again with a list of peers that does not name it. -/
def startedApart (s : Cluster) (l : RestartAction) : Bool :=
  (s.restartDisk l).all fun x => !(peersGiven l).contains x.1

/-- A newer term that a request for a vote, a snapshot or an answer brings reaches nodes that do not take
themselves for the leader. -/
def leadersKept (s : Cluster) : RestartAction → Bool
  | .life (.step a) => (s.termBrought a).all fun x => decide (x.2 ≤ (s.raft x.1).term) || (s.raft x.1).leader != x.1
  | _ => true

def hintsKept (s : Cluster) (l : RestartAction) : Bool := s.startedApart l && s.leadersKept l

/-! ## The invariant -/

theorem Outward.restartStep (h : Outward s) {l : RestartAction} (hok : s.startedApart l = true)
    (hs : s.restartStep l = some s') : Outward s' := by
  have hall := (allApart_iff.2 h.apart).restartStep (fun _ _ => trivial) (fun _ _ e hp _ => not_mem_configured hp e)
    (fun a _ => offers_true a) (fun m d hd => by simpa [startedApart, hd] using hok) hs
  have hapart := allApart_iff.1 hall
  rcases restartStep_cases hs with ⟨a, _, hs⟩ | ⟨m, d, start, hd, rfl⟩
  · exact h.step hs
  · exact ⟨hapart, fun n t ht => h.task n t (restart_tasks ht), h.request⟩

/-- A removed node follows, and only a leader takes itself for the leader. -/
structure HintInv (s : Cluster) : Prop where
  outward : Outward s
  retired : ∀ n, (s.raft n).removedFromCluster = true → (s.raft n).state = .follower
  self : ∀ n, n ≠ "" → (s.raft n).leader = n → (s.raft n).state = .leader ∧ (s.raft n).removedFromCluster = false

theorem HintInv.retired_step (h : HintInv s) {l : RestartAction} (hs : s.restartStep l = some s') (n : NodeID)
    (hrem : (s'.raft n).removedFromCluster = true) : (s'.raft n).state = .follower := by
  by_cases hold : (s.raft n).removedFromCluster = true
  · rcases restartStep_cases hs with ⟨a, _, hs⟩ | ⟨m, d, start, _, rfl⟩
    · exact (step_retired hs ⟨hold, h.retired n hold⟩).follower
    · rw [restart_raft]
      split
      · exact (new_unled m _ d start).2
      · exact h.retired n hold
  · -- the mark is set by the entry that removes the node, or by a restart
    have hkept : (s'.raft n).removedFromCluster = (s.raft n).removedFromCluster → (s'.raft n).state = .follower :=
      fun he => absurd (he.symm.trans hrem) hold
    rcases restartStep_hint hs n with heq | ⟨a, _, hstep⟩ | ⟨_, hf⟩
    · exact hkept (by rw [heq])
    · cases hstep with
      | same _ hr => exact hkept hr.removed
      | heard _ _ _ _ _ _ hr => exact hkept hr.removed
      | deposed _ _ _ _ hr => exact hr.state
      | granted _ _ _ _ _ _ hr => exact hkept hr.removed
      | timeout _ _ _ _ hr => exact hkept hr.removed
      | asked _ _ _ _ _ _ hr =>
        rcases hr with ⟨hgone, _⟩ | ⟨_, hr⟩
        · exact absurd hgone hold
        · exact hkept hr.removed
      | elected _ _ _ _ hr => exact hkept hr.removed
      | transferred _ _ _ _ _ _ _ _ _ hkeep => exact hkept hkeep
      | left _ hr => exact hr.state
    · exact hf

theorem HintInv.self_step (h : HintInv s) {l : RestartAction} (hok : s.leadersKept l = true)
    (hs : s.restartStep l = some s') (hn : n ≠ "") (hself : (s'.raft n).leader = n) :
    (s'.raft n).state = .leader ∧ (s'.raft n).removedFromCluster = false := by
  have hstands : ∀ {r : Raft}, Stands (s.raft n) r → r.leader = n → (s.raft n).state ≠ .leader →
      (s.raft n).removedFromCluster = false → r.state = .leader ∧ r.removedFromCluster = false := by
    intro r hr hl hnot hrem
    cases hr with
    | asks _ hsame _ => exact absurd (h.self n hn (hsame.symm.trans hl)).1 hnot
    | wins hstate _ hkeep => exact ⟨hstate, hkeep.trans hrem⟩
  rcases restartStep_hint hs n with heq | ⟨a, rfl, hstep⟩ | ⟨hnone, _⟩
  · rw [heq] at hself ⊢
    exact h.self n hn hself
  · cases hstep with
    | same _ hr =>
      obtain ⟨h1, h2⟩ := h.self n hn ((congrArg Prod.fst hr.hint).symm.trans hself)
      exact ⟨hr.state.trans h1, hr.removed.trans h2⟩
    | heard call io src req hp _ hr =>
      -- no request names its receiver as leader
      have hother := h.outward.request _ (List.mem_of_getElem? hp)
      have hlead : (s'.raft n).leader = req.leaderId := congrArg Prod.fst hr.hint
      exact absurd (hlead.symm.trans hself) (bne_iff_ne.1 hother)
    | deposed _ T ha ht hr =>
      have hlead : (s.raft n).leader = n := (congrArg Prod.fst hr.hint).symm.trans hself
      simp only [leadersKept, ha, Option.all_some, Bool.or_eq_true, decide_eq_true_eq, bne_iff_ne] at hok
      rcases hok with hle | hne
      · omega
      · exact absurd hlead hne
    | granted call io src req hp hg hr =>
      have hlead : (s.raft n).leader = n := (congrArg Prod.fst hr.hint).symm.trans hself
      have hbrought : s.termBrought (.deliver call io) = some (n, req.term) := by
        simp only [termBrought, hp, hr.known, if_true]
      simp only [leadersKept, hbrought, Option.all_some, Bool.or_eq_true, decide_eq_true_eq, bne_iff_ne] at hok
      obtain ⟨h1, h2⟩ := h.self n hn hlead
      refine ⟨?_, hr.removed.trans h2⟩
      rcases hr.state with ⟨hlt, _⟩ | ⟨_, hsame⟩
      · rcases hok with hle | hne
        · omega
        · exact absurd hlead hne
      · exact hsame.trans h1
    | timeout _ _ hnot hrem hr => exact hstands hr hself hnot hrem
    | asked call io src req hp hl hr =>
      have hother := h.outward.request _ (List.mem_of_getElem? hp)
      have hne : (s.raft n).leader ≠ n := hl ▸ bne_iff_ne.1 hother
      rcases hr with ⟨_, _, hsame⟩ | ⟨hrem, hr⟩
      · exact absurd (hsame.symm.trans hself) hne
      · cases hr with
        | asks _ hsame _ => exact absurd (hsame.symm.trans hself) hne
        | wins hstate _ hkeep => exact ⟨hstate, hkeep.trans hrem⟩
    | elected _ _ _ hc hr =>
      -- a node that was removed has retired and is no candidate
      refine hstands hr hself (by rw [hc]; decide) ?_
      by_contra hrem
      rw [h.retired n (by simpa using hrem)] at hc
      cases hc
    | transferred i j io target call resp hx hr _ _ hh =>
      have htask := h.outward.task n _ (List.mem_of_getElem? hx)
      have hlead : (s'.raft n).leader = target := congrArg Prod.fst hh
      exact absurd (hlead.symm.trans hself) (bne_iff_ne.1 htask)
    | left _ hr => exact absurd (hself.symm.trans hr.leader) hn
  · exact absurd (hself.symm.trans hnone) hn

theorem HintInv.step (h : HintInv s) {l : RestartAction} (hok : s.hintsKept l = true)
    (hs : s.restartStep l = some s') : HintInv s' := by
  simp only [hintsKept, Bool.and_eq_true] at hok
  exact ⟨h.outward.restartStep hok.1 hs, fun n => h.retired_step hs n, fun n hn hl => h.self_step hok.2 hs hn hl⟩

theorem HintInv.start {procs : List NodeID} {peersOf : NodeID → List NodeID} (hp : ∀ n, n ∉ peersOf n)
    (snapshotter restorer : Bool) : HintInv (Cluster.start procs peersOf snapshotter restorer) := by
  refine ⟨⟨fun n => ⟨rfl, hp n, List.not_mem_nil⟩, fun n t ht => ?_, fun p hp => ?_⟩, fun n hrem => ?_, fun n hn hl => ?_⟩
  · cases ht
  · cases hp
  · cases hrem
  · exact absurd hl.symm hn

/-- Leader hints never point back: in every run in which processes die at any point and come back with peers
other than themselves, and in which no newer term deposes a leader except by AppendEntries or the answer to
TimeoutNow, a node that is not the leader never names itself as the leader. -/
theorem hint_never_self {h : List (Cluster × RestartAction)} {s : Cluster}
    (hr : restartMachine.Run (fun s l => s.hintsKept l = true) h s) {n : NodeID} (hn : n ≠ "")
    (hl : (s.raft n).isLeader = false) : (s.raft n).leader ≠ (s.raft n).id := by
  have hi : HintInv s := by
    refine Machine.Run.invariant ?_ (fun s l s' hi hok hs => hi.step hok hs) hr
    rintro s ⟨procs, peersOf, snapshotter, restorer, hp, rfl⟩
    exact .start (fun n => (hp n).2) snapshotter restorer
  rw [(hi.outward.apart n).id]
  intro hself
  obtain ⟨hlead, hrem⟩ := hi.self n hn hself
  simp [isLeader, hlead, hrem] at hl

/-- A leads term 1. C elects B in term 2, and B's heartbeat deposes A. -/
def deposedByHeartbeat : List Action :=
  electA ++ [.tick 2000, .electionTimeout "B" 1500 {}, .run 2 .go {}, .run 3 .go {}, .deliver 1 {}, .run 3 (.reply 1) {},
    .run 3 .go {}, .run 3 .go {}, .run 3 .go {}, .run 4 .go {}, .deliver 2 {}]

theorem hint_never_self_deposed :
    ∃ h s, restartMachine.Run (fun s l => s.hintsKept l = true) h s ∧ h.length = 17 ∧ (s.raft "A").isLeader = false ∧
      (s.raft "A").leader ≠ (s.raft "A").id := by
  obtain ⟨h, s, hr, hlen, hl⟩ := Machine.exists_run (S := restartMachine) (fun s l => s.hintsKept l = true)
    (fun h s => h.length = 17 ∧ (s.raft "A").isLeader = false) (machine_init threeNodes true true)
    (deposedByHeartbeat.map (.life ∘ .step)) (by decide +kernel)
  exact ⟨h, s, hr, hlen, hl, hint_never_self hr (by decide) hl⟩

/-- B asks A for its vote in term 2. -/
def deposedByRequest : List Action :=
  electA ++ [.tick 2000, .electionTimeout "B" 1500 {}, .run 2 .go {}, .run 2 .go {}, .deliver 1 {}]

/-- A is deposed and sends its clients to itself. -/
theorem deposed_leader_names_itself :
    ∃ h s, restartMachine.Run (fun _ _ => True) h s ∧ (s.raft "A").isLeader = false ∧
      (s.raft "A").leader = (s.raft "A").id ∧ (s.raft "A").term = 2 :=
  Machine.exists_run (S := restartMachine) (fun _ _ => True)
    (fun _ s => (s.raft "A").isLeader = false ∧ (s.raft "A").leader = (s.raft "A").id ∧ (s.raft "A").term = 2)
    (machine_init threeNodes true true) (deposedByRequest.map (.life ∘ .step)) (by decide +kernel)

end Cluster

end Mimori
