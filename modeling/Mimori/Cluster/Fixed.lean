/-
Fixed membership: in a run in which nobody proposes a configuration change, no log, message or
goroutine carries one, so every node keeps the peers it was started with and none is removed.
-/
import Mimori.Log.Change
import Mimori.Cluster.Runs

namespace Mimori

open Raft

namespace Raft

/-! ## Where entries come from -/

theorem mergeEntry_mem {b : Int} {log : List LogEntry} {e x : LogEntry} (h : x ∈ mergeEntry b log e) :
    x ∈ log ∨ x = e := by
  unfold mergeEntry at h
  simp only at h
  split at h
  · exact .inl h
  · split at h
    · split at h
      · rcases List.mem_append.1 h with h | h
        · exact .inl (List.mem_of_mem_take h)
        · exact .inr (List.mem_singleton.1 h)
      · exact .inl h
    · rcases List.mem_append.1 h with h | h
      · exact .inl h
      · exact .inr (List.mem_singleton.1 h)

theorem mergeEntries_mem {b : Int} {x : LogEntry} :
    ∀ {es log : List LogEntry}, x ∈ mergeEntries b log es → x ∈ log ∨ x ∈ es
  | [], _, h => .inl h
  | e :: es, log, h => by
    have hrest : x ∈ mergeEntry b log e ∨ x ∈ es := mergeEntries_mem h
    rcases hrest with h | h
    · rcases mergeEntry_mem h with h | h
      · exact .inl h
      · exact .inr (List.mem_cons.2 (.inl h))
    · exact .inr (List.mem_cons_of_mem _ h)

theorem compact_mem {log : List LogEntry} {index term : Int} {x : LogEntry} (h : x ∈ compact log index term) :
    x = boundary index term ∨ x ∈ log := by
  rcases List.mem_cons.1 h with h | h
  · exact .inl h
  · exact .inr (List.mem_filter.1 h).1

theorem entryAt_mem {r : Raft} {i : Int} {e : LogEntry} (h : r.entryAt i = some e) : e ∈ r.log := by
  unfold entryAt at h
  split at h
  · cases h
  · split at h
    · cases h
    · simp only at h
      split at h
      · cases h
      · exact List.mem_of_getElem? h

theorem pendingEntry_mem {r : Raft} {e : LogEntry} (h : r.pendingEntry = some e) : e ∈ r.log := by
  unfold pendingEntry at h
  split at h
  · exact entryAt_mem h
  · cases h

/-- The entries `sendHeartbeats` reads for a peer are entries of the log. -/
theorem heartbeatTo_mem {r : Raft} {T : Int} {leaderID p : NodeID} {args : AppendArgs}
    (h : r.heartbeatTo T leaderID p = .batches args) {x : LogEntry} (hx : x ∈ args.entries) :
    ∃ e ∈ r.log, x = e.toWire := by
  obtain ⟨_, _, rfl⟩ := heartbeatTo_batches h
  obtain ⟨e, he, rfl⟩ := List.mem_map.1 hx
  obtain ⟨i, _, hi⟩ := List.mem_filterMap.1 he
  exact ⟨e, entryAt_mem hi, rfl⟩

/-! ## Who is in the cluster -/

structure SameMembers (r r' : Raft) : Prop where
  id : r'.id = r.id
  peers : r'.peers = r.peers
  removed : r'.removedFromCluster = r.removedFromCluster

theorem SameVotes.members {r r' : Raft} (h : SameVotes r r') : SameMembers r r' := ⟨h.id, h.peers, h.removed⟩

theorem SameOrDown.members {r r' : Raft} (h : SameOrDown r r') : SameMembers r r' := by
  rcases h with h | h <;> exact ⟨h.id, h.peers, h.removed⟩

theorem SameMembers.trans {a b c : Raft} (h1 : SameMembers a b) (h2 : SameMembers b c) : SameMembers a c :=
  ⟨h2.id.trans h1.id, h2.peers.trans h1.peers, h2.removed.trans h1.removed⟩

theorem startElectionLocked_members (r : Raft) (io : Io) : SameMembers r (r.startElectionLocked io).1 := by
  have h := saveMeta_same { r with state := .candidate, term := r.term + 1, votedFor := r.id } io.saveVote
  have ho := startElectionLocked_outcome r io
  generalize r.startElectionLocked io = out at ho ⊢
  cases ho with
  | removed => exact (SameVotes.refl r).members
  | elected => exact ⟨h.id, h.peers, h.removed⟩
  | asks => exact ⟨h.id, h.peers, h.removed⟩

theorem handleVoteResponse_members (r : Raft) (resp : RequestVoteResponse) :
    SameMembers r (r.handleVoteResponse resp).1 := by
  rcases handleVoteResponse_cases r resp with ⟨h, _⟩ | ⟨_, _, r₁, rfl, ⟨h, _⟩ | h⟩
  · exact h.members
  · exact ⟨h.id, h.peers, h.removed⟩
  · rw [h]; exact ⟨rfl, rfl, rfl⟩

theorem requestVote_members (r : Raft) (req : RequestVoteRequest) (io : Io) :
    SameMembers r (r.requestVote req io).1 := by
  by_cases hg : (r.requestVote req io).2.voteGranted = true
  · obtain ⟨_, _, r₁, rfl, _, _, h⟩ := requestVote_granted hg
    exact (adoptTerm_move r req.term io).members.trans ⟨h.id, h.peers, h.removed⟩
  · exact (requestVote_refused (by simpa using hg)).members

theorem timeoutNow_members (r : Raft) (req : TimeoutNowRequest) (io : Io) :
    SameMembers r (r.timeoutNow req io).1 := by
  rcases timeoutNow_cases r req io with ⟨h, _⟩ | ⟨r₁, hm, h, _⟩ <;> rw [h]
  · exact (SameVotes.refl r).members
  · exact hm.members.trans (startElectionLocked_members r₁ io)

theorem afterApply_pending {P : Command → Prop} (hP : ∀ cmd, cmd.isConfig = false → P cmd) {r : Raft} (io : Io)
    (hlog : ∀ e ∈ r.log, P e.data) {e : LogEntry} (he : (r.afterApply io).pendingEntry = some e) : P e.data := by
  have hm := pendingEntry_mem he
  rcases afterApply_compacts r io with ⟨_, h⟩ | ⟨_, snap, h⟩
  · rw [h.log] at hm; exact hlog e hm
  · rw [h.compacts.log] at hm
    rcases compact_mem hm with rfl | hm
    · exact hP _ rfl
    · exact hlog e hm

/-- A turn of the applier on a log without configuration entries. -/
theorem afterApply_takeNext_same {r : Raft} (io : Io) (hlog : ∀ e ∈ r.log, e.data.isConfig = false) :
    SameVotes r ((r.afterApply io).takeNext io).1 :=
  (afterApply_rest r io).toSameVotes.trans (takeNext_same _ _ fun _ he => afterApply_pending (fun _ hc => hc) io hlog he)

end Raft

namespace Cluster

/-- A step of a node is one of its applier's sections, or no such section. -/
theorem NodeStep.applier_cases {s : Cluster} {a : Action} {n : NodeID} {r : Raft} (h : NodeStep s a n r) :
    (∀ io, a ≠ .applierTake n io ∧ a ≠ .applierDone n io) ∨
      (∃ io, a = .applierTake n io ∧ r = ((s.raft n).takeNext (s.envOf n io)).1) ∨
      ∃ io, a = .applierDone n io ∧ r = (((s.raft n).afterApply (s.envOf n io)).takeNext (s.envOf n io)).1 := by
  cases h with
  | applierTake _ io => exact .inr (.inl ⟨io, rfl, rfl⟩)
  | applierDone _ io => exact .inr (.inr ⟨io, rfl, rfl⟩)
  | _ => exact .inl fun io => ⟨fun h => (by cases h), fun h => (by cases h)⟩

/-- Only the applier changes the configuration of a node. -/
theorem NodeStep.members_other {s : Cluster} {a : Action} {n : NodeID} {r : Raft} (h : NodeStep s a n r)
    (ha : ∀ io, a ≠ .applierTake n io ∧ a ≠ .applierDone n io) : SameMembers (s.raft n) r := by
  cases h with
  | electionTick _ timeout io =>
    rcases electionTick_cases (s.raft n) timeout (s.envOf n io) with h | h <;> rw [h]
    · exact (SameVotes.refl _).members
    · exact startElectionLocked_members ..
  | requestVote => exact requestVote_members ..
  | appendEntries => exact (appendEntries_move ..).members
  | installSnapshot => exact (installSnapshot_move ..).members
  | timeoutNow => exact timeoutNow_members ..
  | voteAnswer => exact handleVoteResponse_members ..
  | appendAnswer => exact (handleAppendResponse_move ..).members
  | transferAnswer => exact (handleTimeoutNowResponse_move ..).members
  | snapshotAnswer => exact (snapshotSent_same ..).members
  | alone => exact (updateCommitIndexLocked_same _).members
  | wait => exact (appliedWait_rest ..).members
  | propose => exact (propose_rest ..).members
  | proposeTask => exact (propose_rest ..).members
  | configChange => exact (proposeConfigChange_rest ..).members
  | forceSnapshot => exact (createSnapshotLocked_rest ..).members
  | applierTake _ io => exact absurd rfl (ha io).1
  | applierDone _ io => exact absurd rfl (ha io).2

theorem NodeStep.id {s : Cluster} {a : Action} {n : NodeID} {r : Raft} (h : NodeStep s a n r) :
    r.id = (s.raft n).id := by
  rcases h.applier_cases with ha | ⟨io, _, rfl⟩ | ⟨io, _, rfl⟩
  · exact (h.members_other ha).id
  · exact (takeNext_reconfigured ..).id
  · exact (takeNext_reconfigured ..).id.trans (afterApply_rest ..).id

theorem step_touched {s s' : Cluster} {a : Action} (hs : s.step a = some s') (n : NodeID) :
    n ∈ s.procs ∨ s'.raft n = s.raft n := by
  rcases step_at hs n with heq | ⟨hn, _⟩
  · exact .inr heq
  · exact .inl hn

theorem step_id {s s' : Cluster} {a : Action} (hs : s.step a = some s') (n : NodeID) : (s'.raft n).id = (s.raft n).id := by
  rcases step_at hs n with heq | ⟨_, hm⟩
  · rw [heq]
  · exact hm.id

theorem NodeStep.members {s : Cluster} {a : Action} {n : NodeID} {r : Raft} (h : NodeStep s a n r)
    (hlog : ∀ e ∈ (s.raft n).log, e.data.isConfig = false) : SameMembers (s.raft n) r := by
  rcases h.applier_cases with ha | ⟨io, _, rfl⟩ | ⟨io, _, rfl⟩
  · exact h.members_other ha
  · exact (takeNext_same _ _ fun e he => hlog e (pendingEntry_mem he)).members
  · exact (afterApply_takeNext_same _ hlog).members

/-! ## Commands on their way -/

/-- Every command in a log or on its way to one meets `P`. -/
structure Carries (P : Command → Prop) (s : Cluster) : Prop where
  log : ∀ n, ∀ e ∈ (s.raft n).log, P e.data
  propose : ∀ n cmd, (n, .propose cmd) ∈ s.tasks → P cmd
  args : ∀ n t args, (n, t) ∈ s.tasks → argsOf t = some args → ∀ e ∈ args.entries, P e.data
  request : ∀ p ∈ s.requests, ∀ req, p.req = .appendEntries req → ∀ e ∈ req.entries, P e.data

/-- What an action proposes meets `P`. -/
def Offers (P : Command → Prop) : Action → Prop
  | .propose _ cmd _ => P cmd
  | .configChange _ type nodeID _ => P (.configChange type.name nodeID)
  | _ => True

section Carries

-- a condition on configuration changes only
variable {P : Command → Prop} {s s' : Cluster} {a : Action} (hP : ∀ cmd, cmd.isConfig = false → P cmd)

include hP

theorem Carries.logStep (h : Carries P s) (ha : Offers P a) {n : NodeID} {r : Raft} (hs : LogStep s n r a) :
    ∀ e ∈ r.log, P e.data := by
  intro e he
  cases hs with
  | same _ hl => rw [hl.log] at he; exact h.log n e he
  | append _ cmd hl _ hc =>
    rw [hl.log, List.mem_append, List.mem_singleton] at he
    rcases he with he | rfl
    · exact h.log n e he
    · cases hc with
      | propose => exact ha
      | client i io _ _ hx => exact h.propose n cmd (List.mem_of_getElem? hx)
      | configChange => exact ha
  | merge call io src req hp _ hl =>
    rw [hl.log] at he
    rcases mergeEntries_mem he with he | he
    · exact h.log n e he
    · exact h.request _ (List.mem_of_getElem? hp) req rfl e he
  | install call io src req hp _ _ hl =>
    rw [hl.log] at he
    rcases compact_mem he with rfl | he
    · exact hP _ rfl
    · exact h.log n e he
  | snapshot _ snap hl =>
    rw [hl.compacts.log] at he
    rcases compact_mem he with rfl | he
    · exact hP _ rfl
    · exact h.log n e he

omit hP in
theorem Carries.newArgs (h : Carries P s) {n : NodeID} {args : AppendArgs} (ha : ArgsFrom s n a args) :
    ∀ e ∈ args.entries, P e.data := by
  intro e he
  cases ha with
  | read i io ret T leaderID p rest _ hx hb =>
    obtain ⟨x, hx, rfl⟩ := heartbeatTo_mem hb he
    exact h.log n x hx
  | batch _ args hx => exact h.args n _ args hx rfl e (List.mem_of_mem_take he)
  | sent _ args hx =>
    rw [afterSent_entries] at he
    exact h.args n _ args hx rfl e (List.mem_of_mem_drop he)
  | refused i io args hx => exact h.args n _ args (List.mem_of_getElem? hx) rfl e (List.mem_of_mem_drop he)
  | same _ _ hx => exact h.args n _ args hx rfl e he

omit hP in
theorem NewTask.propose {n : NodeID} {cmd : Command} (ht : NewTask s a n (.propose cmd)) :
    cmd.isConfig = false := by
  cases ht with
  | next i c io _ t _ hx hsp =>
    cases hsp with
    | accepted req _ hc =>
      cases cmd <;> first | rfl | cases hc

theorem Carries.step (h : Carries P s) (ha : Offers P a) (hs : s.step a = some s') : Carries P s' := by
  refine ⟨fun n => ?_, fun n cmd ht => ?_, fun n t args ht hargs => ?_, fun p hp req hreq => ?_⟩
  · rcases step_at hs n with heq | ⟨_, hm⟩
    · rw [heq]; exact h.log n
    · exact h.logStep hP ha hm.logStep
  · rcases step_tasks hs ht with ht | ⟨_, ht⟩
    · exact h.propose n cmd ht
    · exact hP cmd ht.propose
  · rcases step_tasks hs ht with ht | ⟨_, ht⟩
    · exact h.args n t args ht hargs
    · exact h.newArgs (ht.args hargs)
  · rcases step_packets hs hp with hp | ⟨_, hq⟩
    · exact h.request p hp req hreq
    · cases hq with
      | appendEntries i io n args hx =>
        cases hreq; exact h.args n _ args (List.mem_of_getElem? hx) rfl
      | _ => cases hreq

theorem Carries.start (procs : List NodeID) (peersOf : NodeID → List NodeID) (snapshotter restorer : Bool) :
    Carries P (Cluster.start procs peersOf snapshotter restorer) := by
  refine ⟨fun n e he => ?_, fun n cmd h => ?_, fun n t args h => ?_, fun p h => ?_⟩
  · rw [start_raft] at he
    rw [List.mem_singleton.1 he]
    exact hP _ rfl
  · cases h
  · cases h
  · cases h

end Carries

/-! ## No configuration entries -/

/-- No configuration entry is in a log or on its way to one. -/
structure NoConfig (s : Cluster) : Prop where
  log : ∀ n, ∀ e ∈ (s.raft n).log, e.data.isConfig = false
  propose : ∀ n cmd, (n, .propose cmd) ∈ s.tasks → cmd.isConfig = false
  args : ∀ n t args, (n, t) ∈ s.tasks → argsOf t = some args → ∀ e ∈ args.entries, e.data.isConfig = false
  request : ∀ p ∈ s.requests, ∀ req, p.req = .appendEntries req → ∀ e ∈ req.entries, e.data.isConfig = false

theorem noConfig_iff {s : Cluster} : NoConfig s ↔ Carries (fun cmd => cmd.isConfig = false) s := by
  constructor
  · rintro ⟨hlog, hprop, hargs, hreq⟩; exact ⟨hlog, hprop, hargs, hreq⟩
  · rintro ⟨hlog, hprop, hargs, hreq⟩; exact ⟨hlog, hprop, hargs, hreq⟩

theorem noConfigChange_offers {a : Action} (ha : noConfigChange a = true) :
    Offers (fun cmd => cmd.isConfig = false) a := by
  cases a with
  | propose n cmd io => simpa [noConfigChange, Offers] using ha
  | configChange => cases ha
  | _ => exact trivial

theorem NoConfig.step {s s' : Cluster} {a : Action} (h : NoConfig s) (ha : noConfigChange a = true)
    (hs : s.step a = some s') : NoConfig s' :=
  noConfig_iff.2 ((noConfig_iff.1 h).step (fun _ hc => hc) (noConfigChange_offers ha) hs)

theorem NoConfig.start (procs : List NodeID) (peersOf : NodeID → List NodeID) (snapshotter restorer : Bool) :
    NoConfig (Cluster.start procs peersOf snapshotter restorer) :=
  noConfig_iff.2 (.start (fun _ hc => hc) ..)

/-! ## The invariant -/

structure Fixed (M : Members) (s : Cluster) : Prop where
  procs : ∀ n ∈ s.procs, n ∈ M.ids
  id : ∀ n, (s.raft n).id = n
  peers : ∀ n, (s.raft n).peers = M.peersOf n
  removed : ∀ n, (s.raft n).removedFromCluster = false
  log : ∀ n, ∀ e ∈ (s.raft n).log, e.data.isConfig = false
  propose : ∀ n cmd, (n, .propose cmd) ∈ s.tasks → cmd.isConfig = false
  args : ∀ n t args, (n, t) ∈ s.tasks → argsOf t = some args → ∀ e ∈ args.entries, e.data.isConfig = false
  request : ∀ p ∈ s.requests, ∀ req, p.req = .appendEntries req → ∀ e ∈ req.entries, e.data.isConfig = false

theorem Fixed.noConfig {M : Members} {s : Cluster} (h : Fixed M s) : NoConfig s := ⟨h.log, h.propose, h.args, h.request⟩

theorem Fixed.start (M : Members) (snapshotter restorer : Bool) :
    Fixed M (Cluster.start M.ids M.peersOf snapshotter restorer) := by
  obtain ⟨hlog, hprop, hargs, hreq⟩ := NoConfig.start M.ids M.peersOf snapshotter restorer
  exact ⟨fun n hn => hn, fun n => rfl, fun n => rfl, fun n => rfl, hlog, hprop, hargs, hreq⟩

variable {M : Members} {s s' : Cluster} {a : Action}

theorem step_procs (hs : s.step a = some s') : ∀ n ∈ s'.procs, n ∈ s.procs := by
  intro n hn
  cases step_cases hs with
  | run i c io m t _ hx _ ht =>
    cases ht with
    | peerPanic => exact (List.mem_filter.1 hn).1
    | _ => exact hn
  | deliver call io p =>
    obtain ⟨src, m, req⟩ := p
    cases req <;> exact hn
  | _ => exact hn

theorem Fixed.step (h : Fixed M s) (ha : noConfigChange a = true) (hs : s.step a = some s') : Fixed M s' := by
  have hmem : ∀ n, SameMembers (s.raft n) (s'.raft n) := by
    intro n
    rcases step_at hs n with heq | ⟨_, hm⟩
    · rw [heq]; exact (SameVotes.refl _).members
    · exact hm.members (h.log n)
  obtain ⟨hlog, hprop, hargs, hreq⟩ := h.noConfig.step ha hs
  exact ⟨fun n hn => h.procs n (step_procs hs n hn), fun n => (hmem n).id.trans (h.id n),
    fun n => (hmem n).peers.trans (h.peers n), fun n => (hmem n).removed.trans (h.removed n), hlog, hprop, hargs, hreq⟩

end Cluster

end Mimori
