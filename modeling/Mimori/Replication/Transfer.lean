/-
Snapshot transfer. `sendSnapshotToFollower` looks neither at the error nor at the answer of its call: whatever came of it, it
records the index of the snapshot for the peer. What it records was installed when the answer comes while the node
still leads the term it sent the snapshot in, and does not carry a newer term.
-/
import Mimori.Log.History

namespace Mimori

open Raft

theorem Raft.installSnapshot_respTerm (r : Raft) (req : InstallSnapshotRequest) (io : Io) :
    (r.installSnapshot req io).2.2.term = int32 r.term := by
  unfold installSnapshot
  simp only
  split <;> rfl

namespace Cluster

/-! ## The end of a transfer -/

/-- The end of `sendSnapshotToFollower` comes in time: its call is answered, not with a newer term, while the node
leads the term of the request and has the peer, for which it has recorded nothing beyond the snapshot. After an error all
is recorded already. -/
def timelySnapshot (s : Cluster) (n p : NodeID) (snap : Snapshot) (call : Nat) : Choice → Bool
  | .reply j =>
    match s.requests[call]?, s.replyTo call j with
    | some ⟨_, _, .installSnapshot req⟩, some (.installSnapshot resp) =>
      (s.raft n).state == .leader && req.term == (s.raft n).term && decide (resp.term ≤ (s.raft n).term) &&
        (s.raft n).peers.contains p && decide ((s.raft n).matchIndex.get p ≤ snap.lastIncludedIndex) &&
        decide (Fits snap.lastIncludedIndex) && decide (Fits snap.lastIncludedTerm)
    | _, _ => false
  | _ => (s.raft n).matchIndex p == some snap.lastIncludedIndex &&
      (s.raft n).nextIndex p == some (snap.lastIncludedIndex + 1)

/-- In an earlier step node `p` handled request `call`, and came out of it in term `T` with this snapshot as the base of
its log. -/
def Installed (h : List (Cluster × Action)) (call : Nat) (p : NodeID) (T : Int) (snap : Snapshot) : Prop :=
  ∃ x ∈ h, ∃ io x', x.2 = .deliver call io ∧ x.1.step x.2 = some x' ∧ (x'.raft p).term = T ∧
    (x'.raft p).snapshot = some snap ∧ (x'.raft p).logBaseIndex = snap.lastIncludedIndex

variable {s s' : Cluster} {a : Action} {h : List (Cluster × Action)} {n p : NodeID} {snap : Snapshot} {call : Nat}

/-- However the call comes out, the index is recorded. -/
theorem step_snapshotSent {i : Nat} {c : Choice} {io : Io} (hs : s.step (.run i c io) = some s')
    (hx : s.tasks[i]? = some (n, .awaitSnapshot p snap call)) :
    s'.raft n = (s.raft n).snapshotSent p snap ∧
      (c = .fail ∨ ∃ j resp, c = .reply j ∧ s.replyTo call j = some (.installSnapshot resp)) := by
  obtain ⟨_, hrun⟩ := step_runTask hs hx
  cases c with
  | go => cases hrun
  | fail =>
    cases hrun
    exact ⟨setRaft_raft_self .., .inl rfl⟩
  | reply j =>
    simp only [runTask] at hrun
    split at hrun
    · rename_i resp hresp
      cases hrun
      exact ⟨setRaft_raft_self .., .inr ⟨j, resp, rfl, hresp⟩⟩
    · cases hrun

/-! ## Requests and answers -/

theorem NewTask.awaitSnapshot (hs : s.step a = some s') (hnew : NewTask s a n (.awaitSnapshot p snap call)) :
    s'.requests[call]? = some ⟨n, p, .installSnapshot ((s.raft n).installSnapshotRequest snap)⟩ := by
  cases hnew with
  | next i c io _ u _ hx hsp =>
    cases hsp with
    | awaitSnapshot =>
      obtain ⟨_, hrun⟩ := step_runTask hs hx
      simp only [runTask] at hrun
      cases hrun
      rw [send_requests]
      exact List.getElem?_concat_length

/-- A goroutine in the middle of a transfer has sent its snapshot, and an answer was given by the node that the request
went to. -/
structure TransferInv (h : List (Cluster × Action)) (s : Cluster) : Prop where
  await : ∀ n p snap call, (n, .awaitSnapshot p snap call) ∈ s.tasks → ∃ T leaderID,
    s.requests[call]? = some ⟨n, p, .installSnapshot
      ⟨T, leaderID, int32 snap.lastIncludedIndex, int32 snap.lastIncludedTerm, snap.data⟩⟩
  answered : ∀ call resp, (call, .installSnapshot resp) ∈ s.replies → ∃ x ∈ h, ∃ io src p req,
    x.2 = .deliver call io ∧ x.1.requests[call]? = some ⟨src, p, .installSnapshot req⟩ ∧
      s.requests[call]? = some ⟨src, p, .installSnapshot req⟩ ∧
      resp = ((x.1.raft p).installSnapshot req (x.1.envOf p io)).2.2

theorem TransferInv.step (hi : TransferInv h s) (hs : s.step a = some s') : TransferInv ((s, a) :: h) s' := by
  constructor
  · intro n p snap call ht
    rcases step_tasks hs ht with ht | ⟨_, ht⟩
    · obtain ⟨T, leaderID, hreq⟩ := hi.await n p snap call ht
      exact ⟨T, leaderID, step_request_some hs hreq⟩
    · exact ⟨_, _, ht.awaitSnapshot hs⟩
  · intro call resp hr
    rcases step_reply_new hs hr with hr | hr
    · obtain ⟨x, hx, io, src, p, req, ha, hp, hreq, hresp⟩ := hi.answered call resp hr
      exact ⟨x, List.mem_cons_of_mem _ hx, io, src, p, req, ha, hp, step_request_some hs hreq, hresp⟩
    · generalize hu : Response.installSnapshot resp = u at hr
      cases hr with
      | installSnapshot call io src p req hp =>
        cases hu
        exact ⟨(s, .deliver call io), List.mem_cons_self, io, src, p, req, rfl, hp, step_request_some hs hp, rfl⟩
      | _ => cases hu

theorem TransferInv.run (hr : machine.Run (fun s _ => s.termsFit = true) h s) : TransferInv h s := by
  refine hr.history ?_ fun h s a s' _ hi _ hs => hi.step hs
  rintro s ⟨procs, peersOf, snapshotter, restorer, _, rfl⟩
  constructor
  · intro n p snap call ht
    cases ht
  · intro call resp hr
    cases hr

/-! ## What was installed -/

/-- An answer without a newer term comes from a node that has installed the snapshot in the term of the request. -/
theorem TransferInv.installed (hr : machine.Run (fun s _ => s.termsFit = true) h s) (hi : TransferInv h s)
    (ht : (n, .awaitSnapshot p snap call) ∈ s.tasks) {req : InstallSnapshotRequest} {src dst : NodeID}
    (hreq : s.requests[call]? = some ⟨src, dst, .installSnapshot req⟩) {resp : InstallSnapshotResponse}
    (hresp : (call, .installSnapshot resp) ∈ s.replies) (hterm : resp.term ≤ req.term)
    (hfit : Fits snap.lastIncludedIndex ∧ Fits snap.lastIncludedTerm) : Installed h call p req.term snap := by
  obtain ⟨T, leaderID, hsent⟩ := hi.await n p snap call ht
  obtain ⟨x, hx, io, src', p', req', ha, hp, hreq', rfl⟩ := hi.answered call resp hresp
  rw [hsent] at hreq hreq'
  cases hreq
  cases hreq'
  obtain ⟨_, hxfit, x', hstep⟩ := hr.past hx
  have hdst : p ∈ x.1.procs ∧ x' = x.1.handle call ⟨n, p, .installSnapshot
      ⟨T, leaderID, int32 snap.lastIncludedIndex, int32 snap.lastIncludedTerm, snap.data⟩⟩ io := by
    rw [ha] at hstep
    obtain ⟨q, hq, hmem, hx'⟩ := step_deliver hstep
    rw [hp] at hq
    cases hq
    exact ⟨hmem, hx'⟩
  -- the answer carries the term the peer had before, so the request was not stale
  have hold : (x.1.raft p).term ≤ T := by
    have hfits : Fits (x.1.raft p).term := of_decide_eq_true (List.all_eq_true.1 hxfit p hdst.1)
    rw [installSnapshot_respTerm, int32_of_fits hfits] at hterm
    exact hterm
  refine ⟨x, hx, io, x', ha, hstep, ?_⟩
  have hnode : x'.raft p = ((x.1.raft p).installSnapshot
      ⟨T, leaderID, int32 snap.lastIncludedIndex, int32 snap.lastIncludedTerm, snap.data⟩ (x.1.envOf p io)).1 := by
    rw [hdst.2]
    exact setRaft_raft_self ..
  rw [hnode]
  rcases installSnapshot_compacts (x.1.raft p)
    ⟨T, leaderID, int32 snap.lastIncludedIndex, int32 snap.lastIncludedTerm, snap.data⟩ (x.1.envOf p io) with h | ⟨_, hc, _⟩
  · exact absurd hold (by simpa using h.1)
  · refine ⟨installSnapshot_term hold, ?_, ?_⟩
    · rw [hc.snapshot, int32_of_fits hfit.1, int32_of_fits hfit.2]
    · rw [hc.base]
      exact int32_of_fits hfit.1

/-- Snapshot sending records only what was installed: in every run in which the terms fit the messages, if the end of
`sendSnapshotToFollower` comes in time, then after an answer the peer is still one and has installed the snapshot in
the leader's term, what is recorded for it is not lowered, after an error nothing changes, and after an
answer with a higher term the node steps down. -/
theorem snapshot_recorded_installed {i : Nat} {c : Choice} {io : Io}
    (hr : machine.Run (fun s _ => s.termsFit = true) h s) (hx : s.tasks[i]? = some (n, .awaitSnapshot p snap call))
    (hok : s.timelySnapshot n p snap call c = true) (hs : s.step (.run i c io) = some s') :
    (c ≠ .fail → p ∈ (s'.raft n).peers ∧ (s'.raft n).state = .leader ∧ Installed h call p (s'.raft n).term snap) ∧
      (s.raft n).matchIndex.get p ≤ (s'.raft n).matchIndex.get p ∧
      (c = .fail → (s'.raft n).nextIndex = (s.raft n).nextIndex ∧ (s'.raft n).matchIndex = (s.raft n).matchIndex) ∧
      ∀ j resp, c = .reply j → s.replyTo call j = some (.installSnapshot resp) → (s.raft n).term < resp.term →
        (s'.raft n).state = .follower ∧ (s'.raft n).term = resp.term ∧ (s'.raft n).votedFor = "" := by
  obtain ⟨hnode, hc⟩ := step_snapshotSent hs hx
  have hmatch : ((s.raft n).snapshotSent p snap).matchIndex.get p = snap.lastIncludedIndex := by
    simp [snapshotSent, IndexMap.get, IndexMap.setAll]
  rw [hnode]
  rcases hc with rfl | ⟨j, resp, rfl, hresp⟩
  · -- the call failed, and the end writes what is there already
    simp only [timelySnapshot, Bool.and_eq_true, beq_iff_eq] at hok
    have hget : (s.raft n).matchIndex.get p = snap.lastIncludedIndex := by
      rw [IndexMap.get, hok.1]
      rfl
    have hsame : ∀ (m : IndexMap) (v : Int), m p = some v → m.setAll [p] v = m := by
      intro m v hv
      funext q
      unfold IndexMap.setAll
      split
      · rename_i hq
        rw [List.mem_singleton.1 hq, hv]
      · rfl
    refine ⟨fun hne => absurd rfl hne, by rw [hmatch, hget], fun _ => ⟨hsame _ _ hok.2, hsame _ _ hok.1⟩, ?_⟩
    intro j resp hj
    cases hj
  · have htask := List.mem_of_getElem? hx
    have hinv := TransferInv.run hr
    obtain ⟨T, leaderID, hsent⟩ := hinv.await n p snap call htask
    simp only [timelySnapshot, hsent, hresp, Bool.and_eq_true, beq_iff_eq, decide_eq_true_eq] at hok
    obtain ⟨⟨⟨⟨⟨⟨hl, hT⟩, hterm⟩, hpeer⟩, hle⟩, hidx⟩, hlt⟩ := hok
    refine ⟨fun _ => ⟨List.contains_iff_mem.1 hpeer, hl, ?_⟩, by rw [hmatch]; exact hle, fun hj => (by cases hj), ?_⟩
    · have := hinv.installed hr htask hsent (replyTo_mem hresp) (by rw [hT]; exact hterm) ⟨hidx, hlt⟩
      rwa [hT] at this
    · intro j' resp' hj hr' hlt'
      cases hj
      rw [hresp] at hr'
      cases hr'
      omega

/-- A takes a snapshot at the first of two entries that B has, and sends it to C. -/
def snapshotToC : List Action :=
  electA ++ [.propose "A" (.put [1] [2]) {}, .propose "A" (.put [3] [4]) {}, .run 1 .go {}, .run 1 .go {},
    .run 1 .go {}, .run 1 .go {}, .run 1 .go {}, .run 3 .go {}, .deliver 1 {}, .run 4 (.reply 1) {},
    .applierTake "A" {}, .forceSnapshot "A" {}, .run 1 .go {}, .run 3 .go {}, .run 3 .go {}, .run 3 .go {},
    .run 3 .go {}, .run 5 .go {}, .run 5 .go {}]

/-- C installs it and A gets the answer. -/
theorem snapshot_recorded_installed_snapshotToC :
    ∃ h s s', machine.Run (fun s _ => s.termsFit = true) h s ∧ s.step (.run 5 (.reply 2) {}) = some s' ∧
      Installed h 2 "C" 1 ⟨1, 1, .state []⟩ ∧ (s'.raft "A").matchIndex.get "C" = 1 := by
  obtain ⟨h, s, hr, ⟨hx, hok, hterm⟩, hs⟩ := Machine.exists_run (S := machine) (fun s _ => s.termsFit = true)
    (fun _ s => (s.tasks[5]? = some ("A", .awaitSnapshot "C" ⟨1, 1, .state []⟩ 2) ∧
      s.timelySnapshot "A" "C" ⟨1, 1, .state []⟩ 2 (.reply 2) = true ∧ (s.raft "A").term = 1) ∧
      (s.step (.run 5 (.reply 2) {})).isSome = true)
    (machine_init threeNodes true false) (snapshotToC ++ [.deliver 2 {}]) (by decide +kernel)
  obtain ⟨s', hs'⟩ := Option.isSome_iff_exists.1 hs
  obtain ⟨hinst, _⟩ := snapshot_recorded_installed hr hx hok hs'
  have hnode := (step_snapshotSent hs' hx).1
  refine ⟨h, s, s', hr, hs', ?_, ?_⟩
  · have := (hinst (by decide)).2.2
    rw [hnode] at this
    rwa [show ((s.raft "A").snapshotSent "C" ⟨1, 1, .state []⟩).term = 1 from hterm] at this
  · rw [hnode]
    rfl

/-- The call fails, or C, which has gone on to term 2, refuses the snapshot and says so: in both cases A records that C
has it, and A stays the leader of term 1. -/
theorem snapshot_recorded_unseen :
    (∃ h s, machine.Run (fun s _ => s.termsFit = true) h s ∧ h.head?.map Prod.snd = some (.run 5 .fail {}) ∧
      (s.raft "C").log = [boundary 0 0] ∧ (s.raft "C").snapshot = none ∧ (s.raft "A").matchIndex.get "C" = 1 ∧
      (s.raft "A").nextIndex.get "C" = 2) ∧
    ∃ h s, machine.Run (fun s _ => s.termsFit = true) h s ∧ h.head?.map Prod.snd = some (.run 5 (.reply 2) {}) ∧
      s.replies[2]? = some (2, .installSnapshot ⟨2⟩) ∧ (s.raft "C").snapshot = none ∧
      (s.raft "A").matchIndex.get "C" = 1 ∧ (s.raft "A").state = .leader ∧ (s.raft "A").term = 1 := by
  constructor
  · exact Machine.exists_run (S := machine) (fun s _ => s.termsFit = true)
      (fun h s => h.head?.map Prod.snd = some (.run 5 .fail {}) ∧ (s.raft "C").log = [boundary 0 0] ∧
        (s.raft "C").snapshot = none ∧ (s.raft "A").matchIndex.get "C" = 1 ∧ (s.raft "A").nextIndex.get "C" = 2)
      (machine_init threeNodes true false) (snapshotToC ++ [.run 5 .fail {}]) (by decide +kernel)
  · exact Machine.exists_run (S := machine) (fun s _ => s.termsFit = true)
      (fun h s => h.head?.map Prod.snd = some (.run 5 (.reply 2) {}) ∧
        s.replies[2]? = some (2, .installSnapshot ⟨2⟩) ∧ (s.raft "C").snapshot = none ∧
        (s.raft "A").matchIndex.get "C" = 1 ∧ (s.raft "A").state = .leader ∧ (s.raft "A").term = 1)
      (machine_init threeNodes true false)
      (snapshotToC ++ [.tick 2000, .electionTimeout "C" 1500 {}, .tick 2000, .electionTimeout "C" 1500 {},
        .deliver 2 {}, .run 5 (.reply 2) {}]) (by decide +kernel)

end Cluster

end Mimori
