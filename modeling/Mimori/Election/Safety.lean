/-
Election safety. Every step that meets three conditions keeps the vote invariant: a granted vote is
counted in the term it was asked in, a candidate applies no configuration entry, and a removed node
grants no vote. So two leaders of one term are one node, whenever the voter sets their campaigns were
counted over overlap; with fixed membership they do.
-/
import Mimori.Election.Votes
import Mimori.Cluster.Fixed

namespace Mimori

open Raft

namespace Cluster

/-! ## Conditions -/

/-- A candidate applies no configuration entry. -/
def peersStable (s : Cluster) : Action → Bool
  | .applierTake n _ | .applierDone n _ =>
    (s.raft n).state != .candidate || ((s.raft n).pendingEntry.map (·.data.isConfig)) != some true
  | _ => true

/-- A node that was removed from the cluster grants no vote. -/
def removedSilent (s : Cluster) : Action → Bool
  | .deliver call _ =>
    match s.requests[call]? with
    | some ⟨_, n, .requestVote req⟩ => !(s.raft n).removedFromCluster || !(s.raft n).grantsVote req
    | _ => true
  | _ => true

/-- The campaign this step starts: who, in which term, and the peers it asks. -/
def campaign (s : Cluster) : Action → Option (NodeID × Int × List NodeID)
  | .electionTimeout n timeout io =>
    let (r, started) := (s.raft n).electionTick timeout (s.envOf n io)
    if started = [] then none else some (n, r.term, (s.raft n).peers)
  | .deliver call io =>
    match s.requests[call]? with
    | some ⟨_, n, .timeoutNow req⟩ =>
      let (r, started, _) := (s.raft n).timeoutNow req (s.envOf n io)
      if started = [] then none else some (n, r.term, (s.raft n).peers)
    | _ => none
  | _ => none

/-- `C` has the campaign this step starts. -/
def Records (C : Campaigns) (s : Cluster) (a : Action) : Prop :=
  ∀ n T P, n ∈ s.procs → s.campaign a = some (n, T, P) → C n T P

/-! ## Goroutines -/

variable {C : Campaigns} {s s' : Cluster} {n : NodeID} {call : Nat} {io : Io} {a : Action} {M : Members}

theorem VoteInv.spawnQuiet (h : VoteInv C s) {ts : List Task} (hq : ∀ t ∈ ts, Quiet t) :
    VoteInv C (s.spawn n ts) := h.frame (.spawn s n hq)

theorem VoteInv.replyQuiet (h : VoteInv C s) {resp : Response} (hc : call < s.requests.length)
    (hr : ∀ v, resp = .requestVote v → v.voteGranted = false) : VoteInv C (s.reply call resp) :=
  h.frame (.reply s hc hr)

/-- A vote answer is handled: it deposes the node, is ignored, or is counted. -/
theorem VoteInv.voteAnswer (h : VoteInv C s) {i j : Nat} {p : NodeID} {T : Int} {resp : RequestVoteResponse}
    (hx : s.tasks[i]? = some (n, .awaitVote T p call)) (hr : s.replyTo call j = some (.requestVote resp))
    (ht : resp.voteGranted = true → (s.raft n).state = .candidate → (s.raft n).term = T) :
    VoteInv C (((s.dropTask i).setRaft n ((s.raft n).handleVoteResponse resp).1).spawn n
      ((s.raft n).handleVoteResponse resp).2) := by
  rcases handleVoteResponse_cases (s.raft n) resp with ⟨hm, hts⟩ | ⟨hg, hc, r₁, hr₁, hw⟩
  · rw [hts]
    refine VoteInv.spawnQuiet ?_ (by simp)
    exact (h.frame (.dropTask s i)).sameOrDown hm
  · have hcount := h.count hx hr hg hc (ht hg hc)
    rw [← hr₁] at hcount
    rcases hw with ⟨he, hts⟩ | hw
    · rw [hts]
      refine VoteInv.spawnQuiet ?_ (by simp [Quiet, askOf, broadcastOf])
      have hel := hcount.elected (m := n) (by rw [setRaft_raft_self, hr₁]; exact hc) (by rw [setRaft_raft_self]; exact he)
      rwa [setRaft_setRaft] at hel
    · rw [hw]; exact hcount.spawnQuiet (by simp)

theorem VoteInv.taskStep (h : VoteInv C s) {i : Nat} {t : Task} {c : Choice} (hx : s.tasks[i]? = some (n, t))
    (hf : Fits (s.raft n).term) (ht : s.timelyVote (.run i c io) = true) (hs : TaskStep (s.dropTask i) n io t c s') :
    VoteInv C s' := by
  have h0 := h.frame (.dropTask s i)
  cases hs with
  | quit => exact h0
  | broadcast T => exact h.broadcast hx
  | ask T p =>
    refine h.ask hx ?_ (h.id n)
    have hT := (h.askTerm n T p ((asks_perm hx rfl).subset (List.mem_cons_self ..))).2
    refine int32_of_fits ⟨?_, ?_⟩
    · omega
    · have := hf.2; omega
  | voteAnswer T p call j resp hr =>
    refine h.voteAnswer hx hr fun hg hc => ?_
    unfold timelyVote voteAnswered at ht
    simp only [hx, show s.replyTo call j = some (.requestVote resp) from hr, hg, hc] at ht
    simpa using ht
  | alone ret =>
    refine VoteInv.spawnQuiet (h0.sameOrDown (.inl (updateCommitIndexLocked_same _))) ?_
    cases ret <;> simp [resume, Quiet, askOf, broadcastOf]
  | roundEnd ret =>
    refine h0.spawnQuiet ?_
    cases ret <;> simp [resume, Quiet, askOf, broadcastOf]
  | append => exact h0.frame (.send _ _ _ (by simp) (by simp [Quiet, askOf, broadcastOf]))
  | sendSnapshot => exact h0.frame (.send _ _ _ (by simp) (by simp [Quiet, askOf, broadcastOf]))
  | transfer => exact h0.frame (.send _ _ _ (by simp) (by simp [Quiet, askOf, broadcastOf]))
  | appendAnswer args call j resp =>
    refine VoteInv.spawnQuiet (h0.sameOrDown (handleAppendResponse_move ..)) ?_
    intro t ht
    rw [handleAppendResponse_tasks ht]; simp [Quiet, askOf, broadcastOf]
  | transferAnswer => exact h0.sameOrDown (handleTimeoutNowResponse_move ..)
  | snapshotAnswer => exact h0.sameOrDown (.inl (snapshotSent_same ..))
  | configWait => exact h0.sameOrDown (.inl (appliedWait_rest ..).toSameVotes)
  | propose =>
    exact VoteInv.spawnQuiet (h0.sameOrDown (.inl (propose_rest ..).toSameVotes)) (by simp [Quiet, askOf, broadcastOf])
  | proposeRefused => exact h0.sameOrDown (.inl (.refl _))
  | wait =>
    exact VoteInv.spawnQuiet (h0.sameOrDown (.inl (appliedWait_rest ..).toSameVotes)) (by simp [Quiet, askOf, broadcastOf])
  | answerWrite => exact h0.frame (.answer _ _)
  | answerRead => exact h0.frame (.answer _ _)
  | peerPanic => exact h0.frame (.crash _ _)
  | _ => exact h0.spawnQuiet (by simp [Quiet, askOf, broadcastOf])

/-! ## Elections -/

/-- An election is refused, won at once, or begun with the requests for votes. -/
theorem VoteInv.startElection (h : VoteInv C s) (n : NodeID) (io : Io)
    (hC : ((s.raft n).startElectionLocked io).2 ≠ [] →
      C n ((s.raft n).startElectionLocked io).1.term (s.raft n).peers) :
    VoteInv C ((s.setRaft n ((s.raft n).startElectionLocked io).1).spawn n ((s.raft n).startElectionLocked io).2) := by
  rcases startElectionLocked_cases (s.raft n) io with he | ⟨r₁, hc, ⟨he, hts⟩ | he⟩
  · rw [he]
    exact (h.sameOrDown (.inl (.refl _))).spawnQuiet (by simp)
  · have hC' := hC (by rw [hts]; simp)
    rw [he.term, ← hc.peers] at hC'
    rw [hts]
    refine VoteInv.spawnQuiet ?_ (by simp [Quiet, askOf, broadcastOf])
    have hel := (h.campaign hc hC').elected (m := n) (by rw [setRaft_raft_self]; exact hc.state)
      (by rw [setRaft_raft_self]; exact he)
    rwa [setRaft_setRaft] at hel
  · have hC' := hC (by rw [he]; simp)
    rw [he, ← hc.peers] at hC'
    rw [he]
    have ht := hc.term
    have hnn := h.nonneg n
    refine (h.campaign hc hC').spawnBroadcast (by omega) (by rw [setRaft_raft_self]; omega) ?_ ?_ ?_
    -- nothing of a term the node has not reached is in the network
    · intro hb
      have := (h.broadcastTerm n _ hb).2
      omega
    · intro p ha
      have := (h.askTerm n _ p ha).2.2
      omega
    · intro _ _; rw [setRaft_raft_self]; exact hc.votes

theorem VoteInv.electionTick (h : VoteInv C s) {timeout : Int} {io' : Io}
    (hC : s.Records C (.electionTimeout n timeout io')) (hn : n ∈ s.procs) (hio : io = s.envOf n io') :
    VoteInv C ((s.setRaft n ((s.raft n).electionTick timeout io).1).spawn n ((s.raft n).electionTick timeout io).2) := by
  rcases electionTick_cases (s.raft n) timeout io with he | he
  · rw [he]; exact (h.sameOrDown (.inl (.refl _))).spawnQuiet (by simp)
  · rw [he]
    refine h.startElection n io fun hne => hC n _ _ hn ?_
    rw [← he] at hne
    unfold Cluster.campaign
    rw [← he, hio]
    rw [hio] at hne
    simp only
    rw [if_neg hne]

/-! ## Requests -/

theorem VoteInv.requestVote (h : VoteInv C s) {src : NodeID} {req : RequestVoteRequest}
    (hp : s.requests[call]? = some ⟨src, n, .requestVote req⟩)
    (hrem : ((s.raft n).requestVote req io).2.voteGranted = true → (s.raft n).removedFromCluster = false) :
    VoteInv C ((s.setRaft n ((s.raft n).requestVote req io).1).reply call
      (.requestVote ((s.raft n).requestVote req io).2)) := by
  have hcall : call < s.requests.length := (List.getElem?_eq_some_iff.1 hp).1
  by_cases hg : ((s.raft n).requestVote req io).2.voteGranted = true
  · obtain ⟨hne, hle, r₁, hr₁, _, hv, hsame⟩ := requestVote_granted hg
    have hid : req.candidateId = src := (h.request call src n req hp).2.1
    have hmove : SameOrDown (s.raft n) r₁ := by rw [hr₁]; exact adoptTerm_move ..
    have hremoved : r₁.removedFromCluster = false := by
      rcases hmove with hm | hm <;> rw [hm.removed] <;> exact hrem hg
    rw [hid] at hne hv hsame
    have hgrant := (h.sameOrDown hmove).grant (T := req.term) ((s.raft n).requestVote req io).2
      ⟨req, hp, rfl, hid⟩ hne (by rw [setRaft_raft_self, hr₁]; exact adoptTerm_term _ _ _ hle)
      (by rw [setRaft_raft_self]; exact hv) (by rw [setRaft_raft_self]; exact hremoved)
      (by rw [setRaft_raft_self]; exact hsame)
    rwa [setRaft_setRaft] at hgrant
  · have hg' : ((s.raft n).requestVote req io).2.voteGranted = false := by simpa using hg
    refine VoteInv.replyQuiet (h.sameOrDown (requestVote_refused hg')) hcall ?_
    intro v hv
    cases hv; exact hg'

theorem VoteInv.deliver (h : VoteInv C s) {p : Packet} (hp : s.requests[call]? = some p) (hn : p.dst ∈ s.procs)
    (hrem : s.removedSilent (.deliver call io) = true) (hC : s.Records C (.deliver call io)) :
    VoteInv C (s.handle call p io) := by
  obtain ⟨src, n, req⟩ := p
  have hcall : call < s.requests.length := (List.getElem?_eq_some_iff.1 hp).1
  cases req with
  | requestVote req =>
    rw [handle_requestVote]
    refine h.requestVote hp fun hg => ?_
    rw [requestVote_voteGranted] at hg
    simp only [removedSilent, hp, hg] at hrem
    simpa using hrem
  | appendEntries req =>
    rw [handle_appendEntries]
    exact VoteInv.replyQuiet (h.sameOrDown (appendEntries_move ..)) hcall (by simp)
  | installSnapshot req =>
    rw [handle_installSnapshot]
    refine VoteInv.replyQuiet ?_ hcall (by simp)
    exact (h.sameOrDown (installSnapshot_move ..)).frame (.setApp _ _ _)
  | timeoutNow req =>
    rw [handle_timeoutNow]
    refine VoteInv.replyQuiet ?_ hcall (by simp)
    rcases timeoutNow_cases (s.raft n) req (s.envOf n io) with ⟨h1, h2⟩ | ⟨r₁, hm, h1, h2⟩
    · rw [h1, h2]
      exact (h.sameOrDown (.inl (.refl _))).spawnQuiet (by simp)
    · rw [h1, h2]
      have hpeers : r₁.peers = (s.raft n).peers := by rcases hm with hm | hm <;> exact hm.peers
      have hst := (h.sameOrDown hm).startElection n (s.envOf n io) ?_
      · rwa [setRaft_setRaft, setRaft_raft_self] at hst
      · rw [setRaft_raft_self, hpeers]
        intro hne
        refine hC n _ _ hn ?_
        unfold Cluster.campaign
        simp only [hp, h1, h2]
        rw [if_neg hne]

/-! ## Every step -/

/-- The conditions under which votes are counted rightly. -/
def fairVotes (s : Cluster) (a : Action) : Bool :=
  s.termsFit && s.timelyVote a && s.peersStable a && s.removedSilent a

theorem VoteInv.apply (h : VoteInv C s) {r : Raft} (hr : SameVotes (s.raft n) r)
    (hp : (s.raft n).state = .candidate → ∀ e, r.pendingEntry = some e → e.data.isConfig = false) :
    VoteInv C (s.applierNext n r io) := by
  refine VoteInv.frame ?_ (.setApp _ _ _)
  by_cases hc : (s.raft n).state = .candidate
  · exact h.sameOrDown (.inl (hr.trans (takeNext_same _ _ (hp hc))))
  · exact h.reconfigured (hr.trans_reconfigured (takeNext_reconfigured ..)) hc

theorem VoteInv.step (h : VoteInv C s) (hok : s.fairVotes a = true) (hC : s.Records C a) (hs : s.step a = some s') :
    VoteInv C s' := by
  simp only [fairVotes, Bool.and_eq_true] at hok
  obtain ⟨⟨⟨hfit, htime⟩, hstable⟩, hrem⟩ := hok
  cases step_cases hs with
  | tick ms =>
    exact h.frame ⟨fun _ => .refl _, .refl _, .refl _, fun _ _ _ _ h => h,
      fun _ _ _ _ => .rfl, fun _ _ _ => .rfl, fun h => h⟩
  | electionTimeout n timeout io hn => exact h.electionTick hC hn rfl
  | deliver call io p hp hn => exact h.deliver hp hn hrem hC
  | run i c io n t _ hx hn ht =>
    refine h.taskStep hx ?_ htime ht
    unfold termsFit at hfit
    exact of_decide_eq_true (List.all_eq_true.1 hfit n hn)
  | propose n cmd io => exact h.sameOrDown (.inl (propose_rest ..).toSameVotes)
  | configChange n type nodeID io r index hn he =>
    have hsame := proposeConfigChange_rest (s.raft n) type nodeID (s.envOf n io)
    rw [he] at hsame
    exact (h.sameOrDown (.inl hsame.toSameVotes)).spawnQuiet (by simp [Quiet, askOf, broadcastOf])
  | configRefused n type nodeID io r e hn he =>
    have hsame := proposeConfigChange_rest (s.raft n) type nodeID (s.envOf n io)
    rw [he] at hsame
    exact h.sameOrDown (.inl hsame.toSameVotes)
  | transferLeadership n target started hn he =>
    refine h.spawnQuiet fun t ht => ?_
    rw [transferLeadershipInternal_tasks he ht]; simp [Quiet, askOf, broadcastOf]
  | transferRefused => exact h
  | forceSnapshot n io => exact h.sameOrDown (.inl (createSnapshotLocked_rest ..).toSameVotes)
  | applierTake n io =>
    refine h.apply (.refl _) fun hc e he => ?_
    simpa [peersStable, hc, he] using hstable
  | applierSend n => exact h.frame (.setApp _ _ _)
  | applierDone n io =>
    refine h.apply (afterApply_rest ..).toSameVotes fun hc e he => ?_
    -- a candidate takes no snapshot here, so its log is as before
    have hpe : ((s.raft n).afterApply (s.envOf n io)).pendingEntry = (s.raft n).pendingEntry :=
      afterApply_pendingEntry (by rw [hc]; exact fun h => by cases h)
    rw [hpe] at he
    simpa [peersStable, hc, he] using hstable
  | consume n => exact h.frame (.setApp _ _ _)
  | client n req => exact h.spawnQuiet (by simp [Quiet, askOf, broadcastOf])

/-! ## Every run -/

theorem VoteInv.start (procs : List NodeID) (peersOf : NodeID → List NodeID) (snapshotter restorer : Bool)
    (hp : ∀ n, (peersOf n).Nodup ∧ n ∉ peersOf n) :
    VoteInv C (Cluster.start procs peersOf snapshotter restorer) := by
  have hnone : ∀ p n T, ¬ (Cluster.start procs peersOf snapshotter restorer).Granted p n T := by
    rintro p n T ⟨_, _, _, h, _⟩
    cases h
  refine ⟨fun n => rfl, fun n => le_refl _, hp, List.nodup_nil, List.nodup_nil, ?_, ?_, ?_, ?_, ?_, ?_, ?_, ?_, ?_,
    ?_, ?_, ?_, ?_⟩
  · intro n T p h; cases h
  · intro n T p h; cases h
  · intro n T h; cases h
  · intro n T p h; cases h
  · intro n T p call h; cases h
  · intro call n p req h; cases h
  · intro x h; cases h
  · intro p n T h; exact absurd h (hnone p n T)
  · intro p n m T h; exact absurd h (hnone p n T)
  · intro n h; exact absurd rfl h
  · intro n _; rfl
  · intro n h; cases h
  · intro n h; cases h

theorem VoteInv.mono {C' : Campaigns} (h : VoteInv C s) (hC : ∀ n T P, C n T P → C' n T P) : VoteInv C' s :=
  { h with
    tally := fun n hs => ⟨hC _ _ _ (h.tally n hs).1, (h.tally n hs).2⟩
    leader := fun n hs => by
      obtain ⟨P, hP, hw⟩ := h.leader n hs
      exact ⟨P, hC _ _ _ hP, hw⟩ }

/-- The campaigns of a run. -/
def campaignsOf (h : List (Cluster × Action)) : Campaigns := fun n T P => ∃ x ∈ h, x.1.campaign x.2 = some (n, T, P)

theorem voteInv_of_run {h : List (Cluster × Action)} (hr : machine.Run (fun s a => s.fairVotes a = true) h s) :
    VoteInv (campaignsOf h) s := by
  refine Machine.Run.history (I := fun h s => VoteInv (campaignsOf h) s) ?_ ?_ hr
  · rintro s ⟨procs, peersOf, snapshotter, restorer, hp, rfl⟩
    exact .start procs peersOf snapshotter restorer hp
  · intro h s a s' _ hi hok hs
    have hi' : VoteInv (campaignsOf ((s, a) :: h)) s := hi.mono fun n T P ⟨x, hx, hc⟩ => ⟨x, List.mem_cons_of_mem _ hx, hc⟩
    exact hi'.step hok (fun n T P _ hc => ⟨(s, a), List.mem_cons_self .., hc⟩) hs

/-- With fixed membership only the timing of the votes and the size of the terms matter. -/
theorem Fixed.fairVotes (h : Fixed M s) (hfit : s.termsFit = true) (htime : s.timelyVote a = true) :
    s.fairVotes a = true := by
  have hpend : ∀ n e, (s.raft n).pendingEntry = some e → e.data.isConfig = false :=
    fun n e he => h.log n e (pendingEntry_mem he)
  have hstable : s.peersStable a = true := by
    unfold peersStable
    split
    all_goals
      first
      | rfl
      | rename_i n _
        cases he : (s.raft n).pendingEntry with
        | none => simp
        | some e => simp [hpend n e he]
  have hsilent : s.removedSilent a = true := by
    unfold removedSilent
    split
    · split
      · rename_i n _ _; rw [h.removed n]; rfl
      · rfl
    · rfl
  simp [Cluster.fairVotes, hfit, htime, hstable, hsilent]

theorem campaign_peers {T : Int} {P : List NodeID} (h : s.campaign a = some (n, T, P)) : P = (s.raft n).peers := by
  unfold Cluster.campaign at h
  split at h
  · simp only at h
    split at h <;> cases h
    rfl
  · split at h
    · simp only at h
      split at h <;> cases h
      rfl
    · cases h
  · cases h

/-- With fixed membership every campaign is counted over the members. -/
def memberCampaigns (M : Members) : Campaigns := fun n _ P => n ∈ M.ids ∧ P = M.peersOf n

theorem voters_eq (h : n ∈ M.ids) : insert n (M.peersOf n).toFinset = M.ids.toFinset := by
  ext p
  simp only [Finset.mem_insert, List.mem_toFinset, Members.peersOf, List.mem_filter, decide_eq_true_eq]
  by_cases hp : p = n
  · subst hp; simp [h]
  · simp [hp]

/-- The invariant of elections with fixed membership. -/
structure ElectionInv (M : Members) (s : Cluster) : Prop where
  fixed : Fixed M s
  votes : VoteInv (memberCampaigns M) s

theorem ElectionInv.start (M : Members) (snapshotter restorer : Bool) :
    ElectionInv M (Cluster.start M.ids M.peersOf snapshotter restorer) :=
  ⟨.start M snapshotter restorer, .start _ _ _ _ fun n => ⟨M.peersOf_nodup n, M.not_mem_peersOf n⟩⟩

/-- The conditions of election safety with fixed membership. -/
def fairElections (s : Cluster) (a : Action) : Bool := noConfigChange a && s.termsFit && s.timelyVote a

theorem ElectionInv.step (h : ElectionInv M s) (hok : s.fairElections a = true) (hs : s.step a = some s') :
    ElectionInv M s' := by
  simp only [fairElections, Bool.and_eq_true] at hok
  obtain ⟨⟨hcfg, hfit⟩, htime⟩ := hok
  refine ⟨h.fixed.step hcfg hs, h.votes.step (h.fixed.fairVotes hfit htime) ?_ hs⟩
  intro n T P hn hc
  exact ⟨h.fixed.procs n hn, (campaign_peers hc).trans (h.fixed.peers n)⟩

theorem ElectionInv.leader_unique (h : ElectionInv M s) {m : NodeID} (hn : (s.raft n).state = .leader)
    (hm : (s.raft m).state = .leader) (ht : (s.raft n).term = (s.raft m).term) : n = m := by
  refine h.votes.leader_unique hn hm ht fun _ P P' hP hP' => ?_
  rw [hP.2, hP'.2, voters_eq hP.1, voters_eq hP'.1]
  exact .refl _

/-- Election safety with fixed membership: in every run without configuration changes in which a
candidate counts a vote only in the term it asked for it, and terms fit the messages, two leaders of
one term are one node. -/
theorem election_safety (M : Members) {h : List (Cluster × Action)} {s : Cluster}
    (hr : M.machine.Run (fun s a => s.fairElections a = true) h s) {n m : NodeID}
    (hn : (s.raft n).state = .leader) (hm : (s.raft m).state = .leader)
    (ht : (s.raft n).term = (s.raft m).term) : n = m := by
  have hi : ElectionInv M s := by
    refine Machine.Run.invariant ?_ (fun s a s' hi hok hs => hi.step hok hs) hr
    rintro s ⟨snapshotter, restorer, rfl⟩
    exact .start M snapshotter restorer
  exact hi.leader_unique hn hm ht

theorem election_safety_electA :
    ∃ h s, threeNodes.machine.Run (fun s a => s.fairElections a = true) h s ∧ (s.raft "A").state = .leader ∧
      ∀ m, (s.raft m).state = .leader → (s.raft "A").term = (s.raft m).term → "A" = m := by
  obtain ⟨h, s, hr, hl⟩ := Machine.exists_run (fun s a => s.fairElections a = true)
    (fun _ s => (s.raft "A").state = .leader) (threeNodes.machine_init false false) electA (by decide +kernel)
  exact ⟨h, s, hr, hl, fun m hm ht => election_safety threeNodes hr hl hm ht⟩

/-- A asks B for its vote in term 1 and times out before the answer; C wins term 2 with B's vote; then
A, a candidate of term 2 by now, counts B's vote of term 1. -/
def lateVote : List Action :=
  [.tick 2000, .electionTimeout "A" 1500 {}, .run 0 .go {}, .run 0 .go {}, .deliver 0 {}, .tick 2000,
    .electionTimeout "A" 1500 {}, .electionTimeout "C" 1500 {}, .tick 2000, .electionTimeout "C" 1500 {},
    .run 4 .go {}, .run 5 .go {}, .deliver 1 {}, .run 5 (.reply 1) {}, .run 1 (.reply 0) {}]

theorem lateVote_two_leaders :
    ∃ h s, threeNodes.machine.Run (fun s a => (noConfigChange a && s.termsFit) = true) h s ∧
      (s.raft "A").state = .leader ∧ (s.raft "C").state = .leader ∧ (s.raft "A").term = (s.raft "C").term := by
  exact Machine.exists_run (fun s a => (noConfigChange a && s.termsFit) = true)
    (fun _ s => (s.raft "A").state = .leader ∧ (s.raft "C").state = .leader ∧
      (s.raft "A").term = (s.raft "C").term)
    (threeNodes.machine_init false false) lateVote (by decide +kernel)

end Cluster

end Mimori
