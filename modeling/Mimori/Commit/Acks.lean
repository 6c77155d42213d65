/-
What a leader counts. `updateCommitIndexLocked` commits an entry of the leader's term when a majority has
it by `matchIndex`; an index stands there for a request of this term that the peer accepted, as long as an
answer is counted only in the term of its request. `sendAppendEntriesBatch` does not look at that term: an
answer from an earlier time in office counts as well, and says nothing about the log the peer has now.
-/
import Mimori.Log.Moves

namespace Mimori

open Raft TermLog

namespace Raft

/-- The peers a leader counts for index `N`. -/
def counted (r : Raft) (N : Int) : List NodeID := r.peers.filter fun p => decide (N ≤ r.matchIndex.get p)

theorem recordProgress_match (r : Raft) (a : AppendArgs) (p : NodeID) :
    (r.recordProgress a).matchIndex.get p = r.matchIndex.get p ∨
      (p = a.peer ∧ (r.recordProgress a).matchIndex.get p = ackedIndex a) := by
  unfold recordProgress
  split
  · exact .inl rfl
  · by_cases hp : p = a.peer
    · exact .inr ⟨hp, by simp [IndexMap.get, IndexMap.setAll, hp]⟩
    · left; simp [IndexMap.get, IndexMap.setAll, hp]

theorem requestVote_noNewLeader (r : Raft) (req : RequestVoteRequest) (io : Io) :
    NoNewLeader r (r.requestVote req io).1 := by
  by_cases hg : (r.requestVote req io).2.voteGranted = true
  · obtain ⟨_, _, r₁, rfl, _, _, h⟩ := requestVote_granted hg
    intro hl
    rw [h.term]
    exact (adoptTerm_move r req.term io).noNewLeader (h.state ▸ hl)
  · exact (requestVote_refused (by simpa using hg)).noNewLeader

theorem updateCommitIndexLocked_matched (r : Raft) : r.updateCommitIndexLocked.matchIndex = r.matchIndex := by
  rcases updateCommitIndexLocked_cases r with h | ⟨N, e, h, _⟩ <;> rw [h]

/-- A node with peers that starts an election does not lead after it, unless it led before and starts none. -/
theorem startElectionLocked_leads {r : Raft} {io : Io} (hp : r.peers ≠ [])
    (hl : (r.startElectionLocked io).1.state = .leader) : (r.startElectionLocked io).1 = r := by
  rcases startElectionLocked_cases r io with h | ⟨r₁, hc, ⟨he, _⟩ | h⟩
  · rw [h]
  · -- its own vote is no majority
    have hm := he.majority
    have hlen : 0 < r₁.peers.length := by
      rw [hc.peers]
      exact List.length_pos_iff.2 hp
    rw [hc.votes, majority] at hm
    omega
  · rw [h, hc.state] at hl
    cases hl

theorem electionTick_leads {r : Raft} {timeout : Int} {io : Io} (hp : r.peers ≠ [])
    (hl : (r.electionTick timeout io).1.state = .leader) : (r.electionTick timeout io).1 = r := by
  rcases electionTick_cases r timeout io with h | h
  · rw [h]
  · rw [h] at hl ⊢
    exact startElectionLocked_leads hp hl

theorem timeoutNow_leads {r : Raft} {req : TimeoutNowRequest} {io : Io} (hp : r.peers ≠ [])
    (hl : (r.timeoutNow req io).1.state = .leader) :
    (r.timeoutNow req io).1 = r ∨ (r.timeoutNow req io).1 = r.adoptTerm req.term io := by
  have ho := timeoutNow_outcome r req io
  generalize r.timeoutNow req io = out at ho hl ⊢
  cases ho with
  | ignored => exact .inl rfl
  | starts =>
    have hpeers : (r.adoptTerm req.term io).peers = r.peers := by
      rcases adoptTerm_move r req.term io with hm | hm <;> exact hm.peers
    exact .inr (startElectionLocked_leads (by rw [hpeers]; exact hp) hl)

/-- The vote brings the candidate into office. -/
def electedBy (r : Raft) (resp : RequestVoteResponse) : Bool :=
  r.state == .candidate && decide (resp.term ≤ r.term) && resp.voteGranted && decide (r.majority ≤ r.votes + 1)

theorem handleVoteResponse_elected (r : Raft) (resp : RequestVoteResponse) :
    NoNewLeader r (r.handleVoteResponse resp).1 ∨
      (TakesOffice r (r.handleVoteResponse resp).1 ∧ r.electedBy resp = true) := by
  have ho := handleVoteResponse_outcome r resp
  generalize r.handleVoteResponse resp = out at ho ⊢
  cases ho with
  | newer => exact .inl (.of_ne nofun)
  | ignored => exact .inl (.refl r)
  | counted => exact .inl fun hl => ⟨hl, rfl⟩
  | elected h hs hg hv => exact .inr ⟨⟨rfl, rfl, rfl, rfl, rfl⟩, by simp [electedBy, h, hs, hg, hv]⟩

end Raft

namespace Cluster

/-! ## Conditions -/

/-- No running node takes a snapshot or is sent one in this step. -/
def noSnapshot (s : Cluster) (a : Action) : Bool := s.procs.all fun n => (s.compactsAt n a).isNone

/-- The answer a goroutine that sent entries gets: who sent them, what was sent, and the answer. -/
def appendAnswered (s : Cluster) : Action → Option (NodeID × AppendArgs × AppendEntriesResponse)
  | .run i (.reply j) _ =>
    match s.tasks[i]? with
    | some (n, .awaitAppend args call) =>
      match s.replyTo call j with
      | some (.appendEntries resp) => some (n, args, resp)
      | _ => none
    | _ => none
  | _ => none

/-- A leader counts an answer only in the term of its request. -/
def timelyAck (s : Cluster) (a : Action) : Bool :=
  match s.appendAnswered a with
  | some (n, args, resp) => !resp.success || (s.raft n).state != .leader || (s.raft n).term == args.term
  | none => true

/-- The conditions on a cluster without snapshots under which its logs match. -/
def plainLogs (s : Cluster) (a : Action) : Bool :=
  s.fairElections a && s.noGap a && s.indicesFit && s.speaksInOffice a && s.noSnapshot a

/-- The conditions under which a leader counts only what its peers have. -/
def countsKept (s : Cluster) (a : Action) : Bool := s.plainLogs a && s.timelyAck a

/-- The same for clusters with snapshots. -/
def acksKept (s : Cluster) (a : Action) : Bool := s.logsKept a && s.timelyAck a

/-! ## Clusters without snapshots -/

variable {M : Members} {s s' : Cluster} {a : Action}

structure Plain (s : Cluster) : Prop where
  node : ∀ n, (s.raft n).snapshot = none
  task : ∀ n t, (n, t) ∈ s.tasks → snapOf t = none
  request : ∀ p ∈ s.requests, ∀ req, p.req ≠ .installSnapshot req

theorem Plain.base (h : Plain s) (hi : IndexInv s) (n : NodeID) : (s.raft n).logBaseIndex = 0 :=
  ((hi.node n).fresh (h.node n)).1

theorem Plain.logsKept (h : Plain s) (hok : s.plainLogs a = true) : s.logsKept a = true := by
  simp only [plainLogs, Bool.and_eq_true] at hok
  obtain ⟨⟨⟨⟨hfair, hgap⟩, hidx⟩, hspeak⟩, _⟩ := hok
  have hno : ∀ {call : Nat} {src n : NodeID} {req : InstallSnapshotRequest},
      s.requests[call]? ≠ some ⟨src, n, .installSnapshot req⟩ :=
    fun hp => h.request _ (List.mem_of_getElem? hp) _ rfl
  have hfresh : s.freshSnapshot a = true := by
    unfold freshSnapshot
    split
    · split
      · rename_i hp; exact absurd hp hno
      · rfl
    · rfl
  have hmatch : s.matchingSnapshot a = true := by
    unfold matchingSnapshot
    split
    · split
      · rename_i hp; exact absurd hp hno
      · rfl
    · rfl
  simp only [Cluster.logsKept, inPlace, hfair, hgap, hidx, hspeak, hfresh, hmatch, Bool.and_self]

theorem Plain.acksKept (h : Plain s) (hok : s.countsKept a = true) : s.acksKept a = true := by
  simp only [countsKept, Bool.and_eq_true] at hok
  simp only [Cluster.acksKept, h.logsKept hok.1, hok.2, Bool.and_self]

theorem Plain.step (h : Plain s) (hi : IndexInv s) (hok : s.noSnapshot a = true) (hs : s.step a = some s') :
    Plain s' := by
  have hno : ∀ {n : NodeID} {snap : Snapshot}, (s.raft n).snapshotToSend ≠ some snap := by
    intro n snap hsend
    have := Indexed.snapshotToSend (hi.node n) hsend
    rw [h.node n] at this; cases this
  refine ⟨fun n => ?_, fun n t ht => ?_, fun p hp req hr => ?_⟩
  · rcases step_at hs n with heq | ⟨hm, hstep⟩
    · rw [heq]; exact h.node n
    · have hnone := Option.isNone_iff_eq_none.1 (List.all_eq_true.1 hok n hm)
      rcases hstep.compacts with ⟨i, hi, _⟩ | ⟨_, _, hsnap⟩
      · rw [hnone] at hi; cases hi
      · exact hsnap.trans (h.node n)
  · rcases step_tasks hs ht with ht | ⟨_, ht⟩
    · exact h.task n t ht
    · cases hsnap : snapOf t with
      | none => rfl
      | some snap =>
        rcases ht.snap hsnap with ⟨i, io, peer, _, _, hsend⟩ | ⟨t', ht', hs'⟩
        · exact absurd hsend hno
        · rw [h.task n t' ht'] at hs'; cases hs'
  · rcases step_packets hs hp with hp | ⟨_, hq⟩
    · exact h.request p hp req hr
    · cases hq with
      | installSnapshot i io n peer snap hx =>
        have := h.task n _ (List.mem_of_getElem? hx)
        cases this
      | _ => cases hr

theorem Plain.start (M : Members) (snapshotter restorer : Bool) :
    Plain (Cluster.start M.ids M.peersOf snapshotter restorer) := by
  refine ⟨fun n => ?_, ?_, ?_⟩
  · rw [start_raft]
  · intro n t ht; cases ht
  · intro p hp; cases hp

theorem Plain.entryAt {L : Ledger} {full : NodeID → List LogEntry} (hp : Plain s) (h : LogInv M L full s) (n : NodeID)
    (k : Nat) : (s.raft n).entryAt (k + 1) = (full n)[k]? := by
  have hb := hp.base h.stable.index n
  rw [(h.nodes.whole n).entryAt (h.stable.index.node n) (by omega)]
  congr 1

/-! ## Acknowledged entries -/

/-- `p` accepted a request that `n` sent in term `T` and that reaches up to index `m`. -/
def Acked (s : Cluster) (n p : NodeID) (T m : Int) : Prop :=
  ∃ call req resp, s.requests[call]? = some ⟨n, p, .appendEntries req⟩ ∧
    (call, .appendEntries resp) ∈ s.replies ∧ resp.success = true ∧ req.term = T ∧
    m ≤ req.prevLogIndex + req.entries.length

variable {n p : NodeID} {T m : Int}

theorem Acked.step (h : s.Acked n p T m) (hs : s.step a = some s') : s'.Acked n p T m := by
  obtain ⟨call, req, resp, hp, hr, h⟩ := h
  exact ⟨call, req, resp, step_request_some hs hp, step_reply_mem hs hr, h⟩

theorem Acked.le (h : s.Acked n p T m) {k : Int} (hk : k ≤ m) : s.Acked n p T k := by
  obtain ⟨call, req, resp, hp, hr, hsucc, ht, hm⟩ := h
  exact ⟨call, req, resp, hp, hr, hsucc, ht, by omega⟩

/-- An acknowledgement was there before, or this step gives it. -/
theorem acked_of_step (hb : ∀ x ∈ s.replies, x.1 < s.requests.length) (hs : s.step a = some s')
    (h : s'.Acked n p T m) :
    s.Acked n p T m ∨ ∃ req, s.accepts a = some (n, p, req) ∧ req.term = T ∧
      m ≤ req.prevLogIndex + req.entries.length := by
  obtain ⟨call, req, resp, hp, hr, hsucc, ht, hm⟩ := h
  have hold : (call, .appendEntries resp) ∈ s.replies → s.Acked n p T m := by
    intro hmem
    rw [step_request_of_lt hs (hb _ hmem)] at hp
    exact ⟨call, req, resp, hp, hmem, hsucc, ht, hm⟩
  rcases step_reply_new hs hr with hr | hnew
  · exact .inl (hold hr)
  · generalize hv : Response.appendEntries resp = v at hnew
    cases hnew with
    | appendEntries _ io src k req' hp' =>
      cases hv
      rw [step_request_some hs hp'] at hp
      cases hp
      exact .inr ⟨req, accepts_deliver hp' hsucc, ht, hm⟩
    | _ => cases hv

/-! ## The peers a leader counts -/

/-- The node that this step brings into office with a vote. -/
def elects (s : Cluster) : Action → Option NodeID
  | .run i (.reply j) _ =>
    match s.tasks[i]? with
    | some (n, .awaitVote _ _ call) =>
      match s.replyTo call j with
      | some (.requestVote resp) => if (s.raft n).electedBy resp then some n else none
      | _ => none
    | _ => none
  | _ => none

/-- A node takes office in a step: with the log it has, and by a vote or because it has no peers. -/
structure EntersOffice (s : Cluster) (a : Action) (n : NodeID) (r : Raft) : Prop extends TakesOffice (s.raft n) r where
  log : SameLog (s.raft n) r
  vote : s.elects a = some n ∨ (s.raft n).peers = []

/-- A leader was one before the step, in the same term, or takes office in it. -/
theorem NodeStep.office {r : Raft} (h : NodeStep s a n r) : NoNewLeader (s.raft n) r ∨ EntersOffice s a n r := by
  cases h with
  | electionTick _ timeout io =>
    by_cases hp : (s.raft n).peers = []
    · exact (electionTick_progress (s.raft n) timeout (s.envOf n io)).imp And.right
        (⟨·, (electionTick_data ..).toSameLog, .inr hp⟩)
    · refine .inl fun hl => ?_
      have hsame := electionTick_leads hp hl
      rw [hsame] at hl ⊢
      exact ⟨hl, rfl⟩
  | requestVote => exact .inl (requestVote_noNewLeader _ _ _)
  | appendEntries => exact .inl (appendEntries_move ..).noNewLeader
  | installSnapshot => exact .inl (installSnapshot_move ..).noNewLeader
  | timeoutNow _ io _ _ req =>
    by_cases hp : (s.raft n).peers = []
    · exact (timeoutNow_progress (s.raft n) req (s.envOf n io)).imp And.right (⟨·, (timeoutNow_data ..).toSameLog, .inr hp⟩)
    · refine .inl fun hl => ?_
      rcases timeoutNow_leads hp hl with h | h <;> rw [h] at hl ⊢
      · exact ⟨hl, rfl⟩
      · exact (adoptTerm_move ..).noNewLeader hl
  | voteAnswer i j io _ _ _ _ resp hx hr =>
    refine (handleVoteResponse_elected (s.raft n) resp).imp_right fun ⟨ho, he⟩ => ?_
    exact ⟨ho, (handleVoteResponse_data ..).toSameLog, .inl (by simp [elects, hx, hr, he])⟩
  | appendAnswer => exact .inl (handleAppendResponse_move ..).noNewLeader
  | transferAnswer => exact .inl (handleTimeoutNowResponse_move ..).noNewLeader
  | snapshotAnswer => exact .inl (snapshotSent_same ..).noNewLeader
  | alone => exact .inl (updateCommitIndexLocked_same _).noNewLeader
  | wait => exact .inl (appliedWait_rest ..).noNewLeader
  | propose => exact .inl (propose_rest ..).noNewLeader
  | proposeTask => exact .inl (propose_rest ..).noNewLeader
  | configChange => exact .inl (proposeConfigChange_rest ..).noNewLeader
  | forceSnapshot => exact .inl (createSnapshotLocked_rest ..).noNewLeader
  | applierTake => exact .inl (takeNext_reconfigured ..).noNewLeader
  | applierDone => exact .inl ((afterApply_rest ..).trans_reconfigured (takeNext_reconfigured ..)).noNewLeader

/-- What a step makes of the commit index of a node and of what it counts, in a cluster without configuration
changes. -/
inductive CountStep (s : Cluster) (n : NodeID) (r : Raft) : Action → Prop
  | same (a : Action) (hc : r.commitIndex = (s.raft n).commitIndex) (hm : r.matchIndex = (s.raft n).matchIndex) :
      CountStep s n r a
  | office (a : Action) (h : TakesOffice (s.raft n) r) : CountStep s n r a
  | follow (a : Action) (src : NodeID) (req : AppendEntriesRequest) (ha : s.accepts a = some (src, n, req))
      (h : Follows (s.raft n) r req.leaderCommit) : CountStep s n r a
  | install (call : Nat) (io : Io) (src : NodeID) (req : InstallSnapshotRequest)
      (hp : s.requests[call]? = some ⟨src, n, .installSnapshot req⟩) (ht : (s.raft n).term ≤ req.term)
      (hc : r.commitIndex = req.lastIncludedIndex) (hm : r.matchIndex = (s.raft n).matchIndex) :
      CountStep s n r (.deliver call io)
  | acked (i j : Nat) (io : Io) (args : AppendArgs) (call : Nat) (resp : AppendEntriesResponse)
      (hx : s.tasks[i]? = some (n, .awaitAppend args call)) (hr : s.replyTo call j = some (.appendEntries resp))
      (hs : resp.success = true) (h : r = ((s.raft n).recordProgress args).updateCommitIndexLocked) :
      CountStep s n r (.run i (.reply j) io)
  | alone (a : Action) (h : r = (s.raft n).updateCommitIndexLocked) : CountStep s n r a
  | sent (a : Action) (peer : NodeID) (snap : Snapshot) (call : Nat) (hx : (n, .awaitSnapshot peer snap call) ∈ s.tasks)
      (h : r = (s.raft n).snapshotSent peer snap) : CountStep s n r a

theorem NodeStep.countStep {r : Raft} (hm : NodeStep s a n r)
    (hlog : ∀ e ∈ (s.raft n).log, e.data.isConfig = false) : CountStep s n r a := by
  cases hm.progress with
  | same _ h => exact .same _ h.commit h.matched
  | office _ h => exact .office _ h
  | follow call io src req hreq hs _ h => exact .follow _ src req (accepts_deliver hreq hs) h
  | install call io src req hreq ht hc _ _ hmatch => exact .install call io src req hreq ht hc hmatch
  | refused _ _ _ _ _ _ h => exact .same _ h.commit h.matched
  | acked i j io args call resp hx hr hs _ h => exact .acked i j io args call resp hx hr hs h
  | alone _ _ _ _ h => exact .alone _ h
  | sent i c io peer snap call hx h => exact .sent _ peer snap call (List.mem_of_getElem? hx) h
  | take io h =>
    obtain ⟨_, hmatch⟩ := takeNext_maps (s.envOf n io) fun e he => hlog e (pendingEntry_mem he)
    rw [h]
    rcases takeNext_progress (s.raft n) (s.envOf n io) with ⟨_, he⟩ | ⟨_, _, _, hc, _⟩
    · rw [he]; exact .same _ rfl rfl
    · exact .same _ hc hmatch
  | done io h =>
    have hafter := afterApply_rest (s.raft n) (s.envOf n io)
    obtain ⟨_, hmatch⟩ := takeNext_maps (s.envOf n io) fun e he => afterApply_pending (fun _ hc => hc) (s.envOf n io) hlog he
    rw [h]
    rcases takeNext_progress ((s.raft n).afterApply (s.envOf n io)) (s.envOf n io) with ⟨_, he⟩ | ⟨_, _, _, hc, _⟩
    · rw [he]; exact .same _ hafter.commit hafter.matched
    · exact .same _ (hc.trans hafter.commit) (hmatch.trans hafter.matched)

/-- What a leader counts of its peers beyond its own base, its peers have accepted in its term. -/
structure Counts (M : Members) (s : Cluster) : Prop where
  commit : ∀ n, 0 ≤ (s.raft n).commitIndex
  snap : ∀ n t snap, (n, t) ∈ s.tasks → snapOf t = some snap → snap.lastIncludedIndex ≤ (s.raft n).logBaseIndex
  acked : ∀ n, (s.raft n).state = .leader → ∀ p ∈ M.peersOf n,
    (s.raft n).logBaseIndex < (s.raft n).matchIndex.get p → s.Acked n p (s.raft n).term ((s.raft n).matchIndex.get p)

variable {L L' : Ledger} {full full' : NodeID → List LogEntry}

/-- The answer to `args`, counted in the term of its request. -/
theorem LogInv.answered (h : LogInv M L full s) {i j : Nat} {io : Io} (hok : s.timelyAck (.run i (.reply j) io) = true)
    {args : AppendArgs} {call : Nat} {resp : AppendEntriesResponse} (hx : s.tasks[i]? = some (n, .awaitAppend args call))
    (hr : s.replyTo call j = some (.appendEntries resp)) (hsucc : resp.success = true)
    (hl : (s.raft n).state = .leader) : s.Acked n args.peer (s.raft n).term (ackedIndex args) := by
  have hmem := List.mem_of_getElem? hx
  have hterm : (s.raft n).term = args.term := by
    simpa [timelyAck, appendAnswered, hx, hr, hsucc, hl] using hok
  obtain ⟨_, _, hfit⟩ := h.carried.args n _ args hmem rfl
  have hcons := h.stable.index.args n _ args hmem rfl
  refine ⟨call, _, resp, h.stable.addressed.await n args call hmem, replyTo_mem hr, hsucc, ?_, ?_⟩
  · rw [hterm]; exact int32_of_fits hfit
  · rw [ackedIndex_eq hcons.numbered]
    simp only [appendEntriesRequest]
    rw [int32_of_fits hcons.fits]

theorem LogInv.countStep (h : LogInv M L full s) {r : Raft} (hm : NodeStep s a n r) : CountStep s n r a :=
  hm.countStep (h.stable.elect.fixed.log n)

/-- A leader accepts no request in its term. -/
theorem LogInv.accepts_not_leader (h : LogInv M L full s) (hL : Ledger.Extends L L') (h' : LogInv M L' full' s')
    (hs : s.step a = some s') {src : NodeID} {req : AppendEntriesRequest} (ha : s.accepts a = some (src, n, req)) :
    (s'.raft n).state ≠ .leader := by
  obtain ⟨_, _, _, hp, _⟩ := step_accepts hs ha
  have hmem := List.mem_of_getElem? hp
  have hseg := (h.carried.append _ hmem req rfl).mono hL
  exact h'.lead.receiver hseg.lead (h.stable.addressed.append _ hmem req rfl) (step_accepts_term hs ha)

theorem LogInv.install_not_leader (h : LogInv M L full s) (hL : Ledger.Extends L L') (h' : LogInv M L' full' s')
    (hs : s.step a = some s') {call : Nat} {io : Io} (ha : a = .deliver call io) {src : NodeID}
    {req : InstallSnapshotRequest} (hp : s.requests[call]? = some ⟨src, n, .installSnapshot req⟩)
    (ht : (s.raft n).term ≤ req.term) : (s'.raft n).state ≠ .leader := by
  have hmem := List.mem_of_getElem? hp
  exact h'.lead.receiver (hL.lead _ _ (h.carried.install _ hmem req rfl).2)
    (h.stable.addressed.install _ hmem req rfl) (step_installs hs ha hp ht).term

theorem updateCommitIndexLocked_le (r : Raft) : r.commitIndex ≤ r.updateCommitIndexLocked.commitIndex := by
  rcases updateCommitIndexLocked_cases r with he | ⟨N, e, he, _, hlt, _⟩ <;> rw [he]
  exact le_of_lt hlt

theorem CountStep.commit_nonneg {r : Raft} (h : CountStep s n r a) (hi : IndexInv s) (hr : Indexed r)
    (h0 : 0 ≤ (s.raft n).commitIndex) : 0 ≤ r.commitIndex := by
  cases h with
  | same _ hc => rw [hc]; exact h0
  | office _ h => rw [h.commit]; exact h0
  | follow _ _ _ _ h =>
    have hlast := hr.base_le_last
    have hbase := hr.base
    rw [h.commit]
    repeat' split
    all_goals omega
  | install call io src req hp _ hc => rw [hc]; exact hi.snapRequest _ (List.mem_of_getElem? hp) req rfl
  | acked i j io args call resp hx hr hs h =>
    rw [h]
    exact le_trans (by rw [(recordProgress_indices _ _).1]; exact h0) (updateCommitIndexLocked_le _)
  | alone _ h => rw [h]; exact le_trans h0 (updateCommitIndexLocked_le _)
  | sent _ _ _ _ _ h => rw [h]; exact h0

theorem LogInv.commit_mono (h : LogInv M L full s) (hL : Ledger.Extends L L') (h' : LogInv M L' full' s')
    (hs : s.step a = some s') (hl : (s'.raft n).state = .leader) :
    (s.raft n).commitIndex ≤ (s'.raft n).commitIndex := by
  rcases step_at hs n with heq | ⟨_, hk⟩
  · rw [heq]
  · have hcs := h.countStep hk
    generalize hr : s'.raft n = r at hcs
    cases hcs with
    | same _ hc => rw [hc]
    | office _ ho => rw [ho.commit]
    | follow _ src req ha => exact absurd hl (h.accepts_not_leader hL h' hs ha)
    | install call io src req hp ht => exact absurd hl (h.install_not_leader hL h' hs rfl hp ht)
    | acked i j io args call resp hx hra hsucc he =>
      rw [he, ← (recordProgress_indices (s.raft n) args).1]; exact updateCommitIndexLocked_le _
    | alone _ he => rw [he]; exact updateCommitIndexLocked_le _
    | sent _ _ _ _ _ he => rw [he]; rfl

/-- The acknowledgements a leader counts after a step: it counted them before, or got the answer now. -/
theorem LogInv.counted_step (h : LogInv M L full s) (hL : Ledger.Extends L L') (h' : LogInv M L' full' s')
    (hc : Counts M s) (hok : s.acksKept a = true) (hs : s.step a = some s') (hl : (s'.raft n).state = .leader)
    {p : NodeID} (hp : p ∈ M.peersOf n) {m : Int} (hm : m ≤ (s'.raft n).matchIndex.get p)
    (hb : (s.raft n).logBaseIndex < m) : s'.Acked n p (s'.raft n).term m := by
  simp only [acksKept, Bool.and_eq_true] at hok
  have hpeers := h.stable.elect.fixed.peers n
  rcases step_at hs n with heq | ⟨_, hk⟩
  · rw [heq] at hl hm ⊢
    exact ((hc.acked n hl p hp (by omega)).le hm).step hs
  · -- a leader that takes office now counts nothing beyond its base
    have hnew : ¬ TakesOffice (s.raft n) (s'.raft n) := by
      intro ho
      rw [ho.matched, hpeers] at hm
      simp only [IndexMap.get, IndexMap.setAll, hp, if_true, Option.getD_some] at hm
      omega
    obtain ⟨hlead, hterm⟩ := (hk.office.resolve_right fun ho => hnew ho.toTakesOffice) hl
    -- so it led before, in the same term, and what it counted then stays acknowledged
    have hold : (s'.raft n).matchIndex.get p = (s.raft n).matchIndex.get p → s'.Acked n p (s'.raft n).term m := by
      intro he
      rw [he] at hm
      rw [hterm]
      exact ((hc.acked n hlead p hp (by omega)).le hm).step hs
    have hcs := h.countStep hk
    generalize hr' : s'.raft n = r at hcs
    cases hcs with
    | same _ _ hmatch => exact hr' ▸ hold (by rw [hr', hmatch])
    | office _ ho => exact absurd (hr' ▸ ho) hnew
    | follow _ src req ha => exact absurd hl (h.accepts_not_leader hL h' hs ha)
    | install call io src req hp ht => exact absurd hl (h.install_not_leader hL h' hs rfl hp ht)
    | alone _ he => exact hr' ▸ hold (by rw [hr', he, updateCommitIndexLocked_matched])
    | acked i j io args call resp hx hr hsucc he =>
      have hmatch := recordProgress_match (s.raft n) args p
      rw [← updateCommitIndexLocked_matched, ← he, ← hr'] at hmatch
      rw [← hr']
      rcases hmatch with hmatch | ⟨rfl, hmatch⟩
      · exact hold hmatch
      · rw [hmatch] at hm
        rw [hterm]
        exact ((h.answered hok.2 hx hr hsucc hlead).le hm).step hs
    | sent _ peer snap call hx he =>
      rw [← hr']
      by_cases hpp : p = peer
      · -- what was sent is not beyond the base
        have hle := hc.snap n _ snap hx rfl
        rw [hr', he, hpp] at hm
        simp only [snapshotSent, IndexMap.get, IndexMap.setAll, List.mem_singleton, if_true, Option.getD_some] at hm
        omega
      · refine hold ?_
        rw [hr', he]
        simp [snapshotSent, IndexMap.get, IndexMap.setAll, hpp]

theorem Counts.step (h : Counts M s) (hl : LogInv M L full s) (hL : Ledger.Extends L L') (hl' : LogInv M L' full' s')
    (hok : s.acksKept a = true) (hs : s.step a = some s') : Counts M s' := by
  have hlogs : s.logsKept a = true := by
    simp only [acksKept, Bool.and_eq_true] at hok; exact hok.1
  refine ⟨fun n => ?_, fun n t snap ht hsnap => ?_, fun n hn p hp hb => ?_⟩
  · rcases step_at hs n with heq | ⟨_, hk⟩
    · rw [heq]; exact h.commit n
    · exact (hl.countStep hk).commit_nonneg hl.stable.index (hl'.stable.index.node n) (h.commit n)
  · refine le_trans ?_ (hl.stable.index.base_mono (logsKept_parts hlogs).fresh hs n)
    rcases step_tasks hs ht with ht | ⟨_, ht⟩
    · exact h.snap n t snap ht hsnap
    · rcases ht.snap hsnap with ⟨i, io, peer, _, _, hsend⟩ | ⟨t', ht', hs'⟩
      · have hi := hl.stable.index.node n
        exact le_of_eq (hi.snapshot snap (Indexed.snapshotToSend hi hsend))
      · exact h.snap n t' snap ht' hs'
  · have hbase := hl.stable.index.base_mono (logsKept_parts hlogs).fresh hs n
    exact hl.counted_step hL hl' h hok hs hn hp (le_refl _) (by omega)

theorem Counts.start (M : Members) (snapshotter restorer : Bool) :
    Counts M (Cluster.start M.ids M.peersOf snapshotter restorer) := by
  refine ⟨fun n => ?_, fun n t snap ht => ?_, fun n hn => ?_⟩
  · rw [start_raft]
  · cases ht
  · rw [start_raft] at hn; cases hn

/-! ## The invariant -/

/-- The ledger of a run, and what its leaders count. -/
structure CountInv (M : Members) (L : Ledger) (full : NodeID → List LogEntry) (s : Cluster) : Prop where
  logs : LogInv M L full s
  counts : Counts M s

/-- A step of a run, with the ledgers before and after it. -/
structure Stepped (M : Members) (s : Cluster) (a : Action) (s' : Cluster) (L : Ledger)
    (full : NodeID → List LogEntry) (L' : Ledger) (full' : NodeID → List LogEntry) : Prop where
  before : CountInv M L full s
  after : CountInv M L' full' s'
  kept : s.acksKept a = true
  evolves : Evolves s a s' L full L' full'
  step : s.step a = some s'

theorem CountInv.step (h : CountInv M L full s) (hok : s.acksKept a = true) (hs : s.step a = some s') :
    ∃ L' full', Stepped M s a s' L full L' full' := by
  have hlogs : s.logsKept a = true := by
    simp only [acksKept, Bool.and_eq_true] at hok; exact hok.1
  obtain ⟨L', full', he, hl'⟩ := h.logs.step hlogs hs
  exact ⟨L', full', h, ⟨hl', h.counts.step h.logs (he.extends h.logs) hl' hok hs⟩, hok, he, hs⟩

theorem Stepped.extends (h : Stepped M s a s' L full L' full') : Ledger.Extends L L' := h.evolves.extends h.before.logs

theorem Stepped.logsKept (h : Stepped M s a s' L full L' full') : s.logsKept a = true := by
  have hok := h.kept
  simp only [acksKept, Bool.and_eq_true] at hok
  exact hok.1

theorem Stepped.le_term (h : Stepped M s a s' L full L' full') (n : NodeID) : (s.raft n).term ≤ (s'.raft n).term :=
  step_le_term h.step n

theorem Stepped.moves (h : Stepped M s a s' L full L' full') (n : NodeID) : Moves s a s' L n (full n) (full' n) :=
  h.before.logs.moves h.extends h.after.logs h.logsKept h.step n

theorem CountInv.start (M : Members) (snapshotter restorer : Bool) :
    CountInv M Ledger.blank (fun _ => []) (Cluster.start M.ids M.peersOf snapshotter restorer) :=
  ⟨.start .., .start ..⟩

/-! ## Commits -/

/-- A leader whose commit index moved has an entry of its term there and counts a majority for it, whose members
have acknowledged it unless it is compacted. -/
theorem Stepped.committed (h : Stepped M s a s' L full L' full') (hl : (s'.raft n).state = .leader)
    (hlt : (s.raft n).commitIndex < (s'.raft n).commitIndex) :
    (∃ e, (s'.raft n).entryAt (s'.raft n).commitIndex = some e ∧ e.term = (s'.raft n).term) ∧
      (s'.raft n).majority ≤ (s'.raft n).replicas (s'.raft n).commitIndex ∧
      ((s.raft n).logBaseIndex < (s'.raft n).commitIndex → ∀ p ∈ (s'.raft n).counted (s'.raft n).commitIndex,
        s'.Acked n p (s'.raft n).term (s'.raft n).commitIndex) := by
  have hlogs := h.before.logs
  rw [← and_assoc]
  constructor
  · -- only the loop of `updateCommitIndexLocked` moves the commit index of a leader
    have hupdate : ∀ {r : Raft}, s'.raft n = r.updateCommitIndexLocked → r.commitIndex = (s.raft n).commitIndex →
        (∃ e, (s'.raft n).entryAt (s'.raft n).commitIndex = some e ∧ e.term = (s'.raft n).term) ∧
          (s'.raft n).majority ≤ (s'.raft n).replicas (s'.raft n).commitIndex := by
      intro r hr hcr
      rcases updateCommitIndexLocked_cases r with h | ⟨N, e, h, _, _, _, he, ht, hmaj⟩ <;> rw [h] at hr
      · rw [hr, hcr] at hlt; omega
      · rw [hr]; exact ⟨⟨e, he, ht⟩, hmaj⟩
    rcases step_at h.step n with heq | ⟨_, hk⟩
    · rw [heq] at hlt; omega
    · have hcs := hlogs.countStep hk
      generalize hr : s'.raft n = r at hcs
      cases hcs with
      | same _ hcm => rw [hr, hcm] at hlt; omega
      | office _ ho => rw [hr, ho.commit] at hlt; omega
      | follow _ src req ha => exact absurd hl (hlogs.accepts_not_leader h.extends h.after.logs h.step ha)
      | install call io src req hp ht =>
        exact absurd hl (hlogs.install_not_leader h.extends h.after.logs h.step rfl hp ht)
      | acked i j io args call resp hx hra hsucc he =>
        rw [← hr]; exact hupdate (hr.trans he) (recordProgress_indices ..).1
      | alone _ he => rw [← hr]; exact hupdate (hr.trans he) rfl
      | sent _ _ _ _ _ he => rw [hr, he] at hlt; exact absurd hlt (lt_irrefl _)
  · intro hb p hp
    obtain ⟨hmem, hle⟩ := List.mem_filter.1 hp
    rw [h.after.logs.stable.elect.fixed.peers n] at hmem
    exact hlogs.counted_step h.extends h.after.logs h.before.counts h.kept h.step hl hmem (of_decide_eq_true hle) hb

/-- A node and as many of its peers as it needs for a majority are a majority of the members. -/
theorem peers_majority (hp : (s.raft n).peers = M.peersOf n) (hn : n ∈ M.ids) {f : NodeID → Bool}
    (hmaj : (s.raft n).majority ≤ 1 + ((s.raft n).peers.filter f).length) :
    IsMajority M.ids.toFinset (insert n ((s.raft n).peers.filter f).toFinset) := by
  have hsub : (s.raft n).peers.filter f ⊆ M.peersOf n := by rw [← hp]; exact List.filter_sublist.subset
  have hnodup : ((s.raft n).peers.filter f).Nodup := by rw [hp]; exact (M.peersOf_nodup n).filter _
  have hnot : n ∉ ((s.raft n).peers.filter f).toFinset := by
    rw [List.mem_toFinset]
    exact fun hmem => M.not_mem_peersOf n (hsub hmem)
  refine ⟨?_, ?_⟩
  · rw [← voters_eq hn]
    exact Finset.insert_subset_insert n fun q hq => List.mem_toFinset.2 (hsub (List.mem_toFinset.1 hq))
  · have hcard : M.ids.toFinset.card = (M.peersOf n).length + 1 := by
      rw [← voters_eq hn, Finset.card_insert_of_notMem (by rw [List.mem_toFinset]; exact M.not_mem_peersOf n),
        List.toFinset_card_of_nodup (M.peersOf_nodup n)]
    rw [hcard, Finset.card_insert_of_notMem hnot, List.toFinset_card_of_nodup hnodup]
    have hlen : (s.raft n).peers.length = (M.peersOf n).length := by rw [hp]
    unfold majority at hmaj
    omega

theorem counted_majority (hp : (s.raft n).peers = M.peersOf n) (hn : n ∈ M.ids) {N : Int}
    (hmaj : (s.raft n).majority ≤ (s.raft n).replicas N) :
    IsMajority M.ids.toFinset (insert n ((s.raft n).counted N).toFinset) := peers_majority hp hn hmaj

end Cluster

end Mimori
