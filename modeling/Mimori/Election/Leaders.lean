/-
Who led which term. A run has at most one leader in each term, also over time: `lead T` is the node that
was elected in term `T`, if any was. It stays the leader until it leaves the term, and gives its vote of
that term to nobody else.
-/
import Mimori.Election.Safety

namespace Mimori

open Raft

namespace Raft

/-! ## Terms and roles -/

/-- The term grows, or the node stays what it is, or as a candidate wins; within a term it keeps a vote it has given. -/
def TermMove (r r' : Raft) : Prop :=
  r.term < r'.term ∨ (r'.term = r.term ∧ (r'.state = r.state ∨ (r.state = .candidate ∧ r'.state = .leader)) ∧
    (r'.votedFor = r.votedFor ∨ r.votedFor = ""))

theorem TermMove.leader {r r' : Raft} (h : TermMove r r') (hl : r.state = .leader) (ht : r'.term = r.term) :
    r'.state = .leader := by
  rcases h with h | ⟨_, h | ⟨_, h⟩, _⟩
  · omega
  · exact h.trans hl
  · exact h

theorem SameVotes.termMove {r r' : Raft} (h : SameVotes r r') : TermMove r r' :=
  .inr ⟨h.term, .inl h.state, .inl h.votedFor⟩

theorem SameOrDown.termMove {r r' : Raft} (h : SameOrDown r r') : TermMove r r' := by
  rcases h with h | h
  · exact h.termMove
  · exact .inl h.term

theorem startElectionLocked_termMove (r : Raft) (io : Io) : TermMove r (r.startElectionLocked io).1 := by
  rcases startElectionLocked_cases r io with h | ⟨r₁, hc, ⟨he, _⟩ | h⟩
  · rw [h]; exact (SameVotes.refl r).termMove
  · left
    rw [he.term, hc.term]; omega
  · left
    rw [h, hc.term]; omega

theorem requestVote_termMove (r : Raft) (req : RequestVoteRequest) (io : Io) :
    TermMove r (r.requestVote req io).1 := by
  by_cases hg : (r.requestVote req io).2.voteGranted = true
  · obtain ⟨_, _, r₁, rfl, _, hv, h⟩ := requestVote_granted hg
    unfold TermMove
    rw [h.term, h.state, h.votedFor]
    rcases adoptTerm_move r req.term io with hm | hm
    · refine .inr ⟨hm.term, .inl hm.state, ?_⟩
      rw [hm.votedFor] at hv
      exact hv.symm.imp_left Eq.symm
    · exact .inl hm.term
  · exact (requestVote_refused (by simpa using hg)).termMove

theorem timeoutNow_termMove (r : Raft) (req : TimeoutNowRequest) (io : Io) : TermMove r (r.timeoutNow req io).1 := by
  rcases timeoutNow_cases r req io with ⟨h, _⟩ | ⟨r₁, hm, h, _⟩ <;> rw [h]
  · exact (SameVotes.refl r).termMove
  · rcases hm with hm | hm
    · have := startElectionLocked_termMove r₁ io
      unfold TermMove at this ⊢
      rwa [hm.term, hm.state, hm.votedFor] at this
    · left
      refine lt_of_lt_of_le hm.term ?_
      rcases startElectionLocked_termMove r₁ io with h | ⟨h, _⟩
      · exact le_of_lt h
      · exact le_of_eq h.symm

theorem handleVoteResponse_termMove (r : Raft) (resp : RequestVoteResponse) :
    TermMove r (r.handleVoteResponse resp).1 := by
  rcases handleVoteResponse_cases r resp with ⟨h, _⟩ | ⟨_, hc, r₁, rfl, ⟨h, _⟩ | h⟩
  · exact h.termMove
  · exact .inr ⟨h.term, .inr ⟨hc, h.state⟩, .inl h.votedFor⟩
  · rw [h]; exact .inr ⟨rfl, .inl rfl, .inl rfl⟩

end Raft

namespace Cluster

/-- A step moves term and role, or is one of the applier, which may find that the node was removed. -/
theorem NodeStep.moves {s : Cluster} {a : Action} {n : NodeID} {r : Raft} (h : NodeStep s a n r) :
    TermMove (s.raft n) r ∨
      ∃ io, r = ((s.raft n).takeNext io).1 ∨ r = (((s.raft n).afterApply io).takeNext io).1 := by
  cases h with
  | electionTick _ timeout io =>
    left
    rcases electionTick_cases (s.raft n) timeout (s.envOf n io) with h | h <;> rw [h]
    · exact (SameVotes.refl _).termMove
    · exact startElectionLocked_termMove ..
  | requestVote => exact .inl (requestVote_termMove ..)
  | appendEntries => exact .inl (appendEntries_move ..).termMove
  | installSnapshot => exact .inl (installSnapshot_move ..).termMove
  | timeoutNow => exact .inl (timeoutNow_termMove ..)
  | voteAnswer => exact .inl (handleVoteResponse_termMove ..)
  | appendAnswer => exact .inl (handleAppendResponse_move ..).termMove
  | transferAnswer => exact .inl (handleTimeoutNowResponse_move ..).termMove
  | snapshotAnswer => exact .inl (snapshotSent_same ..).termMove
  | alone => exact .inl (updateCommitIndexLocked_same _).termMove
  | wait => exact .inl (appliedWait_rest ..).termMove
  | propose => exact .inl (propose_rest ..).termMove
  | proposeTask => exact .inl (propose_rest ..).termMove
  | configChange => exact .inl (proposeConfigChange_rest ..).termMove
  | forceSnapshot => exact .inl (createSnapshotLocked_rest ..).termMove
  | applierTake => exact .inr ⟨_, .inl rfl⟩
  | applierDone => exact .inr ⟨_, .inr rfl⟩

theorem NodeStep.termMove {s : Cluster} {a : Action} {n : NodeID} {r : Raft} (h : NodeStep s a n r)
    (hlog : ∀ e ∈ (s.raft n).log, e.data.isConfig = false) : TermMove (s.raft n) r := by
  rcases h.moves with h | ⟨io, rfl | rfl⟩
  · exact h
  · exact (takeNext_same _ _ fun e he => hlog e (pendingEntry_mem he)).termMove
  · exact (afterApply_takeNext_same _ hlog).termMove

/-- The term grows, or it stays and the node keeps its role, wins as a candidate, or ends up a follower because it was
removed. -/
theorem NodeStep.role {s : Cluster} {a : Action} {n : NodeID} {r : Raft} (h : NodeStep s a n r) :
    (s.raft n).term < r.term ∨ (r.term = (s.raft n).term ∧
      (r.state = (s.raft n).state ∨ ((s.raft n).state = .candidate ∧ r.state = .leader) ∨ r.state = .follower)) := by
  have hre : ∀ {r₀ r : Raft}, Reconfigured r₀ r → r.term = r₀.term ∧ (r.state = r₀.state ∨ r.state = .follower) := by
    intro r₀ r hre
    exact ⟨hre.term, hre.votes.imp And.left And.left⟩
  rcases h.moves with (hlt | ⟨ht, hs | hw, _⟩) | ⟨io, rfl | rfl⟩
  · exact .inl hlt
  · exact .inr ⟨ht, .inl hs⟩
  · exact .inr ⟨ht, .inr (.inl hw)⟩
  · obtain ⟨ht, hs⟩ := hre (takeNext_reconfigured (s.raft n) io)
    exact .inr ⟨ht, hs.imp_right .inr⟩
  · have hsame := afterApply_rest (s.raft n) io
    obtain ⟨ht, hs⟩ := hre (takeNext_reconfigured ((s.raft n).afterApply io) io)
    rw [hsame.term, hsame.state] at *
    exact .inr ⟨ht, hs.imp_right .inr⟩

theorem NodeStep.follower {s : Cluster} {a : Action} {n : NodeID} {r : Raft} (h : NodeStep s a n r)
    (hf : (s.raft n).state = .follower) (ht : r.term = (s.raft n).term) : r.state = .follower := by
  rcases h.role with hlt | ⟨_, hs | ⟨hc, _⟩ | hs⟩
  · omega
  · exact hs.trans hf
  · rw [hf] at hc; cases hc
  · exact hs

theorem step_le_term {s s' : Cluster} {a : Action} (hs : s.step a = some s') (n : NodeID) :
    (s.raft n).term ≤ (s'.raft n).term := by
  rcases step_at hs n with heq | ⟨_, hm⟩
  · rw [heq]
  · rcases hm.role with hlt | ⟨ht, _⟩
    · exact le_of_lt hlt
    · exact le_of_eq ht.symm

variable {M : Members} {s s' : Cluster} {a : Action}

theorem Fixed.termMove (h : Fixed M s) (hs : s.step a = some s') (n : NodeID) : TermMove (s.raft n) (s'.raft n) := by
  rcases step_at hs n with heq | ⟨_, hm⟩
  · rw [heq]; exact (SameVotes.refl _).termMove
  · exact hm.termMove (h.log n)

/-! ## Votes over a step -/

theorem Granted.step (hs : s.step a = some s') {p n : NodeID} {T : Int} (h : s.Granted p n T) : s'.Granted p n T := by
  obtain ⟨call, resp, ⟨req, hp, ht, hc⟩, hr, hg⟩ := h
  exact ⟨call, resp, ⟨req, step_request_some hs hp, ht, hc⟩, step_reply_mem hs hr, hg⟩

/-- A vote was granted before, or this step grants it. -/
theorem granted_of_step (hb : ∀ x ∈ s.replies, x.1 < s.requests.length) (hs : s.step a = some s') {p n : NodeID}
    {T : Int} (h : s'.Granted p n T) :
    s.Granted p n T ∨ ∃ call io req, a = .deliver call io ∧ s.requests[call]? = some ⟨n, p, .requestVote req⟩ ∧
      req.term = T ∧ req.candidateId = n ∧ ((s.raft p).requestVote req (s.envOf p io)).2.voteGranted = true := by
  obtain ⟨call, resp, ⟨req, hp, ht, hc⟩, hr, hg⟩ := h
  have hold : (call, .requestVote resp) ∈ s.replies → s.Granted p n T := by
    intro hm
    rw [step_request_of_lt hs (hb _ hm)] at hp
    exact ⟨call, resp, ⟨req, hp, ht, hc⟩, hm, hg⟩
  rcases step_reply_new hs hr with hr | hnew
  · exact .inl (hold hr)
  · generalize hv : Response.requestVote resp = v at hnew
    cases hnew with
    | requestVote _ io src m req' hp' =>
      cases hv
      rw [step_request_some hs hp'] at hp
      cases hp
      exact .inr ⟨call, io, req, rfl, hp', ht, hc, hg⟩
    | _ => cases hv

/-- Who has voted for itself gives its vote of the term to nobody else. -/
theorem VoteInv.self_grants {C : Campaigns} (h : VoteInv C s) {call : Nat} {src n : NodeID} {req : RequestVoteRequest}
    {io : Io} (hp : s.requests[call]? = some ⟨src, n, .requestVote req⟩) (hself : n ≠ "" → (s.raft n).votedFor = n)
    (ht : req.term = (s.raft n).term) (hg : ((s.raft n).requestVote req io).2.voteGranted = true) :
    req.candidateId = n := by
  obtain ⟨_, _, r₁, rfl, _, hv, _⟩ := requestVote_granted hg
  have hsame : (s.raft n).adoptTerm req.term io = s.raft n := by
    unfold adoptTerm
    rw [if_neg (by omega)]
  rw [hsame, hself (h.request call src n req hp).1] at hv
  rcases hv with hv | hv
  · exact absurd hv (h.request call src n req hp).1
  · exact hv.symm

/-! ## The leaders of a run -/

/-- Node `n`, which was elected in term `T`, does not stand in this term again and keeps its vote to itself. It leads
the term until it leaves it, unless it was started again. -/
def HeldOffice (s : Cluster) (T : Int) (n : NodeID) : Prop :=
  T ≤ (s.raft n).term ∧
    ((s.raft n).term = T → (s.raft n).state ≠ .candidate ∧ (n ≠ "" → (s.raft n).votedFor = n))

theorem HeldOffice.step {T : Int} {n : NodeID} (h : s.HeldOffice T n) (hf : Fixed M s) (hs : s.step a = some s') :
    s'.HeldOffice T n := by
  obtain ⟨hT, hst⟩ := h
  refine ⟨le_trans hT (step_le_term hs n), fun hT' => ?_⟩
  rcases hf.termMove hs n with hm | ⟨hm, hstate, hvote⟩
  · omega
  · obtain ⟨hnot, hself⟩ := hst (by omega)
    constructor
    · rcases hstate with hstate | ⟨_, hstate⟩ <;> rw [hstate]
      · exact hnot
      · exact nofun
    · intro hn
      have hn' := hself hn
      rcases hvote with hvote | hvote
      · exact hvote.trans hn'
      · exact absurd (hn'.symm.trans hvote) hn

/-- `lead T` is the node that was elected in term `T`. -/
structure LeadInv (M : Members) (lead : Int → Option NodeID) (s : Cluster) : Prop where
  leader : ∀ n, (s.raft n).state = .leader → lead (s.raft n).term = some n
  office : ∀ T n, lead T = some n → s.HeldOffice T n
  won : ∀ T n, lead T = some n → n ∈ M.ids ∧ s.Won n T (M.peersOf n)
  vote : ∀ T n x, lead T = some n → s.Granted n x T → x = n

variable {lead : Int → Option NodeID}

/-- What is known of the leaders so far stays true. -/
theorem LeadInv.past (h : LeadInv M lead s) (he : ElectionInv M s) (hs : s.step a = some s') {T : Int} {n : NodeID}
    (hl : lead T = some n) :
    s'.HeldOffice T n ∧ (n ∈ M.ids ∧ s'.Won n T (M.peersOf n)) ∧ ∀ x, s'.Granted n x T → x = n := by
  have hoff := h.office T n hl
  obtain ⟨hmem, hwon⟩ := h.won T n hl
  refine ⟨hoff.step he.fixed hs, ⟨hmem, hwon.mono fun p hg => hg.step hs⟩, fun x hg => ?_⟩
  rcases granted_of_step he.votes.replied hs hg with hg | ⟨call, io, req, _, hp, ht, hc, hg⟩
  · exact h.vote T n x hl hg
  · obtain ⟨hT, hst⟩ := hoff
    obtain ⟨_, hle, _⟩ := requestVote_granted hg
    have hterm : req.term = (s.raft n).term := by omega
    rw [← hc]
    exact he.votes.self_grants hp (hst (by omega)).2 hterm hg

/-- Nobody else is elected in a term that had a leader. -/
theorem LeadInv.unique (h : LeadInv M lead s) (he : ElectionInv M s) (he' : ElectionInv M s') (hs : s.step a = some s')
    {m n : NodeID} (hl : lead (s'.raft m).term = some n) (hm : (s'.raft m).state = .leader) : n = m := by
  obtain ⟨_, ⟨hn, hwon⟩, hvote⟩ := h.past he hs hl
  obtain ⟨P, ⟨hmm, rfl⟩, hwon'⟩ := he'.votes.leader m hm
  obtain ⟨Q, hQ, hq⟩ := hwon.majority
  obtain ⟨Q', hQ', hq'⟩ := hwon'.majority
  rw [voters_eq hn] at hQ
  rw [voters_eq hmm] at hQ'
  obtain ⟨v, hv, hv'⟩ := hQ.meet hQ'
  rcases hq v hv with rfl | h1 <;> rcases hq' v hv' with rfl | h2
  · rfl
  · exact (hvote m h2).symm
  · exact (he'.votes.leader_voted hm h1).symm
  · exact he'.votes.unique v n m _ h1 h2

/-- A step adds at most one leader, to a term that had none. -/
theorem LeadInv.step (h : LeadInv M lead s) (he : ElectionInv M s) (he' : ElectionInv M s') (hs : s.step a = some s') :
    LeadInv M lead s' ∨ ∃ n, (s'.raft n).state = .leader ∧ lead (s'.raft n).term = none ∧
      LeadInv M (Function.update lead (s'.raft n).term (some n)) s' := by
  have hpast : ∀ {T : Int} {n : NodeID}, lead T = some n → _ := fun hl => h.past he hs hl
  by_cases hnew : ∃ n, (s'.raft n).state = .leader ∧ lead (s'.raft n).term = none
  · obtain ⟨n, hn, hnone⟩ := hnew
    have hold : ∀ {T : Int} {m : NodeID}, Function.update lead (s'.raft n).term (some n) T = some m →
        lead T = some m ∨ (T = (s'.raft n).term ∧ m = n) := by
      intro T m hm
      rw [Function.update_apply] at hm
      split at hm
      · rename_i hT; cases hm; exact .inr ⟨hT, rfl⟩
      · exact .inl hm
    refine .inr ⟨n, hn, hnone, fun m hm => ?_, fun T m hm => ?_, fun T m hm => ?_, fun T m x hm hg => ?_⟩
    · rw [Function.update_apply]
      split
      · rename_i ht; rw [he'.leader_unique hm hn ht]
      · rename_i ht
        have hmn : m ≠ n := fun h => ht (by rw [h])
        -- only one node can have been elected in this step
        rcases step_node hs with heq | ⟨k, _, _, hother⟩
        · rw [heq] at hm ⊢; exact h.leader m hm
        · by_cases hk : n = k
          · subst hk
            rw [hother m hmn] at hm ⊢; exact h.leader m hm
          · rw [hother n hk] at hn hnone
            rw [h.leader n hn] at hnone; cases hnone
    · rcases hold hm with hm | ⟨rfl, rfl⟩
      · exact (hpast hm).1
      · have hrole : (s'.raft m).state ≠ .follower := by rw [hn]; exact nofun
        exact ⟨le_refl _, fun _ => ⟨by rw [hn]; exact nofun, fun _ => he'.votes.self m hrole⟩⟩
    · rcases hold hm with hm | ⟨rfl, rfl⟩
      · exact (hpast hm).2.1
      · obtain ⟨P, ⟨hmm, rfl⟩, hwon⟩ := he'.votes.leader m hn
        exact ⟨hmm, hwon⟩
    · rcases hold hm with hm | ⟨rfl, rfl⟩
      · exact (hpast hm).2.2 x hg
      · exact (he'.votes.leader_voted hn hg).symm
  · refine .inl ⟨fun n hn => ?_, fun T n hl => (hpast hl).1, fun T n hl => (hpast hl).2.1,
      fun T n x hl hg => (hpast hl).2.2 x hg⟩
    cases hl : lead (s'.raft n).term with
    | none => exact absurd ⟨n, hn, hl⟩ hnew
    | some m => rw [h.unique he he' hs hl hn]

theorem LeadInv.start (M : Members) (snapshotter restorer : Bool) :
    LeadInv M (fun _ => none) (Cluster.start M.ids M.peersOf snapshotter restorer) := by
  refine ⟨?_, ?_, ?_, ?_⟩
  · intro n hn; cases hn
  · intro T n hl; cases hl
  · intro T n hl; cases hl
  · intro T n x hl; cases hl

end Cluster

end Mimori
