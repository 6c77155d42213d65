/-
Elections can be won. From every state of a run that keeps the conditions `recoversKept`, as long as a majority of the
members is up, the run can go on to a state in which one of them leads a term that none of them has passed: no
interleaving, lost message, crash or split vote before leads to a state in which the cluster can have no leader any more.
Who wins is a node of the majority whose log is at least as recent as that of the others; a leader of an old term is
first deposed by a node that knows a newer one.
-/
import Mathlib.Data.Prod.Lex
import Mathlib.Order.Lattice
import Mimori.Commit.Onward

namespace Mimori

open Raft

/-! ## Nodes -/

namespace Raft

variable {r : Raft} {io : Io}

theorem standing_fields (r : Raft) (io : Io) : (r.standing io).state = .candidate ∧ (r.standing io).term = r.term + 1 ∧
    (r.standing io).votes = 1 ∧ (r.standing io).majority = r.majority := by
  unfold standing saveMeta majority
  split <;> exact ⟨rfl, rfl, rfl, rfl⟩

theorem startElectionLocked_asks (hrem : r.removedFromCluster = false) (hmaj : 1 < r.majority) :
    r.startElectionLocked io = (r.standing io, [.broadcastRequestVote (r.term + 1)]) := by
  obtain ⟨_, hterm, hvotes, hm⟩ := standing_fields r io
  have hnot : ¬ (r.standing io).votes ≥ (r.standing io).majority := by rw [hvotes, hm]; omega
  have heq : r.startElectionLocked io = (r.standing io, [.broadcastRequestVote (r.standing io).term]) := by
    unfold startElectionLocked
    rw [if_neg (by rw [hrem]; exact Bool.false_ne_true)]
    exact if_neg hnot
  rw [heq, hterm]

/-- What an election makes of a leader: it sends from the end of its log on, and counts nothing yet. -/
structure Inaugurated (r : Raft) : Prop where
  state : r.state = .leader
  next : ∀ p ∈ r.peers, r.nextIndex p = some (r.lastLogIndex + 1)
  counts : ∀ p ∈ r.peers, r.matchIndex p = some r.logBaseIndex

theorem becomeLeaderLocked_inaugurated (r : Raft) : Inaugurated r.becomeLeaderLocked.1 := by
  refine ⟨rfl, fun p hp => ?_, fun p hp => ?_⟩
  · exact if_pos hp
  · exact if_pos hp

theorem startElectionLocked_alone (hrem : r.removedFromCluster = false) (hmaj : r.majority ≤ 1) :
    Inaugurated (r.startElectionLocked io).1 ∧ (r.startElectionLocked io).1.term = r.term + 1 ∧
      (r.startElectionLocked io).2 = [.heartbeatLoop] := by
  obtain ⟨_, hterm, hvotes, hm⟩ := standing_fields r io
  have hyes : (r.standing io).votes ≥ (r.standing io).majority := by rw [hvotes, hm]; omega
  have heq : r.startElectionLocked io = (r.standing io).becomeLeaderLocked := by
    unfold startElectionLocked
    rw [if_neg (by rw [hrem]; exact Bool.false_ne_true)]
    exact if_pos hyes
  rw [heq]
  exact ⟨becomeLeaderLocked_inaugurated _, hterm, rfl⟩

theorem electionTick_fires {timeout : Int} (hrem : r.removedFromCluster = false) (hl : r.state ≠ .leader)
    (ht : timeout ≤ io.now - r.electionReset) : r.electionTick timeout io = r.startElectionLocked io := by
  rw [electionTick, if_neg (by rw [hrem]; exact Bool.false_ne_true), if_neg hl, if_pos ht]

/-- A request of a newer term by a member makes the node a follower in this term. -/
theorem requestVote_adopts {req : RequestVoteRequest} (hk : r.isKnownNode req.candidateId = true) (ht : r.term < req.term)
    (io : Io) :
    (r.requestVote req io).1.term = req.term ∧ (r.requestVote req io).1.state = .follower := by
  have hadopt : (r.adoptTerm req.term io).term = req.term ∧ (r.adoptTerm req.term io).state = .follower := by
    rw [adoptTerm, if_pos ht]
    unfold saveMeta
    split <;> exact ⟨rfl, rfl⟩
  unfold requestVote
  simp only [hk, Bool.not_true, Bool.false_eq_true, if_false, if_neg (show ¬ req.term < r.term by omega)]
  split
  · exact hadopt
  · split
    · unfold saveMeta
      split <;> exact hadopt
    · exact hadopt

/-- It grants its vote to a member whose log is as recent as its own. -/
theorem requestVote_grants {req : RequestVoteRequest} (hk : r.isKnownNode req.candidateId = true) (ht : r.term < req.term)
    (hu : r.upToDate req = true) : (r.requestVote req io).2 = ⟨int32 r.term, true⟩ := by
  have hadopt : (r.adoptTerm req.term io).votedFor = "" ∧ (r.adoptTerm req.term io).upToDate req = true := by
    rw [adoptTerm, if_pos ht]
    unfold saveMeta
    split <;> exact ⟨rfl, hu⟩
  unfold requestVote
  simp only [hk, Bool.not_true, Bool.false_eq_true, if_false, if_neg (show ¬ req.term < r.term by omega), hadopt.2,
    hadopt.1, true_or, if_true]

/-- A candidate counts a granted vote, and leads once it has a majority. -/
theorem handleVoteResponse_counts {resp : RequestVoteResponse} (hc : r.state = .candidate) (ht : resp.term ≤ r.term)
    (hg : resp.voteGranted = true) : (r.handleVoteResponse resp).1.term = r.term ∧
      (Inaugurated (r.handleVoteResponse resp).1 ∧ (r.handleVoteResponse resp).2 = [.heartbeatLoop] ∨
        (r.handleVoteResponse resp).1.state = .candidate ∧ (r.handleVoteResponse resp).1.votes = r.votes + 1 ∧
          r.votes + 1 < r.majority) := by
  unfold handleVoteResponse
  rw [if_neg (show ¬ resp.term > r.term by omega), if_neg (not_not.2 hc), if_pos hg]
  simp only
  split
  · exact ⟨rfl, .inl ⟨becomeLeaderLocked_inaugurated _, rfl⟩⟩
  · rename_i h
    have hlt : r.votes + 1 < r.majority := by
      have : ¬ r.votes + 1 ≥ r.majority := h
      omega
    exact ⟨rfl, .inr ⟨hc, rfl, hlt⟩⟩

end Raft

namespace Cluster

variable {M : Members} {s s' : Cluster} {n m p c : NodeID} {B K T : Int}

/-! ## A campaign -/

/-- What a campaign leaves as it is: who is up, the logs, and what clients were told; terms do not go back. -/
structure Drift (s s' : Cluster) : Prop where
  procs : s'.procs = s.procs
  answers : s'.answers = s.answers
  log : ∀ m, SameLog (s.raft m) (s'.raft m)
  term : ∀ m, (s.raft m).term ≤ (s'.raft m).term

theorem Drift.refl (s : Cluster) : Drift s s := ⟨rfl, rfl, fun _ => .refl _, fun _ => le_refl _⟩

theorem Drift.trans {s'' : Cluster} (h : Drift s s') (h' : Drift s' s'') : Drift s s'' :=
  ⟨h'.procs.trans h.procs, h'.answers.trans h.answers, fun m => (h.log m).trans (h'.log m),
    fun m => (h.term m).trans (h'.term m)⟩

/-- Only node `n` takes part. -/
structure Moved (s s' : Cluster) (n : NodeID) : Prop extends Drift s s' where
  other : ∀ m, m ≠ n → s'.raft m = s.raft m

theorem Moved.refl (s : Cluster) (n : NodeID) : Moved s s n := ⟨.refl s, fun _ _ => rfl⟩

theorem Moved.trans {s'' : Cluster} (h : Moved s s' n) (h' : Moved s' s'' n) : Moved s s'' n :=
  ⟨h.toDrift.trans h'.toDrift, fun m hm => (h'.other m hm).trans (h.other m hm)⟩

theorem Moved.of_node (hp : s'.procs = s.procs) (ha : s'.answers = s.answers) (hother : ∀ m, m ≠ n → s'.raft m = s.raft m)
    (hlog : SameLog (s.raft n) (s'.raft n)) (hterm : (s.raft n).term ≤ (s'.raft n).term) : Moved s s' n := by
  refine ⟨⟨hp, ha, fun m => ?_, fun m => ?_⟩, hother⟩ <;> by_cases hm : m = n
  · rw [hm]; exact hlog
  · rw [hother m hm]; exact .refl _
  · rw [hm]; exact hterm
  · rw [hother m hm]

theorem Moved.of_raft (hp : s'.procs = s.procs) (ha : s'.answers = s.answers) (hraft : s'.raft = s.raft) (n : NodeID) :
    Moved s s' n := by
  refine .of_node hp ha (fun m _ => by rw [hraft]) ?_ ?_ <;> rw [hraft]
  exact .refl _

theorem Orderly.moved {a : Action} (h : Orderly s a) (hc : Calm M B K s) (hs : s.step a = some s') (hm : Moved s s' n)
    (hn : n ∈ s.procs) (hterm : (s'.raft n).term ≤ B) : Onward M s s' ∧ Calm M B K s' := by
  refine h.moves hc hs hm.procs hm.other hterm ?_
  rw [(hm.log n).lastLogIndex]
  exact hc.indices n hn

/-- Time passes until the timer of a node fires. -/
theorem Calm.fires (hc : Calm M B K s) (hn : n ∈ s.procs) (hl : (s.raft n).state ≠ .leader)
    (hterm : (s.raft n).term + 1 ≤ B) :
    ∃ s' io, Onward M s s' ∧ Calm M B K s' ∧ Moved s s' n ∧ s'.raft n = ((s.raft n).startElectionLocked io).1 ∧
      (s'.raft n).term = (s.raft n).term + 1 ∧
      s'.tasks = s.tasks ++ ((s.raft n).startElectionLocked io).2.map (Prod.mk n) := by
  have hrem := hc.fixed.removed n
  obtain ⟨ms, hms⟩ : ∃ ms : Nat, minElectionTimeout ≤ s.clock + ms - (s.raft n).electionReset :=
    ⟨(minElectionTimeout + (s.raft n).electionReset - s.clock).toNat, by omega⟩
  obtain ⟨s₁, hs₁, hraft, htasks, hprocs, hans, hclock⟩ : ∃ s₁, s.step (.tick ms) = some s₁ ∧ s₁.raft = s.raft ∧
      s₁.tasks = s.tasks ∧ s₁.procs = s.procs ∧ s₁.answers = s.answers ∧ s₁.clock = s.clock + ms :=
    ⟨_, rfl, rfl, rfl, rfl, rfl, rfl⟩
  have hm₁ : Moved s s₁ n := .of_raft hprocs hans hraft n
  obtain ⟨ho₁, hc₁⟩ := (Orderly.tick ms).rests hc hs₁ hprocs hraft
  have hfire : (s₁.raft n).electionTick minElectionTimeout (s₁.envOf n {}) =
      (s.raft n).startElectionLocked (s₁.envOf n {}) := by
    rw [hraft]
    refine electionTick_fires hrem hl ?_
    show minElectionTimeout ≤ s₁.clock - _
    rw [hclock]; exact hms
  have hup : ((s.raft n).startElectionLocked (s₁.envOf n {})).1.term = (s.raft n).term + 1 := by
    by_cases hmaj : 1 < (s.raft n).majority
    · rw [startElectionLocked_asks hrem hmaj]
      exact (standing_fields ..).2.1
    · exact (startElectionLocked_alone hrem (by omega)).2.1
  obtain ⟨s₂, hs₂, hr₂, ht₂, hp₂, ha₂, ho₂⟩ : ∃ s₂, s₁.step (.electionTimeout n minElectionTimeout {}) = some s₂ ∧
      s₂.raft n = ((s.raft n).startElectionLocked (s₁.envOf n {})).1 ∧
      s₂.tasks = s.tasks ++ ((s.raft n).startElectionLocked (s₁.envOf n {})).2.map (Prod.mk n) ∧
      s₂.procs = s₁.procs ∧ s₂.answers = s₁.answers ∧ ∀ m, m ≠ n → s₂.raft m = s₁.raft m := by
    refine ⟨(s₁.setRaft n ((s.raft n).startElectionLocked (s₁.envOf n {})).1).spawn n
      ((s.raft n).startElectionLocked (s₁.envOf n {})).2, ?_, Function.update_self .., htasks ▸ rfl, rfl, rfl,
      fun m hm => Function.update_of_ne hm _ _⟩
    simp only [step, if_pos (show n ∈ s₁.procs ∧ minElectionTimeout ≤ minElectionTimeout from ⟨hprocs ▸ hn, le_refl _⟩),
      hfire]
  have hm₂ : Moved s₁ s₂ n := by
    refine .of_node hp₂ ha₂ ho₂ ?_ ?_
    · rw [hr₂, hraft]; exact (startElectionLocked_data ..).toSameLog
    · rw [hr₂, hup, hraft]; omega
  obtain ⟨ho, hc₂⟩ := (Orderly.timeout n minElectionTimeout {}).moved hc₁ hs₂ hm₂ (hprocs ▸ hn)
    (by rw [hr₂, hup]; exact hterm)
  exact ⟨s₂, _, ho₁.trans ho, hc₂, hm₁.trans hm₂, hr₂, by rw [hr₂, hup], ht₂⟩

/-- A node that does not lead stands for election: it wins at once, or asks every other member for its vote. -/
theorem Calm.campaigns (hc : Calm M B K s) (hn : n ∈ s.procs) (hl : (s.raft n).state ≠ .leader)
    (hterm : (s.raft n).term + 1 ≤ B) :
    ∃ s', Onward M s s' ∧ Calm M B K s' ∧ Moved s s' n ∧ (s'.raft n).term = (s.raft n).term + 1 ∧
      ((s.raft n).majority ≤ 1 ∧ Inaugurated (s'.raft n) ∧ (n, .heartbeatLoop) ∈ s'.tasks ∨
        1 < (s.raft n).majority ∧ (s'.raft n).state = .candidate ∧ (s'.raft n).votes = 1 ∧ 1 < (s'.raft n).majority ∧
          ∀ p ∈ M.peersOf n, p ≠ "" → (n, .requestVote ((s.raft n).term + 1) p) ∈ s'.tasks) := by
  have hrem := hc.fixed.removed n
  obtain ⟨s₁, io, ho₁, hc₁, hm₁, hr₁, hup, ht₁⟩ := hc.fires hn hl hterm
  have hn₁ : n ∈ s₁.procs := hm₁.procs ▸ hn
  by_cases hmaj : 1 < (s.raft n).majority
  · rw [startElectionLocked_asks hrem hmaj] at hr₁ ht₁
    replace hr₁ : s₁.raft n = (s.raft n).standing io := hr₁
    obtain ⟨hstate, _, hvotes, hmaj'⟩ := standing_fields (s.raft n) io
    rw [← hr₁] at hstate hvotes hmaj'
    have hx : s₁.tasks[s.tasks.length]? = some (n, .broadcastRequestVote ((s.raft n).term + 1)) := by
      rw [ht₁, List.getElem?_append_right (le_refl _), Nat.sub_self]; rfl
    have hs₂ : s₁.step (.run s.tasks.length .go {}) = some ((s₁.dropTask s.tasks.length).spawn n
        ((s₁.raft n).broadcastRequestVote ((s.raft n).term + 1))) := by
      simp only [step, hx, if_pos hn₁]
      rfl
    have hspeak : s₁.speaksInOffice (.run s.tasks.length .go {}) = true := by simp only [speaksInOffice, hx]
    obtain ⟨ho₂, hc₂⟩ := (Orderly.go {} hspeak).rests hc₁ hs₂ rfl rfl
    refine ⟨_, ho₁.trans ho₂, hc₂, hm₁.trans (.of_raft (by rfl) (by rfl) (by rfl) n), hup,
      .inr ⟨hmaj, hstate, hvotes, hmaj' ▸ hmaj, fun p hp hne => ?_⟩⟩
    refine List.mem_append_right _ (List.mem_map.2 ⟨_, List.mem_map.2 ⟨p, ?_, rfl⟩, rfl⟩)
    refine List.mem_filter.2 ⟨?_, decide_eq_true hne⟩
    rw [hc₁.fixed.peers]; exact hp
  · obtain ⟨helected, _, htasks⟩ := @startElectionLocked_alone _ io hrem (not_lt.1 hmaj)
    refine ⟨s₁, ho₁, hc₁, hm₁, hup, .inl ⟨not_lt.1 hmaj, hr₁ ▸ helected, ?_⟩⟩
    rw [ht₁, htasks]
    exact List.mem_append_right _ (List.mem_singleton_self _)

/-- A member that has not come to the term of a candidate hears of it: it follows into this term and answers. -/
theorem Calm.asked (hc : Calm M B K s) (hx : (c, .requestVote T p) ∈ s.tasks) (hcp : c ∈ s.procs)
    (hpp : p ∈ s.procs) (hne : p ≠ c) (hname : c ≠ "") (hlt : (s.raft p).term < T) (hT : T ≤ B) :
    ∃ s' call j resp, Onward M s s' ∧ Calm M B K s' ∧ Moved s s' p ∧ (s'.raft p).term = T ∧ (s'.raft p).state = .follower ∧
      (c, .awaitVote T p call) ∈ s'.tasks ∧ s'.replyTo call j = some (.requestVote resp) ∧ resp.term = (s.raft p).term ∧
      ((s.raft p).upToDate ((s.raft c).requestVoteRequest T) = true → resp.voteGranted = true) ∧
      ∀ x ∈ s.tasks, x ≠ (c, .requestVote T p) → x ∈ s'.tasks := by
  obtain ⟨i, hi⟩ := List.getElem?_of_mem hx
  have hTfit : int32 T = T := int32_of_fits ⟨by have := hc.nonneg p; omega, by have := hc.room.1; omega⟩
  -- the request is sent
  obtain ⟨s₁, hs₁, hraft, hprocs, hans, hreq, hrep, htask, hkeep⟩ : ∃ s₁, s.step (.run i .go {}) = some s₁ ∧
      s₁.raft = s.raft ∧ s₁.procs = s.procs ∧ s₁.answers = s.answers ∧
      s₁.requests = s.requests ++ [⟨c, p, .requestVote ((s.raft c).requestVoteRequest T)⟩] ∧ s₁.replies = s.replies ∧
      (c, .awaitVote T p s.requests.length) ∈ s₁.tasks ∧ ∀ x ∈ s.tasks, x ≠ (c, .requestVote T p) → x ∈ s₁.tasks := by
    refine ⟨(s.dropTask i).send c p (.requestVote ((s.raft c).requestVoteRequest T)) (.awaitVote T p), ?_, rfl, rfl,
      rfl, rfl,
      rfl, List.mem_append_right _ (List.mem_singleton_self _),
      fun x hx hne => List.mem_append_left _ (mem_dropTask hi hx hne)⟩
    simp only [step, hi, if_pos hcp]
    rfl
  obtain ⟨ho₁, hc₁⟩ := (Orderly.go {} (by simp only [speaksInOffice, hi])).rests hc hs₁ hprocs hraft
  -- and handled
  have hcall : s₁.requests[s.requests.length]? = some ⟨c, p, .requestVote ((s.raft c).requestVoteRequest T)⟩ := by
    rw [hreq, List.getElem?_append_right (le_refl _), Nat.sub_self]; rfl
  have hterm : (s.raft p).term < ((s.raft c).requestVoteRequest T).term := by
    show (s.raft p).term < int32 T
    rw [hTfit]; exact hlt
  have hcand : (s.raft p).isKnownNode ((s.raft c).requestVoteRequest T).candidateId = true := by
    show (s.raft p).isKnownNode (s.raft c).id = true
    rw [hc.fixed.id]; exact hc.fixed.known (hc.fixed.procs c hcp) hne hname
  obtain ⟨hT', hstate⟩ := requestVote_adopts hcand hterm (s₁.envOf p {})
  replace hT' : (((s.raft p).requestVote ((s.raft c).requestVoteRequest T) (s₁.envOf p {}))).1.term = T := hT'.trans hTfit
  obtain ⟨s₂, hs₂, hr₂, hp₂, ha₂, ho₂, htasks₂, hrep₂⟩ : ∃ s₂, s₁.step (.deliver s.requests.length {}) = some s₂ ∧
      s₂.raft p = ((s.raft p).requestVote ((s.raft c).requestVoteRequest T) (s₁.envOf p {})).1 ∧ s₂.procs = s₁.procs ∧
      s₂.answers = s₁.answers ∧ (∀ m, m ≠ p → s₂.raft m = s₁.raft m) ∧ s₂.tasks = s₁.tasks ∧
      s₂.replies = s.replies ++ [(s.requests.length,
        .requestVote ((s.raft p).requestVote ((s.raft c).requestVoteRequest T) (s₁.envOf p {})).2)] := by
    refine ⟨(s₁.setRaft p ((s.raft p).requestVote ((s.raft c).requestVoteRequest T) (s₁.envOf p {})).1).reply
      s.requests.length (.requestVote ((s.raft p).requestVote ((s.raft c).requestVoteRequest T) (s₁.envOf p {})).2), ?_,
      Function.update_self .., rfl, rfl, fun m hm => Function.update_of_ne hm _ _, rfl, hrep ▸ rfl⟩
    simp only [step, hcall, hprocs, if_pos hpp, handle, hraft]
  have hm₂ : Moved s₁ s₂ p := by
    refine .of_node hp₂ ha₂ ho₂ ?_ ?_
    · rw [hr₂, hraft]; exact (requestVote_data ..).toSameLog
    · rw [hr₂, hT', hraft]; exact le_of_lt hlt
  obtain ⟨ho, hc₂⟩ := (Orderly.handleVote {} hcall).moved hc₁ hs₂ hm₂ (hprocs ▸ hpp) (by rw [hr₂, hT']; exact hT)
  have hreply : s₂.replyTo s.requests.length s.replies.length =
      some (.requestVote ((s.raft p).requestVote ((s.raft c).requestVoteRequest T) (s₁.envOf p {})).2) := by
    simp only [replyTo, hrep₂, List.getElem?_append_right (le_refl _), Nat.sub_self, List.getElem?_cons_zero, if_true]
  refine ⟨s₂, s.requests.length, s.replies.length, _, ho₁.trans ho, hc₂, (Moved.of_raft hprocs hans hraft p).trans hm₂,
    hr₂ ▸ hT', hr₂ ▸ hstate, htasks₂ ▸ htask, hreply, ?_, fun hu => ?_, fun x hx hne => htasks₂ ▸ hkeep x hx hne⟩
  · have hfit := int32_of_fits (hc.fitsTerm hpp)
    have ho := requestVote_outcome (s.raft p) ((s.raft c).requestVoteRequest T) (s₁.envOf p {})
    generalize (s.raft p).requestVote ((s.raft c).requestVoteRequest T) (s₁.envOf p {}) = out at ho ⊢
    cases ho <;> exact hfit
  · rw [requestVote_grants hcand hterm hu]

/-- A candidate counts a vote that it is granted. -/
theorem Calm.counted (hc : Calm M B K s) {call j : Nat} {resp : RequestVoteResponse}
    (hx : (c, .awaitVote T p call) ∈ s.tasks) (hr : s.replyTo call j = some (.requestVote resp)) (hcp : c ∈ s.procs)
    (hcand : (s.raft c).state = .candidate) (hterm : (s.raft c).term = T) (hle : resp.term ≤ T)
    (hg : resp.voteGranted = true) :
    ∃ s', Onward M s s' ∧ Calm M B K s' ∧ Moved s s' c ∧ (s'.raft c).term = T ∧
      (Inaugurated (s'.raft c) ∧ (c, .heartbeatLoop) ∈ s'.tasks ∨
        (s'.raft c).state = .candidate ∧ (s'.raft c).votes = (s.raft c).votes + 1 ∧
          (s'.raft c).votes < (s'.raft c).majority) ∧
      ∀ x ∈ s.tasks, x ≠ (c, .awaitVote T p call) → x ∈ s'.tasks := by
  obtain ⟨i, hi⟩ := List.getElem?_of_mem hx
  obtain ⟨ht, hout⟩ := handleVoteResponse_counts hcand (hterm.symm ▸ hle) hg
  have hs : s.step (.run i (.reply j) {}) = some (((s.dropTask i).setRaft c ((s.raft c).handleVoteResponse resp).1).spawn c
      ((s.raft c).handleVoteResponse resp).2) := by
    have hr' : (s.dropTask i).replyTo call j = some (.requestVote resp) := hr
    simp only [step, hi, if_pos hcp, runTask, hr']
    rfl
  generalize hs' : ((s.dropTask i).setRaft c ((s.raft c).handleVoteResponse resp).1).spawn c
      ((s.raft c).handleVoteResponse resp).2 = s' at hs
  have hraft : s'.raft c = ((s.raft c).handleVoteResponse resp).1 := by
    rw [← hs']; exact Function.update_self ..
  have hm : Moved s s' c := by
    refine .of_node (by rw [← hs']; rfl) (by rw [← hs']; rfl) (fun m hm => ?_)
      (hraft ▸ (handleVoteResponse_data ..).toSameLog)
      (by rw [hraft, ht])
    rw [← hs']; exact Function.update_of_ne hm _ _
  obtain ⟨ho, hc'⟩ := (Orderly.countVote j {} hi hterm).moved hc hs hm hcp (by rw [hraft, ht]; exact hc.terms c hcp)
  have hmaj : (s'.raft c).majority = (s.raft c).majority := by
    unfold majority
    rw [hc'.fixed.peers, hc.fixed.peers]
  refine ⟨s', ho, hc', hm, by rw [hraft, ht, hterm], ?_, fun x hx hne => ?_⟩
  · rw [hmaj, hraft]
    rcases hout with ⟨helected, hloop⟩ | ⟨hst, hv, hlt⟩
    · refine .inl ⟨helected, ?_⟩
      rw [← hs', spawn_tasks, hloop]
      exact List.mem_append_right _ (List.mem_singleton_self _)
    · exact .inr ⟨hst, hv, by omega⟩
  · rw [← hs']
    exact List.mem_append_left _ (mem_dropTask hi hx hne)

/-! ## Winning -/

/-- The log of `r` is at least as recent as that of `r'`. -/
def Fresher (r r' : Raft) : Prop :=
  r'.lastLogTerm < r.lastLogTerm ∨ r'.lastLogTerm = r.lastLogTerm ∧ r'.lastLogIndex ≤ r.lastLogIndex

theorem Fresher.upToDate {r r' : Raft} (h : Fresher r r') (hi : Fits r.lastLogIndex) (ht : Fits r.lastLogTerm) :
    r'.upToDate (r.requestVoteRequest T) = true := by
  simp only [Raft.upToDate, requestVoteRequest, int32_of_fits hi, int32_of_fits ht, Bool.or_eq_true, decide_eq_true_eq,
    Bool.and_eq_true, beq_iff_eq]
  rcases h with h | ⟨h1, h2⟩
  · exact .inl h
  · exact .inr ⟨h1.symm, h2⟩

theorem Fresher.congr {r r' q q' : Raft} (h : Fresher r r') (hq : SameLog r q) (hq' : SameLog r' q') : Fresher q q' := by
  unfold Fresher Raft.lastLogTerm at h ⊢
  rw [hq.log, hq'.log, hq.lastLogIndex, hq'.lastLogIndex]
  exact h

/-- A candidate that can still ask enough members with older terms and logs wins. -/
theorem Calm.wins (hname : c ≠ "") (hT : T ≤ B) (l : List NodeID) (hc : Calm M B K s) (hcp : c ∈ s.procs)
    (hcand : (s.raft c).state = .candidate) (hterm : (s.raft c).term = T)
    (hmaj : (s.raft c).votes < (s.raft c).majority) (henough : (s.raft c).majority ≤ (s.raft c).votes + l.length)
    (hnodup : l.Nodup) (hnot : c ∉ l) (hask : ∀ p ∈ l, (c, .requestVote T p) ∈ s.tasks)
    (hup : ∀ p ∈ l, p ∈ s.procs ∧ (s.raft p).term < T ∧ Fresher (s.raft c) (s.raft p)) :
    ∃ s', Onward M s s' ∧ Calm M B K s' ∧ Drift s s' ∧ Inaugurated (s'.raft c) ∧ (c, .heartbeatLoop) ∈ s'.tasks ∧
      (s'.raft c).term = T ∧ ∀ m, m ≠ c → s'.raft m = s.raft m ∨ (s'.raft m).term = T := by
  induction l generalizing s with
  | nil =>
    rw [List.length_nil] at henough
    omega
  | cons p l ih =>
    obtain ⟨hpp, hlt, hfresh⟩ := hup p List.mem_cons_self
    have hpc : p ≠ c := fun h => hnot (h ▸ List.mem_cons_self)
    obtain ⟨s₁, call, j, resp, ho₁, hc₁, hm₁, ht₁, _, hx₁, hr₁, hresp, hgrant, hk₁⟩ :=
      hc.asked (hask p List.mem_cons_self) hcp hpp hpc hname hlt hT
    have hsame : s₁.raft c = s.raft c := hm₁.other c (Ne.symm hpc)
    obtain ⟨s₂, ho₂, hc₂, hm₂, ht₂, hout, hk₂⟩ := hc₁.counted hx₁ hr₁ (hm₁.procs ▸ hcp) (hsame ▸ hcand) (hsame ▸ hterm)
      (hresp ▸ le_of_lt hlt) (hgrant (hfresh.upToDate (hc.fitsIndex hcp) (hc.fitsLastTerm hcp)))
    have hdrift : Drift s s₂ := hm₁.toDrift.trans hm₂.toDrift
    have hother : ∀ m, m ≠ c → m ≠ p → s₂.raft m = s.raft m := fun m h1 h2 => (hm₂.other m h1).trans (hm₁.other m h2)
    have hmoved : ∀ m, m ≠ c → s₂.raft m = s.raft m ∨ (s₂.raft m).term = T := by
      intro m hm
      by_cases hmp : m = p
      · subst hmp
        exact .inr (by rw [hm₂.other m hm]; exact ht₁)
      · exact .inl (hother m hm hmp)
    rcases hout with ⟨hlead, hloop⟩ | ⟨hcand₂, hv₂, hmaj₂⟩
    · exact ⟨s₂, ho₁.trans ho₂, hc₂, hdrift, hlead, hloop, ht₂, hmoved⟩
    · have hmajeq : (s₂.raft c).majority = (s.raft c).majority := by
        unfold majority
        rw [hc₂.fixed.peers, hc.fixed.peers]
      obtain ⟨hpl, hnodup⟩ := List.nodup_cons.1 hnodup
      have hpne : ∀ q ∈ l, q ≠ p := fun q hq h => hpl (h ▸ hq)
      have hcne : ∀ q ∈ l, q ≠ c := fun q hq h => hnot (h ▸ List.mem_cons_of_mem _ hq)
      obtain ⟨s', ho, hc', hd, hlead, hloop, ht, hrest⟩ := ih hc₂ (hdrift.procs ▸ hcp) hcand₂ ht₂ hmaj₂
        (by rw [hmajeq, hv₂, hsame]; rw [List.length_cons] at henough; push_cast at henough; omega) hnodup
        (fun h => hnot (List.mem_cons_of_mem _ h))
        (fun q hq => by
          refine hk₂ _ (hk₁ _ (hask q (List.mem_cons_of_mem _ hq)) ?_) ?_
          · rintro ⟨⟩
            exact hpne p hq rfl
          · rintro ⟨⟩)
        (fun q hq => by
          obtain ⟨h1, h2, h3⟩ := hup q (List.mem_cons_of_mem _ hq)
          refine ⟨hdrift.procs ▸ h1, ?_, h3.congr (hdrift.log c) (hdrift.log q)⟩
          rw [hother q (hcne q hq) (hpne q hq)]; exact h2)
      refine ⟨s', (ho₁.trans ho₂).trans ho, hc', hdrift.trans hd, hlead, hloop, ht, fun m hm => ?_⟩
      rcases hrest m hm with h | h
      · rw [h]; exact hmoved m hm
      · exact .inr h

variable {Q : Finset NodeID}

/-- A majority is as many nodes as a candidate needs votes. -/
theorem Fixed.majority_le (h : Fixed M s) (hQ : IsMajority M.ids.toFinset Q) (hn : n ∈ Q) :
    (s.raft n).majority ≤ 1 + ((Q.erase n).toList.length : Int) := by
  have hcard : M.ids.toFinset.card = (M.peersOf n).length + 1 := by
    rw [← voters_eq (List.mem_toFinset.1 (hQ.sub hn)),
      Finset.card_insert_of_notMem (by rw [List.mem_toFinset]; exact M.not_mem_peersOf n),
      List.toFinset_card_of_nodup (M.peersOf_nodup n)]
  have hlt := hQ.card
  have hpos : 0 < Q.card := Finset.card_pos.2 ⟨n, hn⟩
  rw [Finset.length_toList, Finset.card_erase_of_mem hn, majority, h.peers]
  omega

/-- One vote is no majority where there is another member. -/
theorem Fixed.one_lt_majority (h : Fixed M s) (hm : m ∈ M.ids) (hne : m ≠ n) : 1 < (s.raft n).majority := by
  have hpos : 0 < (M.peersOf n).length :=
    List.length_pos_of_mem (List.mem_filter.2 ⟨hm, decide_eq_true hne⟩)
  rw [majority, h.peers]
  omega

/-- `c` leads a term that is new to the nodes of `Q`, and has begun to send heartbeats. -/
structure Prevails (Q : Finset NodeID) (s s' : Cluster) (c : NodeID) : Prop extends Drift s s' where
  elected : Inaugurated (s'.raft c)
  beats : (c, .heartbeatLoop) ∈ s'.tasks
  newer : ∀ m ∈ Q, m ≠ c → (s.raft m).term < (s'.raft c).term
  newest : ∀ m ∈ Q, (s'.raft m).term ≤ (s'.raft c).term

theorem Prevails.after {s₀ : Cluster} (h : Prevails Q s s' c) (hd : Drift s₀ s) : Prevails Q s₀ s' c :=
  ⟨hd.trans h.toDrift, h.elected, h.beats, fun m hm hne => lt_of_le_of_lt (hd.term m) (h.newer m hm hne), h.newest⟩

/-- A node of a majority that knows the newest term among them, and has the most recent log, becomes their leader. -/
theorem Calm.elects (hc : Calm M B K s) (hQ : IsMajority M.ids.toFinset Q) (hup : ∀ n ∈ Q, n ∈ s.procs)
    (hname : "" ∉ Q) (hcQ : c ∈ Q) (hl : (s.raft c).state ≠ .leader) (hroom : (s.raft c).term + 1 ≤ B)
    (hmax : ∀ m ∈ Q, (s.raft m).term ≤ (s.raft c).term) (hfresh : ∀ m ∈ Q, Fresher (s.raft c) (s.raft m)) :
    ∃ s', Onward M s s' ∧ Calm M B K s' ∧ Prevails Q s s' c := by
  obtain ⟨s₁, ho₁, hc₁, hm₁, ht₁, hout⟩ := hc.campaigns (hup c hcQ) hl hroom
  have hnewer : ∀ m ∈ Q, m ≠ c → (s.raft m).term < (s₁.raft c).term := by
    intro m hm _
    have := hmax m hm
    rw [ht₁]
    omega
  have hold : ∀ m ∈ Q, m ≠ c → (s₁.raft m).term < (s₁.raft c).term := by
    intro m hm hne
    rw [hm₁.other m hne]
    exact hnewer m hm hne
  rcases hout with ⟨_, hlead, hloop⟩ | ⟨_, hcand, hvotes, hmaj, hask⟩
  · refine ⟨s₁, ho₁, hc₁, hm₁.toDrift, hlead, hloop, hnewer, fun m hm => ?_⟩
    by_cases hne : m = c
    · rw [hne]
    · exact le_of_lt (hold m hm hne)
  · have hcname : c ≠ "" := fun h => hname (h ▸ hcQ)
    obtain ⟨s', ho, hc', hd, hlead, hloop, hterm, hrest⟩ := Calm.wins hcname (ht₁ ▸ hroom) (Q.erase c).toList hc₁
      (hm₁.procs ▸ hup c hcQ) hcand rfl (by omega) (by have := hc₁.fixed.majority_le hQ hcQ; omega) (Finset.nodup_toList _)
      (fun h => (Finset.mem_erase.1 (Finset.mem_toList.1 h)).1 rfl)
      (fun p hp => by
        obtain ⟨hpc, hpQ⟩ := Finset.mem_erase.1 (Finset.mem_toList.1 hp)
        rw [ht₁]
        exact hask p (List.mem_filter.2 ⟨List.mem_toFinset.1 (hQ.sub hpQ), decide_eq_true hpc⟩) fun h => hname (h ▸ hpQ))
      (fun p hp => by
        obtain ⟨hpc, hpQ⟩ := Finset.mem_erase.1 (Finset.mem_toList.1 hp)
        exact ⟨hm₁.procs ▸ hup p hpQ, hold p hpQ hpc, (hfresh p hpQ).congr (hm₁.log c) (hm₁.log p)⟩)
    refine ⟨s', ho₁.trans ho, hc', hm₁.toDrift.trans hd, hlead, hloop, hterm ▸ hnewer, fun m hm => ?_⟩
    by_cases hne : m = c
    · rw [hne]
    · rcases hrest m hne with h | h
      · rw [h, hterm]; exact le_of_lt (hold m hm hne)
      · rw [h, hterm]

theorem exists_freshest (s : Cluster) (hQ : Q.Nonempty) : ∃ c ∈ Q, ∀ m ∈ Q, Fresher (s.raft c) (s.raft m) := by
  obtain ⟨c, hc, hmax⟩ := Finset.exists_max_image Q (fun n => toLex ((s.raft n).lastLogTerm, (s.raft n).lastLogIndex)) hQ
  refine ⟨c, hc, fun m hm => ?_⟩
  have h := hmax m hm
  rw [Prod.Lex.toLex_le_toLex] at h
  exact h

/-- A node stands for election over and over until it has come to term `T`. -/
theorem Calm.raises (k : Nat) (hc : Calm M B K s) (hn : n ∈ s.procs) (hl : (s.raft n).state ≠ .leader) (hT : T ≤ B)
    (hk : (s.raft n).term + k = T) (hmaj : k = 0 ∨ 1 < (s.raft n).majority) :
    ∃ s', Onward M s s' ∧ Calm M B K s' ∧ Moved s s' n ∧ (s'.raft n).term = T ∧ (s'.raft n).state ≠ .leader := by
  induction k generalizing s with
  | zero => exact ⟨s, .refl s, hc, .refl s n, by omega, hl⟩
  | succ k ih =>
    obtain ⟨s₁, ho₁, hc₁, hm₁, ht₁, hout⟩ := hc.campaigns hn hl (by push_cast at hk; omega)
    rcases hout with ⟨halone, _⟩ | ⟨_, hcand, _, hmaj₁, _⟩
    · rcases hmaj with hmaj | hmaj
      · cases hmaj
      · omega
    · obtain ⟨s', ho, hc', hm, ht, hl'⟩ := ih hc₁ (hm₁.procs ▸ hn) (by rw [hcand]; exact nofun)
        (by rw [ht₁]; push_cast at hk; omega) (.inr hmaj₁)
      exact ⟨s', ho₁.trans ho, hc', hm₁.trans hm, ht, hl'⟩

/-- Where one node of a majority does not lead, it can have a new leader: that node comes to the newest term among them,
and if the one with the most recent log is another, which leads, it is deposed first. -/
theorem Calm.reelects {e : NodeID} (hc : Calm M B K s) (hQ : IsMajority M.ids.toFinset Q) (hup : ∀ n ∈ Q, n ∈ s.procs)
    (hname : "" ∉ Q) (hroom : ∀ n ∈ Q, (s.raft n).term + 2 ≤ B) (he : e ∈ Q) (hl : (s.raft e).state ≠ .leader) :
    ∃ s' c, c ∈ Q ∧ Onward M s s' ∧ Calm M B K s' ∧ Prevails Q s s' c := by
  have hne : Q.Nonempty := ⟨e, he⟩
  obtain ⟨c, hcQ, hfresh⟩ := exists_freshest s hne
  obtain ⟨d, hdQ, hmax⟩ := Finset.exists_max_image Q (fun n => (s.raft n).term) hne
  have hdroom := hroom d hdQ
  -- who does not lead comes to the newest term
  have hraise : ∀ x ∈ Q, (s.raft x).state ≠ .leader → ∃ s', Onward M s s' ∧ Calm M B K s' ∧ Moved s s' x ∧
      (s'.raft x).term = (s.raft d).term ∧ (s'.raft x).state ≠ .leader := by
    intro x hx hxl
    have hle := hmax x hx
    refine Calm.raises ((s.raft d).term - (s.raft x).term).toNat hc (hup x hx) hxl (by omega) (by omega) ?_
    by_cases hxd : x = d
    · left
      rw [hxd]
      omega
    · exact .inr (hc.fixed.one_lt_majority (List.mem_toFinset.1 (hQ.sub hdQ)) (Ne.symm hxd))
  -- and who has come to it and has the most recent log wins
  have hwin : ∀ {s₁ : Cluster}, Onward M s s₁ → Calm M B K s₁ → Drift s s₁ → (s₁.raft c).state ≠ .leader →
      (s₁.raft c).term + 1 ≤ B → (∀ m ∈ Q, (s₁.raft m).term ≤ (s₁.raft c).term) →
      ∃ s' c, c ∈ Q ∧ Onward M s s' ∧ Calm M B K s' ∧ Prevails Q s s' c := by
    intro s₁ ho₁ hc₁ hd₁ hl₁ hr₁ hm₁
    obtain ⟨s', ho, hc', hwon⟩ := hc₁.elects hQ (fun n hn => hd₁.procs ▸ hup n hn) hname hcQ hl₁ hr₁ hm₁
      fun m hm => (hfresh m hm).congr (hd₁.log c) (hd₁.log m)
    exact ⟨s', c, hcQ, ho₁.trans ho, hc', hwon.after hd₁⟩
  by_cases hcl : (s.raft c).state = .leader
  · have hec : e ≠ c := by
      rintro rfl
      exact hl hcl
    obtain ⟨s₁, ho₁, hc₁, hm₁, ht₁, hl₁⟩ := hraise e he hl
    obtain ⟨s₂, ho₂, hc₂, hm₂, ht₂, hout⟩ := hc₁.campaigns (hm₁.procs ▸ hup e he) hl₁ (by rw [ht₁]; omega)
    rcases hout with ⟨halone, _⟩ | ⟨_, _, _, _, hask⟩
    · have := hc₁.fixed.one_lt_majority (List.mem_toFinset.1 (hQ.sub hcQ)) (Ne.symm hec)
      omega
    · have hd₂ := hm₁.toDrift.trans hm₂.toDrift
      have hsame : s₂.raft c = s.raft c := (hm₂.other c (Ne.symm hec)).trans (hm₁.other c (Ne.symm hec))
      have hcle := hmax c hcQ
      obtain ⟨s₃, _, _, _, ho₃, hc₃, hm₃, ht₃, hstate, _⟩ := hc₂.asked
        (hask c (List.mem_filter.2 ⟨List.mem_toFinset.1 (hQ.sub hcQ), decide_eq_true (Ne.symm hec)⟩)
          fun h => hname (h ▸ hcQ))
        (hd₂.procs ▸ hup e he) (hd₂.procs ▸ hup c hcQ) (Ne.symm hec) (fun h => hname (h ▸ he)) (by rw [hsame, ht₁]; omega)
        (by rw [ht₁]; omega)
      refine hwin ((ho₁.trans ho₂).trans ho₃) hc₃ (hd₂.trans hm₃.toDrift) (by rw [hstate]; exact nofun)
        (by rw [ht₃, ht₁]; omega) fun m hm => ?_
      by_cases hmc : m = c
      · rw [hmc]
      · rw [hm₃.other m hmc, ht₃, ht₁]
        by_cases hme : m = e
        · rw [hme, ht₂, ht₁]
        · have := hmax m hm
          rw [hm₂.other m hme, hm₁.other m hme]
          omega
  · obtain ⟨s₁, ho₁, hc₁, hm₁, ht₁, hl₁⟩ := hraise c hcQ hcl
    refine hwin ho₁ hc₁ hm₁.toDrift hl₁ (by rw [ht₁]; omega) fun m hm => ?_
    by_cases hmc : m = c
    · rw [hmc]
    · rw [hm₁.other m hmc, ht₁]
      exact hmax m hm

/-- In every state of a run with fixed membership that keeps the conditions `recoversKept`, those of the steps
(`choicesKept`) and those of the restarts, whatever was lost, delayed, split or restarted before, a majority of the
members that is up and in which none has the empty name can elect a leader: the run can go on under the same conditions
to a state in which one of them leads a term that none of them has passed, as long as terms and indices fit the
messages. -/
theorem election_winnable (M : Members) {h : List (Cluster × RestartAction)} {s : Cluster} {Q : Finset NodeID}
    (hr : M.restarts.Run (fun s l => s.recoversKept M l = true) h s) (hQ : IsMajority M.ids.toFinset Q)
    (hup : ∀ n ∈ Q, n ∈ s.procs) (hname : "" ∉ Q)
    (hfit : ∀ n ∈ s.procs, Fits ((s.raft n).term + 2) ∧ Fits (s.raft n).lastLogIndex) :
    ∃ h' s', M.restarts.Run (fun s l => s.recoversKept M l = true) (h' ++ h) s' ∧
      ∃ n ∈ Q, (s'.raft n).state = .leader ∧ ∀ m ∈ Q, (s'.raft m).term ≤ (s'.raft n).term := by
  obtain ⟨hsaved, hinv⟩ := CommitInv.run hr
  have hc : Calm M (2 ^ 31 - 1) (2 ^ 31 - 1) s := by
    refine ⟨⟨by omega, by omega⟩, hsaved, hinv, fun n hn => ?_, fun n hn => ?_⟩
    · have := (hfit n hn).1.2
      omega
    · have := (hfit n hn).2.2
      omega
  have hne : Q.Nonempty := Finset.card_pos.1 (by have := hQ.card; omega)
  obtain ⟨d, hdQ, hmax⟩ := Finset.exists_max_image Q (fun n => (s.raft n).term) hne
  by_cases hd : (s.raft d).state = .leader
  · exact ⟨[], s, hr, d, hdQ, hd, hmax⟩
  · obtain ⟨s', c, hcQ, ho, _, hwon⟩ := hc.reelects hQ hup hname (fun n hn => by
      have := (hfit n (hup n hn)).1.2
      omega) hdQ hd
    obtain ⟨h', hr'⟩ := hr.leads ho
    exact ⟨h', s', hr', c, hcQ, hwon.elected.state, hwon.newest⟩

/-- All three time out at once and vote for themselves. -/
def splitVote : List RestartAction :=
  ([.tick 2000, .electionTimeout "A" 1500 {}, .electionTimeout "B" 1500 {}, .electionTimeout "C" 1500 {}] : List Action).map
    fun a => .life (.step a)

theorem election_winnable_splitVote :
    ∃ h s, threeNodes.restarts.Run (fun s l => s.recoversKept threeNodes l = true) h s ∧
      (∀ n ∈ threeNodes.ids, (s.raft n).state = .candidate ∧ (s.raft n).term = 1 ∧ (s.raft n).votedFor = n) ∧
      ∃ h' s', threeNodes.restarts.Run (fun s l => s.recoversKept threeNodes l = true) (h' ++ h) s' ∧
        ∃ n ∈ ({"A", "C"} : Finset NodeID), (s'.raft n).state = .leader := by
  obtain ⟨h, s, hr, hcand, hup, hfit⟩ := Machine.exists_run (S := threeNodes.restarts)
    (fun s l => Cluster.recoversKept threeNodes s l = true)
    (fun _ s => (∀ n ∈ threeNodes.ids, (s.raft n).state = .candidate ∧ (s.raft n).term = 1 ∧ (s.raft n).votedFor = n) ∧
      (∀ n ∈ ({"A", "C"} : Finset NodeID), n ∈ s.procs) ∧
      ∀ n ∈ s.procs, Fits ((s.raft n).term + 2) ∧ Fits (s.raft n).lastLogIndex)
    (threeNodes.machine_init false false) splitVote (by decide +kernel)
  obtain ⟨h', s', hr', n, hn, hl, _⟩ := election_winnable threeNodes hr ⟨by decide, by decide⟩ hup (by decide) hfit
  exact ⟨h, s, hr, hcand, h', s', hr', n, hn, hl⟩

end Cluster

end Mimori
