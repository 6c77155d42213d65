/-
The vote invariant: every vote a candidate has counted is a vote that a distinct peer granted it in
its current term, and a node grants at most one vote per term. It holds for any membership, also a
changing one, in runs where a granted vote is counted in the term it was asked in, a candidate
applies no configuration entry and a removed node grants nothing.
-/
import Mimori.Election.Roles
import Mimori.Cluster.Cases
import Mimori.Base.Run
import Mimori.Base.Quorum
import Mathlib.Data.List.Nodup
import Mathlib.Data.List.Perm.Basic
import Mathlib.Data.Finset.Insert
import Mathlib.Tactic

namespace Mimori

open Raft

namespace Cluster

/-! ## Votes in the network -/

/-- The vote a goroutine still asks for: who asks, in which term, and whom. -/
def askOf : NodeID × Task → Option (NodeID × Int × NodeID)
  | (n, .requestVote term peer) => some (n, term, peer)
  | (n, .awaitVote term peer _) => some (n, term, peer)
  | _ => none

/-- The election whose requests a goroutine has still to send. -/
def broadcastOf : NodeID × Task → Option (NodeID × Int)
  | (n, .broadcastRequestVote term) => some (n, term)
  | _ => none

def asks (s : Cluster) : List (NodeID × Int × NodeID) := s.tasks.filterMap askOf

def broadcasts (s : Cluster) : List (NodeID × Int) := s.tasks.filterMap broadcastOf

/-- A goroutine that has nothing to do with an election. -/
def Quiet (t : Task) : Prop := ∀ n, askOf (n, t) = none ∧ broadcastOf (n, t) = none

/-- Request `call` asks `p` to vote for `n` in term `T`. -/
def VoteRequest (s : Cluster) (call : Nat) (n p : NodeID) (T : Int) : Prop :=
  ∃ req, s.requests[call]? = some ⟨n, p, .requestVote req⟩ ∧ req.term = T ∧ req.candidateId = n

/-- `p` answered a request of `n` for term `T` with its vote. -/
def Granted (s : Cluster) (p n : NodeID) (T : Int) : Prop :=
  ∃ call resp, s.VoteRequest call n p T ∧ (call, .requestVote resp) ∈ s.replies ∧ resp.voteGranted = true

/-- `Q` are the peers whose votes candidate `n` has counted. -/
structure Tally (s : Cluster) (n : NodeID) (Q : Finset NodeID) : Prop where
  votes : (s.raft n).votes = Q.card + 1
  sub : ∀ p ∈ Q, p ∈ (s.raft n).peers
  granted : ∀ p ∈ Q, s.Granted p n (s.raft n).term
  asked : ∀ p ∈ Q, (n, (s.raft n).term, p) ∉ s.asks ∧ (n, (s.raft n).term) ∉ s.broadcasts

/-- `n` was elected in term `T` by a majority of itself and the peers `P`. -/
def Won (s : Cluster) (n : NodeID) (T : Int) (P : List NodeID) : Prop :=
  ∃ Q : Finset NodeID, n ∉ Q ∧ (∀ p ∈ Q, p ∈ P ∧ s.Granted p n T) ∧ P.length + 1 < 2 * (Q.card + 1)

theorem Won.mono {s s' : Cluster} {n : NodeID} {T : Int} {P : List NodeID} (h : s.Won n T P)
    (hg : ∀ p, s.Granted p n T → s'.Granted p n T) : s'.Won n T P := by
  obtain ⟨Q, h1, h2, h3⟩ := h
  exact ⟨Q, h1, fun p hp => ⟨(h2 p hp).1, hg p (h2 p hp).2⟩, h3⟩

/-! ## The invariant -/

/-- The campaigns of a run so far: who asked for votes, in which term, from which peers. -/
abbrev Campaigns := NodeID → Int → List NodeID → Prop

structure VoteInv (C : Campaigns) (s : Cluster) : Prop where
  id : ∀ n, (s.raft n).id = n
  nonneg : ∀ n, 0 ≤ (s.raft n).term
  peers : ∀ n, (s.raft n).peers.Nodup ∧ n ∉ (s.raft n).peers
  asksNodup : s.asks.Nodup
  broadcastsNodup : s.broadcasts.Nodup
  apart : ∀ n T p, (n, T) ∈ s.broadcasts → (n, T, p) ∉ s.asks
  askTerm : ∀ n T p, (n, T, p) ∈ s.asks → p ≠ "" ∧ 0 ≤ T ∧ T ≤ (s.raft n).term
  broadcastTerm : ∀ n T, (n, T) ∈ s.broadcasts → 0 ≤ T ∧ T ≤ (s.raft n).term
  askPeer : ∀ n T p, (n, T, p) ∈ s.asks → (s.raft n).state = .candidate → (s.raft n).term = T →
    p ∈ (s.raft n).peers
  await : ∀ n T p call, (n, .awaitVote T p call) ∈ s.tasks → s.VoteRequest call n p T
  request : ∀ (call : Nat) n p req, s.requests[call]? = some ⟨n, p, .requestVote req⟩ →
    p ≠ "" ∧ req.candidateId = n ∧ req.term ≤ (s.raft n).term
  replied : ∀ x ∈ s.replies, x.1 < s.requests.length
  voted : ∀ p n T, s.Granted p n T → n ≠ "" ∧ T ≤ (s.raft p).term ∧
    ((s.raft p).term = T → (s.raft p).votedFor = n ∨ (s.raft p).removedFromCluster = true)
  unique : ∀ p n m T, s.Granted p n T → s.Granted p m T → n = m
  self : ∀ n, (s.raft n).state ≠ .follower → (s.raft n).votedFor = n
  removed : ∀ n, (s.raft n).removedFromCluster = true → (s.raft n).state = .follower
  tally : ∀ n, (s.raft n).state = .candidate → C n (s.raft n).term (s.raft n).peers ∧ ∃ Q, s.Tally n Q
  leader : ∀ n, (s.raft n).state = .leader → ∃ P, C n (s.raft n).term P ∧ s.Won n (s.raft n).term P

variable {C : Campaigns} {s : Cluster} {m n p : NodeID} {r : Raft} {T : Int} {i call : Nat} {x : NodeID × Task}

/-! ## Steps that do not touch elections -/

/-- `s'` differs from `s` in nothing the vote invariant looks at, except that goroutines may be gone. -/
structure VoteFrame (s s' : Cluster) : Prop where
  raft : ∀ n, SameVotes (s.raft n) (s'.raft n)
  asks : s'.asks.Sublist s.asks
  broadcasts : s'.broadcasts.Sublist s.broadcasts
  await : ∀ n T p call, (n, .awaitVote T p call) ∈ s'.tasks → (n, .awaitVote T p call) ∈ s.tasks
  request : ∀ (call : Nat) n p req, s'.requests[call]? = some ⟨n, p, .requestVote req⟩ ↔
    s.requests[call]? = some ⟨n, p, .requestVote req⟩
  replied : ∀ call resp, resp.voteGranted = true →
    ((call, .requestVote resp) ∈ s'.replies ↔ (call, .requestVote resp) ∈ s.replies)
  bounded : (∀ x ∈ s.replies, x.1 < s.requests.length) → ∀ x ∈ s'.replies, x.1 < s'.requests.length

namespace VoteFrame

variable {s s' s'' : Cluster}

theorem voteRequest (h : VoteFrame s s') {call : Nat} {n p : NodeID} {T : Int} :
    s'.VoteRequest call n p T ↔ s.VoteRequest call n p T := by
  constructor
  · rintro ⟨req, h1, h2⟩; exact ⟨req, (h.request ..).1 h1, h2⟩
  · rintro ⟨req, h1, h2⟩; exact ⟨req, (h.request ..).2 h1, h2⟩

theorem granted (h : VoteFrame s s') {p n : NodeID} {T : Int} : s'.Granted p n T ↔ s.Granted p n T := by
  constructor
  · rintro ⟨c, resp, h1, h2, h3⟩; exact ⟨c, resp, h.voteRequest.1 h1, (h.replied _ _ h3).1 h2, h3⟩
  · rintro ⟨c, resp, h1, h2, h3⟩; exact ⟨c, resp, h.voteRequest.2 h1, (h.replied _ _ h3).2 h2, h3⟩

theorem setRaft (s : Cluster) {n : NodeID} {r : Raft} (h : SameVotes (s.raft n) r) : VoteFrame s (s.setRaft n r) := by
  refine ⟨fun m => ?_, .refl _, .refl _, fun _ _ _ _ h => h, fun _ _ _ _ => .rfl, fun _ _ _ => .rfl, id⟩
  rw [setRaft_raft]
  split
  · rename_i hm; subst hm; exact h
  · exact .refl _

theorem setApp (s : Cluster) (n : NodeID) (a : App) : VoteFrame s (s.setApp n a) :=
  ⟨fun _ => .refl _, .refl _, .refl _, fun _ _ _ _ h => h, fun _ _ _ _ => .rfl, fun _ _ _ => .rfl, id⟩

theorem answer (s : Cluster) (a : Answer) : VoteFrame s (s.answer a) :=
  ⟨fun _ => .refl _, .refl _, .refl _, fun _ _ _ _ h => h, fun _ _ _ _ => .rfl, fun _ _ _ => .rfl, id⟩

theorem dropTask (s : Cluster) (i : Nat) : VoteFrame s (s.dropTask i) :=
  ⟨fun _ => .refl _, (List.eraseIdx_sublist ..).filterMap _, (List.eraseIdx_sublist ..).filterMap _,
    fun _ _ _ _ h => List.mem_of_mem_eraseIdx h, fun _ _ _ _ => .rfl, fun _ _ _ => .rfl, id⟩

theorem crash (s : Cluster) (n : NodeID) : VoteFrame s (s.crash n) :=
  ⟨fun _ => .refl _, List.filter_sublist.filterMap _, List.filter_sublist.filterMap _,
    fun _ _ _ _ h => (List.mem_filter.1 h).1, fun _ _ _ _ => .rfl, fun _ _ _ => .rfl, id⟩

theorem filterMap_quiet {β : Type} {f : NodeID × Task → Option β} {n : NodeID} {ts : List Task}
    (h : ∀ t ∈ ts, f (n, t) = none) : (ts.map (Prod.mk n)).filterMap f = [] := by
  rw [List.filterMap_eq_nil_iff]
  intro x hx
  obtain ⟨t, ht, rfl⟩ := List.mem_map.1 hx
  exact h t ht

theorem spawn (s : Cluster) (n : NodeID) {ts : List Task} (h : ∀ t ∈ ts, Quiet t) :
    VoteFrame s (s.spawn n ts) := by
  refine ⟨fun _ => .refl _, ?_, ?_, ?_, fun _ _ _ _ => .rfl, fun _ _ _ => .rfl, id⟩
  · unfold Cluster.asks
    rw [spawn_tasks, List.filterMap_append, filterMap_quiet fun t ht => (h t ht n).1, List.append_nil]
  · unfold Cluster.broadcasts
    rw [spawn_tasks, List.filterMap_append, filterMap_quiet fun t ht => (h t ht n).2, List.append_nil]
  · intro m T p c hm
    rw [spawn_tasks, List.mem_append] at hm
    rcases hm with hm | hm
    · exact hm
    · obtain ⟨t, ht, he⟩ := List.mem_map.1 hm
      have hq := (h t ht n).1
      rw [he] at hq; cases hq

theorem send (s : Cluster) (n dst : NodeID) {req : Request} {wait : Nat → Task}
    (hr : ∀ v, req ≠ .requestVote v) (hw : ∀ c, Quiet (wait c)) : VoteFrame s (s.send n dst req wait) := by
  have h1 : VoteFrame s (s.spawn n [wait s.requests.length]) := spawn s n (by simpa using hw _)
  refine ⟨fun _ => .refl _, h1.asks, h1.broadcasts, h1.await, ?_, fun _ _ _ => .rfl, ?_⟩
  · intro c m p v
    constructor
    · intro h
      rcases send_request_cases h with h | ⟨_, he⟩
      · exact h
      · cases he; exact absurd rfl (hr v)
    · exact send_request_kept
  · intro h x hx
    rw [send_requests, List.length_append]
    exact Nat.lt_add_right _ (h x hx)

theorem reply (s : Cluster) {call : Nat} (hc : call < s.requests.length) {resp : Response}
    (hr : ∀ v, resp = .requestVote v → v.voteGranted = false) : VoteFrame s (s.reply call resp) := by
  refine ⟨fun _ => .refl _, .refl _, .refl _, fun _ _ _ _ h => h, fun _ _ _ _ => .rfl, ?_, ?_⟩
  · intro c v hv
    rw [reply_replies, List.mem_append, List.mem_singleton]
    constructor
    · rintro (h | h)
      · exact h
      · cases h
        have := hr v rfl
        rw [hv] at this; cases this
    · exact .inl
  · intro h x hx
    rw [reply_replies, List.mem_append, List.mem_singleton] at hx
    rcases hx with hx | rfl
    · exact h x hx
    · exact hc

end VoteFrame

theorem VoteInv.frame {s' : Cluster} (h : VoteInv C s) (f : VoteFrame s s') : VoteInv C s' := by
  have hterm : ∀ n, (s'.raft n).term = (s.raft n).term := fun n => (f.raft n).term
  have hstate : ∀ n, (s'.raft n).state = (s.raft n).state := fun n => (f.raft n).state
  have hpeers : ∀ n, (s'.raft n).peers = (s.raft n).peers := fun n => (f.raft n).peers
  refine ⟨fun n => (f.raft n).id.trans (h.id n), fun n => by rw [hterm]; exact h.nonneg n,
    fun n => by rw [hpeers]; exact h.peers n, h.asksNodup.sublist f.asks,
    h.broadcastsNodup.sublist f.broadcasts, ?_, ?_, ?_, ?_, ?_, ?_, ?_, ?_, ?_, ?_,
    fun n hr => (hstate n).trans (h.removed n ((f.raft n).removed ▸ hr)), ?_, ?_⟩
  · intro n T p hb ha
    exact h.apart n T p (f.broadcasts.subset hb) (f.asks.subset ha)
  · intro n T p ha; rw [hterm]; exact h.askTerm n T p (f.asks.subset ha)
  · intro n T hb; rw [hterm]; exact h.broadcastTerm n T (f.broadcasts.subset hb)
  · intro n T p ha; rw [hstate, hterm, hpeers]; exact h.askPeer n T p (f.asks.subset ha)
  · intro n T p c hm; exact f.voteRequest.2 (h.await n T p c (f.await n T p c hm))
  · intro c n p req hr; rw [hterm]; exact h.request c n p req ((f.request ..).1 hr)
  · exact f.bounded h.replied
  · intro p n T hg
    rw [hterm, (f.raft p).votedFor, (f.raft p).removed]
    exact h.voted p n T (f.granted.1 hg)
  · intro p n m T h1 h2; exact h.unique p n m T (f.granted.1 h1) (f.granted.1 h2)
  · intro n hs; rw [hstate] at hs; rw [(f.raft n).votedFor]; exact h.self n hs
  · intro n hs
    rw [hstate] at hs
    obtain ⟨hC, Q, hQ⟩ := h.tally n hs
    refine ⟨by rw [hterm, hpeers]; exact hC, Q, by rw [(f.raft n).votes]; exact hQ.votes,
      by rw [hpeers]; exact hQ.sub, fun p hp => ?_, fun p hp => ?_⟩
    · rw [hterm]; exact f.granted.2 (hQ.granted p hp)
    · rw [hterm]
      exact ⟨fun ha => (hQ.asked p hp).1 (f.asks.subset ha), fun hb => (hQ.asked p hp).2 (f.broadcasts.subset hb)⟩
  · intro n hs
    rw [hstate] at hs
    obtain ⟨P, hP, hw⟩ := h.leader n hs
    rw [hterm]; exact ⟨P, hP, hw.mono fun _ => f.granted.2⟩

/-! ## Steps that move one node's voting state -/

/-- Changing node `m` so that its term does not go back: what has to be shown of the new state. -/
theorem VoteInv.move (h : VoteInv C s) (hid : r.id = m) (hterm : (s.raft m).term ≤ r.term)
    (hpeers : r.peers.Nodup ∧ m ∉ r.peers) (hask : r.state = .candidate → ∀ p, (m, r.term, p) ∈ s.asks → p ∈ r.peers)
    (hvoted : ∀ n T, s.Granted m n T → r.term = T → r.votedFor = n ∨ r.removedFromCluster = true)
    (hself : r.state ≠ .follower → r.votedFor = m) (hrem : r.removedFromCluster = true → r.state = .follower)
    (htally : r.state = .candidate → C m r.term r.peers ∧ ∃ Q, (s.setRaft m r).Tally m Q)
    (hlead : r.state = .leader → ∃ P, C m r.term P ∧ s.Won m r.term P) : VoteInv C (s.setRaft m r) := by
  have hle : ∀ n, (s.raft n).term ≤ ((s.setRaft m r).raft n).term :=
    setRaft_forall (P := fun n r => (s.raft n).term ≤ r.term) _ _ _ hterm fun _ => le_refl _
  refine ⟨setRaft_forall (P := fun n r => r.id = n) _ _ _ hid h.id, fun n => le_trans (h.nonneg n) (hle n),
    setRaft_forall (P := fun n r => r.peers.Nodup ∧ n ∉ r.peers) _ _ _ hpeers h.peers, h.asksNodup, h.broadcastsNodup,
    h.apart, fun n T p ha => ?_, fun n T hb => ?_, fun n T p ha => ?_, h.await, fun c n p req hr => ?_,
    h.replied, fun p n T hg => ?_, h.unique, ?_, ?_, fun n hs => ?_, ?_⟩
  · have := h.askTerm n T p ha; exact ⟨this.1, this.2.1, this.2.2.trans (hle n)⟩
  · have := h.broadcastTerm n T hb; exact ⟨this.1, this.2.trans (hle n)⟩
  · refine setRaft_forall (P := fun n r => ∀ T p, (n, T, p) ∈ s.asks → r.state = .candidate → r.term = T → p ∈ r.peers)
      _ _ _ ?_ h.askPeer n T p ha
    rintro T p ha hs rfl
    exact hask hs p ha
  · have := h.request c n p req hr; exact ⟨this.1, this.2.1, this.2.2.trans (hle n)⟩
  · obtain ⟨h1, h2, _⟩ := h.voted p n T hg
    refine ⟨h1, h2.trans (hle p), ?_⟩
    exact setRaft_forall (P := fun p r => s.Granted p n T → r.term = T → r.votedFor = n ∨ r.removedFromCluster = true)
      _ _ _ (hvoted n T) (fun p hg => (h.voted p n T hg).2.2) p hg
  · exact setRaft_forall (P := fun n r => r.state ≠ .follower → r.votedFor = n) _ _ _ hself h.self
  · exact setRaft_forall (P := fun _ r => r.removedFromCluster = true → r.state = .follower) _ _ _ hrem h.removed
  · -- a tally speaks of the whole cluster, which is as before but for the node
    by_cases hn : n = m
    · subst hn
      rw [setRaft_raft_self] at hs ⊢
      exact htally hs
    · have he : (s.setRaft m r).raft n = s.raft n := setRaft_raft_ne _ _ _ _ hn
      rw [he] at hs ⊢
      obtain ⟨hC, Q, hQ⟩ := h.tally n hs
      exact ⟨hC, Q, by rw [he]; exact hQ.votes, by rw [he]; exact hQ.sub, by rw [he]; exact hQ.granted,
        by rw [he]; exact hQ.asked⟩
  · exact setRaft_forall (P := fun n r => r.state = .leader → ∃ P, C n r.term P ∧ s.Won n r.term P) _ _ _ hlead h.leader

theorem VoteInv.stepDown (h : VoteInv C s) (hd : StepDown (s.raft m) r) : VoteInv C (s.setRaft m r) := by
  refine h.move (hd.id.trans (h.id m)) hd.term.le (by rw [hd.peers]; exact h.peers m) ?_ ?_ ?_ ?_ ?_ ?_
  · intro hs; rw [hd.state] at hs; cases hs
  · intro n T hg ht
    have := (h.voted m n T hg).2.1
    have := hd.term
    omega
  · intro hs; exact absurd hd.state hs
  · intro _; exact hd.state
  · intro hs; rw [hd.state] at hs; cases hs
  · intro hs; rw [hd.state] at hs; cases hs

theorem VoteInv.sameOrDown (h : VoteInv C s) (hd : SameOrDown (s.raft m) r) : VoteInv C (s.setRaft m r) := by
  rcases hd with hd | hd
  · exact h.frame (.setRaft s hd)
  · exact h.stepDown hd

theorem VoteInv.reconfigured (h : VoteInv C s) (hd : Reconfigured (s.raft m) r) (hc : (s.raft m).state ≠ .candidate) :
    VoteInv C (s.setRaft m r) := by
  have hid := h.id m
  have hp := hd.peers (h.peers m).1 (by rw [hid]; exact (h.peers m).2)
  rw [hid] at hp
  have hcand : r.state ≠ .candidate := by
    rcases hd.votes with ⟨h1, _⟩ | ⟨h1, _⟩
    · rw [h1]; exact hc
    · rw [h1]; exact fun h => by cases h
  refine h.move (hd.id.trans hid) hd.term.ge hp (fun hs => absurd hs hcand) ?_ ?_ ?_
    (fun hs => absurd hs hcand) ?_
  · intro n T hg ht
    rw [hd.term] at ht
    rcases hd.votes with ⟨_, h2, h3⟩ | ⟨_, _, h3⟩
    · rw [h2, h3]; exact (h.voted m n T hg).2.2 ht
    · exact .inr h3
  · intro hs
    rcases hd.votes with ⟨h1, h2, _⟩ | ⟨h1, _⟩
    · rw [h2]; rw [h1] at hs; exact h.self m hs
    · exact absurd h1 hs
  · intro hr
    rcases hd.votes with ⟨h1, _, h3⟩ | ⟨h1, _⟩
    · rw [h1]; rw [h3] at hr; exact h.removed m hr
    · exact h1
  · intro hs
    rcases hd.votes with ⟨h1, _⟩ | ⟨h1, _⟩
    · rw [hd.term]; exact h.leader m (h1.symm.trans hs)
    · rw [h1] at hs; cases hs

/-! ## Elections -/

theorem VoteInv.campaign (h : VoteInv C s) (hc : Campaign (s.raft m) r) (hC : C m r.term r.peers) :
    VoteInv C (s.setRaft m r) := by
  have ht := hc.term
  refine h.move (hc.id.trans (h.id m)) (by omega) (by rw [hc.peers]; exact h.peers m) ?_ ?_ ?_ ?_ ?_ ?_
  · intro _ p ha
    have := (h.askTerm m _ p ha).2.2
    omega
  · intro n T hg hT
    have := (h.voted m n T hg).2.1
    omega
  · intro _; rw [hc.votedFor]; exact h.id m
  · intro hr; rw [hc.removed] at hr; cases hr
  · intro _
    refine ⟨hC, ∅, ?_, ?_, ?_, ?_⟩
    · rw [setRaft_raft_self, hc.votes]; rfl
    all_goals intro p hp; exact absurd hp (Finset.notMem_empty p)
  · intro hs; rw [hc.state] at hs; cases hs

theorem VoteInv.elected (h : VoteInv C s) (hc : (s.raft m).state = .candidate) (he : Elected (s.raft m) r) :
    VoteInv C (s.setRaft m r) := by
  refine h.move (he.id.trans (h.id m)) he.term.ge (by rw [he.peers]; exact h.peers m) ?_ ?_ ?_ ?_ ?_ ?_
  · intro hs; rw [he.state] at hs; cases hs
  · intro n T hg hT
    rw [he.term] at hT
    rw [he.votedFor, he.removed]; exact (h.voted m n T hg).2.2 hT
  · intro _; rw [he.votedFor]; exact h.self m (by rw [hc]; exact fun h => by cases h)
  · intro hr
    rw [he.removed] at hr
    have := h.removed m hr
    rw [hc] at this; cases this
  · intro hs; rw [he.state] at hs; cases hs
  · intro _
    obtain ⟨hC, Q, hQ⟩ := h.tally m hc
    rw [he.term]
    refine ⟨_, hC, Q, fun hm => (h.peers m).2 (hQ.sub m hm), fun p hp => ⟨hQ.sub p hp, hQ.granted p hp⟩, ?_⟩
    have hm := he.majority
    have hv := hQ.votes
    unfold Raft.majority at hm
    omega

/-- The goroutine that sends the requests of a new election is started. -/
theorem VoteInv.spawnBroadcast (h : VoteInv C s) (hpos : 0 ≤ T) (hT : T ≤ (s.raft m).term)
    (hb : (m, T) ∉ s.broadcasts) (ha : ∀ p, (m, T, p) ∉ s.asks)
    (hv : (s.raft m).state = .candidate → (s.raft m).term = T → (s.raft m).votes = 1) :
    VoteInv C (s.spawn m [.broadcastRequestVote T]) := by
  have hasks : (s.spawn m [.broadcastRequestVote T]).asks = s.asks := by
    unfold asks; rw [spawn_tasks, List.filterMap_append]; simp [askOf]
  have hbs : (s.spawn m [.broadcastRequestVote T]).broadcasts = s.broadcasts ++ [(m, T)] := by
    unfold broadcasts; rw [spawn_tasks, List.filterMap_append]; simp [broadcastOf]
  refine ⟨h.id, h.nonneg, h.peers, by rw [hasks]; exact h.asksNodup, ?_, ?_, ?_, ?_, ?_, ?_, h.request,
    h.replied, h.voted, h.unique, h.self, h.removed, ?_, h.leader⟩
  · rw [hbs]
    refine List.nodup_append.2 ⟨h.broadcastsNodup, List.pairwise_singleton _ _, ?_⟩
    intro a hma b hmb
    rw [List.mem_singleton] at hmb; subst hmb
    rintro rfl; exact hb hma
  · intro n T' p hn
    rw [hbs, List.mem_append, List.mem_singleton] at hn
    rw [hasks]
    rcases hn with hn | hn
    · exact h.apart n T' p hn
    · cases hn; exact ha p
  · intro n T' p hn; rw [hasks] at hn; exact h.askTerm n T' p hn
  · intro n T' hn
    rw [hbs, List.mem_append, List.mem_singleton] at hn
    rcases hn with hn | hn
    · exact h.broadcastTerm n T' hn
    · cases hn; exact ⟨hpos, hT⟩
  · intro n T' p hn; rw [hasks] at hn; exact h.askPeer n T' p hn
  · intro n T' p c hm
    rw [spawn_tasks, List.mem_append] at hm
    rcases hm with hm | hm
    · exact h.await n T' p c hm
    · simp at hm
  · intro n hs
    obtain ⟨hC, Q, hQ⟩ := h.tally n hs
    by_cases hn : n = m ∧ (s.raft m).term = T
    · -- the election has just begun: only the own vote is counted
      obtain ⟨rfl, hT'⟩ := hn
      refine ⟨hC, ∅, by rw [spawn_raft, hv hs hT']; rfl, ?_, ?_, ?_⟩
      all_goals intro p hp; exact absurd hp (Finset.notMem_empty p)
    · refine ⟨hC, Q, hQ.votes, hQ.sub, hQ.granted, fun p hp => ⟨by rw [hasks]; exact (hQ.asked p hp).1, ?_⟩⟩
      rw [hbs, List.mem_append, List.mem_singleton]
      rintro (hm | hm)
      · exact (hQ.asked p hp).2 hm
      · obtain ⟨h1, h2⟩ := Prod.mk.inj hm
        subst h1; exact hn ⟨rfl, h2⟩

/-! ## Requests for votes -/

theorem tasks_perm (hx : s.tasks[i]? = some x) : (x :: (s.dropTask i).tasks).Perm s.tasks := by
  obtain ⟨hi, rfl⟩ := List.getElem?_eq_some_iff.1 hx
  exact List.getElem_cons_eraseIdx_perm hi

/-- The goroutine at position `i` asks for a vote: `asks` is that vote and the others. -/
theorem asks_perm {a : NodeID × Int × NodeID} (hx : s.tasks[i]? = some x) (ha : askOf x = some a) :
    (a :: (s.dropTask i).asks).Perm s.asks := by
  have h := (tasks_perm hx).filterMap askOf
  rwa [List.filterMap_cons_some ha] at h

theorem broadcasts_perm {b : NodeID × Int} (hx : s.tasks[i]? = some x) (hb : broadcastOf x = some b) :
    (b :: (s.dropTask i).broadcasts).Perm s.broadcasts := by
  have h := (tasks_perm hx).filterMap broadcastOf
  rwa [List.filterMap_cons_some hb] at h

/-- The votes that `broadcastRequestVote` asks for: one of each peer that has a name. -/
theorem asks_broadcast (s : Cluster) (n : NodeID) (r : Raft) (T : Int) :
    (s.spawn n (r.broadcastRequestVote T)).asks =
      s.asks ++ (r.peers.filter (· ≠ "")).map fun p => (n, T, p) := by
  unfold asks
  rw [spawn_tasks, List.filterMap_append]
  congr 1
  unfold broadcastRequestVote
  rw [List.map_map, List.filterMap_map]
  rw [← List.filterMap_eq_map]; rfl

theorem mem_asks_broadcast {T' : Int} (h : (m, T', p) ∈ (s.spawn n (r.broadcastRequestVote T)).asks) :
    (m, T', p) ∈ s.asks ∨ (m = n ∧ T' = T ∧ p ∈ r.peers ∧ p ≠ "") := by
  rw [asks_broadcast, List.mem_append] at h
  rcases h with h | h
  · exact .inl h
  · obtain ⟨q, hq, he⟩ := List.mem_map.1 h
    cases he
    rw [List.mem_filter] at hq
    exact .inr ⟨rfl, rfl, hq.1, by simpa using hq.2⟩

theorem broadcasts_broadcast (s : Cluster) (n : NodeID) (r : Raft) (T : Int) :
    (s.spawn n (r.broadcastRequestVote T)).broadcasts = s.broadcasts := by
  unfold broadcasts
  rw [spawn_tasks, List.filterMap_append, VoteFrame.filterMap_quiet, List.append_nil]
  intro t ht
  obtain ⟨p, _, rfl⟩ := List.mem_map.1 ht
  rfl

theorem VoteInv.broadcast (h : VoteInv C s) (hx : s.tasks[i]? = some (n, .broadcastRequestVote T)) :
    VoteInv C ((s.dropTask i).spawn n ((s.raft n).broadcastRequestVote T)) := by
  have h0 := h.frame (.dropTask s i)
  have hp := broadcasts_perm hx rfl
  have hmem : (n, T) ∈ s.broadcasts := hp.subset (List.mem_cons_self ..)
  have hgone : (n, T) ∉ (s.dropTask i).broadcasts :=
    (List.nodup_cons.1 (hp.nodup_iff.2 h.broadcastsNodup)).1
  have hbs := broadcasts_broadcast (s.dropTask i) n (s.raft n) T
  refine ⟨h0.id, h0.nonneg, h0.peers, ?_, by rw [hbs]; exact h0.broadcastsNodup, ?_, ?_, ?_, ?_, ?_, h0.request,
    h0.replied, h0.voted, h0.unique, h0.self, h0.removed, ?_, h0.leader⟩
  · rw [asks_broadcast]
    refine List.nodup_append.2 ⟨h0.asksNodup, ?_, ?_⟩
    · exact ((h.peers n).1.filter _).map fun a b hab => by cases hab; rfl
    · intro a ha b hb
      obtain ⟨q, _, rfl⟩ := List.mem_map.1 hb
      rintro rfl
      exact h.apart n T q hmem ((VoteFrame.dropTask s i).asks.subset ha)
  · intro m T' p hm
    rw [hbs] at hm
    intro ha
    rcases mem_asks_broadcast ha with ha | ⟨rfl, rfl, _⟩
    · exact h0.apart m T' p hm ha
    · exact hgone hm
  · intro m T' p ha
    rcases mem_asks_broadcast ha with ha | ⟨rfl, rfl, _, hne⟩
    · exact h0.askTerm m T' p ha
    · exact ⟨hne, h.broadcastTerm m T' hmem⟩
  · intro m T' hm; rw [hbs] at hm; exact h0.broadcastTerm m T' hm
  · intro m T' p ha hs ht
    rcases mem_asks_broadcast ha with ha | ⟨rfl, rfl, hpe, _⟩
    · exact h0.askPeer m T' p ha hs ht
    · exact hpe
  · intro m T' p c hm
    rw [spawn_tasks, List.mem_append] at hm
    rcases hm with hm | hm
    · exact h0.await m T' p c hm
    · obtain ⟨t, ht, he⟩ := List.mem_map.1 hm
      obtain ⟨q, _, rfl⟩ := List.mem_map.1 ht
      cases he
  · intro m hs
    -- the tally of the state before: no vote of this election was counted while its requests waited
    obtain ⟨hC, Q, hQ⟩ := h.tally m hs
    refine ⟨hC, Q, hQ.votes, hQ.sub, hQ.granted, fun q hq => ⟨?_, ?_⟩⟩
    · intro ha
      rcases mem_asks_broadcast ha with ha | ⟨rfl, hT, _⟩
      · exact (hQ.asked q hq).1 ((VoteFrame.dropTask s i).asks.subset ha)
      · refine (hQ.asked q hq).2 ?_
        rw [show (s.raft m).term = T from hT]; exact hmem
    · rw [hbs]; exact fun hb => (hQ.asked q hq).2 ((VoteFrame.dropTask s i).broadcasts.subset hb)

/-- The goroutine for one peer sends its request. -/
theorem VoteInv.ask (h : VoteInv C s) {req : RequestVoteRequest} (hx : s.tasks[i]? = some (n, .requestVote T p))
    (ht : req.term = T) (hc : req.candidateId = n) :
    VoteInv C ((s.dropTask i).send n p (.requestVote req) (.awaitVote T p)) := by
  have h0 := h.frame (.dropTask s i)
  have hperm := asks_perm hx rfl
  have hmem : (n, T, p) ∈ s.asks := hperm.subset (List.mem_cons_self ..)
  have hasks : ((s.dropTask i).send n p (.requestVote req) (.awaitVote T p)).asks.Perm s.asks := by
    refine List.Perm.trans ?_ hperm
    unfold asks
    rw [send_tasks, List.filterMap_append]
    exact List.perm_append_singleton ..
  have hbs : ((s.dropTask i).send n p (.requestVote req) (.awaitVote T p)).broadcasts = (s.dropTask i).broadcasts := by
    unfold broadcasts; rw [send_tasks, List.filterMap_append]; simp [broadcastOf]
  have hsub : ∀ b ∈ ((s.dropTask i).send n p (.requestVote req) (.awaitVote T p)).broadcasts, b ∈ s.broadcasts := by
    intro b hb; rw [hbs] at hb; exact (VoteFrame.dropTask s i).broadcasts.subset hb
  -- the new request has the next number, which no answer carries yet
  have hnew : ((s.dropTask i).send n p (.requestVote req) (.awaitVote T p)).VoteRequest s.requests.length n p T :=
    ⟨req, by rw [send_requests]; exact List.getElem?_concat_length, ht, hc⟩
  have hgr : ∀ q m T', ((s.dropTask i).send n p (.requestVote req) (.awaitVote T p)).Granted q m T' ↔ s.Granted q m T' := by
    intro q m T'
    constructor
    · rintro ⟨call, resp, ⟨v, h1, h2⟩, h3, h4⟩
      rcases send_request_cases h1 with h1 | ⟨rfl, _⟩
      · exact ⟨call, resp, ⟨v, h1, h2⟩, h3, h4⟩
      · exact absurd (h.replied _ h3) (lt_irrefl _)
    · rintro ⟨call, resp, ⟨v, h1, h2⟩, h3⟩
      exact ⟨call, resp, ⟨v, send_request_kept h1, h2⟩, h3⟩
  refine ⟨h.id, h.nonneg, h.peers, hasks.nodup_iff.2 h.asksNodup, by rw [hbs]; exact h0.broadcastsNodup, ?_, ?_, ?_,
    ?_, ?_, ?_, ?_, ?_, ?_, h.self, h.removed, ?_, ?_⟩
  · intro m T' q hb ha; exact h.apart m T' q (hsub _ hb) (hasks.subset ha)
  · intro m T' q ha; exact h.askTerm m T' q (hasks.subset ha)
  · intro m T' hb; exact h.broadcastTerm m T' (hsub _ hb)
  · intro m T' q ha; exact h.askPeer m T' q (hasks.subset ha)
  · intro m T' q call hm
    rw [send_tasks, List.mem_append, List.mem_singleton] at hm
    rcases hm with hm | hm
    · obtain ⟨v, h1, h2⟩ := h0.await m T' q call hm
      exact ⟨v, send_request_kept h1, h2⟩
    · cases hm; exact hnew
  · intro call m q v hv
    rcases send_request_cases hv with hv | ⟨_, he⟩
    · exact h.request call m q v hv
    · cases he
      have := h.askTerm n T p hmem
      exact ⟨this.1, hc, by rw [ht]; exact this.2.2⟩
  · intro x hx
    rw [send_requests, List.length_append]
    exact Nat.lt_add_right _ (h.replied x hx)
  · intro q m T' hg; exact h.voted q m T' ((hgr q m T').1 hg)
  · intro q m m' T' h1 h2; exact h.unique q m m' T' ((hgr ..).1 h1) ((hgr ..).1 h2)
  · intro m hs
    obtain ⟨hC, Q, hQ⟩ := h.tally m hs
    exact ⟨hC, Q, hQ.votes, hQ.sub, fun q hq => (hgr ..).2 (hQ.granted q hq), fun q hq =>
      ⟨fun ha => (hQ.asked q hq).1 (hasks.subset ha), fun hb => (hQ.asked q hq).2 (hsub _ hb)⟩⟩
  · intro m hs
    obtain ⟨P, hP, hw⟩ := h.leader m hs
    exact ⟨P, hP, hw.mono fun q => (hgr q _ _).2⟩

/-! ## Votes -/

/-- A node that may still vote for `n` in its term has given that term's vote to no other. -/
theorem VoteInv.voted_eq (h : VoteInv C s) (hm : s.Granted p m T) (hT : (s.raft p).term = T)
    (hv : (s.raft p).votedFor = "" ∨ (s.raft p).votedFor = n) (hrem : (s.raft p).removedFromCluster = false) :
    m = n := by
  obtain ⟨hne, _, hvoted⟩ := h.voted p m T hm
  rcases hvoted hT with h1 | h1
  · rw [h1] at hv
    rcases hv with hv | hv
    · exact absurd hv hne
    · exact hv
  · rw [h1] at hrem; cases hrem

theorem VoteInv.vote (h : VoteInv C s) (hpne : p ≠ "") (hv : (s.raft p).votedFor = "" ∨ (s.raft p).votedFor = n)
    (hrem : (s.raft p).removedFromCluster = false) (hr : SameVotes { s.raft p with votedFor := n } r) :
    VoteInv C (s.setRaft p r) := by
  refine h.move (hr.id.trans (h.id p)) (by rw [hr.term]) (by rw [hr.peers]; exact h.peers p) ?_ ?_ ?_ ?_ ?_ ?_
  · intro hs q hq
    rw [hr.state] at hs
    rw [hr.term] at hq
    rw [hr.peers]; exact h.askPeer p _ q hq hs rfl
  · intro m T' hg hT'
    rw [hr.term] at hT'
    exact .inl (hr.votedFor.trans (h.voted_eq hg hT' hv hrem).symm)
  · intro hs
    rw [hr.state] at hs
    have hself := h.self p hs
    rw [hself] at hv
    rcases hv with hv | hv
    · exact absurd hv hpne
    · exact hr.votedFor.trans hv.symm
  · intro hx
    rw [hr.removed] at hx
    rw [show (s.raft p).removedFromCluster = true from hx] at hrem; cases hrem
  · intro hs
    rw [hr.state] at hs
    obtain ⟨hC, Q, hQ⟩ := h.tally p hs
    refine ⟨by rw [hr.term, hr.peers]; exact hC, Q, ?_, ?_, ?_, ?_⟩
    · rw [setRaft_raft_self, hr.votes]; exact hQ.votes
    · rw [setRaft_raft_self, hr.peers]; exact hQ.sub
    · rw [setRaft_raft_self, hr.term]; exact hQ.granted
    · rw [setRaft_raft_self, hr.term]; exact hQ.asked
  · intro hs
    rw [hr.state] at hs
    rw [hr.term]; exact h.leader p hs

theorem Granted.reply {q : NodeID} (h : s.Granted q m T) (call : Nat) (resp : Response) :
    (s.reply call resp).Granted q m T := by
  obtain ⟨c, v, h1, h2, h3⟩ := h
  exact ⟨c, v, h1, List.mem_append_left _ h2, h3⟩

/-- The votes given once request `call` is answered: those before, and the one it asked for. -/
theorem granted_reply {q : NodeID} {T' : Int} {resp : Response} (hreq : s.VoteRequest call n p T)
    (h : (s.reply call resp).Granted q m T') : s.Granted q m T' ∨ (q = p ∧ m = n ∧ T' = T) := by
  obtain ⟨req, hreq1, hreq2, _⟩ := hreq
  obtain ⟨c, v, ⟨w, h1, h2, h3⟩, h4, h5⟩ := h
  rw [reply_replies, List.mem_append, List.mem_singleton] at h4
  rcases h4 with h4 | h4
  · exact .inl ⟨c, v, ⟨w, h1, h2, h3⟩, h4, h5⟩
  · cases h4
    rw [reply_requests, hreq1] at h1
    cases h1
    exact .inr ⟨rfl, rfl, h2.symm.trans hreq2⟩

/-- Request `call` is answered by a node whose vote for `n` in `T` is recorded. -/
theorem VoteInv.replyVote (h : VoteInv C s) (resp : Response) (hreq : s.VoteRequest call n p T) (hn : n ≠ "")
    (hT : (s.raft p).term = T) (hv : (s.raft p).votedFor = n) (hrem : (s.raft p).removedFromCluster = false) :
    VoteInv C (s.reply call resp) := by
  have hold : ∀ m, s.Granted p m T → m = n := fun m hm => h.voted_eq hm hT (.inr hv) hrem
  refine ⟨h.id, h.nonneg, h.peers, h.asksNodup, h.broadcastsNodup, h.apart, h.askTerm, h.broadcastTerm, h.askPeer,
    h.await, h.request, ?_, ?_, ?_, h.self, h.removed, ?_, ?_⟩
  · intro x hx
    rw [reply_replies, List.mem_append, List.mem_singleton] at hx
    rcases hx with hx | rfl
    · exact h.replied x hx
    · obtain ⟨req, hreq1, _⟩ := hreq
      exact (List.getElem?_eq_some_iff.1 hreq1).1
  · intro q m T' hq
    rcases granted_reply hreq hq with hq | ⟨rfl, rfl, rfl⟩
    · exact h.voted q m T' hq
    · exact ⟨hn, hT.ge, fun _ => .inl hv⟩
  · intro q m m' T' h1 h2
    rcases granted_reply hreq h1 with h1 | ⟨rfl, rfl, rfl⟩ <;> rcases granted_reply hreq h2 with h2 | ⟨e1, e2, e3⟩
    · exact h.unique q m m' T' h1 h2
    · rw [e1, e3] at h1; exact (hold m h1).trans e2.symm
    · exact (hold m' h2).symm
    · exact e2.symm
  · intro m hs
    obtain ⟨hC, Q, hQ⟩ := h.tally m hs
    exact ⟨hC, Q, hQ.votes, hQ.sub, fun q hq => (hQ.granted q hq).reply .., hQ.asked⟩
  · intro m hs
    obtain ⟨P, hP, hw⟩ := h.leader m hs
    exact ⟨P, hP, hw.mono fun q hq => hq.reply ..⟩

/-- A node in term `T` that has not voted for another gives its vote to `n`. -/
theorem VoteInv.grant (h : VoteInv C s) (resp : RequestVoteResponse) (hreq : s.VoteRequest call n p T) (hn : n ≠ "")
    (hT : (s.raft p).term = T) (hv : (s.raft p).votedFor = "" ∨ (s.raft p).votedFor = n)
    (hrem : (s.raft p).removedFromCluster = false) (hr : SameVotes { s.raft p with votedFor := n } r) :
    VoteInv C ((s.setRaft p r).reply call (.requestVote resp)) := by
  have hpne : p ≠ "" := by
    obtain ⟨req, hreq1, _⟩ := hreq
    exact (h.request call n p req hreq1).1
  refine (h.vote hpne hv hrem hr).replyVote _ hreq hn ?_ ?_ ?_
  · rw [setRaft_raft_self, hr.term]; exact hT
  · rw [setRaft_raft_self]; exact hr.votedFor
  · rw [setRaft_raft_self, hr.removed]; exact hrem

/-- A candidate counts the vote that the goroutine at position `i` waited for. -/
theorem VoteInv.count (h : VoteInv C s) {j : Nat} {resp : RequestVoteResponse}
    (hx : s.tasks[i]? = some (n, .awaitVote T p call)) (hrep : s.replyTo call j = some (.requestVote resp))
    (hg : resp.voteGranted = true) (hs : (s.raft n).state = .candidate) (hT : (s.raft n).term = T) :
    VoteInv C ((s.dropTask i).setRaft n { s.raft n with votes := (s.raft n).votes + 1 }) := by
  have h0 := h.frame (.dropTask s i)
  have hperm := asks_perm hx rfl
  have hmem : (n, T, p) ∈ s.asks := hperm.subset (List.mem_cons_self ..)
  have hgone : (n, T, p) ∉ (s.dropTask i).asks := (List.nodup_cons.1 (hperm.nodup_iff.2 h.asksNodup)).1
  have hgranted : s.Granted p n T :=
    ⟨call, resp, h.await n T p call (List.mem_of_getElem? hx), replyTo_mem hrep, hg⟩
  refine h0.move (h.id n) (le_refl _) (h.peers n) ?_ ?_ (fun _ => h.self n (by rw [hs]; exact fun h => by cases h))
    (h.removed n) ?_ ?_
  · intro _ q hq; exact h0.askPeer n _ q hq hs rfl
  · intro m T' hm hT'; exact (h.voted n m T' hm).2.2 hT'
  · intro _
    obtain ⟨hC, Q, hQ⟩ := h.tally n hs
    -- its goroutine still waited, so the peer is not among those counted
    have hpQ : p ∉ Q := fun hp => (hQ.asked p hp).1 (by rw [hT]; exact hmem)
    refine ⟨hC, insert p Q, ?_, fun q hq => ?_, fun q hq => ?_, fun q hq => ?_⟩
    · rw [setRaft_raft_self, Finset.card_insert_of_notMem hpQ]
      show (s.raft n).votes + 1 = _
      rw [hQ.votes]; push_cast; ring
    · rw [setRaft_raft_self]
      rcases Finset.mem_insert.1 hq with rfl | hq
      · exact h.askPeer n T _ hmem hs hT
      · exact hQ.sub q hq
    · rw [setRaft_raft_self]
      rcases Finset.mem_insert.1 hq with rfl | hq
      · show s.Granted _ n (s.raft n).term
        rw [hT]; exact hgranted
      · exact hQ.granted q hq
    · rw [setRaft_raft_self]
      rcases Finset.mem_insert.1 hq with rfl | hq
      · show (n, (s.raft n).term, _) ∉ (s.dropTask i).asks ∧ (n, (s.raft n).term) ∉ (s.dropTask i).broadcasts
        rw [hT]
        exact ⟨hgone, fun hb => h.apart n T _ ((VoteFrame.dropTask s i).broadcasts.subset hb) hmem⟩
      · exact ⟨fun ha => (hQ.asked q hq).1 ((VoteFrame.dropTask s i).asks.subset ha),
          fun hb => (hQ.asked q hq).2 ((VoteFrame.dropTask s i).broadcasts.subset hb)⟩
  · intro hl
    rw [show (s.raft n).state = .leader from hl] at hs; cases hs

/-! ## Election safety -/

/-- The electors of a winner: itself and the peers that granted it their votes. -/
theorem Won.majority {P : List NodeID} (h : s.Won n T P) :
    ∃ Q : Finset NodeID, IsMajority (insert n P.toFinset) Q ∧ ∀ p ∈ Q, p = n ∨ s.Granted p n T := by
  obtain ⟨Q, hn, hQ, hc⟩ := h
  refine ⟨insert n Q, ⟨?_, ?_⟩, ?_⟩
  · exact Finset.insert_subset_insert n fun p hp => List.mem_toFinset.2 (hQ p hp).1
  · have h1 := Finset.card_insert_le n P.toFinset
    have h2 := P.toFinset_card_le
    rw [Finset.card_insert_of_notMem hn]
    omega
  · intro p hp
    rcases Finset.mem_insert.1 hp with rfl | hp
    · exact .inl rfl
    · exact .inr (hQ p hp).2

/-- A node that leads term `T` gave its vote of that term to no other. -/
theorem VoteInv.leader_voted (h : VoteInv C s) (hs : (s.raft n).state = .leader) (hg : s.Granted n m (s.raft n).term) :
    n = m := by
  have hf : (s.raft n).state ≠ .follower := by rw [hs]; exact fun h => by cases h
  rcases (h.voted n m _ hg).2.2 rfl with hv | hr
  · rw [h.self n hf] at hv; exact hv
  · exact absurd (h.removed n hr) hf

/-- Two leaders of one term whose campaigns were counted over overlapping voter sets are one node. -/
theorem VoteInv.leader_unique (h : VoteInv C s) (hn : (s.raft n).state = .leader)
    (hm : (s.raft m).state = .leader) (ht : (s.raft n).term = (s.raft m).term)
    (ho : n ≠ m → ∀ P P', C n (s.raft n).term P → C m (s.raft n).term P' →
      Overlap (insert n P.toFinset) (insert m P'.toFinset)) : n = m := by
  by_contra hne
  obtain ⟨P, hP, hw⟩ := h.leader n hn
  obtain ⟨P', hP', hw'⟩ := h.leader m hm
  rw [← ht] at hP' hw'
  obtain ⟨Q, hQ, hq⟩ := hw.majority
  obtain ⟨Q', hQ', hq'⟩ := hw'.majority
  obtain ⟨v, hv, hv'⟩ := ho hne P P' hP hP' Q Q' hQ hQ'
  rcases hq v hv with rfl | h1 <;> rcases hq' v hv' with rfl | h2
  · exact hne rfl
  · exact hne (h.leader_voted hn h2)
  · rw [ht] at h1; exact hne (h.leader_voted hm h1).symm
  · exact hne (h.unique v n m _ h1 h2)

end Cluster

end Mimori
