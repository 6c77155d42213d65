/-
Followers and contenders. A node that has accepted AppendEntries or InstallSnapshot from the leader of a
term should contend for that term no more. The two handlers make a node a follower when the request is
of a newer term. In the node's own term they leave its role alone, so a candidate that follows the
leader of its term goes on counting votes.
-/
import Mimori.Election.Hint
import Mimori.Election.Leaders

namespace Mimori

open Raft

namespace Cluster

/-- The node that accepts a request of another node as its leader in this step, and the term of the request:
AppendEntries that passes the checks of sender and term, or InstallSnapshot that passes the check of the term. -/
def followed (s : Cluster) : Action → Option (NodeID × Int)
  | .deliver call _ =>
    match s.requests[call]? with
    | some ⟨src, n, .appendEntries req⟩ => if src ≠ n ∧ (s.raft n).hears req then some (n, req.term) else none
    | some ⟨src, n, .installSnapshot req⟩ => if src ≠ n ∧ (s.raft n).term ≤ req.term then some (n, req.term) else none
    | _ => none
  | _ => none

/-- What a node accepts in its own term it accepts as a follower. -/
def leadersReachFollowers (s : Cluster) : RestartAction → Bool
  | .life (.step a) => (s.followed a).all fun x => x.2 != (s.raft x.1).term || (s.raft x.1).state == .follower
  | _ => true

variable {s s' : Cluster} {a : Action} {n : NodeID} {T : Int}

theorem step_followed (hs : s.step a = some s') (ha : s.followed a = some (n, T))
    (hok : T = (s.raft n).term → (s.raft n).state = .follower) (ht : (s'.raft n).term = T) :
    (s'.raft n).state = .follower := by
  cases a with
  | deliver call io =>
    obtain ⟨⟨src, m, req⟩, hp, _, rfl⟩ := step_deliver hs
    simp only [followed, hp] at ha
    cases req with
    | appendEntries req =>
      simp only [Option.ite_none_right_eq_some, Option.some.injEq, Prod.mk.injEq] at ha
      obtain ⟨⟨_, hk⟩, rfl, rfl⟩ := ha
      have hh := appendEntries_heard hk (s.envOf m io)
      rw [handle_appendEntries] at ht ⊢
      simp only [reply_raft, setRaft_raft_self] at ht ⊢
      rcases hh.state with ⟨_, hf⟩ | ⟨he, hsame⟩
      · exact hf
      · exact hsame.trans (hok he)
    | installSnapshot req =>
      simp only [Option.ite_none_right_eq_some, Option.some.injEq, Prod.mk.injEq] at ha
      obtain ⟨_, rfl, rfl⟩ := ha
      rw [handle_installSnapshot] at ht ⊢
      simp only [reply_raft, setApp_raft, setRaft_raft_self] at ht ⊢
      rcases installSnapshot_role (s.raft m) req (s.envOf m io) with hr | ⟨_, hr⟩
      · exact hr.state.trans (hok (ht.symm.trans hr.term))
      · exact hr.state
    | requestVote => cases ha
    | timeoutNow => cases ha
  | _ => cases ha

theorem restartStep_follower {l : RestartAction} (hs : s.restartStep l = some s') (hf : (s.raft n).state = .follower)
    (ht : (s'.raft n).term = (s.raft n).term) : (s'.raft n).state = .follower := by
  rcases restartStep_cases hs with ⟨a, _, hs⟩ | ⟨m, d, start, _, rfl⟩
  · rcases step_at hs n with heq | ⟨_, hm⟩
    · rw [heq]; exact hf
    · exact hm.follower hf ht
  · rw [restart_raft]
    split
    · exact (new_unled m _ d start).2
    · exact hf

/-- A node that follows a leader is no contender: in every run in which processes die at any point and come
back, and in which AppendEntries and InstallSnapshot requests of a node's own term are accepted by
followers only, a node that has accepted such a request of term `T` from another node and has been in term
`T` since then is a follower. -/
theorem follower_of_leader {h₁ h₂ : List (Cluster × RestartAction)} {x s : Cluster} {n : NodeID} {a : Action} {T : Int}
    (hr : restartMachine.Run (fun s l => s.leadersReachFollowers l = true) (h₂ ++ (x, .life (.step a)) :: h₁) s)
    (ha : x.followed a = some (n, T)) (hin : ∀ y ∈ h₂, (y.1.raft n).term = T) (ht : (s.raft n).term = T) :
    (s.raft n).state = .follower := by
  refine Machine.Run.since (I := fun s => (s.raft n).term = T → (s.raft n).state = .follower) ?_ hr ?_ ht
  · intro s _ hok hs ht
    refine step_followed hs ha (fun he => ?_) ht
    simpa [leadersReachFollowers, ha, he] using hok
  · intro h s b s' _ hm hi _ hs ht
    have hterm : (s.raft n).term = T := hin _ hm
    exact restartStep_follower hs (hi hterm) (ht.trans hterm.symm)

/-- In the last step but one the node has accepted a request of term `T`, and it is in `T` before the last. -/
def justFollowed (n : NodeID) (T : Int) : List (Cluster × RestartAction) → Bool
  | y :: (x, .life (.step a)) :: _ => x.followed a == some (n, T) && (y.1.raft n).term == T
  | _ => false

theorem justFollowed_split {n : NodeID} {T : Int} {h : List (Cluster × RestartAction)} (hj : justFollowed n T h = true) :
    ∃ h₂ x a h₁, h = h₂ ++ (x, .life (.step a)) :: h₁ ∧ x.followed a = some (n, T) ∧ ∀ y ∈ h₂, (y.1.raft n).term = T := by
  unfold justFollowed at hj
  split at hj
  · rename_i y x a h₁
    simp only [Bool.and_eq_true, beq_iff_eq] at hj
    exact ⟨[y], x, a, h₁, rfl, hj.1, by simpa using hj.2⟩
  · cases hj

/-- C asks B for its vote in term 1 and in term 2; A becomes the leader of term 2 and sends C a heartbeat. -/
def candidateC : List Action :=
  [.tick 2000, .electionTimeout "C" 1500 {}, .run 0 .go {}, .run 1 .go {}, .deliver 0 {}, .tick 2000,
    .electionTimeout "C" 1500 {}, .electionTimeout "A" 1500 {}, .tick 2000, .electionTimeout "A" 1500 {}, .run 4 .go {},
    .run 4 .go {}, .deliver 1 {}, .run 5 (.reply 1) {}, .run 5 .go {}, .run 5 .go {}, .run 5 .go {}, .run 5 .go {},
    .run 7 .go {}, .deliver 2 {}]

/-- The same, but the heartbeat goes to B, which follows. -/
def followerB : List Action :=
  candidateC.take 18 ++ [.run 5 .go {}, .deliver 2 {}]

theorem follower_of_leader_followerB :
    ∃ h s, restartMachine.Run (fun s l => s.leadersReachFollowers l = true) h s ∧ justFollowed "B" 2 h = true ∧
      (s.raft "B").term = 2 ∧ (s.raft "B").state = .follower := by
  obtain ⟨h, s, hr, hj, ht⟩ := Machine.exists_run (S := restartMachine) (fun s l => s.leadersReachFollowers l = true)
    (fun h s => justFollowed "B" 2 h = true ∧ (s.raft "B").term = 2) (machine_init threeNodes true true)
    ((followerB ++ [Action.tick 100]).map (.life ∘ .step)) (by decide +kernel)
  obtain ⟨h₂, x, a, h₁, rfl, ha, hin⟩ := justFollowed_split hj
  exact ⟨_, s, hr, hj, ht, follower_of_leader hr ha hin ht⟩

/-- C accepts the heartbeat as a candidate, and B's late answer makes it a second leader of term 2. -/
theorem followed_candidate_wins :
    ∃ h₂ x a h₁ s, restartMachine.Run (fun _ _ => True) (h₂ ++ (x, .life (.step a)) :: h₁) s ∧
      x.followed a = some ("C", 2) ∧ (∀ y ∈ h₂, (y.1.raft "C").term = 2) ∧ (s.raft "C").term = 2 ∧
      (s.raft "C").state = .leader := by
  obtain ⟨h, s, hr, hj, hs⟩ := Machine.exists_run (S := restartMachine) (fun _ _ => True)
    (fun h s => justFollowed "C" 2 h = true ∧ (s.raft "C").term = 2 ∧ (s.raft "C").state = .leader)
    (machine_init threeNodes true true) ((candidateC ++ [Action.run 1 (.reply 0) {}]).map (.life ∘ .step))
    (by decide +kernel)
  obtain ⟨h₂, x, a, h₁, rfl, ha, hin⟩ := justFollowed_split hj
  exact ⟨h₂, x, a, h₁, s, hr, ha, hin, hs⟩

end Cluster

end Mimori
