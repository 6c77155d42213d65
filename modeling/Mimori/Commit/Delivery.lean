/-
What a leader can bring about among the nodes that are up. A heartbeat goroutine that comes round gives every peer its
batch; a batch that is sent, handled and answered is an exchange between two nodes; and one exchange after the other
brings a peer that lags up to the end of the leader's log. Other goroutines and messages stay where they are.
-/
import Mimori.Commit.Winnable
import Mimori.Commit.Advance
import Mimori.Replication.Heartbeat
import Mimori.Replication.Probe

namespace Mimori

open Raft

namespace Raft

variable {r : Raft} {N : Int}

/-- A leader commits its whole log when its last entry is its own and a majority has it. -/
theorem updateCommitIndexLocked_last (hl : r.state = .leader) (hown : r.entryTerm r.lastLogIndex = some r.term)
    (hle : r.commitIndex ≤ r.lastLogIndex) (hmaj : r.majority ≤ r.replicas r.lastLogIndex) :
    r.updateCommitIndexLocked.commitIndex = r.lastLogIndex := by
  obtain ⟨e, he, hterm⟩ := Option.map_eq_some_iff.1 hown
  unfold updateCommitIndexLocked
  rw [if_neg (not_not.2 hl)]
  rcases lt_or_eq_of_le hle with hlt | heq
  · have hfirst : r.commitCandidates.find? r.committable = some r.lastLogIndex := by
      unfold commitCandidates
      obtain ⟨k, hk⟩ : ∃ k, (r.lastLogIndex - r.commitIndex).toNat = k + 1 :=
        ⟨(r.lastLogIndex - r.commitIndex).toNat - 1, by omega⟩
      rw [hk, List.range_succ_eq_map, List.map_cons, List.find?_cons_of_pos]
      · simp
      · simp [committable, he, hterm, hmaj]
    rw [hfirst]
  · have hnone : r.commitCandidates = [] := by
      unfold commitCandidates
      rw [heq, Int.sub_self]
      rfl
    rw [hnone]
    exact heq

/-- The node leads with a log that ends at its own entry `N`, sends its peers nothing beyond that, and has committed all
of it if it counts a majority for it. -/
structure Presides (r : Raft) (N : Int) : Prop where
  lead : r.state = .leader
  last : r.lastLogIndex = N
  own : r.entryTerm N = some r.term
  next : ∀ p ∈ r.peers, ∃ k, r.nextIndex p = some k ∧ r.logBaseIndex < k ∧ k ≤ N + 1
  counts : r.majority ≤ r.replicas N → r.commitIndex = N

theorem replicas_congr {r' : Raft} (hp : r'.peers = r.peers) (hm : r'.matchIndex = r.matchIndex) (N : Int) :
    r'.majority = r.majority ∧ r'.replicas N = r.replicas N := by
  unfold majority replicas
  rw [hp, hm]
  exact ⟨rfl, rfl⟩

/-- An exchange with a peer keeps the office, and what the leader knows of the other peers. -/
theorem Presides.exchanged {q q' r' : Raft} {p : NodeID} {k : Int} {ok : Bool} (h : Presides r N)
    (hc : r.commitIndex ≤ r.lastLogIndex) (hl : Lags r q p k) (hex : Exchanged r q p k r' q' ok) :
    Presides r' N ∧ r'.lastApplied = r.lastApplied ∧
      ∀ x, x ≠ p → r'.nextIndex x = r.nextIndex x ∧ r'.matchIndex x = r.matchIndex x := by
  obtain ⟨hlead, hlast, hown, hnext, hcounts⟩ := h
  have hset : ∀ (m : IndexMap) (v : Int) (x : NodeID), x ≠ p → m.setAll [p] v x = m x := by
    intro m v x hx
    rw [IndexMap.setAll, if_neg (by rwa [List.mem_singleton])]
  have hself : ∀ (m : IndexMap) (v : Int), m.setAll [p] v p = some v := by
    intro m v
    rw [IndexMap.setAll, if_pos (List.mem_singleton_self _)]
  cases hex with
  | refused _ _ hr hlags =>
    subst hr
    refine ⟨⟨hlead, hlast, hown, fun x hx => ?_, hcounts⟩, rfl, fun x hx => ⟨hset _ _ x hx, rfl⟩⟩
    by_cases hxp : x = p
    · subst hxp
      have hw := hl.within
      have hb : r.logBaseIndex < k - 1 := hlags.base.1
      exact ⟨k - 1, hself _ _, hb, by omega⟩
    · rw [show ({ r with nextIndex := r.nextIndex.setAll [p] (k - 1) } : Raft).nextIndex x = r.nextIndex x from
        hset _ _ x hxp]
      exact hnext x hx
  | counted m _ hk hm _ hr _ _ =>
    have hb := hl.base.1
    obtain ⟨hun, hum, _⟩ := updateCommitIndexLocked_next ({ r with
      matchIndex := r.matchIndex.setAll [p] m
      nextIndex := r.nextIndex.setAll [p] (m + 1) } : Raft)
    have hsl := (updateCommitIndexLocked_data ({ r with
      matchIndex := r.matchIndex.setAll [p] m
      nextIndex := r.nextIndex.setAll [p] (m + 1) } : Raft)).toSameLog
    have hsv := updateCommitIndexLocked_same ({ r with
      matchIndex := r.matchIndex.setAll [p] m
      nextIndex := r.nextIndex.setAll [p] (m + 1) } : Raft)
    rw [← hr] at hun hum hsl hsv
    refine ⟨⟨hsv.state.trans hlead, hsl.lastLogIndex.trans hlast, ?_, fun x hx => ?_, fun hmaj => ?_⟩, ?_, fun x hx => ?_⟩
    · rw [entryTerm_sameLog hsl, hsv.term]; exact hown
    · rw [hun, hsl.base]
      by_cases hxp : x = p
      · subst hxp
        exact ⟨m + 1, hself _ _, by show r.logBaseIndex < _; omega, by omega⟩
      · rw [show ({ r with
            matchIndex := r.matchIndex.setAll [p] m
            nextIndex := r.nextIndex.setAll [p] (m + 1) } : Raft).nextIndex x = r.nextIndex x from hset _ _ x hxp]
        exact hnext x (hsv.peers ▸ hx)
    · obtain ⟨h1, h2⟩ := replicas_congr hsv.peers hum N
      rw [h1, h2] at hmaj
      rw [hr, ← hlast]
      exact updateCommitIndexLocked_last hlead (by rw [← hlast] at hown; exact hown) hc (by rw [← hlast] at hmaj; exact hmaj)
    · rw [hr]
      exact (updateCommitIndexLocked_next _).2.2
    · rw [hun, hum]
      exact ⟨hset _ _ x hx, hset _ _ x hx⟩

theorem Follows.commit_le_last {q q' : Raft} {leaderCommit : Int} (h : Follows q q' leaderCommit) :
    q'.commitIndex ≤ max q.commitIndex q'.lastLogIndex := by
  have hc := h.commit
  split at hc
  · split at hc <;> omega
  · omega

end Raft

namespace Cluster

variable {M : Members} {s s' : Cluster} {n m p q c : NodeID} {B K T N k : Int} {t : Task} {r : Raft}
  {a : AppendArgs}

/-! ## Goroutines -/

/-- Goroutine `t` of node `n` goes on to `ts`, and nothing else happens. -/
structure Spawns (s s' : Cluster) (n : NodeID) (t : Task) (ts : List Task) : Prop where
  raft : s'.raft = s.raft
  procs : s'.procs = s.procs
  answers : s'.answers = s.answers
  app : s'.app = s.app
  kept : ∀ x ∈ s.tasks, x ≠ (n, t) → x ∈ s'.tasks
  new : ∀ u ∈ ts, (n, u) ∈ s'.tasks

theorem Calm.spawns (hc : Calm M B K s) (ts : List Task) (hn : n ∈ s.procs) (hx : (n, t) ∈ s.tasks)
    (hspeak : ∀ i, s.tasks[i]? = some (n, t) → s.speaksInOffice (.run i .go {}) = true)
    (hrun : ∀ i, (s.dropTask i).runTask n t .go {} = some ((s.dropTask i).spawn n ts)) :
    ∃ s', Onward M s s' ∧ Calm M B K s' ∧ Spawns s s' n t ts := by
  obtain ⟨i, hi⟩ := List.getElem?_of_mem hx
  have hs : s.step (.run i .go {}) = some ((s.dropTask i).spawn n ts) := by
    simp only [step, hi, if_pos hn]
    exact hrun i
  obtain ⟨ho, hc'⟩ := (Orderly.go {} (hspeak i hi)).rests hc hs rfl rfl
  refine ⟨_, ho, hc', rfl, rfl, rfl, rfl, fun x hx hne => List.mem_append_left _ (mem_dropTask hi hx hne), fun u hu => ?_⟩
  exact List.mem_append_right _ (List.mem_map.2 ⟨u, hu, rfl⟩)

/-- Goroutine `t` of node `n` leaves the node in the state `r`, and goes on to `ts`. -/
structure Goes (s s' : Cluster) (n : NodeID) (t : Task) (r : Raft) (ts : List Task) : Prop where
  node : s'.raft n = r
  other : ∀ m, m ≠ n → s'.raft m = s.raft m
  procs : s'.procs = s.procs
  answers : s'.answers = s.answers
  app : s'.app = s.app
  kept : ∀ x ∈ s.tasks, x ≠ (n, t) → x ∈ s'.tasks
  new : ∀ u ∈ ts, (n, u) ∈ s'.tasks

theorem Calm.goes (hc : Calm M B K s) (ts : List Task) (hn : n ∈ s.procs) (hx : (n, t) ∈ s.tasks)
    (hspeak : ∀ i, s.tasks[i]? = some (n, t) → s.speaksInOffice (.run i .go {}) = true)
    (hrun : ∀ i, (s.dropTask i).runTask n t .go {} = some (((s.dropTask i).setRaft n r).spawn n ts))
    (hterm : r.term ≤ B) (hlast : r.lastLogIndex ≤ K) : ∃ s', Onward M s s' ∧ Calm M B K s' ∧ Goes s s' n t r ts := by
  obtain ⟨i, hi⟩ := List.getElem?_of_mem hx
  have hs : s.step (.run i .go {}) = some (((s.dropTask i).setRaft n r).spawn n ts) := by
    simp only [step, hi, if_pos hn]
    exact hrun i
  have hraft : (((s.dropTask i).setRaft n r).spawn n ts).raft n = r := Function.update_self ..
  have hother : ∀ m, m ≠ n → (((s.dropTask i).setRaft n r).spawn n ts).raft m = s.raft m :=
    fun m hm => Function.update_of_ne hm _ _
  obtain ⟨ho, hc'⟩ := (Orderly.go {} (hspeak i hi)).moves hc hs rfl hother (by rw [hraft]; exact hterm)
    (by rw [hraft]; exact hlast)
  refine ⟨_, ho, hc', hraft, hother, rfl, rfl, rfl, fun x hx hne => List.mem_append_left _ (mem_dropTask hi hx hne),
    fun u hu => ?_⟩
  exact List.mem_append_right _ (List.mem_map.2 ⟨u, hu, rfl⟩)

/-! ## Heartbeat rounds -/

/-- Goroutines that send heartbeats move on, and nothing else happens. -/
structure Rests (s s' : Cluster) : Prop where
  raft : s'.raft = s.raft
  procs : s'.procs = s.procs
  answers : s'.answers = s.answers
  tasks : ∀ n t, (n, t) ∈ s.tasks → (∀ T, t.beats T = false) → (n, t) ∈ s'.tasks

theorem Rests.trans {s'' : Cluster} (h : Rests s s') (h' : Rests s' s'') : Rests s s'' :=
  ⟨h'.raft.trans h.raft, h'.procs.trans h.procs, h'.answers.trans h.answers,
    fun n t ht hb => h'.tasks n t (h.tasks n t ht hb) hb⟩

theorem Spawns.rests {ts : List Task} (h : Spawns s s' n t ts) (hb : t.beats T = true) : Rests s s' := by
  refine ⟨h.raft, h.procs, h.answers, fun m u hu hnot => h.kept _ hu ?_⟩
  rintro ⟨⟩
  rw [hnot] at hb
  cases hb

/-- The goroutine that sends a peer its entries. -/
def batchTask (args : AppendArgs) : Task := if args.entries = [] then .sendAppend args else .pipeline args

/-- The goroutine that a round of node `r` starts for a peer. -/
def peerTask (r : Raft) (T : Int) (leaderID p : NodeID) : Option Task :=
  match r.heartbeatTo T leaderID p with
  | .panic => none
  | .snapshot => some (.sendSnapshot p)
  | .batches args => some (batchTask args)

theorem peerTask_beats {l : NodeID} (h : peerTask r T l p = some t) (T' : Int) : t.beats T' = false := by
  unfold peerTask at h
  split at h
  · cases h
  · cases h
    rfl
  · cases h
    unfold batchTask
    split <;> rfl

/-- A leader may go on with a round of its term. -/
theorem speaks_round {i : Nat} {ret : Caller} {leaderID : NodeID} {rest : List NodeID} (hl : (s.raft c).state = .leader)
    (hT : (s.raft c).term = T) (hi : s.tasks[i]? = some (c, .heartbeatPeers ret T leaderID rest)) :
    s.speaksInOffice (.run i .go {}) = true := by
  simp only [speaksInOffice, hi]
  cases rest with
  | nil => rfl
  | cons p rest => simp only [hl, hT, beq_self_eq_true, Bool.and_self]

/-- A round comes to all of the remaining peers, if the leader does not panic on the way. -/
theorem Calm.comesRound {l : NodeID} (rest : List NodeID) (hc : Calm M B K s) (hcp : c ∈ s.procs)
    (hl : (s.raft c).state = .leader) (hT : (s.raft c).term = T)
    (hx : (c, .heartbeatPeers .heartbeatLoop T l rest) ∈ s.tasks)
    (hread : ∀ p ∈ rest, (s.raft c).heartbeatTo T l p ≠ .panic) :
    ∃ s', Onward M s s' ∧ Calm M B K s' ∧ Rests s s' ∧ (c, .heartbeatLoop) ∈ s'.tasks ∧
      ∀ p ∈ rest, p ≠ "" → ∀ t, peerTask (s.raft c) T l p = some t → (c, t) ∈ s'.tasks := by
  have hbeats : ∀ rest, (Task.heartbeatPeers .heartbeatLoop T l rest).beats T = true := fun _ => beq_self_eq_true _
  induction rest generalizing s with
  | nil =>
    obtain ⟨s', ho, hc', hsp⟩ := hc.spawns [.heartbeatLoop] hcp hx (fun i => speaks_round hl hT) fun _ => rfl
    exact ⟨s', ho, hc', hsp.rests (hbeats _), hsp.new _ List.mem_cons_self, fun p hp => absurd hp List.not_mem_nil⟩
  | cons p rest ih =>
    -- the round goes on to the next peer, and what this one is sent is on its way
    obtain ⟨ts, hts, hrun⟩ : ∃ ts, (p ≠ "" → ∀ t, peerTask (s.raft c) T l p = some t → t ∈ ts) ∧
        ∀ i, (s.dropTask i).runTask c (.heartbeatPeers .heartbeatLoop T l (p :: rest)) .go {} =
          some ((s.dropTask i).spawn c (.heartbeatPeers .heartbeatLoop T l rest :: ts)) := by
      by_cases hp : p = ""
      · refine ⟨[], fun h => absurd hp h, fun i => ?_⟩
        simp only [runTask, heartbeatPeer, if_pos hp]
      · cases hto : (s.raft c).heartbeatTo T l p with
        | panic => exact absurd hto (hread p List.mem_cons_self)
        | snapshot =>
          refine ⟨[.sendSnapshot p], fun _ t h => ?_, fun i => ?_⟩
          · simp only [peerTask, hto] at h
            cases h
            exact List.mem_cons_self
          · simp only [runTask, heartbeatPeer, if_neg hp, dropTask_raft, hto]
        | batches args =>
          refine ⟨[batchTask args], fun _ t h => ?_, fun i => ?_⟩
          · simp only [peerTask, hto] at h
            cases h
            exact List.mem_cons_self
          · simp only [runTask, heartbeatPeer, if_neg hp, dropTask_raft, hto]
            rfl
    obtain ⟨s₁, ho₁, hc₁, hsp⟩ := hc.spawns _ hcp hx (fun i => speaks_round hl hT) hrun
    have hrest₁ := hsp.rests (hbeats _)
    obtain ⟨s', ho, hc', hrest, hloop, hall⟩ := ih hc₁ (hrest₁.procs ▸ hcp) (hrest₁.raft ▸ hl) (hrest₁.raft ▸ hT)
      (hsp.new _ List.mem_cons_self) (fun q hq => hrest₁.raft ▸ hread q (List.mem_cons_of_mem _ hq))
    refine ⟨s', ho₁.trans ho, hc', hrest₁.trans hrest, hloop, fun q hq hne t ht => ?_⟩
    rcases List.mem_cons.1 hq with rfl | hq
    · exact hrest.tasks _ _ (hsp.new _ (List.mem_cons_of_mem _ (hts hne t ht))) (peerTask_beats ht)
    · exact hall q hq hne t (hrest₁.raft ▸ ht)

/-- A leader at its ticker comes round to every peer. -/
theorem Calm.round (hc : Calm M B K s) (hcp : c ∈ s.procs) (hl : (s.raft c).state = .leader)
    (hx : (c, .heartbeatLoop) ∈ s.tasks) (hp : M.peersOf c ≠ [])
    (hread : ∀ p ∈ M.peersOf c, (s.raft c).heartbeatTo (s.raft c).term c p ≠ .panic) :
    ∃ s', Onward M s s' ∧ Calm M B K s' ∧ Rests s s' ∧ (c, .heartbeatLoop) ∈ s'.tasks ∧
      ∀ p ∈ M.peersOf c, p ≠ "" → ∀ t, peerTask (s.raft c) (s.raft c).term c p = some t → (c, t) ∈ s'.tasks := by
  obtain ⟨s₁, ho₁, hc₁, hsp₁⟩ := hc.spawns [.sendHeartbeats .heartbeatLoop] hcp hx
    (fun i hi => by simp only [speaksInOffice, hi]) fun i => by
      simp only [runTask, dropTask_raft, hl, ne_eq, not_true_eq_false, if_false]
  obtain ⟨s₂, ho₂, hc₂, hsp₂⟩ := hc₁.spawns [.heartbeatPeers .heartbeatLoop (s.raft c).term c (M.peersOf c)]
    (hsp₁.procs ▸ hcp) (hsp₁.new _ List.mem_cons_self) (fun i hi => by simp only [speaksInOffice, hi]) fun i => by
      simp only [runTask, dropTask_raft, hsp₁.raft, hc.fixed.peers, hc.fixed.id, if_neg hp]
  have hrest := (hsp₁.rests (T := (s.raft c).term) rfl).trans (hsp₂.rests (T := (s.raft c).term) rfl)
  obtain ⟨s', ho, hc', hrest', hloop, hall⟩ := hc₂.comesRound (M.peersOf c) (hrest.procs ▸ hcp) (hrest.raft ▸ hl)
    (by rw [hrest.raft]) (hsp₂.new _ List.mem_cons_self) (by rw [hrest.raft]; exact hread)
  rw [hrest.raft] at hall
  exact ⟨s', (ho₁.trans ho₂).trans ho, hc', hrest.trans hrest', hloop, hall⟩

/-! ## One exchange -/

/-- Two nodes, the leader `c` and its peer `q`, have exchanged a batch, and nothing else happened. -/
structure Trades (s s' : Cluster) (c q : NodeID) : Prop where
  procs : s'.procs = s.procs
  answers : s'.answers = s.answers
  other : ∀ m, m ≠ c → m ≠ q → s'.raft m = s.raft m
  log : SameLog (s.raft c) (s'.raft c)
  votes : SameVotes (s.raft c) (s'.raft c)
  term : (s'.raft q).term = (s.raft c).term

/-- A batch that waits to be sent goes out, and its goroutine waits for the answer. -/
theorem Calm.posts (hc : Calm M B K s) (hx : (c, .sendAppend a) ∈ s.tasks) (hcp : c ∈ s.procs) :
    ∃ s', Onward M s s' ∧ Calm M B K s' ∧ s'.raft = s.raft ∧ s'.procs = s.procs ∧ s'.answers = s.answers ∧
      s'.replies = s.replies ∧
      s'.requests[s.requests.length]? = some ⟨c, a.peer, .appendEntries (appendEntriesRequest a)⟩ ∧
      (c, .awaitAppend a s.requests.length) ∈ s'.tasks ∧ ∀ x ∈ s.tasks, x ≠ (c, .sendAppend a) → x ∈ s'.tasks := by
  obtain ⟨i, hi⟩ := List.getElem?_of_mem hx
  have hs : s.step (.run i .go {}) =
      some ((s.dropTask i).send c a.peer (.appendEntries (appendEntriesRequest a)) (.awaitAppend a)) := by
    simp only [step, hi, if_pos hcp]
    rfl
  obtain ⟨ho, hc'⟩ := (Orderly.go {} (by simp only [speaksInOffice, hi])).rests hc hs rfl rfl
  refine ⟨_, ho, hc', rfl, rfl, rfl, rfl, ?_, List.mem_append_right _ (List.mem_singleton_self _),
    fun x hx hne => List.mem_append_left _ (mem_dropTask hi hx hne)⟩
  show (s.requests ++ [_])[s.requests.length]? = _
  rw [List.getElem?_append_right (le_refl _), Nat.sub_self]
  rfl

theorem Calm.handles {call : Nat} {req : AppendEntriesRequest} (hc : Calm M B K s)
    (hcall : s.requests[call]? = some ⟨c, q, .appendEntries req⟩) (hqp : q ∈ s.procs)
    (hq : ((s.raft q).acceptsEntries req = true → (s.raft q).commitsVerified req = true) ∧
      ((s.raft q).appendEntries req (s.envOf q {})).1.term ≤ B ∧
      ((s.raft q).appendEntries req (s.envOf q {})).1.lastLogIndex ≤ K) :
    ∃ s', Onward M s s' ∧ Calm M B K s' ∧ s'.raft q = ((s.raft q).appendEntries req (s.envOf q {})).1 ∧
      (∀ m, m ≠ q → s'.raft m = s.raft m) ∧ s'.procs = s.procs ∧ s'.answers = s.answers ∧ s'.tasks = s.tasks ∧
      s'.replyTo call s.replies.length = some (.appendEntries ((s.raft q).appendEntries req (s.envOf q {})).2) := by
  obtain ⟨hwithin, hterm, hlast⟩ := hq
  have hs : s.step (.deliver call {}) = some ((s.setRaft q ((s.raft q).appendEntries req (s.envOf q {})).1).reply
      call (.appendEntries ((s.raft q).appendEntries req (s.envOf q {})).2)) := by
    simp only [step, hcall, if_pos hqp, handle]
  have hnode : ((s.setRaft q ((s.raft q).appendEntries req (s.envOf q {})).1).reply
      call (.appendEntries ((s.raft q).appendEntries req (s.envOf q {})).2)).raft q =
        ((s.raft q).appendEntries req (s.envOf q {})).1 := Function.update_self ..
  obtain ⟨ho, hc'⟩ := (Orderly.handleAppend {} hcall hwithin).moves hc hs rfl
    (fun m hm => Function.update_of_ne hm _ _) (by rw [hnode]; exact hterm) (by rw [hnode]; exact hlast)
  refine ⟨_, ho, hc', hnode, fun m hm => Function.update_of_ne hm _ _, rfl, rfl, rfl, ?_⟩
  simp only [replyTo, Cluster.reply, setRaft_replies, List.getElem?_append_right (le_refl _), Nat.sub_self,
    List.getElem?_cons_zero, if_true]

/-- An answer is taken by the node that asked, in the term in which it did. -/
theorem Calm.takesAnswer {call j : Nat} {resp : AppendEntriesResponse} (hc : Calm M B K s)
    (hx : (c, .awaitAppend a call) ∈ s.tasks) (hcp : c ∈ s.procs) (hj : s.replyTo call j = some (.appendEntries resp))
    (hT : (s.raft c).term = a.term) (hterm : ((s.raft c).handleAppendResponse a resp (s.envOf c {})).1.term ≤ B) :
    ∃ s', Onward M s s' ∧ Calm M B K s' ∧ s'.raft c = ((s.raft c).handleAppendResponse a resp (s.envOf c {})).1 ∧
      (∀ m, m ≠ c → s'.raft m = s.raft m) ∧ s'.procs = s.procs ∧ s'.answers = s.answers ∧
      ∀ x ∈ s.tasks, x ≠ (c, .awaitAppend a call) → x ∈ s'.tasks := by
  obtain ⟨i, hi⟩ := List.getElem?_of_mem hx
  have hs : s.step (.run i (.reply j) {}) = some (((s.dropTask i).setRaft c
      ((s.raft c).handleAppendResponse a resp (s.envOf c {})).1).spawn c
      ((s.raft c).handleAppendResponse a resp (s.envOf c {})).2) := by
    have hreply : (s.dropTask i).replyTo call j = some (.appendEntries resp) := hj
    simp only [step, hi, if_pos hcp, runTask, hreply, dropTask_raft]
    rfl
  have hnode : (((s.dropTask i).setRaft c ((s.raft c).handleAppendResponse a resp (s.envOf c {})).1).spawn c
      ((s.raft c).handleAppendResponse a resp (s.envOf c {})).2).raft c =
        ((s.raft c).handleAppendResponse a resp (s.envOf c {})).1 := Function.update_self ..
  obtain ⟨ho, hc'⟩ := (Orderly.countAck j {} hi hT).moves hc hs rfl (fun m hm => Function.update_of_ne hm _ _)
    (by rw [hnode]; exact hterm)
    (by rw [hnode, (handleAppendResponse_data ..).lastLogIndex]; exact hc.indices c hcp)
  exact ⟨_, ho, hc', hnode, fun m hm => Function.update_of_ne hm _ _, rfl, rfl,
    fun x hx hne => List.mem_append_left _ (mem_dropTask hi hx hne)⟩

/-- A batch that waits to be sent is sent, handled and answered. -/
theorem Calm.trip (hc : Calm M B K s) (hx : (c, .sendAppend a) ∈ s.tasks) (hcp : c ∈ s.procs)
    (hqp : a.peer ∈ s.procs) (hne : a.peer ≠ c) (hT : (s.raft c).term = a.term)
    (hq : ∀ io, ((s.raft a.peer).acceptsEntries (appendEntriesRequest a) = true →
        (s.raft a.peer).commitsVerified (appendEntriesRequest a) = true) ∧
      ((s.raft a.peer).appendEntries (appendEntriesRequest a) io).1.term ≤ B ∧
      ((s.raft a.peer).appendEntries (appendEntriesRequest a) io).1.lastLogIndex ≤ K)
    (hr : ∀ io io', ((s.raft c).handleAppendResponse a
      ((s.raft a.peer).appendEntries (appendEntriesRequest a) io).2 io').1.term ≤ B) :
    ∃ s' io io', Onward M s s' ∧ Calm M B K s' ∧ s'.procs = s.procs ∧ s'.answers = s.answers ∧
      s'.raft a.peer = ((s.raft a.peer).appendEntries (appendEntriesRequest a) io).1 ∧
      s'.raft c = ((s.raft c).handleAppendResponse a ((s.raft a.peer).appendEntries (appendEntriesRequest a) io).2 io').1 ∧
      (∀ m, m ≠ c → m ≠ a.peer → s'.raft m = s.raft m) ∧
      ∀ n t, (n, t) ∈ s.tasks → argsOf t = none → (n, t) ∈ s'.tasks := by
  obtain ⟨s₁, ho₁, hc₁, hr₁, hp₁, ha₁, _, hcall, hwait, hkeep⟩ := hc.posts hx hcp
  obtain ⟨s₂, ho₂, hc₂, hnode₂, hother₂, hp₂, ha₂, ht₂, hreply⟩ := hc₁.handles hcall (hp₁ ▸ hqp) (by rw [hr₁]; exact hq _)
  rw [hr₁] at hnode₂ hother₂ hreply
  have hrc : s₂.raft c = s.raft c := hother₂ c (Ne.symm hne)
  obtain ⟨s', ho, hc', hnode, hother, hp, ha, hkept⟩ := hc₂.takesAnswer (ht₂ ▸ hwait) (by rw [hp₂, hp₁]; exact hcp) hreply
    (by rw [hrc]; exact hT) (by rw [hrc]; exact hr _ _)
  rw [hrc] at hnode
  refine ⟨s', _, _, (ho₁.trans ho₂).trans ho, hc', ?_, ?_, (hother _ hne).trans hnode₂, hnode, fun m h1 h2 => ?_,
    fun n t ht hargs => hkept _ (ht₂ ▸ hkeep _ ht ?_) ?_⟩
  · rw [hp, hp₂, hp₁]
  · rw [ha, ha₂, ha₁]
  · rw [hother m h1, hother₂ m h2]
  · rintro ⟨⟩
    cases hargs
  · rintro ⟨⟩
    cases hargs

/-- A batch for a peer that lags is refused or counted. -/
theorem Calm.exchange (hc : Calm M B K s) (hx : (c, .sendAppend a) ∈ s.tasks) (hcp : c ∈ s.procs) (hname : c ≠ "")
    (hqp : q ∈ s.procs) (hne : q ≠ c) (hterm : (s.raft q).term ≤ (s.raft c).term)
    (hlags : Lags (s.raft c) (s.raft q) q k) (hsends : Sends (s.raft c) q k a) :
    ∃ s' ok, Onward M s s' ∧ Calm M B K s' ∧ Trades s s' c q ∧
      Exchanged (s.raft c) (s.raft q) q k (s'.raft c) (s'.raft q) ok ∧
      ∀ n t, (n, t) ∈ s.tasks → argsOf t = none → (n, t) ∈ s'.tasks := by
  have hknown : (s.raft q).isKnownNode (s.raft c).id = true := by
    rw [hc.fixed.id]; exact hc.fixed.known (hc.fixed.procs c hcp) hne hname
  have hpeer : q ∈ (s.raft c).peers := by
    rw [hc.fixed.peers]
    exact List.mem_filter.2 ⟨hc.fixed.procs q hqp, decide_eq_true hne⟩
  have hci := hc.indexed c
  have hqi := hc.indexed q
  have hfit := hc.entriesFit hcp
  have hTfit := hc.fitsTerm hcp
  obtain ⟨hreqT, hreqL, hreqP, _, hreqE⟩ := hsends.request hci hfit hTfit
  have hanswer := fun io => appendEntries_known (hreqL.symm ▸ hknown) (hreqT.symm ▸ hterm) io
  have hle : ∀ io, ((s.raft q).appendEntries (appendEntriesRequest a) io).2.term ≤ (s.raft c).term := by
    intro io
    rw [(hanswer io).2.1, int32_of_fits (hc.fitsTerm hqp)]; exact hterm
  -- the peer commits at most up to the end of the batch
  have hq : ∀ io, ((s.raft q).acceptsEntries (appendEntriesRequest a) = true →
        (s.raft q).commitsVerified (appendEntriesRequest a) = true) ∧
      ((s.raft q).appendEntries (appendEntriesRequest a) io).1.term ≤ B ∧
      ((s.raft q).appendEntries (appendEntriesRequest a) io).1.lastLogIndex ≤ K := by
    intro io
    have hmerge := appendEntries_merges (s.raft q) (appendEntriesRequest a) io
    refine ⟨fun hok => ?_, by rw [(hanswer io).1, hreqT]; exact hc.terms c hcp, ?_⟩
    · obtain ⟨hm, hfol⟩ := appendEntries_accepted ((appendEntries_success _ _ io).trans hok)
      refine hm.commitsVerified hqi hfol ?_ ?_
      · rw [hreqP, hreqE, sub_add_cancel]
        exact hsends.numbered hci hlags.base.1
      · rw [AppendEntriesRequest.lastIndex, hreqP, hreqE, ← (hlags.accepted hci hqi hsends hm hreqP hreqE).1]
        exact hfol.commit_le_last
    · rcases hmerge with ⟨_, hsame⟩ | ⟨_, hm⟩
      · rw [hsame.lastLogIndex]; exact hc.indices q hqp
      · rw [(hlags.accepted hci hqi hsends hm hreqP hreqE).1]
        exact (hsends.last_le hci hlags.base.1).trans (hc.indices c hcp)
  obtain ⟨hp, hT⟩ := And.intro hsends.peer hsends.term
  subst hp
  obtain ⟨s', io, io', ho, hc', hprocs, hans, hrq, hrc, hother, hkeep⟩ := hc.trip hx hcp hqp hne hT.symm hq fun io io' => by
    rw [(handleAppendResponse_same (hle io) a io').term]; exact hc.terms c hcp
  have hex := hlags.exchange hci hqi hsends hfit hTfit hknown hterm (hc.fitsTerm hqp) hpeer io io'
  rw [← hrc, ← hrq] at hex
  refine ⟨s', _, ho, hc', ⟨hprocs, hans, hother, ?_, ?_, ?_⟩, hex, hkeep⟩
  · rw [hrc]; exact (handleAppendResponse_data ..).toSameLog
  · rw [hrc]; exact handleAppendResponse_same (hle io) a io'
  · rw [hrq, (hanswer io).1, hreqT]

/-! ## A peer catches up -/

theorem Calm.commit_le (hc : Calm M B K s) (n : NodeID) : (s.raft n).commitIndex ≤ (s.raft n).lastLogIndex := by
  obtain ⟨L, full, hi⟩ := hc.inv
  have hlen := (hi.commit n).le_length
  rw [(hi.inv.inv.logs.nodes.whole n).lastLogIndex (hc.indexed n)]
  omega

/-- `c` leads with a log that ends at its own entry `N`, and is at its ticker. -/
structure Office (c : NodeID) (N : Int) (s : Cluster) : Prop where
  up : c ∈ s.procs
  presides : Presides (s.raft c) N
  beats : (c, .heartbeatLoop) ∈ s.tasks

/-- What the exchanges of a leader with a peer leave as it is. -/
structure Serves (s s' : Cluster) (c q : NodeID) : Prop extends Trades s s' c q where
  next : ∀ x, x ≠ q → (s'.raft c).nextIndex x = (s.raft c).nextIndex x
  matched : ∀ x, x ≠ q → (s'.raft c).matchIndex x = (s.raft c).matchIndex x
  applied : (s'.raft c).lastApplied = (s.raft c).lastApplied
  tasks : ∀ n t, (n, t) ∈ s.tasks → argsOf t = none → (∀ T, t.beats T = false) → (n, t) ∈ s'.tasks

theorem Serves.trans {s'' : Cluster} (h : Serves s s' c q) (h' : Serves s' s'' c q) : Serves s s'' c q where
  procs := h'.procs.trans h.procs
  answers := h'.answers.trans h.answers
  other m h1 h2 := (h'.other m h1 h2).trans (h.other m h1 h2)
  log := h.log.trans h'.log
  votes := h.votes.trans h'.votes
  term := h'.term.trans h.votes.term
  next x hx := (h'.next x hx).trans (h.next x hx)
  matched x hx := (h'.matched x hx).trans (h.matched x hx)
  applied := h'.applied.trans h.applied
  tasks n t ht ha hb := h'.tasks n t (h.tasks n t ht ha hb) ha hb

/-- A leader at its ticker and a peer that lags can exchange a batch. -/
theorem Office.exchange (h : Office c N s) (hc : Calm M B K s) (hname : c ≠ "" ∧ q ≠ "") (hqp : q ∈ s.procs) (hne : q ≠ c)
    (hterm : (s.raft q).term ≤ (s.raft c).term) (hlags : Lags (s.raft c) (s.raft q) q k) :
    ∃ s' ok, Onward M s s' ∧ Calm M B K s' ∧ Office c N s' ∧ Serves s s' c q ∧
      Exchanged (s.raft c) (s.raft q) q k (s'.raft c) (s'.raft q) ok := by
  have hi := hc.indexed c
  have hpeer : q ∈ M.peersOf c := List.mem_filter.2 ⟨hc.fixed.procs q hqp, decide_eq_true hne⟩
  have hread : ∀ p ∈ M.peersOf c, (s.raft c).heartbeatTo (s.raft c).term c p ≠ .panic := by
    intro p hp
    obtain ⟨j, hj, hlo, hhi⟩ := h.presides.next p (by rw [hc.fixed.peers]; exact hp)
    obtain ⟨args, hargs, _⟩ := heartbeatTo_within hi hj hlo (by rw [h.presides.last]; exact hhi) (s.raft c).term c
    rw [hargs]
    exact nofun
  -- the round gives the peer its batch
  obtain ⟨s₁, ho₁, hc₁, hrest, hloop₁, hall⟩ := hc.round h.up h.presides.lead h.beats (List.ne_nil_of_mem hpeer) hread
  obtain ⟨args, hargs, hsome, hsends⟩ := heartbeatTo_sends hi (hc.entriesFit h.up) hlags.next hlags.base.1 hlags.within
  rw [hc.fixed.id] at hargs
  have hpipe : (c, .pipeline args) ∈ s₁.tasks := by
    refine hall q hpeer hname.2 _ ?_
    simp only [peerTask, hargs, batchTask, if_neg hsome]
  obtain ⟨s₂, ho₂, hc₂, hsp⟩ := hc₁.spawns [.sendAppend (currentBatch args), .pipeline (afterSent args)]
    (hrest.procs ▸ h.up) hpipe (fun i hi => by simp only [speaksInOffice, hi]) fun i => by simp only [runTask, if_neg hsome]
  have hraft : s₂.raft = s.raft := hsp.raft.trans hrest.raft
  have hprocs : s₂.procs = s.procs := hsp.procs.trans hrest.procs
  obtain ⟨s', ok, ho, hc', htr, hex, hkept⟩ := hc₂.exchange (hsp.new _ List.mem_cons_self) (hprocs ▸ h.up) hname.1
    (hprocs ▸ hqp) hne (hraft ▸ hterm) (hraft ▸ hlags) (hraft ▸ hsends)
  rw [hraft] at hex
  obtain ⟨hpres, happlied, hother⟩ := h.presides.exchanged (hc.commit_le c) hlags hex
  have hkeep : ∀ n t, (n, t) ∈ s₁.tasks → argsOf t = none → (n, t) ∈ s'.tasks := by
    intro n t ht ha
    refine hkept n t (hsp.kept _ ht ?_) ha
    rintro ⟨⟩
    cases ha
  refine ⟨s', ok, (ho₁.trans ho₂).trans ho, hc', ⟨htr.procs ▸ hprocs ▸ h.up, hpres, hkeep _ _ hloop₁ rfl⟩,
    ⟨⟨?_, ?_, ?_, ?_, ?_, ?_⟩,
    fun x hx => (hother x hx).1, fun x hx => (hother x hx).2, happlied,
    fun n t ht ha hb => hkeep n t (hrest.tasks n t ht hb) ha⟩, hex⟩
  · exact htr.procs.trans hprocs
  · exact htr.answers.trans (hsp.answers.trans hrest.answers)
  · rw [← hraft]; exact htr.other
  · rw [← hraft]; exact htr.log
  · rw [← hraft]; exact htr.votes
  · rw [← hraft]; exact htr.term

/-- A leader at its ticker brings a peer up to the end of its log. -/
def CatchesUp (M : Members) (B K N : Int) (s : Cluster) (c q : NodeID) : Prop :=
  ∃ s', Onward M s s' ∧ Calm M B K s' ∧ Office c N s' ∧ Serves s s' c q ∧ (s'.raft c).matchIndex q = some N

theorem CatchesUp.after {s₁ : Cluster} (h : CatchesUp M B K N s₁ c q) (ho : Onward M s s₁) (hs : Serves s s₁ c q) :
    CatchesUp M B K N s c q := by
  obtain ⟨s', ho', hc', hoff, hs', hm⟩ := h
  exact ⟨s', ho.trans ho', hc', hoff, hs.trans hs', hm⟩

theorem CatchesUp.here {s₁ : Cluster} {m : Int} (hc : Calm M B K s₁) (ho : Onward M s s₁) (h : Office c N s₁)
    (hs : Serves s s₁ c q) (hr : s₁.raft c = ({ r with
      matchIndex := r.matchIndex.setAll [q] m
      nextIndex := r.nextIndex.setAll [q] (m + 1) } : Raft).updateCommitIndexLocked) (hm : m = N) :
    CatchesUp M B K N s c q := by
  refine ⟨s₁, ho, hc, h, hs, ?_⟩
  rw [hr, (updateCommitIndexLocked_next _).2.1, hm]
  exact if_pos (List.mem_singleton_self _)

/-- Where the logs agree before the next index, every batch is accepted until the peer has the whole log. -/
theorem Office.streams (hname : c ≠ "" ∧ q ≠ "") (hne : q ≠ c) (d : Nat) (h : Office c N s) (hc : Calm M B K s)
    (hqp : q ∈ s.procs) (hterm : (s.raft q).term ≤ (s.raft c).term) (hlags : Lags (s.raft c) (s.raft q) q k)
    (hshare : Shares (s.raft c) (s.raft q) (k - 1)) (hd : N < k + d) : CatchesUp M B K N s c q := by
  induction d generalizing s k with
  | zero =>
    have := hlags.within
    have := h.presides.last
    omega
  | succ d ih =>
    obtain ⟨s₁, ok, ho, hc₁, hoff, hserves, hex⟩ := h.exchange hc hname hqp hne hterm hlags
    cases hex with
    | refused _ hno => exact absurd hshare hno
    | counted m _ hk hm _ hr hs hl =>
      rw [h.presides.last] at hm hl
      rcases lt_or_eq_of_le hm with hlt | heq
      · refine (ih hoff hc₁ (hserves.procs ▸ hqp) ?_ (hl hlt) ?_ (by push_cast at hd; omega)).after ho hserves
        · rw [hserves.term, hserves.votes.term]
        · rw [Int.add_sub_cancel]; exact hs
      · exact .here hc₁ ho hoff hserves hr heq

/-- Where they do not, the next index goes back until they do. -/
theorem Office.probes (hname : c ≠ "" ∧ q ≠ "") (hne : q ≠ c) (d : Nat) (h : Office c N s) (hc : Calm M B K s)
    (hqp : q ∈ s.procs) (hterm : (s.raft q).term ≤ (s.raft c).term) (hlags : Lags (s.raft c) (s.raft q) q k)
    (hd : k < d) : CatchesUp M B K N s c q := by
  induction d generalizing s k with
  | zero =>
    have := hlags.base.1
    have := (hc.indexed c).base
    omega
  | succ d ih =>
    obtain ⟨s₁, ok, ho, hc₁, hoff, hserves, hex⟩ := h.exchange hc hname hqp hne hterm hlags
    have hterm₁ : (s₁.raft q).term ≤ (s₁.raft c).term := by rw [hserves.term, hserves.votes.term]
    cases hex with
    | refused _ _ _ hl => exact (ih hoff hc₁ (hserves.procs ▸ hqp) hterm₁ hl (by push_cast at hd; omega)).after ho hserves
    | counted m _ hk hm _ hr hs hl =>
      rw [h.presides.last] at hm hl
      rcases lt_or_eq_of_le hm with hlt | heq
      · refine (hoff.streams hname hne (N - m).toNat hc₁ (hserves.procs ▸ hqp) hterm₁ (hl hlt) ?_
          (by omega)).after ho hserves
        rw [Int.add_sub_cancel]; exact hs
      · exact .here hc₁ ho hoff hserves hr heq

/-! ## A majority catches up -/

/-- All of the peers of a list catch up, one after the other. -/
theorem Office.replicates (hname : c ≠ "") (l : List NodeID) (h : Office c N s) (hc : Calm M B K s) (hnodup : l.Nodup)
    (hl : ∀ q ∈ l, q ∈ s.procs ∧ q ≠ c ∧ q ≠ "" ∧ (s.raft q).term ≤ (s.raft c).term ∧
      ∃ k, Lags (s.raft c) (s.raft q) q k) :
    ∃ s', Onward M s s' ∧ Calm M B K s' ∧ Office c N s' ∧ s'.procs = s.procs ∧ s'.answers = s.answers ∧
      SameLog (s.raft c) (s'.raft c) ∧ (s'.raft c).lastApplied = (s.raft c).lastApplied ∧
      (∀ n t, (n, t) ∈ s.tasks → argsOf t = none → (∀ T, t.beats T = false) → (n, t) ∈ s'.tasks) ∧
      (∀ q ∈ l, (s'.raft c).matchIndex q = some N) ∧ ∀ q, q ∉ l → (s'.raft c).matchIndex q = (s.raft c).matchIndex q := by
  induction l generalizing s with
  | nil =>
    exact ⟨s, .refl s, hc, h, rfl, rfl, .refl _, rfl, fun _ _ ht _ _ => ht, fun q hq => absurd hq List.not_mem_nil,
      fun _ _ => rfl⟩
  | cons q l ih =>
    obtain ⟨hql, hnodup⟩ := List.nodup_cons.1 hnodup
    obtain ⟨hqp, hqc, hqname, hqterm, k, hlags⟩ := hl q List.mem_cons_self
    obtain ⟨s₁, ho₁, hc₁, hoff₁, hserves, hmatch⟩ :=
      h.probes ⟨hname, hqname⟩ hqc (k + 1).toNat hc hqp hqterm hlags (by omega)
    obtain ⟨s', ho, hc', hoff, hprocs, hans, hlog, happlied, htasks, hall, hrest⟩ := ih hoff₁ hc₁ hnodup fun p hp => by
      obtain ⟨hpp, hpc, hpname, hpterm, j, hj⟩ := hl p (List.mem_cons_of_mem _ hp)
      have hpq : p ≠ q := by
        rintro rfl
        exact hql hp
      rw [hserves.other p hpc hpq, hserves.votes.term]
      exact ⟨hserves.procs ▸ hpp, hpc, hpname, hpterm, j, hj.congr hserves.log (hserves.next p hpq)⟩
    refine ⟨s', ho₁.trans ho, hc', hoff, hprocs.trans hserves.procs, hans.trans hserves.answers,
      hserves.log.trans hlog, happlied.trans hserves.applied,
      fun n t ht ha hb => htasks n t (hserves.tasks n t ht ha hb) ha hb, fun p hp => ?_, fun p hp => ?_⟩
    · rcases List.mem_cons.1 hp with rfl | hp
      · exact (hrest p hql).trans hmatch
      · exact hall p hp
    · obtain ⟨hpq, hpl⟩ := not_or.1 (fun h => hp (List.mem_cons.2 h))
      exact (hrest p hpl).trans (hserves.matched p hpq)

variable {Q : Finset NodeID}

/-- A leader that counts its whole log for a majority has committed it. -/
theorem Office.commits (h : Office c N s) (hc : Calm M B K s) (hQ : IsMajority M.ids.toFinset Q) (hcQ : c ∈ Q)
    (hmatch : ∀ q ∈ Q, q ≠ c → (s.raft c).matchIndex q = some N) : (s.raft c).commitIndex = N := by
  refine h.presides.counts ((hc.fixed.majority_le hQ hcQ).trans ?_)
  have hsub : Q.erase c ⊆ ((s.raft c).peers.filter fun p => decide (N ≤ (s.raft c).matchIndex.get p)).toFinset := by
    intro q hq
    obtain ⟨hqc, hqQ⟩ := Finset.mem_erase.1 hq
    rw [List.mem_toFinset, List.mem_filter, hc.fixed.peers]
    refine ⟨List.mem_filter.2 ⟨List.mem_toFinset.1 (hQ.sub hqQ), decide_eq_true hqc⟩, decide_eq_true ?_⟩
    rw [IndexMap.get, hmatch q hqQ hqc]
    exact le_refl _
  have hcard := (Finset.card_le_card hsub).trans (List.toFinset_card_le _)
  rw [Finset.length_toList, replicas]
  omega

end Cluster

end Mimori
