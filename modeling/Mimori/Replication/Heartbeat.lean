/-
A leader is never silent. Whoever leads and runs has a goroutine of `becomeLeaderLocked` that sends its heartbeats: it waits
at its ticker, or is in a round of the term the node leads. Offices are lost and won again, processes die and come back, and
a round of an old term may still be under way; none of this leaves a leader without such a goroutine.
-/
import Mimori.Commit.Acks
import Mimori.Replication.Monotone
import Mimori.Storage.Terms

namespace Mimori

open Raft

/-- A heartbeat goroutine that serves the leader of term `T`. -/
def Task.beats (T : Int) : Task → Bool
  | .heartbeatLoop => true
  | .sendHeartbeats .heartbeatLoop => true
  | .heartbeatPeers .heartbeatLoop term _ _ => term == T
  | .heartbeatAlone .heartbeatLoop => true
  | _ => false

namespace Raft

variable {r : Raft} {io : Io}

/-- An election makes a leader only together with the goroutine. -/
theorem startElectionLocked_beats (h : (r.startElectionLocked io).1.state = .leader) :
    NoNewLeader r (r.startElectionLocked io).1 ∨ .heartbeatLoop ∈ (r.startElectionLocked io).2 := by
  rcases startElectionLocked_cases r io with he | ⟨r₁, hc, ⟨_, he⟩ | he⟩
  · rw [he]
    exact .inl (.refl r)
  · rw [he]
    exact .inr (List.mem_singleton_self _)
  · rw [he, hc.state] at h
    cases h

theorem electionTick_beats {timeout : Int} (h : (r.electionTick timeout io).1.state = .leader) :
    NoNewLeader r (r.electionTick timeout io).1 ∨ .heartbeatLoop ∈ (r.electionTick timeout io).2 := by
  rcases electionTick_cases r timeout io with he | he <;> rw [he] at h ⊢
  · exact .inl (.refl r)
  · exact startElectionLocked_beats h

theorem timeoutNow_beats {req : TimeoutNowRequest} (h : (r.timeoutNow req io).1.state = .leader) :
    NoNewLeader r (r.timeoutNow req io).1 ∨ .heartbeatLoop ∈ (r.timeoutNow req io).2.1 := by
  rcases timeoutNow_cases r req io with ⟨he, _⟩ | ⟨r₁, hm, he, ht⟩
  · rw [he]
    exact .inl (.refl r)
  · rw [he] at h
    rw [he, ht]
    rcases startElectionLocked_beats h with hn | hb
    · refine .inl fun hl => ?_
      obtain ⟨h1, h2⟩ := hn hl
      obtain ⟨h3, h4⟩ := hm.noNewLeader h1
      exact ⟨h3, h2.trans h4⟩
    · exact .inr hb

theorem handleVoteResponse_beats {resp : RequestVoteResponse} (h : (r.handleVoteResponse resp).1.state = .leader) :
    NoNewLeader r (r.handleVoteResponse resp).1 ∨ .heartbeatLoop ∈ (r.handleVoteResponse resp).2 := by
  rcases handleVoteResponse_cases r resp with ⟨hm, _⟩ | ⟨_, hc, r₁, rfl, ⟨_, he⟩ | he⟩
  · exact .inl hm.noNewLeader
  · rw [he]
    exact .inr (List.mem_singleton_self _)
  · rw [he] at h
    rw [show ({ r with votes := r.votes + 1 } : Raft).state = r.state from rfl, hc] at h
    cases h

end Raft

namespace Cluster

variable {s s' : Cluster} {a : Action} {n : NodeID}

/-- Every running leader has a heartbeat goroutine of its term. -/
def Beating (s : Cluster) : Prop :=
  ∀ n ∈ s.procs, (s.raft n).state = .leader → ∃ t, (n, t) ∈ s.tasks ∧ t.beats (s.raft n).term = true

/-- The goroutine of a leader goes on to its next section, unless the process dies of it. -/
theorem runTask_beats {t : Task} {c : Choice} {io : Io} (hl : (s.raft n).state = .leader)
    (hb : t.beats (s.raft n).term = true) (h : s.runTask n t c io = some s') (hn : n ∈ s'.procs) :
    ∃ u, (n, u) ∈ s'.tasks ∧ u.beats (s.raft n).term = true := by
  have hlast : ∀ {s : Cluster} {u : Task} {us : List Task}, (n, u) ∈ (s.spawn n (u :: us)).tasks :=
    List.mem_append_right _ List.mem_cons_self
  cases t with
  | heartbeatLoop =>
    cases c with
    | go =>
      simp only [runTask, hl, ne_eq, not_true_eq_false, if_false, Option.some.injEq] at h
      subst h
      exact ⟨_, hlast, rfl⟩
    | _ => cases h
  | sendHeartbeats ret =>
    cases ret with
    | configChange => cases hb
    | heartbeatLoop =>
      cases c with
      | go =>
        simp only [runTask] at h
        split at h <;> cases h
        · exact ⟨_, hlast, rfl⟩
        · exact ⟨_, hlast, beq_self_eq_true _⟩
      | _ => cases h
  | heartbeatPeers ret term leaderID rest =>
    cases ret with
    | configChange => cases hb
    | heartbeatLoop =>
      cases c with
      | go =>
        cases rest with
        | nil =>
          cases h
          exact ⟨_, hlast, rfl⟩
        | cons p rest =>
          have hs' : s.heartbeatPeer n .heartbeatLoop term leaderID p rest = s' := Option.some.inj h
          refine ⟨.heartbeatPeers .heartbeatLoop term leaderID rest, ?_, hb⟩
          unfold heartbeatPeer at hs'
          simp only at hs'
          split at hs'
          · rw [← hs']; exact hlast
          · split at hs'
            · rw [← hs', crash_procs] at hn
              exact absurd rfl (of_decide_eq_true (List.mem_filter.1 hn).2)
            · rw [← hs']; exact hlast
            · rw [← hs']; exact hlast
      | _ => cases rest <;> cases h
  | heartbeatAlone ret =>
    cases ret with
    | configChange => cases hb
    | heartbeatLoop =>
      cases c with
      | go =>
        cases h
        exact ⟨_, hlast, rfl⟩
      | _ => cases h
  | _ => cases hb

/-- Whoever leads after a step led the term before, or begins to send heartbeats with it. -/
theorem step_beats (hs : s.step a = some s') (hl : (s'.raft n).state = .leader) :
    ((s.raft n).state = .leader ∧ (s'.raft n).term = (s.raft n).term) ∨ (n, .heartbeatLoop) ∈ s'.tasks := by
  have hmem : ∀ {s : Cluster} {ts : List Task}, .heartbeatLoop ∈ ts → (n, .heartbeatLoop) ∈ (s.spawn n ts).tasks :=
    fun h => List.mem_append_right _ (List.mem_map.2 ⟨_, h, rfl⟩)
  rcases step_at hs n with heq | ⟨hn, hm⟩
  · rw [heq] at hl ⊢
    exact .inl ⟨hl, rfl⟩
  · generalize hr : s'.raft n = r at hm hl
    cases hm with
    | electionTick _ timeout io =>
      rcases electionTick_beats hl with hno | hb
      · exact .inl (hno hl)
      · cases step_cases hs
        exact .inr (hmem hb)
    | timeoutNow call io src _ req hp =>
      rcases timeoutNow_beats hl with hno | hb
      · exact .inl (hno hl)
      · cases step_cases hs with
        | deliver _ _ p hp' _ =>
          rw [hp] at hp'
          cases hp'
          exact .inr (hmem hb)
    | voteAnswer i j io _ p T call resp hx hrep =>
      rcases handleVoteResponse_beats hl with hno | hb
      · exact .inl (hno hl)
      · obtain ⟨_, hrun⟩ := step_runTask hs hx
        have hrep' : (s.dropTask i).replyTo call j = some (.requestVote resp) := hrep
        simp only [runTask, hrep', Option.some.injEq] at hrun
        rw [← hrun]
        exact .inr (hmem hb)
    | requestVote => exact .inl (requestVote_noNewLeader _ _ _ hl)
    | appendEntries => exact .inl ((appendEntries_move ..).noNewLeader hl)
    | installSnapshot => exact .inl ((installSnapshot_move ..).noNewLeader hl)
    | appendAnswer => exact .inl ((handleAppendResponse_move ..).noNewLeader hl)
    | transferAnswer => exact .inl ((handleTimeoutNowResponse_move ..).noNewLeader hl)
    | snapshotAnswer => exact .inl ((snapshotSent_same ..).noNewLeader hl)
    | alone => exact .inl ((updateCommitIndexLocked_same _).noNewLeader hl)
    | wait => exact .inl ((appliedWait_rest ..).noNewLeader hl)
    | propose => exact .inl ((propose_rest ..).noNewLeader hl)
    | proposeTask => exact .inl ((propose_rest ..).noNewLeader hl)
    | configChange => exact .inl ((proposeConfigChange_rest ..).noNewLeader hl)
    | forceSnapshot => exact .inl ((createSnapshotLocked_rest ..).noNewLeader hl)
    | applierTake => exact .inl ((takeNext_reconfigured ..).noNewLeader hl)
    | applierDone => exact .inl (((afterApply_rest ..).trans_reconfigured (takeNext_reconfigured ..)).noNewLeader hl)

/-- A goroutine that does not run is still there after a step, unless its process died. -/
theorem step_bystander (hs : s.step a = some s') {t : Task} (ht : (n, t) ∈ s.bystanders a) (hn : n ∈ s'.procs) :
    (n, t) ∈ s'.tasks := by
  cases step_tasksLeft hs with
  | spawn m new htasks =>
    rw [htasks]
    exact List.mem_append_left _ ht
  | panic i c io m t' ha hx _ hs' =>
    subst ha hs'
    refine List.mem_filter.2 ⟨ht, ?_⟩
    exact (List.mem_filter.1 hn).2

theorem step_procs_sub (hs : s.step a = some s') (hn : n ∈ s'.procs) : n ∈ s.procs := by
  cases step_tasksLeft hs with
  | spawn m new _ hp => rw [hp] at hn; exact hn
  | panic i c io m t' ha _ _ hs' =>
    rw [hs'] at hn
    exact (List.mem_filter.1 hn).1

theorem Beating.step (h : Beating s) (hs : s.step a = some s') : Beating s' := by
  intro n hn hl
  rcases step_beats hs hl with ⟨hl', ht⟩ | hb
  · obtain ⟨t, hmem, hb⟩ := h n (step_procs_sub hs hn) hl'
    rw [ht]
    by_cases hrun : ∃ i c io, a = .run i c io ∧ s.tasks[i]? = some (n, t)
    · -- the goroutine itself goes on
      obtain ⟨i, c, io, rfl, hx⟩ := hrun
      obtain ⟨_, hstep⟩ := step_runTask hs hx
      exact runTask_beats (s := s.dropTask i) hl' hb hstep hn
    · refine ⟨t, step_bystander hs ?_ hn, hb⟩
      cases a with
      | run i c io =>
        obtain ⟨j, hj⟩ := List.getElem?_of_mem hmem
        refine List.mem_eraseIdx_iff_getElem?.2 ⟨j, ?_, hj⟩
        rintro rfl
        exact hrun ⟨j, c, io, rfl, hj⟩
      | _ => exact hmem
  · exact ⟨_, hb, rfl⟩

theorem Beating.restart (h : Beating s) (n : NodeID) (peers : List NodeID) (d : Disk) (io : Io) :
    Beating (s.restart n peers d io) := by
  intro m hm hl
  by_cases hmn : m = n
  · subst hmn
    have hf : ((s.restart m peers d io).raft m).state = .follower := by
      rw [restart_raft, if_pos rfl]
      exact new_follower m peers d io
    rw [hf] at hl
    cases hl
  · rw [restart_raft, if_neg hmn] at hl ⊢
    have hup : m ∈ s.procs := by
      rcases List.mem_append.1 hm with hm | hm
      · exact (List.mem_filter.1 hm).1
      · exact absurd (List.mem_singleton.1 hm) hmn
    obtain ⟨t, ht, hb⟩ := h m hup hl
    exact ⟨t, List.mem_filter.2 ⟨ht, decide_eq_true hmn⟩, hb⟩

theorem Beating.restartStep {l : RestartAction} (h : Beating s) (hs : s.restartStep l = some s') : Beating s' := by
  rcases l with (a | ⟨n, a, c, saved, peers, io⟩) | ⟨n, call, io, peers, start⟩
  · exact h.step hs
  · simp only [Cluster.restartStep, lifeStep] at hs
    split at hs
    · cases hs
      exact h.restart n peers _ io
    · cases hs
  · obtain ⟨d, _, rfl⟩ := Option.map_eq_some_iff.1 hs
    exact h.restart n peers d start

/-- A leader is never silent: in every run, with any membership changes, lost and repeated messages, failed saves, crashes
and restarts, a process that runs and leads has a heartbeat goroutine at its ticker or in a round of the very term it
leads. -/
theorem leader_never_silent {h : List (Cluster × RestartAction)} (hr : restartMachine.Run (fun _ _ => True) h s)
    (hn : n ∈ s.procs) (hl : (s.raft n).state = .leader) : ∃ t, (n, t) ∈ s.tasks ∧ t.beats (s.raft n).term = true := by
  have hinv : Beating s := by
    refine hr.invariant ?_ fun s l s' hi _ hs => hi.restartStep hs
    rintro s ⟨procs, peersOf, snapshotter, restorer, _, rfl⟩ n _ hl
    cases hl
  exact hinv n hn hl

/-- A begins a round in term 1, loses its office to B's higher term, and is elected again in term 3 while the round of
term 1 is still under way. -/
def roundUnderWay : List RestartAction :=
  (electA ++ [.run 1 .go {}, .run 1 .go {}, .tick 2000, .electionTimeout "B" 1500 {}, .run 2 .go {}, .run 2 .go {},
    .deliver 1 {}, .tick 2000, .electionTimeout "A" 1500 {}, .run 4 .go {}, .run 4 .go {}, .deliver 2 {},
    .run 5 (.reply 2) {}] : List Action).map fun a => .life (.step a)

theorem leader_never_silent_roundUnderWay :
    ∃ h s, restartMachine.Run (fun _ _ => True) h s ∧
      ("A", .heartbeatPeers .heartbeatLoop 1 "A" ["B", "C"]) ∈ s.tasks ∧ (s.raft "A").state = .leader ∧
      ∃ t, ("A", t) ∈ s.tasks ∧ t.beats 3 = true := by
  obtain ⟨h, s, hr, hold, hn, hl, ht⟩ := Machine.exists_run (S := restartMachine) (fun _ _ => True)
    (fun _ s => ("A", .heartbeatPeers .heartbeatLoop 1 "A" ["B", "C"]) ∈ s.tasks ∧ "A" ∈ s.procs ∧
      (s.raft "A").state = .leader ∧ (s.raft "A").term = 3)
    (machine_init threeNodes false false) roundUnderWay (by decide +kernel)
  obtain ⟨t, hmem, hb⟩ := leader_never_silent hr hn hl
  rw [ht] at hb
  exact ⟨h, s, hr, hold, hl, t, hmem, hb⟩

end Cluster

end Mimori
