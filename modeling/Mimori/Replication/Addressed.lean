/-
Where requests go: a leader sends AppendEntries and InstallSnapshot to its peers, never to itself, and
a goroutine that waits for the answer to a request knows which request it was.
-/
import Mimori.Cluster.Fixed

namespace Mimori

open Raft

namespace Cluster

/-- The nodes a goroutine is going to send to, or has sent to, as a leader. -/
def targets : Task → List NodeID
  | .heartbeatPeers _ _ _ rest => rest
  | .pipeline args => [args.peer]
  | .sendAppend args => [args.peer]
  | .awaitAppend args _ => [args.peer]
  | .sendSnapshot peer => [peer]
  | .sendSnapshotLoaded peer _ => [peer]
  | _ => []

structure Addressed (M : Members) (s : Cluster) : Prop where
  task : ∀ n t, (n, t) ∈ s.tasks → ∀ p ∈ targets t, p ∈ M.peersOf n
  append : ∀ p ∈ s.requests, ∀ req, p.req = .appendEntries req → p.dst ∈ M.peersOf p.src
  install : ∀ p ∈ s.requests, ∀ req, p.req = .installSnapshot req → p.dst ∈ M.peersOf p.src
  await : ∀ n args call, (n, .awaitAppend args call) ∈ s.tasks →
    s.requests[call]? = some ⟨n, args.peer, .appendEntries (appendEntriesRequest args)⟩

variable {M : Members} {s s' : Cluster} {a : Action}

theorem NewTask.targets (hf : Fixed M s) (h : Addressed M s) {n : NodeID} {t : Task} (hnew : NewTask s a n t) :
    ∀ p ∈ targets t, p ∈ M.peersOf n := by
  intro p hp
  cases hnew with
  | next i c io _ u _ hx hsp =>
    have hold := h.task n u (List.mem_of_getElem? hx)
    cases hsp with
    | roundPeers ret => rw [← hf.peers n]; exact hp
    | nextPeer ret T leaderID q rest => exact hold p (List.mem_cons_of_mem _ hp)
    | peerSnapshot ret T leaderID q rest =>
      rw [List.mem_singleton.1 hp]; exact hold q (List.mem_cons_self ..)
    | peerHeartbeat ret T leaderID q rest args hb =>
      obtain ⟨_, _, rfl⟩ := heartbeatTo_batches hb
      rw [List.mem_singleton.1 hp]; exact hold q (List.mem_cons_self ..)
    | peerBatches ret T leaderID q rest args hb =>
      obtain ⟨_, _, rfl⟩ := heartbeatTo_batches hb
      rw [List.mem_singleton.1 hp]; exact hold q (List.mem_cons_self ..)
    | batch args => exact hold p hp
    | batchSent args =>
      rw [List.mem_singleton.1 hp, afterSent_peer]; exact hold _ (List.mem_singleton.2 rfl)
    | batchRefused args => exact hold p hp
    | awaitAppend args => exact hold p hp
    | refused args => exact hold p hp
    | loaded peer snap => exact hold p hp
    | _ => cases hp
  | _ => cases hp

/-- `sendAppendEntriesBatch` sends its request. -/
theorem step_sendAppend {i : Nat} {io : Io} {n : NodeID} {args : AppendArgs} (hs : s.step (.run i .go io) = some s')
    (hx : s.tasks[i]? = some (n, .sendAppend args)) :
    s'.requests = s.requests ++ [⟨n, args.peer, .appendEntries (appendEntriesRequest args)⟩] := by
  obtain ⟨_, hrun⟩ := step_runTask hs hx
  simp only [runTask] at hrun
  cases hrun
  rfl

theorem NewTask.await (hs : s.step a = some s') {n : NodeID} {args : AppendArgs} {call : Nat}
    (hnew : NewTask s a n (.awaitAppend args call)) :
    s'.requests[call]? = some ⟨n, args.peer, .appendEntries (appendEntriesRequest args)⟩ := by
  cases hnew with
  | next i c io _ u _ hx hsp =>
    cases hsp with
    | awaitAppend =>
      rw [step_sendAppend hs hx, List.getElem?_append_right (Nat.le_refl _), Nat.sub_self]; rfl

theorem Addressed.step (h : Addressed M s) (hf : Fixed M s) (hs : s.step a = some s') : Addressed M s' := by
  refine ⟨fun n t ht => ?_, fun p hp req hr => ?_, fun p hp req hr => ?_, fun n args call ht => ?_⟩
  · rcases step_tasks hs ht with ht | ⟨_, ht⟩
    · exact h.task n t ht
    · exact ht.targets hf h
  · rcases step_packets hs hp with hp | ⟨_, hq⟩
    · exact h.append p hp req hr
    · cases hq with
      | appendEntries i io n args hx =>
        exact h.task n _ (List.mem_of_getElem? hx) _ (List.mem_singleton.2 rfl)
      | _ => cases hr
  · rcases step_packets hs hp with hp | ⟨_, hq⟩
    · exact h.install p hp req hr
    · cases hq with
      | installSnapshot i io n peer snap hx =>
        exact h.task n _ (List.mem_of_getElem? hx) _ (List.mem_singleton.2 rfl)
      | _ => cases hr
  · rcases step_tasks hs ht with ht | ⟨_, ht⟩
    · exact step_request_some hs (h.await n args call ht)
    · exact ht.await hs

theorem Addressed.start (M : Members) (snapshotter restorer : Bool) :
    Addressed M (Cluster.start M.ids M.peersOf snapshotter restorer) := by
  refine ⟨?_, ?_, ?_, ?_⟩
  · intro n t ht; cases ht
  · intro p hp; cases hp
  · intro p hp; cases hp
  · intro n args call ht; cases ht

end Cluster

end Mimori
