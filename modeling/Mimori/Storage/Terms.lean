/-
Terms across restarts. A process may die after any step, at any point of a step that writes files, and
between the two saves of the meta file that `RequestVote` and `TimeoutNow` make; `New` reads the term and
the vote back. The term never goes back as long as the meta file holds the term of the node, which every
function sees to except `handleVoteResponse`.
-/
import Mimori.Storage.Meta
import Mimori.Storage.Restart

namespace Mimori

open Raft

namespace Cluster

/-! ## Runs with restarts at any point -/

/-- The files between the two saves of the meta file in the handler of request `call`: the newer term is
saved, the vote is not yet. -/
def betweenSaves (s : Cluster) (n : NodeID) (call : Nat) (io : Io) : Option Disk :=
  match s.requests[call]? with
  | some ⟨_, m, .requestVote req⟩ =>
    if m = n ∧ n ∈ s.procs ∧ (s.raft n).isKnownNode req.candidateId = true ∧ (s.raft n).term ≤ req.term then
      some ((s.raft n).adoptTerm req.term (s.envOf n io)).disk
    else none
  | some ⟨_, m, .timeoutNow req⟩ =>
    if m = n ∧ n ∈ s.procs ∧ req.leaderId = (s.raft n).leader ∧ (s.raft n).term ≤ req.term then
      some ((s.raft n).adoptTerm req.term (s.envOf n io)).disk
    else none
  | _ => none

inductive RestartAction
  | life (l : LifeAction)
  /-- The process of `n` dies between the two saves and is started again. -/
  | between (n : NodeID) (call : Nat) (io : Io) (peers : List NodeID) (start : Io)
  deriving DecidableEq

def restartStep (s : Cluster) : RestartAction → Option Cluster
  | .life l => s.lifeStep l
  | .between n call io peers start => (s.betweenSaves n call io).map fun d => s.restart n peers d start

def restartMachine : Machine Cluster RestartAction := ⟨machine.init, restartStep⟩

/-! ## Conditions -/

/-- No save of the meta file fails. -/
def metaSaved : RestartAction → Bool
  | .life (.step a) => (ioOf a).saveTerm && (ioOf a).saveVote
  | .life (.crash _ a _ _ _ start) => (ioOf a).saveTerm && (ioOf a).saveVote && start.saveTerm
  | .between _ _ io _ start => io.saveTerm && start.saveTerm

/-- The answer to a request for a vote brings no newer term. -/
def answersNotNewer (s : Cluster) : RestartAction → Bool
  | .life (.step a) =>
    match s.voteAnswered a with
    | some (n, _, resp) => decide (resp.term ≤ (s.raft n).term)
    | none => true
  | _ => true

def termsKept (s : Cluster) (l : RestartAction) : Bool := metaSaved l && s.answersNotNewer l

end Cluster

namespace Raft

/-! ## The constructor -/

theorem handleConfigChangeIfNeeded_saves {io : Io} (hterm : io.saveTerm = true) (r : Raft) (e : LogEntry) :
    (r.handleConfigChangeIfNeeded e io).term = r.term ∧ (Synced r → Synced (r.handleConfigChangeIfNeeded e io)) := by
  unfold handleConfigChangeIfNeeded
  split
  · obtain ⟨ht, ⟨hf, hv⟩ | hs⟩ := applyConfigChangeLocked_saves io hterm r _ _
    · exact ⟨ht, SameMeta.synced ⟨ht, hv, hf⟩⟩
    · exact ⟨ht, fun _ => hs⟩
  · exact ⟨rfl, fun hs => hs⟩

theorem replayConfigChanges_saves {io : Io} (hterm : io.saveTerm = true) (r : Raft) :
    (r.replayConfigChanges io).term = r.term ∧ (Synced r → Synced (r.replayConfigChanges io)) := by
  rw [replayConfigChanges_eq]
  refine List.foldlRecOn (motive := fun r' : Raft => r'.term = r.term ∧ (Synced r → Synced r')) _ _
    ⟨rfl, fun hs => hs⟩ fun r' ⟨h1, h2⟩ e _ => ?_
  obtain ⟨i1, i2⟩ := handleConfigChangeIfNeeded_saves hterm r' e
  exact ⟨i1.trans h1, fun hs => i2 (h2 hs)⟩

/-- `New` comes back with the saved term, and what it changes it saves. -/
theorem new_synced {io : Io} (hterm : io.saveTerm = true) (id : NodeID) (peers : List NodeID) (d : Disk) :
    Synced (new id peers d io) ∧ (new id peers d io).term = (d.metaFile.getD ⟨0, "", []⟩).term := by
  obtain ⟨ht, hs⟩ := replayConfigChanges_saves hterm (unreplayed id peers d io)
  have hsync := hs ⟨rfl, rfl⟩
  rw [new_eq]
  exact ⟨⟨hsync.term, hsync.vote⟩, ht⟩

end Raft

namespace Cluster

/-! ## The meta file and the term -/

variable {s s' : Cluster} {a : Action}

/-- One step of a node whose meta file is up to date. -/
theorem MetaStep.synced {n : NodeID} {r : Raft} (h : MetaStep s n r a) (hs : Synced (s.raft n))
    (hans : s.answersNotNewer (.life (.step a)) = true) : Synced r ∧ (s.raft n).term ≤ r.term := by
  cases h with
  | kept _ h =>
    rcases h with h | h
    · refine ⟨?_, le_of_eq h.term.symm⟩
      rcases h.file with hf | hs'
      · exact SameMeta.synced ⟨h.term, h.vote, hf⟩ hs
      · exact hs'
    · exact ⟨h.synced, le_of_lt h.term⟩
  | cast _ c _ h => exact ⟨h.synced, h.term⟩
  | answer i j io p T call resp hx hr hlt =>
    simp only [answersNotNewer, voteAnswered, hx, hr, decide_eq_true_eq] at hans
    omega
  | applier _ ht h =>
    refine ⟨?_, le_of_eq ht.symm⟩
    rcases h with ⟨hf, hv⟩ | hs'
    · exact SameMeta.synced ⟨ht, hv, hf⟩ hs
    · exact hs'

theorem KeptOrAdopts.saved_le {r r' : Raft} (h : KeptOrAdopts r r') (hs : Synced r) : r.term ≤ r'.savedMeta.term := by
  have hterm := hs.term
  rcases h with h | h
  · rcases h.file with hf | hs'
    · rw [savedMeta, hf]; exact le_of_eq hterm.symm
    · rw [hs'.term, h.term]
  · rw [h.synced.term]; exact le_of_lt h.term

/-- Whatever the step was, what it leaves on disk is not older than the node was. -/
theorem MetaStep.saved_le {n : NodeID} {r : Raft} (h : MetaStep s n r a) (hs : Synced (s.raft n)) :
    (s.raft n).term ≤ r.savedMeta.term := by
  have hterm := hs.term
  cases h with
  | kept _ h => exact KeptOrAdopts.saved_le h hs
  | cast _ c _ h => rw [h.synced.term]; exact h.term
  | answer i j io p T call resp hx hr hlt ht hv hf => rw [savedMeta, hf]; exact le_of_eq hterm.symm
  | applier _ ht h =>
    rcases h with ⟨hf, _⟩ | hs'
    · rw [savedMeta, hf]; exact le_of_eq hterm.symm
    · rw [hs'.term, ht]

/-- A node that is started again on files that are not older than it was. -/
theorem restart_synced {n : NodeID} {peers : List NodeID} {d : Disk} {start : Io} (hstart : start.saveTerm = true)
    (hs : ∀ m, Synced (s.raft m)) (hd : (s.raft n).term ≤ (d.metaFile.getD ⟨0, "", []⟩).term) (m : NodeID) :
    Synced ((s.restart n peers d start).raft m) ∧ (s.raft m).term ≤ ((s.restart n peers d start).raft m).term := by
  rw [restart_raft]
  split
  · rename_i hm
    subst hm
    obtain ⟨hsync, ht⟩ := new_synced hstart m peers d
    exact ⟨⟨hsync.term, hsync.vote⟩, hd.trans (le_of_eq ht.symm)⟩
  · exact ⟨hs m, le_refl _⟩

theorem betweenSaves_disk {n : NodeID} {call : Nat} {io : Io} {d : Disk} (h : s.betweenSaves n call io = some d) :
    ∃ T, d = ((s.raft n).adoptTerm T (s.envOf n io)).disk := by
  unfold betweenSaves at h
  split at h
  · split at h
    · cases h; exact ⟨_, rfl⟩
    · cases h
  · split at h
    · cases h; exact ⟨_, rfl⟩
    · cases h
  · cases h

theorem restartStep_synced {l : RestartAction} (hs : ∀ m, Synced (s.raft m)) (hok : s.termsKept l = true)
    (hstep : s.restartStep l = some s') (m : NodeID) : Synced (s'.raft m) ∧ (s.raft m).term ≤ (s'.raft m).term := by
  simp only [termsKept, Bool.and_eq_true] at hok
  obtain ⟨hsave, hans⟩ := hok
  match l with
  | .life (.step a) =>
    simp only [metaSaved, Bool.and_eq_true] at hsave
    have hstay : Synced (s.raft m) ∧ (s.raft m).term ≤ (s.raft m).term := ⟨hs m, le_refl _⟩
    rcases step_at hstep m with heq | ⟨_, hk⟩
    · rw [heq]; exact hstay
    · exact (hk.metaStep hsave.1 hsave.2).synced (hs m) hans
  | .life (.crash n a c metaDone peers start) =>
    simp only [metaSaved, Bool.and_eq_true] at hsave
    obtain ⟨⟨hterm, hvote⟩, hstart⟩ := hsave
    simp only [restartStep, lifeStep] at hstep
    split at hstep
    · rename_i s₁ hs₁
      cases hstep
      refine restart_synced hstart hs ?_ m
      -- the file is that from before the step or that after it
      have hold : (s.raft n).term ≤ (s.raft n).savedMeta.term := le_of_eq (hs n).term.symm
      cases metaDone with
      | false => exact hold
      | true =>
        show (s.raft n).term ≤ (s₁.raft n).savedMeta.term
        rcases step_at hs₁ n with heq | ⟨_, hk⟩
        · rw [heq]; exact hold
        · exact (hk.metaStep hterm hvote).saved_le (hs n)
    · cases hstep
  | .between n call io peers start =>
    simp only [metaSaved, Bool.and_eq_true] at hsave
    simp only [restartStep, Option.map_eq_some_iff] at hstep
    obtain ⟨d, hd, rfl⟩ := hstep
    obtain ⟨T, rfl⟩ := betweenSaves_disk hd
    refine restart_synced hsave.2 hs ?_ m
    exact KeptOrAdopts.saved_le (adoptTerm_saves (s.envOf n io) hsave.1 _ T) (hs n)

/-- Terms never go back, restarts included: in every run without failing saves of the meta file in which
no answer to a request for a vote brings a newer term, the meta file of every node holds its term and its
vote in every state, and no step and no restart takes a term back. -/
theorem terms_never_go_back {h : List (Cluster × RestartAction)} {s : Cluster}
    (hr : restartMachine.Run (fun s l => s.termsKept l = true) h s) (n : NodeID) :
    Synced (s.raft n) ∧
      ∀ l s', s.termsKept l = true → s.restartStep l = some s' → (s.raft n).term ≤ (s'.raft n).term := by
  have hinv : ∀ m, Synced (s.raft m) := by
    refine Machine.Run.invariant (I := fun s => ∀ m, Synced (s.raft m)) ?_ ?_ hr
    · rintro s ⟨procs, peersOf, snapshotter, restorer, _, rfl⟩ m
      rw [start_raft]
      constructor <;> rfl
    · intro s l s' hs hok hstep m
      exact (restartStep_synced hs hok hstep m).1
  exact ⟨hinv n, fun l s' hok hstep => (restartStep_synced hinv hok hstep n).2⟩

/-- A wins term 1, its process dies and comes back, and it still knows the term and its vote. -/
theorem terms_never_go_back_electA :
    ∃ h s, restartMachine.Run (fun s l => s.termsKept l = true) h s ∧ (s.raft "A").state = .follower ∧
      (s.raft "A").term = 1 ∧ Synced (s.raft "A") := by
  obtain ⟨h, s, hr, hstate, hterm⟩ := Machine.exists_run (S := restartMachine) (fun s l => s.termsKept l = true)
    (fun _ s => (s.raft "A").state = .follower ∧ (s.raft "A").term = 1) (machine_init threeNodes false false)
    (electA.map (.life ∘ .step) ++ [.life (.crash "A" (.tick 0) .afterLog true ["B", "C"] {})]) (by decide +kernel)
  exact ⟨h, s, hr, hstate, hterm, (terms_never_go_back hr "A").1⟩

/-- B, already in term 2, refuses its vote to A, which asks in term 1. A learns of term 2 and does not
save it: after its process dies and comes back it is in term 1 again. -/
theorem newerAnswer_goes_back :
    ∃ h s, restartMachine.Run (fun _ l => metaSaved l = true) h s ∧
      (h.head?.map fun x => (x.1.raft "A").term) = some 2 ∧ (s.raft "A").term = 1 :=
  Machine.exists_run (S := restartMachine) (fun _ l => metaSaved l = true)
    (fun h s => (h.head?.map fun x => (x.1.raft "A").term) = some 2 ∧ (s.raft "A").term = 1)
    (machine_init threeNodes false false)
    ([.tick 2000, .electionTimeout "B" 1500 {}, .tick 2000, .electionTimeout "B" 1500 {}, .electionTimeout "A" 1500 {},
        .run 2 .go {}, .run 2 .go {}, .deliver 0 {}, .run 3 (.reply 0) {}].map (.life ∘ .step) ++
      [.life (.crash "A" (.tick 0) .afterLog true ["B", "C"] {})])
    (by decide +kernel)

end Cluster

end Mimori
