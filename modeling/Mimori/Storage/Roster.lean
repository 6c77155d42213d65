/-
Properties of the peer list. A node has its peers in memory and in `raft-meta.json`, and starts again with those of
the file or of its command line; otherwise only configuration entries change the list. So a property of lists that
every configuration entry of the run keeps holds of both copies in every run, restarts included.
-/
import Mimori.Storage.Removed

namespace Mimori

open Raft

namespace Raft

/-- The peers of node `n` meet `L`, in memory and in the meta file. -/
structure Roster (L : List NodeID → Prop) (n : NodeID) (r : Raft) : Prop where
  id : r.id = n
  peers : L r.peers
  saved : L r.savedMeta.peers

theorem Roster.written {L : List NodeID → Prop} {n : NodeID} {r r' : Raft} (h : Roster L n r) (hid : r'.id = r.id)
    (hp : L r'.peers) (hw : PeersWritten r r') : Roster L n r' := by
  refine ⟨hid.trans h.id, hp, ?_⟩
  rcases hw with hw | hw
  · rw [savedMeta, hw]; exact h.saved
  · rw [hw]; exact hp

theorem Roster.same {L : List NodeID → Prop} {n : NodeID} {r r' : Raft} (h : Roster L n r) (hm : SameMembers r r')
    (hw : PeersWritten r r') : Roster L n r' :=
  h.written hm.id (by rw [hm.peers]; exact h.peers) hw

theorem Roster.afterApply {L : List NodeID → Prop} {n : NodeID} {r : Raft} (h : Roster L n r) (io : Io) :
    Roster L n (r.afterApply io) :=
  h.same (afterApply_rest r io).members (.inl (afterApply_rest r io).metaFile)

theorem handleConfigChangeIfNeeded_peersWritten (r : Raft) (e : LogEntry) (io : Io) :
    PeersWritten r (r.handleConfigChangeIfNeeded e io) := by
  rcases handleConfigChangeIfNeeded_outcome r e io with h | ⟨_, _, ho⟩
  · rw [h]
    exact .inl rfl
  · generalize r.handleConfigChangeIfNeeded e io = out at ho ⊢
    cases ho with
    | self => exact .inl rfl
    | _ => exact .saveMeta rfl _

/-! ## Configuration entries that keep the property -/

section Kept

variable {L : List NodeID → Prop} {P : Command → Prop} {n : NodeID} {r : Raft}
  (hL : ∀ peers e, L peers → P e.data → L (configured n peers e))

include hL

theorem Roster.handleConfigChange (h : Roster L n r) {e : LogEntry} (he : P e.data) (io : Io) :
    Roster L n (r.handleConfigChangeIfNeeded e io) := by
  refine h.written (handleConfigChangeIfNeeded_id r e io).1 ?_ (handleConfigChangeIfNeeded_peersWritten r e io)
  rw [handleConfigChangeIfNeeded_peers, h.id]
  exact hL _ e h.peers he

theorem Roster.takeNext (h : Roster L n r) (he : ∀ e, r.pendingEntry = some e → P e.data) (io : Io) :
    Roster L n (r.takeNext io).1 := by
  rw [takeNext_eq]
  cases hp : r.pendingEntry with
  | none => exact h
  | some e =>
    have h' : Roster L n { r with lastApplied := r.lastApplied + 1 } := ⟨h.id, h.peers, h.saved⟩
    exact h'.handleConfigChange hL (he e hp) io

theorem Roster.new {d : Disk} (hd : L (d.metaFile.getD ⟨0, "", []⟩).peers) {peers : List NodeID} (hp : L peers)
    (hlog : ∀ e ∈ (loadLog d).1, P e.data) (io : Io) : Roster L n (Raft.new n peers d io) := by
  have hstart : Roster L n (unreplayed n peers d io) := by
    refine ⟨rfl, ?_, hd⟩
    show L (if _ then peers else _)
    split
    · exact hp
    · exact hd
  have hreplay : Roster L n ((unreplayed n peers d io).replayConfigChanges io) := by
    rw [replayConfigChanges_eq]
    refine List.foldlRecOn (motive := Roster L n) _ _ hstart fun r hr e he => ?_
    obtain ⟨i, _, hi⟩ := List.mem_filterMap.1 he
    exact hr.handleConfigChange hL (hlog e (entryAt_mem hi)) io
  rw [new_eq]
  exact ⟨hreplay.id, hreplay.peers, hreplay.saved⟩

end Kept

end Raft

namespace Cluster

/-! ## Runs -/

/-- The step that a restart interrupts, or the step itself. -/
def performed : RestartAction → Option Action
  | .life (.step a) => some a
  | .life (.crash _ a _ _ _ _) => some a
  | .between _ _ _ _ _ => none

/-- The commands on their way meet `P`, and the peers of each node `n` meet `L n`. -/
structure Rostered (L : NodeID → List NodeID → Prop) (P : Command → Prop) (s : Cluster) : Prop where
  carries : CarriesSaved P s
  roster : ∀ n, Roster (L n) n (s.raft n)

section Rostered

variable {L : NodeID → List NodeID → Prop} {P : Command → Prop} {s s' : Cluster} {a : Action} {n : NodeID} {r : Raft}
  (hP : ∀ cmd, cmd.isConfig = false → P cmd)
  (hL : ∀ n peers e, L n peers → P e.data → L n (configured n peers e))

include hP hL

theorem NodeStep.roster (h : NodeStep s a n r) (hr : Roster (L n) n (s.raft n))
    (hlog : ∀ e ∈ (s.raft n).log, P e.data) : Roster (L n) n r := by
  rcases h.applier_cases with ha | ⟨io, _, rfl⟩ | ⟨io, _, rfl⟩
  · refine hr.same (h.members_other ha) (h.peersWritten fun e he => ?_)
    obtain ⟨io, he | he⟩ := applying_self he
    · exact (ha io).1 he
    · exact (ha io).2 he
  · exact hr.takeNext (hL n) (fun e he => hlog e (pendingEntry_mem he)) _
  · exact (hr.afterApply _).takeNext (hL n) (fun e he => afterApply_pending hP _ hlog he) _

theorem Rostered.step (h : Rostered L P s) (ha : Offers P a) (hs : s.step a = some s') : Rostered L P s' := by
  refine ⟨h.carries.step hP ha hs, fun n => ?_⟩
  rcases step_at hs n with heq | ⟨_, hm⟩
  · rw [heq]; exact h.roster n
  · exact hm.roster hP hL (h.roster n) (h.carries.carries.log n)

/-- What is on disk when a process comes back. -/
theorem Rostered.restartDisk (h : Rostered L P s) {l : RestartAction} (ha : ∀ a, performed l = some a → Offers P a)
    {m : NodeID} {d : Disk} (hd : s.restartDisk l = some (m, d)) :
    L m (d.metaFile.getD ⟨0, "", []⟩).peers ∧ ∀ f, d.logFile = some f → ∀ e ∈ f, P e.data := by
  match l with
  | .life (.step a) => cases hd
  | .life (.crash n a c metaDone peers start) =>
    obtain ⟨s₁, hs₁, he⟩ := Option.map_eq_some_iff.1 hd
    cases he
    have h₁ := h.step hP hL (ha a rfl) hs₁
    refine ⟨?_, fun f hf => ?_⟩
    · show L m ((if metaDone = true then _ else _ : Option MetaData).getD _).peers
      cases metaDone with
      | true => exact (h₁.roster m).saved
      | false => exact (h.roster m).saved
    · simp only [crashDisk] at hf
      split at hf
      · exact h₁.carries.files m f hf
      · exact h.carries.files m f hf
  | .between n call io peers start =>
    obtain ⟨d', hd', he⟩ := Option.map_eq_some_iff.1 hd
    cases he
    obtain ⟨T, rfl⟩ := betweenSaves_disk hd'
    refine ⟨?_, fun f hf => h.carries.files m f ?_⟩
    · exact ((h.roster m).same (adoptTerm_move (s.raft m) T (s.envOf m io)).members (adoptTerm_peersWritten ..)).saved
    · rw [(adoptTerm_data ..).logFile] at hf
      exact hf

theorem Rostered.restartStep (h : Rostered L P s) {l : RestartAction} (ha : ∀ a, performed l = some a → Offers P a)
    (hp : ∀ m d, s.restartDisk l = some (m, d) → L m (peersGiven l)) (hs : s.restartStep l = some s') :
    Rostered L P s' := by
  rcases restartStep_cases hs with ⟨a, rfl, hs⟩ | ⟨m, d, start, hd, rfl⟩
  · exact h.step hP hL (ha a rfl) hs
  · obtain ⟨hsaved, hfile⟩ := h.restartDisk hP hL ha hd
    refine ⟨h.carries.restart hP hfile, fun n => ?_⟩
    rw [restart_raft]
    split
    · rename_i hn
      subst hn
      have hnew := Roster.new (hL n) hsaved (hp n d hd) (loadLog_carries hP hfile) start
      exact ⟨hnew.id, hnew.peers, hnew.saved⟩
    · exact h.roster n

end Rostered

end Cluster

end Mimori
