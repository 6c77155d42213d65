/-
The files of a node: which steps write them. Every write of the log file replaces it by the log in memory, so the file is
always a log the node had; and when no save fails, the log file and the snapshot file keep up with the memory.
-/
import Mimori.Log.Placed

namespace Mimori

open Raft

namespace Raft

/-- The log file is unchanged, or holds the log of now. -/
def FileStep (r r' : Raft) : Prop := r'.disk.logFile = r.disk.logFile ∨ r'.disk.logFile = some r'.log

/-- The log and its file are unchanged, or the file holds the log of now. -/
def Written (r r' : Raft) : Prop :=
  (r'.log = r.log ∧ r'.logBaseIndex = r.logBaseIndex ∧ r'.disk.logFile = r.disk.logFile) ∨
    r'.disk.logFile = some r'.log

/-- The snapshot and its file are unchanged, or the file holds the snapshot of now. -/
def SnapWritten (r r' : Raft) : Prop :=
  (r'.logBaseIndex = r.logBaseIndex ∧ r'.snapshot = r.snapshot ∧ r'.disk.snapFile = r.disk.snapFile) ∨
    r'.disk.snapFile = r'.snapshot

end Raft

namespace Cluster

variable {s : Cluster} {a : Action} {n : NodeID} {r : Raft}

theorem NodeStep.logSaved (h : NodeStep s a n r) : SameFiles (s.raft n) r ∨ LogSaved (s.raft n) r (ioOf a).saveLog := by
  cases h.logStep with
  | same _ hl hf => exact .inl ⟨hl, hf⟩
  | append _ _ _ _ _ hf => exact .inr hf
  | merge _ _ _ _ _ _ _ _ hf => exact .inr hf
  | install _ _ _ _ _ _ _ _ hf => exact .inr hf
  | snapshot _ _ hs => exact .inr hs.logFile

theorem NodeStep.fileStep (h : NodeStep s a n r) : FileStep (s.raft n) r := by
  rcases h.logSaved with h | h
  · exact .inl h.logFile
  · unfold LogSaved at h
    split at h
    · exact .inr h
    · exact .inl h

/-- Without failing saves the log file keeps up with the log. -/
theorem NodeStep.written (h : NodeStep s a n r) (hio : (ioOf a).saveLog = true) : Written (s.raft n) r := by
  rcases h.logSaved with h | h
  · exact .inl ⟨h.log, h.base, h.logFile⟩
  · rw [hio] at h
    exact .inr h

/-- Without failing saves the snapshot file keeps up with the snapshot. -/
theorem NodeStep.snapWritten (h : NodeStep s a n r) (hio : (ioOf a).saveSnap = true) : SnapWritten (s.raft n) r := by
  cases h.logStep with
  | same _ hl => exact .inl ⟨hl.base, hl.snapshot, hl.file⟩
  | append _ _ hl => exact .inl ⟨hl.base, hl.snapshot, hl.file⟩
  | merge _ _ _ _ _ _ hl => exact .inl ⟨hl.base, hl.snapshot, hl.file⟩
  | install _ _ _ _ _ _ _ _ _ hs => exact .inr (hs hio)
  | snapshot _ _ hs => exact .inr (hs.file.trans hs.compacts.snapshot.symm)

end Cluster

end Mimori
