/-
The meta file of a node: what each function makes of the term, of the vote and of their copy in
`raft-meta.json`, when no save fails. Four things can happen: the values stay, a newer term is adopted
and saved, a vote is cast and saved, or `handleVoteResponse` adopts a newer term and saves nothing.
-/
import Mimori.Storage.Files

namespace Mimori

open Raft

namespace Raft

variable {a b c r r' : Raft}

/-! ## The copy on disk -/

/-- What `MetaStore.Load` returns. -/
def savedMeta (r : Raft) : MetaData := r.disk.metaFile.getD ⟨0, "", []⟩

/-- The meta file holds the term and the vote of the node. -/
structure Synced (r : Raft) : Prop where
  term : r.savedMeta.term = r.term
  vote : r.savedMeta.votedFor = r.votedFor

theorem saveMeta_synced (r : Raft) {ok : Bool} (h : ok = true) : Synced (r.saveMeta ok) := by
  subst h
  constructor <;> rfl

/-- Term, vote and meta file are unchanged. -/
structure SameMeta (r r' : Raft) : Prop where
  term : r'.term = r.term
  vote : r'.votedFor = r.votedFor
  file : r'.disk.metaFile = r.disk.metaFile

theorem SameMeta.refl (r : Raft) : SameMeta r r := ⟨rfl, rfl, rfl⟩

theorem SameMeta.trans (h1 : SameMeta a b) (h2 : SameMeta b c) : SameMeta a c :=
  ⟨h2.term.trans h1.term, h2.vote.trans h1.vote, h2.file.trans h1.file⟩

theorem SameMeta.synced (h : SameMeta r r') (hs : Synced r) : Synced r' := by
  constructor
  · rw [savedMeta, h.file, h.term]; exact hs.term
  · rw [savedMeta, h.file, h.vote]; exact hs.vote

/-- Term and vote stay; the file stays too, or is written again. -/
structure Kept (r r' : Raft) : Prop where
  term : r'.term = r.term
  vote : r'.votedFor = r.votedFor
  file : r'.disk.metaFile = r.disk.metaFile ∨ Synced r'

/-- A newer term is adopted and saved. -/
structure Adopts (r r' : Raft) : Prop where
  term : r.term < r'.term
  vote : r'.votedFor = ""
  synced : Synced r'

/-- A vote for `c` is cast and saved, in a newer term or by a node that is free to give it. -/
structure Casts (r r' : Raft) (c : NodeID) : Prop where
  term : r.term ≤ r'.term
  free : r'.term = r.term → r.votedFor = "" ∨ r.votedFor = c
  vote : r'.votedFor = c
  synced : Synced r'

def KeptOrAdopts (r r' : Raft) : Prop := Kept r r' ∨ Adopts r r'

theorem SameMeta.kept (h : SameMeta r r') : Kept r r' := ⟨h.term, h.vote, .inl h.file⟩

theorem Kept.trans_same (h1 : Kept a b) (h2 : SameMeta b c) : Kept a c := by
  refine ⟨h2.term.trans h1.term, h2.vote.trans h1.vote, ?_⟩
  rcases h1.file with hf | hs
  · exact .inl (h2.file.trans hf)
  · exact .inr (h2.synced hs)

theorem Adopts.trans_same (h1 : Adopts a b) (h2 : SameMeta b c) : Adopts a c :=
  ⟨by rw [h2.term]; exact h1.term, h2.vote.trans h1.vote, h2.synced h1.synced⟩

theorem KeptOrAdopts.trans_same (h1 : KeptOrAdopts a b) (h2 : SameMeta b c) : KeptOrAdopts a c :=
  h1.imp (·.trans_same h2) (·.trans_same h2)

theorem KeptOrAdopts.refl (r : Raft) : KeptOrAdopts r r := .inl (SameMeta.refl r).kept

/-! ## Functions that leave it alone -/

theorem SameRest.meta (h : SameRest r r') : SameMeta r r' := ⟨h.term, h.votedFor, h.metaFile⟩

theorem SameMeta.saveLog (h : SameMeta a b) (ok : Bool) : SameMeta a (b.saveLog ok) :=
  h.trans (saveLog_rest b ok).meta

theorem advanceCommit_sameMeta (r : Raft) (leaderCommit : Int) : SameMeta r (r.advanceCommit leaderCommit) := by
  unfold advanceCommit
  split <;> exact ⟨rfl, rfl, rfl⟩

theorem updateCommitIndexLocked_sameMeta (r : Raft) : SameMeta r r.updateCommitIndexLocked := by
  rcases updateCommitIndexLocked_cases r with h | ⟨N, _, h, _⟩ <;> rw [h]
  · exact .refl r
  · exact ⟨rfl, rfl, rfl⟩

theorem recordProgress_sameMeta (r : Raft) (a : AppendArgs) : SameMeta r (r.recordProgress a) := by
  unfold recordProgress
  split <;> exact ⟨rfl, rfl, rfl⟩

/-! ## Functions that save -/

section Saving

variable (io : Io)
variable {r : Raft} {req : RequestVoteRequest}

theorem adoptTerm_saves (hterm : io.saveTerm = true) (r : Raft) (term : Int) : KeptOrAdopts r (r.adoptTerm term io) := by
  unfold adoptTerm
  split
  · rename_i hlt
    have hs := saveMeta_same { r with term := term, votedFor := "", state := .follower } io.saveTerm
    refine .inr ⟨?_, hs.votedFor, saveMeta_synced _ hterm⟩
    rw [hs.term]; exact hlt
  · exact .refl r

theorem appendEntries_saves (hterm : io.saveTerm = true) (r : Raft) (req : AppendEntriesRequest) :
    KeptOrAdopts r (r.appendEntries req io).1 := by
  have ha := adoptTerm_saves io hterm r req.term
  have ho := appendEntries_outcome r req io
  generalize r.appendEntries req io = out at ho ⊢
  cases ho with
  | ignored => exact .refl r
  | refused => exact ha.trans_same ⟨rfl, rfl, rfl⟩
  | accepted =>
    refine ha.trans_same (SameMeta.trans ?_ (advanceCommit_sameMeta _ _))
    refine .saveLog ?_ _
    exact ⟨rfl, rfl, rfl⟩

theorem installSnapshot_keepsMeta (hterm : io.saveTerm = true) (r : Raft) (req : InstallSnapshotRequest) :
    KeptOrAdopts r (r.installSnapshot req io).1 := by
  have ho := installSnapshot_outcome r req io
  generalize r.installSnapshot req io = out at ho ⊢
  cases ho with
  | stale => exact .refl r
  | installed =>
    have hs := (saveLog_rest (r.afterInstalling req io) io.saveLog).meta
    refine (adoptTerm_saves io hterm r req.term).trans_same ?_
    exact ⟨hs.term, hs.vote, hs.file⟩

theorem handleAppendResponse_saves (hterm : io.saveTerm = true) (r : Raft) (a : AppendArgs)
    (resp : AppendEntriesResponse) :
    KeptOrAdopts r (r.handleAppendResponse a resp io).1 := by
  have ho := handleAppendResponse_outcome r a resp io
  generalize r.handleAppendResponse a resp io = out at ho ⊢
  cases ho with
  | newer hlt =>
    have hs := saveMeta_same { r with term := resp.term, state := .follower, votedFor := "" } io.saveTerm
    refine .inr ⟨?_, hs.votedFor, saveMeta_synced _ hterm⟩
    rw [hs.term]; exact hlt
  | transfer => exact .inl (SameMeta.refl r).kept
  | backed => exact .inl (SameMeta.kept ⟨rfl, rfl, rfl⟩)
  | ignored => exact .inl (SameMeta.refl r).kept
  | counted => exact .inl ((recordProgress_sameMeta r a).trans (updateCommitIndexLocked_sameMeta _)).kept

theorem handleTimeoutNowResponse_saves (hterm : io.saveTerm = true) (r : Raft) (target : NodeID)
    (resp : TimeoutNowResponse) :
    KeptOrAdopts r (r.handleTimeoutNowResponse target resp io) := by
  unfold handleTimeoutNowResponse
  split
  · rename_i hlt
    have hs := saveMeta_same { r with term := resp.term, state := .follower, votedFor := "", leader := target }
      io.saveTerm
    refine .inr ⟨?_, hs.votedFor, saveMeta_synced _ hterm⟩
    rw [hs.term]; exact hlt
  · exact .refl r

theorem applyConfigChangeLocked_saves (hterm : io.saveTerm = true) (r : Raft) (isAdd : Bool) (nodeID : NodeID) :
    (r.applyConfigChangeLocked isAdd nodeID io).term = r.term ∧
      ((r.applyConfigChangeLocked isAdd nodeID io).disk.metaFile = r.disk.metaFile ∧
          (r.applyConfigChangeLocked isAdd nodeID io).votedFor = r.votedFor ∨
        Synced (r.applyConfigChangeLocked isAdd nodeID io)) := by
  have ho := applyConfigChangeLocked_outcome r isAdd nodeID io
  generalize r.applyConfigChangeLocked isAdd nodeID io = out at ho ⊢
  cases ho with
  | self => exact ⟨rfl, .inl ⟨rfl, rfl⟩⟩
  | _ => exact ⟨(saveMeta_same _ _).term, .inr (saveMeta_synced _ hterm)⟩

theorem startElectionLocked_saves (hvote : io.saveVote = true) (r : Raft) :
    ((r.startElectionLocked io).1 = r ∧ r.removedFromCluster = true) ∨
      (Casts r (r.startElectionLocked io).1 r.id ∧ (r.startElectionLocked io).1.term = r.term + 1) := by
  have hs := saveMeta_same { r with state := .candidate, term := r.term + 1, votedFor := r.id } io.saveVote
  have hf := saveMeta_synced { r with state := .candidate, term := r.term + 1, votedFor := r.id } hvote
  have hcast : ∀ r' : Raft, r'.term = r.term + 1 → r'.votedFor = r.id → Synced r' →
      Casts r r' r.id ∧ r'.term = r.term + 1 :=
    fun r' ht hv hsy => ⟨⟨by omega, fun he => by omega, hv, hsy⟩, ht⟩
  have ho := startElectionLocked_outcome r io
  generalize r.startElectionLocked io = out at ho ⊢
  cases ho with
  | removed hrem => exact .inl ⟨rfl, hrem⟩
  | elected => exact .inr (hcast _ hs.term hs.votedFor ⟨hf.term, hf.vote⟩)
  | asks => exact .inr (hcast _ hs.term hs.votedFor ⟨hf.term, hf.vote⟩)

theorem requestVote_synced (hvote : io.saveVote = true) (hg : (r.requestVote req io).2.voteGranted = true) :
    Synced (r.requestVote req io).1 := by
  have ho := requestVote_outcome r req io
  generalize r.requestVote req io = out at hg ho ⊢
  cases ho with
  | ignored => cases hg
  | refused => cases hg
  | granted => exact saveMeta_synced _ hvote

/-- A granted vote is saved with the term it was asked for. -/
theorem requestVote_casts (hvote : io.saveVote = true) (hg : (r.requestVote req io).2.voteGranted = true) :
    Casts r (r.requestVote req io).1 req.candidateId ∧ (r.requestVote req io).1.term = req.term := by
  obtain ⟨_, hle, r₁, rfl, _, hfree, hsame⟩ := requestVote_granted hg
  have hterm' : (r.requestVote req io).1.term = req.term := hsame.term.trans (adoptTerm_term r req.term io hle)
  refine ⟨⟨by omega, fun he => ?_, hsame.votedFor, ?_⟩, hterm'⟩
  · -- no newer term was adopted, so the vote that was free is the one from before
    rcases adoptTerm_move r req.term io with hm | hm
    · rw [hm.votedFor] at hfree; exact hfree
    · have := hm.term
      rw [adoptTerm_term r req.term io hle] at this
      omega
  · exact requestVote_synced io hvote hg

theorem requestVote_saves (hterm : io.saveTerm = true) (hg : (r.requestVote req io).2.voteGranted = false) :
    KeptOrAdopts r (r.requestVote req io).1 := by
  have ho := requestVote_outcome r req io
  generalize r.requestVote req io = out at hg ho ⊢
  cases ho with
  | ignored => exact .refl r
  | refused => exact adoptTerm_saves io hterm r req.term
  | granted => cases hg

/-- The applier may save a new configuration, and a node that removes itself drops its vote. -/
theorem takeNext_saves (hterm : io.saveTerm = true) (r : Raft) :
    (r.takeNext io).1.term = r.term ∧
      ((r.takeNext io).1.disk.metaFile = r.disk.metaFile ∧ (r.takeNext io).1.votedFor = r.votedFor ∨
        Synced (r.takeNext io).1) := by
  rw [takeNext_eq]
  cases r.pendingEntry with
  | none => exact ⟨rfl, .inl ⟨rfl, rfl⟩⟩
  | some e =>
    simp only
    unfold handleConfigChangeIfNeeded
    split
    · exact applyConfigChangeLocked_saves io hterm { r with lastApplied := r.lastApplied + 1 } _ _
    · exact ⟨rfl, .inl ⟨rfl, rfl⟩⟩

end Saving

theorem takeNext_sameMeta (io : Io) (h : ∀ e, r.pendingEntry = some e → e.data.isConfig = false) :
    SameMeta r (r.takeNext io).1 := by
  obtain ⟨i, hi⟩ := takeNext_plain r io h
  rw [hi]
  exact ⟨rfl, rfl, rfl⟩

theorem handleVoteResponse_sameMeta {resp : RequestVoteResponse} (h : resp.term ≤ r.term) :
    SameMeta r (r.handleVoteResponse resp).1 := by
  have ho := handleVoteResponse_outcome r resp
  generalize r.handleVoteResponse resp = out at ho ⊢
  cases ho with
  | newer hlt => omega
  | ignored => exact .refl r
  | counted => exact ⟨rfl, rfl, rfl⟩
  | elected => exact ⟨rfl, rfl, rfl⟩

end Raft

namespace Cluster

/-! ## A step and the meta file -/

/-- What a step without failing saves makes of term, vote and meta file of the node it touches. -/
inductive MetaStep (s : Cluster) (n : NodeID) (r : Raft) : Action → Prop
  | kept (a : Action) (h : KeptOrAdopts (s.raft n) r) : MetaStep s n r a
  | cast (a : Action) (c : NodeID) (hc : c ≠ "" ∨ c = (s.raft n).id) (h : Casts (s.raft n) r c) : MetaStep s n r a
  | answer (i j : Nat) (io : Io) (p : NodeID) (T : Int) (call : Nat) (resp : RequestVoteResponse)
      (hx : s.tasks[i]? = some (n, .awaitVote T p call)) (hr : s.replyTo call j = some (.requestVote resp))
      (hlt : (s.raft n).term < resp.term) (ht : r.term = resp.term) (hv : r.votedFor = "")
      (hf : r.disk.metaFile = (s.raft n).disk.metaFile) : MetaStep s n r (.run i (.reply j) io)
  | applier (a : Action) (ht : r.term = (s.raft n).term)
      (hs : r.disk.metaFile = (s.raft n).disk.metaFile ∧ r.votedFor = (s.raft n).votedFor ∨ Synced r)
      (hc : (∀ e ∈ (s.raft n).log, e.data.isConfig = false) → SameMeta (s.raft n) r) : MetaStep s n r a

theorem timeoutNow_saves (io : Io) (hterm : io.saveTerm = true) (hvote : io.saveVote = true) (r : Raft)
    (req : TimeoutNowRequest) :
    (KeptOrAdopts r (r.timeoutNow req io).1 ∧
        ((r.timeoutNow req io).2.2.success = false ∨ r.removedFromCluster = true)) ∨
      Casts r (r.timeoutNow req io).1 r.id := by
  have ho := timeoutNow_outcome r req io
  generalize r.timeoutNow req io = out at ho ⊢
  cases ho with
  | ignored => exact .inl ⟨.refl r, .inl rfl⟩
  | starts =>
    have ha := adoptTerm_saves io hterm r req.term
    have hmem : (r.adoptTerm req.term io).id = r.id ∧
        (r.adoptTerm req.term io).removedFromCluster = r.removedFromCluster := by
      rcases adoptTerm_move r req.term io with hm | hm <;> exact ⟨hm.id, hm.removed⟩
    rcases startElectionLocked_saves io hvote (r.adoptTerm req.term io) with ⟨he, hrem⟩ | ⟨hc, ht⟩
    · simp only [he]
      exact .inl ⟨ha, .inr (hmem.2.symm.trans hrem)⟩
    · right
      rw [hmem.1] at hc
      have hle : r.term ≤ (r.adoptTerm req.term io).term := by
        rcases ha with h | h
        · exact le_of_eq h.term.symm
        · exact le_of_lt h.term
      have hlt : r.term < ((r.adoptTerm req.term io).startElectionLocked io).1.term := by rw [ht]; omega
      exact ⟨le_of_lt hlt, fun he => absurd he (ne_of_gt hlt), hc.vote, hc.synced⟩

theorem NodeStep.metaStep {s : Cluster} {a : Action} {n : NodeID} {r : Raft} (h : NodeStep s a n r)
    (hterm : (ioOf a).saveTerm = true) (hvote : (ioOf a).saveVote = true) : MetaStep s n r a := by
  have hkept : ∀ {r' : Raft}, SameMeta (s.raft n) r' → MetaStep s n r' a := fun h => .kept _ (.inl h.kept)
  cases h with
  | electionTick _ timeout io =>
    rcases electionTick_cases (s.raft n) timeout (s.envOf n io) with h | h <;> rw [h]
    · exact hkept (.refl _)
    · rcases startElectionLocked_saves (s.envOf n io) hvote (s.raft n) with ⟨he, _⟩ | ⟨hc, _⟩
      · rw [he]; exact hkept (.refl _)
      · exact .cast _ _ (.inr rfl) hc
  | requestVote call io src _ req hp =>
    by_cases hg : ((s.raft n).requestVote req (s.envOf n io)).2.voteGranted = true
    · exact .cast _ _ (.inl (requestVote_granted hg).1) (requestVote_casts (s.envOf n io) hvote hg).1
    · exact .kept _ (requestVote_saves (s.envOf n io) hterm (by simpa using hg))
  | appendEntries call io src _ req => exact .kept _ (appendEntries_saves (s.envOf n io) hterm _ req)
  | installSnapshot call io src _ req => exact .kept _ (installSnapshot_keepsMeta (s.envOf n io) hterm _ req)
  | timeoutNow call io src _ req =>
    rcases timeoutNow_saves (s.envOf n io) hterm hvote (s.raft n) req with ⟨h, _⟩ | h
    · exact .kept _ h
    · exact .cast _ _ (.inr rfl) h
  | voteAnswer i j io _ p T call resp hx hr =>
    by_cases hlt : (s.raft n).term < resp.term
    · have he : ((s.raft n).handleVoteResponse resp).1 =
          { s.raft n with term := resp.term, state := .follower, votedFor := "" } := by
        unfold handleVoteResponse
        rw [if_pos hlt]
      rw [he]
      exact .answer i j io p T call resp hx hr hlt rfl rfl rfl
    · exact hkept (handleVoteResponse_sameMeta (by omega))
  | appendAnswer i j io _ args _ resp => exact .kept _ (handleAppendResponse_saves (s.envOf n io) hterm _ args resp)
  | transferAnswer i j io _ target _ resp =>
    exact .kept _ (handleTimeoutNowResponse_saves (s.envOf n io) hterm _ target resp)
  | snapshotAnswer => exact hkept ⟨rfl, rfl, rfl⟩
  | alone => exact hkept (updateCommitIndexLocked_sameMeta _)
  | wait => exact hkept (appliedWait_rest ..).meta
  | propose => exact hkept (propose_rest ..).meta
  | proposeTask => exact hkept (propose_rest ..).meta
  | configChange => exact hkept (proposeConfigChange_rest ..).meta
  | forceSnapshot => exact hkept (createSnapshotLocked_rest ..).meta
  | applierTake _ io =>
    obtain ⟨h1, h2⟩ := takeNext_saves (s.envOf n io) hterm (s.raft n)
    exact .applier _ h1 h2 fun hlog => takeNext_sameMeta _ fun e he => hlog e (pendingEntry_mem he)
  | applierDone _ io =>
    have hs := (afterApply_rest (s.raft n) (s.envOf n io)).meta
    obtain ⟨h1, h2⟩ := takeNext_saves (s.envOf n io) hterm ((s.raft n).afterApply (s.envOf n io))
    refine .applier _ (h1.trans hs.term) ?_ fun hlog => hs.trans (takeNext_sameMeta _ fun e he => ?_)
    · rw [← hs.file, ← hs.vote]; exact h2
    · exact afterApply_pending (fun _ hc => hc) _ hlog he

end Cluster

end Mimori
