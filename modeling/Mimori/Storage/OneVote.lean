/-
One vote per term, across crashes. Every vote is on disk before anyone hears of it, and memory is ahead
of the meta file by nothing but a newer term in which the node has not voted. So a node that comes back
knows of every vote it gave in the term it comes back with.
-/
import Mimori.Storage.Terms

namespace Mimori

open Raft

namespace Cluster

/-! ## Votes -/

/-- The vote a step casts: who votes, in which term, for whom. -/
def casts (s : Cluster) : Action → Option (NodeID × Int × NodeID)
  | .electionTimeout n timeout io =>
    let r := ((s.raft n).electionTick timeout (s.envOf n io)).1
    if r.term = (s.raft n).term then none else some (n, r.term, (s.raft n).id)
  | .deliver call io =>
    match s.requests[call]? with
    | some ⟨_, n, .requestVote req⟩ =>
      if ((s.raft n).requestVote req (s.envOf n io)).2.voteGranted then some (n, req.term, req.candidateId) else none
    | some ⟨_, n, .timeoutNow req⟩ =>
      let res := (s.raft n).timeoutNow req (s.envOf n io)
      if res.2.2.success && !(s.raft n).removedFromCluster then some (n, res.1.term, (s.raft n).id) else none
    | _ => none
  | _ => none

/-- The votes of a run, with those of a process that dies once the vote is saved. -/
def votes (h : List (Cluster × RestartAction)) : List (NodeID × Int × NodeID) :=
  h.filterMap fun x =>
    match x.2 with
    | .life (.step a) => x.1.casts a
    | .life (.crash n a _ true _ _) => (x.1.casts a).filter fun v => v.1 == n
    | _ => none

/-- Nobody proposes a configuration change, and no save of the meta file fails. -/
def votesKept (l : RestartAction) : Bool :=
  metaSaved l &&
    match l with
    | .life (.step a) => noConfigChange a
    | .life (.crash _ a _ _ _ _) => noConfigChange a
    | _ => true

variable {s s' : Cluster} {a : Action} {n : NodeID}

/-- A vote that a step casts is saved with the term it is for. -/
theorem step_casts (hs : s.step a = some s') (hterm : (ioOf a).saveTerm = true) (hvote : (ioOf a).saveVote = true)
    {t : Int} {c : NodeID} (hc : s.casts a = some (n, t, c)) :
    Casts (s.raft n) (s'.raft n) c ∧ (s'.raft n).term = t ∧ (c ≠ "" ∨ c = (s.raft n).id) := by
  cases a with
  | electionTimeout m timeout io =>
    simp only [casts] at hc
    split at hc
    · cases hc
    · rename_i hne
      cases hc
      cases step_cases hs
      rw [spawn_raft, setRaft_raft_self]
      refine ⟨?_, rfl, .inr rfl⟩
      rcases electionTick_cases (s.raft n) timeout (s.envOf n io) with he | he <;> rw [he] at hne ⊢
      · exact absurd rfl hne
      · rcases startElectionLocked_saves (s.envOf n io) hvote (s.raft n) with ⟨he, _⟩ | ⟨h, _⟩
        · rw [he] at hne; exact absurd rfl hne
        · exact h
  | deliver call io =>
    obtain ⟨⟨src, m, req⟩, hp, _, rfl⟩ := step_deliver hs
    simp only [casts, hp] at hc
    cases req with
    | requestVote req =>
      simp only at hc
      split at hc
      · rename_i hg
        cases hc
        rw [handle_requestVote, reply_raft, setRaft_raft_self]
        obtain ⟨h1, h2⟩ := requestVote_casts (s.envOf n io) hvote hg
        exact ⟨h1, h2, .inl (requestVote_granted hg).1⟩
      · cases hc
    | timeoutNow req =>
      simp only at hc
      split at hc
      · rename_i hg
        simp only [Bool.and_eq_true, Bool.not_eq_true'] at hg
        cases hc
        rw [handle_timeoutNow, reply_raft, spawn_raft, setRaft_raft_self]
        refine ⟨?_, rfl, .inr rfl⟩
        rcases timeoutNow_saves (s.envOf n io) hterm hvote (s.raft n) req with ⟨_, h | h⟩ | h
        · rw [h] at hg; cases hg.1
        · rw [h] at hg; cases hg.2
        · exact h
      · cases hc
    | _ => cases hc
  | _ => cases hc

/-! ## Memory, disk and the votes cast -/

/-- Memory is ahead of the meta file by at most a newer term in which the node has not voted. -/
structure Ballot (r : Raft) : Prop where
  le : r.savedMeta.term ≤ r.term
  same : r.savedMeta.term = r.term → r.savedMeta.votedFor = r.votedFor
  ahead : r.savedMeta.term < r.term → r.votedFor = ""

/-- The meta file accounts for a vote for `c` in term `t`. -/
structure AccountsFor (md : MetaData) (t : Int) (c : NodeID) : Prop where
  le : t ≤ md.term
  vote : t = md.term → md.votedFor = c

theorem Synced.ballot {r : Raft} (h : Synced r) : Ballot r := by
  have := h.term
  exact ⟨by omega, fun _ => h.vote, fun hlt => by omega⟩

theorem SameMeta.savedMeta {r r' : Raft} (h : SameMeta r r') : r'.savedMeta = r.savedMeta := by
  unfold Raft.savedMeta; rw [h.file]

theorem Ballot.of_same {r r' : Raft} (h : Ballot r) (hs : SameMeta r r') : Ballot r' := by
  constructor
  · rw [SameMeta.savedMeta hs, hs.term]; exact h.le
  · rw [SameMeta.savedMeta hs, hs.term, hs.vote]; exact h.same
  · rw [SameMeta.savedMeta hs, hs.term, hs.vote]; exact h.ahead

theorem KeptOrAdopts.ballot {r r' : Raft} (h : KeptOrAdopts r r') (hb : Ballot r) : Ballot r' := by
  rcases h with h | h
  · rcases h.file with hf | hs
    · exact hb.of_same ⟨h.term, h.vote, hf⟩
    · exact Synced.ballot hs
  · exact Synced.ballot h.synced

/-- A saved newer term, or the values of before saved again, keeps account of the votes. -/
theorem KeptOrAdopts.records {r r' : Raft} (h : KeptOrAdopts r r') (hb : Ballot r) {t : Int} {c : NodeID}
    (hr : AccountsFor r.savedMeta t c) : AccountsFor r'.savedMeta t c := by
  have hle := hr.le
  have hsaved := hb.le
  rcases h with h | h
  · rcases h.file with hf | hs
    · rw [SameMeta.savedMeta ⟨h.term, h.vote, hf⟩]; exact hr
    · have h1 := hs.term
      have h2 := h.term
      refine ⟨by omega, fun he => ?_⟩
      rw [hs.vote, h.vote, ← hb.same (by omega)]
      exact hr.vote (by omega)
  · have h1 := h.synced.term
    have h2 := h.term
    exact ⟨by omega, fun he => by omega⟩

theorem Casts.records {r r' : Raft} {c c' : NodeID} (h : Casts r r' c') (hb : Ballot r) {t : Int} (hc : c ≠ "")
    (hr : AccountsFor r.savedMeta t c) : AccountsFor r'.savedMeta t c ∧ (r'.term = t → c' = c) := by
  have hle := hr.le
  have hsaved := hb.le
  have h1 := h.synced.term
  have h2 := h.term
  have hsame : r'.term = t → c' = c := by
    intro ht
    have hvote := (hb.same (by omega)).symm.trans (hr.vote (by omega))
    rcases h.free (by omega) with hf | hf
    · exact absurd (hvote.symm.trans hf) hc
    · exact hf.symm.trans hvote
  refine ⟨⟨by omega, fun he => ?_⟩, hsame⟩
  rw [h.synced.vote, h.vote]
  exact hsame (by omega)

theorem MetaStep.ballot {r : Raft} (h : MetaStep s n r a) (hlog : ∀ e ∈ (s.raft n).log, e.data.isConfig = false)
    (hb : Ballot (s.raft n)) : Ballot r := by
  cases h with
  | kept _ h => exact KeptOrAdopts.ballot h hb
  | cast _ c _ h => exact Synced.ballot h.synced
  | answer i j io p T call resp hx hr hlt ht hv hf =>
    have hle := hb.le
    have hsm : r.savedMeta = (s.raft n).savedMeta := by unfold Raft.savedMeta; rw [hf]
    refine ⟨by rw [hsm]; omega, fun he => ?_, fun _ => hv⟩
    rw [hsm] at he; omega
  | applier _ _ _ hc => exact hb.of_same (hc hlog)

theorem MetaStep.records {r : Raft} (h : MetaStep s n r a) (hlog : ∀ e ∈ (s.raft n).log, e.data.isConfig = false)
    (hb : Ballot (s.raft n)) {t : Int} {c : NodeID} (hc : c ≠ "") (hr : AccountsFor (s.raft n).savedMeta t c) :
    AccountsFor r.savedMeta t c := by
  cases h with
  | kept _ h => exact KeptOrAdopts.records h hb hr
  | cast _ c' _ h => exact (Casts.records h hb hc hr).1
  | answer i j io p T call resp hx hr' hlt ht hv hf =>
    unfold Raft.savedMeta; rw [hf]; exact hr
  | applier _ _ _ hs => rw [SameMeta.savedMeta (hs hlog)]; exact hr

end Cluster

/-! ## Restarts without configuration entries -/

namespace Raft

theorem replayConfigChanges_noConfig {r : Raft} (io : Io) (h : ∀ e ∈ r.log, e.data.isConfig = false) :
    r.replayConfigChanges io = r := by
  rw [replayConfigChanges_eq]
  refine List.foldlRecOn (motive := (· = r)) _ _ rfl fun r' hr e he => ?_
  obtain ⟨i, _, hi⟩ := List.mem_filterMap.1 he
  rw [hr]
  exact handleConfigChangeIfNeeded_same r e io (h e (entryAt_mem hi))

/-- `New` comes back with what is on disk. -/
theorem new_noConfig (id : NodeID) (peers : List NodeID) {d : Disk} (io : Io)
    (h : ∀ f, d.logFile = some f → ∀ e ∈ f, e.data.isConfig = false) :
    (new id peers d io).id = id ∧ (new id peers d io).disk = d ∧
      (new id peers d io).term = (d.metaFile.getD ⟨0, "", []⟩).term ∧
      (new id peers d io).votedFor = (d.metaFile.getD ⟨0, "", []⟩).votedFor ∧
      ∀ e ∈ (new id peers d io).log, e.data.isConfig = false := by
  have hlog := loadLog_carries (fun _ hc => hc) h
  have hr : (unreplayed id peers d io).replayConfigChanges io = unreplayed id peers d io :=
    replayConfigChanges_noConfig io hlog
  rw [new_eq, hr]
  exact ⟨rfl, rfl, rfl, rfl, hlog⟩

end Raft

namespace Cluster

variable {s s' : Cluster} {a : Action} {n : NodeID}

/-- No configuration entry anywhere, in the log files neither. -/
structure NoConfigSaved (s : Cluster) : Prop where
  noConfig : NoConfig s
  files : ∀ n f, (s.raft n).disk.logFile = some f → ∀ e ∈ f, e.data.isConfig = false
  id : ∀ n, (s.raft n).id = n

theorem NoConfigSaved.start (procs : List NodeID) (peersOf : NodeID → List NodeID) (snapshotter restorer : Bool) :
    NoConfigSaved (Cluster.start procs peersOf snapshotter restorer) := by
  refine ⟨.start .., fun n f hf => ?_, fun n => rfl⟩
  cases hf

theorem NoConfigSaved.carries (h : NoConfigSaved s) : CarriesSaved (fun cmd => cmd.isConfig = false) s :=
  ⟨noConfig_iff.1 h.noConfig, h.files⟩

theorem NoConfigSaved.step (h : NoConfigSaved s) (ha : noConfigChange a = true) (hs : s.step a = some s') :
    NoConfigSaved s' := by
  obtain ⟨hc, hf⟩ := h.carries.step (fun _ hc => hc) (noConfigChange_offers ha) hs
  exact ⟨noConfig_iff.2 hc, hf, fun n => (step_id hs n).trans (h.id n)⟩

theorem NoConfigSaved.restart (h : NoConfigSaved s) {peers : List NodeID} {d : Disk} {start : Io}
    (hd : ∀ f, d.logFile = some f → ∀ e ∈ f, e.data.isConfig = false) : NoConfigSaved (s.restart n peers d start) := by
  obtain ⟨hc, hf⟩ := CarriesSaved.restart (n := n) (fun _ hc => hc) h.carries hd
  refine ⟨noConfig_iff.2 hc, hf, fun m => ?_⟩
  rw [restart_raft]
  split
  · rename_i hm
    rw [hm]
    exact (new_noConfig n peers start hd).1
  · exact h.id m

/-- A node that is started again, with the votes its files account for. -/
theorem restart_ballot (n : NodeID) (peers : List NodeID) (start : Io) {d : Disk}
    (hd : ∀ f, d.logFile = some f → ∀ e ∈ f, e.data.isConfig = false) (hb : ∀ m, Ballot (s.raft m)) (m : NodeID) :
    Ballot ((s.restart n peers d start).raft m) ∧
      ((s.restart n peers d start).raft m).savedMeta =
        if m = n then d.metaFile.getD ⟨0, "", []⟩ else (s.raft m).savedMeta := by
  obtain ⟨_, hdisk, hterm, hvote, _⟩ := new_noConfig n peers start hd
  have hsaved : (Raft.new n peers d start).savedMeta = d.metaFile.getD ⟨0, "", []⟩ := by
    unfold Raft.savedMeta; rw [hdisk]
  rw [restart_raft]
  split
  · refine ⟨Synced.ballot ⟨?_, ?_⟩, hsaved⟩
    · exact (congrArg MetaData.term hsaved).trans hterm.symm
    · exact (congrArg MetaData.votedFor hsaved).trans hvote.symm
  · exact ⟨hb m, rfl⟩

/-! ## The invariant -/

/-- All votes so far: on disk as far as they are for the saved term, and one for each node and term. -/
structure Polled (h : List (Cluster × RestartAction)) (s : Cluster) : Prop where
  quiet : NoConfigSaved s
  ballot : ∀ n, Ballot (s.raft n)
  records : ∀ n t c, n ≠ "" → (n, t, c) ∈ votes h → c ≠ "" ∧ AccountsFor (s.raft n).savedMeta t c
  once : ∀ n t c c', n ≠ "" → (n, t, c) ∈ votes h → (n, t, c') ∈ votes h → c = c'

/-- A step or a restart that casts no vote and keeps account of those there are. -/
theorem Polled.silent {h : List (Cluster × RestartAction)} {l : RestartAction} (hp : Polled h s)
    (hl : votes ((s, l) :: h) = votes h) (hq : NoConfigSaved s') (hb : ∀ m, Ballot (s'.raft m))
    (hr : ∀ m t c, c ≠ "" → AccountsFor (s.raft m).savedMeta t c → AccountsFor (s'.raft m).savedMeta t c) :
    Polled ((s, l) :: h) s' := by
  refine ⟨hq, hb, fun m t c hm hv => ?_, fun m t c c' hm hv hv' => ?_⟩
  · rw [hl] at hv
    obtain ⟨hc, hrec⟩ := hp.records m t c hm hv
    exact ⟨hc, hr m t c hc hrec⟩
  · rw [hl] at hv hv'
    exact hp.once m t c c' hm hv hv'

/-- What a step leaves on disk, in the file from before or in the one after it. -/
theorem step_metas (hq : NoConfigSaved s) (hb : ∀ m, Ballot (s.raft m)) (hs : s.step a = some s')
    (hterm : (ioOf a).saveTerm = true) (hvote : (ioOf a).saveVote = true) (m : NodeID) :
    Ballot (s'.raft m) ∧
      ∀ t c, c ≠ "" → AccountsFor (s.raft m).savedMeta t c → AccountsFor (s'.raft m).savedMeta t c := by
  rcases step_at hs m with heq | ⟨_, hk⟩
  · rw [heq]; exact ⟨hb m, fun _ _ _ hr => hr⟩
  · have hmeta := hk.metaStep hterm hvote
    exact ⟨hmeta.ballot (hq.noConfig.log m) (hb m),
      fun t c hc hr => hmeta.records (hq.noConfig.log m) (hb m) hc hr⟩

theorem votes_step (s : Cluster) (a : Action) (h : List (Cluster × RestartAction)) :
    votes ((s, .life (.step a)) :: h) = (s.casts a).toList ++ votes h := by
  simp only [votes, List.filterMap_cons]
  cases s.casts a <;> rfl

theorem Polled.step {h : List (Cluster × RestartAction)} (hp : Polled h s) (ha : noConfigChange a = true)
    (hterm : (ioOf a).saveTerm = true) (hvote : (ioOf a).saveVote = true) (hs : s.step a = some s') :
    Polled ((s, .life (.step a)) :: h) s' := by
  have hq := hp.quiet.step ha hs
  have hmetas := step_metas hp.quiet hp.ballot hs hterm hvote
  cases hc : s.casts a with
  | none =>
    refine hp.silent ?_ hq (fun m => (hmetas m).1) fun m => (hmetas m).2
    rw [votes_step, hc]; rfl
  | some v =>
    obtain ⟨k, t₀, c₀⟩ := v
    obtain ⟨hcast, ht, hid⟩ := step_casts hs hterm hvote hc
    have hmem : ∀ {m : NodeID} {t : Int} {c : NodeID}, (m, t, c) ∈ votes ((s, .life (.step a)) :: h) →
        (m = k ∧ t = t₀ ∧ c = c₀) ∨ (m, t, c) ∈ votes h := by
      intro m t c hv
      rw [votes_step, hc, Option.toList_some, List.singleton_append, List.mem_cons] at hv
      rcases hv with hv | hv
      · cases hv; exact .inl ⟨rfl, rfl, rfl⟩
      · exact .inr hv
    -- an earlier vote in the same term was for the same candidate
    have hold : ∀ c, k ≠ "" → (k, t₀, c) ∈ votes h → c₀ = c := by
      intro c hk hv
      obtain ⟨hne, hrec⟩ := hp.records k t₀ c hk hv
      exact (Casts.records hcast (hp.ballot k) hne hrec).2 ht
    refine ⟨hq, fun m => (hmetas m).1, fun m t c hm hv => ?_, fun m t c c' hm hv hv' => ?_⟩
    · rcases hmem hv with ⟨rfl, rfl, rfl⟩ | hv
      · refine ⟨?_, ?_, fun _ => ?_⟩
        · rcases hid with hid | hid
          · exact hid
          · rw [hid, hp.quiet.id]; exact hm
        · rw [hcast.synced.term]; exact le_of_eq ht.symm
        · rw [hcast.synced.vote]; exact hcast.vote
      · obtain ⟨hne, hrec⟩ := hp.records m t c hm hv
        exact ⟨hne, (hmetas m).2 t c hne hrec⟩
    · rcases hmem hv with ⟨rfl, rfl, rfl⟩ | hv
      · rcases hmem hv' with ⟨_, _, rfl⟩ | hv'
        · rfl
        · exact hold c' hm hv'
      · rcases hmem hv' with ⟨rfl, rfl, rfl⟩ | hv'
        · exact (hold c hm hv).symm
        · exact hp.once m t c c' hm hv hv'

/-- A process that dies during a step, once its vote is saved, and comes back. -/
theorem Polled.crash {h : List (Cluster × RestartAction)} {s₁ : Cluster} (hp : Polled h s)
    (hp₁ : Polled ((s, .life (.step a)) :: h) s₁) {c : CrashPoint} {peers : List NodeID} {start : Io} {d : Disk}
    (hlog : ∀ f, d.logFile = some f → ∀ e ∈ f, e.data.isConfig = false)
    (hmeta : d.metaFile = (s₁.raft n).disk.metaFile) :
    Polled ((s, .life (.crash n a c true peers start)) :: h) (s.restart n peers d start) := by
  have hre := restart_ballot n peers start hlog hp.ballot
  -- the dying node's vote is one of the step's, and nobody else votes
  have hmem : ∀ {v}, v ∈ votes ((s, .life (.crash n a c true peers start)) :: h) →
      v ∈ votes h ∨ v.1 = n ∧ v ∈ votes ((s, .life (.step a)) :: h) := by
    intro v hv
    rw [votes_step]
    simp only [votes, List.filterMap_cons] at hv
    cases hc : s.casts a with
    | none => rw [hc] at hv; exact .inl hv
    | some v₀ =>
      rw [hc, Option.filter_some] at hv
      split at hv
      · exact .inl hv
      · rename_i v₁ hv₁
        split at hv₁
        · rename_i hn
          cases hv₁
          rcases List.mem_cons.1 hv with rfl | hv
          · exact .inr ⟨eq_of_beq hn, List.mem_cons_self⟩
          · exact .inl hv
        · cases hv₁
  have hsub : ∀ {v}, v ∈ votes ((s, .life (.crash n a c true peers start)) :: h) →
      v ∈ votes ((s, .life (.step a)) :: h) := by
    intro v hv
    rcases hmem hv with hv | ⟨_, hv⟩
    · rw [votes_step]; exact List.mem_append_right _ hv
    · exact hv
  refine ⟨hp.quiet.restart hlog, fun m => (hre m).1, fun m t c' hm hv => ?_,
    fun m t c' c'' hm hv hv' => hp₁.once m t c' c'' hm (hsub hv) (hsub hv')⟩
  rw [(hre m).2]
  split
  · rename_i hmn
    subst hmn
    rw [hmeta]
    exact hp₁.records m t c' hm (hsub hv)
  · rename_i hmn
    rcases hmem hv with hv | ⟨hmn', _⟩
    · exact hp.records m t c' hm hv
    · exact absurd hmn' hmn

/-- A process that dies and comes back on files that account for all its votes. -/
theorem Polled.restart {h : List (Cluster × RestartAction)} {l : RestartAction} (hp : Polled h s)
    (hl : votes ((s, l) :: h) = votes h) {peers : List NodeID} {d : Disk} {start : Io}
    (hlog : ∀ f, d.logFile = some f → ∀ e ∈ f, e.data.isConfig = false)
    (hmeta : ∀ t c, c ≠ "" → AccountsFor (s.raft n).savedMeta t c → AccountsFor (d.metaFile.getD ⟨0, "", []⟩) t c) :
    Polled ((s, l) :: h) (s.restart n peers d start) := by
  have hre := restart_ballot n peers start hlog hp.ballot
  refine hp.silent hl (hp.quiet.restart hlog) (fun m => (hre m).1) fun m t c hc hr => ?_
  rw [(hre m).2]
  split
  · rename_i hm
    subst hm
    exact hmeta t c hc hr
  · exact hr

theorem Polled.next {h : List (Cluster × RestartAction)} {l : RestartAction} (hp : Polled h s)
    (hok : votesKept l = true) (hstep : s.restartStep l = some s') : Polled ((s, l) :: h) s' := by
  simp only [votesKept, Bool.and_eq_true] at hok
  obtain ⟨hsave, ha⟩ := hok
  match l with
  | .life (.step a) =>
    simp only [metaSaved, Bool.and_eq_true] at hsave
    exact hp.step ha hsave.1 hsave.2 hstep
  | .life (.crash n a c metaDone peers start) =>
    simp only [metaSaved, Bool.and_eq_true] at hsave
    simp only [restartStep, lifeStep] at hstep
    split at hstep
    · rename_i s₁ hs₁
      cases hstep
      have hp₁ := hp.step ha hsave.1.1 hsave.1.2 hs₁
      have hlog : ∀ f, (crashDisk (s.raft n).disk (s₁.raft n).disk metaDone c).logFile = some f →
          ∀ e ∈ f, e.data.isConfig = false := by
        intro f hf
        simp only [crashDisk] at hf
        split at hf
        · exact hp₁.quiet.files n f hf
        · exact hp.quiet.files n f hf
      cases metaDone with
      | false => exact hp.restart rfl hlog fun t c' _ hr => hr
      | true => exact hp.crash hp₁ hlog rfl
    · cases hstep
  | .between n call io peers start =>
    simp only [metaSaved, Bool.and_eq_true] at hsave
    simp only [restartStep, Option.map_eq_some_iff] at hstep
    obtain ⟨d, hd, rfl⟩ := hstep
    obtain ⟨T, rfl⟩ := betweenSaves_disk hd
    refine hp.restart rfl (fun f hf => ?_) fun t c hc hr => ?_
    · rw [(adoptTerm_data ..).logFile] at hf; exact hp.quiet.files n f hf
    · exact KeptOrAdopts.records (adoptTerm_saves (s.envOf n io) hsave.1 _ T) (hp.ballot n) hr

theorem Polled.start (procs : List NodeID) (peersOf : NodeID → List NodeID) (snapshotter restorer : Bool) :
    Polled [] (Cluster.start procs peersOf snapshotter restorer) := by
  refine ⟨.start .., fun n => ?_, fun n t c _ hv => ?_, fun n t c c' _ hv => ?_⟩
  · apply Synced.ballot
    rw [start_raft]
    constructor <;> rfl
  · cases hv
  · cases hv

/-- One vote per term, across crashes: in every run without configuration entries and failing saves of the
meta file, in which processes die at any point and come back, all votes a node gives in a term are for the
same candidate. The empty id is the code's word for no node. -/
theorem one_vote_per_term {h : List (Cluster × RestartAction)} {s : Cluster}
    (hr : restartMachine.Run (fun _ l => votesKept l = true) h s) {n : NodeID} (hn : n ≠ "") {t : Int} {c c' : NodeID}
    (h1 : (n, t, c) ∈ votes h) (h2 : (n, t, c') ∈ votes h) : c = c' := by
  have hp : Polled h s := by
    refine Machine.Run.history ?_ (fun h s l s' _ hp hok hs => hp.next hok hs) hr
    rintro s ⟨procs, peersOf, snapshotter, restorer, _, rfl⟩
    exact .start procs peersOf snapshotter restorer
  exact hp.once n t c c' hn h1 h2

/-- B votes for A in term 1, dies, comes back and is asked once more: it votes for A again. -/
theorem one_vote_per_term_askedAgain :
    ∃ h s, restartMachine.Run (fun _ l => votesKept l = true) h s ∧
      (votes h).count ("B", 1, "A") = 2 ∧ ∀ c, ("B", 1, c) ∈ votes h → c = "A" := by
  obtain ⟨h, s, hr, hvotes⟩ := Machine.exists_run (S := restartMachine) (fun _ l => votesKept l = true)
    (fun h _ => (votes h).count ("B", 1, "A") = 2) (machine_init threeNodes false false)
    (electA.map (.life ∘ .step) ++
      [.life (.crash "B" (.tick 0) .afterLog true ["A", "C"] {}), .life (.step (.deliver 0 {}))]) (by decide +kernel)
  refine ⟨h, s, hr, hvotes, fun c hc => one_vote_per_term hr (n := "B") (by decide) hc ?_⟩
  exact List.count_pos_iff.1 (by omega)

end Cluster

end Mimori
