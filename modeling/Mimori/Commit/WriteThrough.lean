/-
The files are as new as the memory. Whatever changes the term, the vote, the log or the snapshot of a node saves it
before anyone hears of it, with one exception: the answer to a request for a vote that brings a newer term. So when no
save fails and no such answer comes, the files of a node hold its state after every step; a process that dies finds them
when it comes back, and a restart loses nothing that was promised to others. `New` gives the first entry of the log the
term of the snapshot and does not save it, so no request may have given it another one.
-/
import Mimori.Commit.Completeness

namespace Mimori

open Raft TermLog

namespace Raft

variable {r r' : Raft}

/-! ## The first entry of the log -/

/-- The log begins with the entry of the snapshot. -/
structure Headed (r : Raft) : Prop where
  ne : r.log ≠ []
  base : ∀ snap, r.snapshot = some snap → r.logBaseIndex = snap.lastIncludedIndex
  head : ∀ snap e l, r.snapshot = some snap → r.log = e :: l →
    e.index = snap.lastIncludedIndex ∧ e.term = snap.lastIncludedTerm

theorem Headed.of_cons {e : LogEntry} {l l' : List LogEntry} (h : Headed r) (hl : r.log = e :: l) (hl' : r'.log = e :: l')
    (hb : r'.logBaseIndex = r.logBaseIndex) (hs : r'.snapshot = r.snapshot) : Headed r' := by
  refine ⟨by rw [hl']; exact List.cons_ne_nil e l', fun snap hsnap => ?_, fun snap x m hsnap hx => ?_⟩
  · rw [hb]; exact h.base snap (hs ▸ hsnap)
  · rw [hl'] at hx
    cases hx
    exact h.head snap e l (hs ▸ hsnap) hl

theorem Compacts.headed {snap : Snapshot} (h : Compacts r r' snap) : Headed r' := by
  refine ⟨by rw [h.log]; exact List.cons_ne_nil _ _, fun snap' hs => ?_, fun snap' e l hs hl => ?_⟩
  · rw [h.snapshot] at hs
    cases hs
    exact h.base
  · rw [h.snapshot] at hs
    rw [h.log] at hl
    cases hs
    cases hl
    exact ⟨rfl, rfl⟩

theorem mergeEntries_ne {b : Int} : ∀ (es : List LogEntry) {l : List LogEntry}, l ≠ [] → mergeEntries b l es ≠ []
  | [], _, h => h
  | x :: es, l, h => by
    rw [mergeEntries_cons]
    refine mergeEntries_ne es ?_
    unfold mergeEntry
    simp only
    split
    · exact h
    · split
      · split
        · simp
        · exact h
      · simp

theorem mergeEntries_head {b : Int} {e : LogEntry} :
    ∀ (es l : List LogEntry), (∀ x ∈ es, x.index = b → x.term = e.term) → ∃ l', mergeEntries b (e :: l) es = e :: l'
  | [], l, _ => ⟨l, rfl⟩
  | x :: es, l, h => by
    have hes := fun y hy => h y (List.mem_cons_of_mem x hy)
    obtain ⟨l₁, hl₁⟩ : ∃ l₁, mergeEntry b (e :: l) x = e :: l₁ := by
      unfold mergeEntry
      simp only
      split
      · exact ⟨l, rfl⟩
      · split
        · rename_i old hold
          split
          · rename_i hne
            -- what is cut off lies behind the first entry
            cases hk : (x.index - b).toNat with
            | zero =>
              rw [hk] at hold
              cases hold
              exact absurd (h x List.mem_cons_self (by omega)).symm hne
            | succ k => exact ⟨l.take k ++ [x], rfl⟩
          · exact ⟨l, rfl⟩
        · exact ⟨l ++ [x], rfl⟩
    rw [mergeEntries_cons, hl₁]
    exact mergeEntries_head es l₁ hes

theorem Loaded.headed {d : Disk} (h : Loaded d r) : Headed r := by
  have hentries : ∀ l : List LogEntry, (if l.isEmpty then [boundary 0 0] else l) ≠ [] := by
    intro l
    cases l with
    | nil => exact List.cons_ne_nil _ _
    | cons e l => exact List.cons_ne_nil e l
  refine ⟨?_, fun snap hs => ?_, fun snap e l hs hl => ?_⟩
  · rw [h.log]
    unfold loadLog
    simp only
    split
    · exact hentries _
    · split
      · split <;> exact List.cons_ne_nil _ _
      · exact List.cons_ne_nil _ _
  · rw [h.base, loadLog, ← h.snapshot, hs]
    simp only
    split
    · split <;> rfl
    · rfl
  · rw [h.log, loadLog, ← h.snapshot, hs] at hl
    simp only at hl
    split at hl
    · split at hl <;> (cases hl; exact ⟨rfl, rfl⟩)
    · cases hl
      exact ⟨rfl, rfl⟩

end Raft

namespace Cluster

variable {M : Members} {s s' : Cluster} {a : Action} {n : NodeID} {r : Raft}

/-! ## Conditions -/

/-- A request that is accepted brings no other term for the index of the snapshot. -/
def headKept (s : Cluster) (a : Action) : Bool :=
  match s.accepts a with
  | some (_, n, req) => (s.raft n).snapshot.all fun snap =>
    req.entries.all fun e => e.index != snap.lastIncludedIndex || e.term == snap.lastIncludedTerm
  | none => true

/-- Nobody proposes a configuration change. No save fails in a step, no vote answer brings a newer term, and no accepted
request brings another term for the index of the snapshot. A process that comes back is a member with the peers it had,
and has died before it replaced the snapshot or the log. -/
def savesKept (M : Members) (s : Cluster) (l : RestartAction) : Bool :=
  s.termsKept l &&
    match l with
    | .life (.step a) => noConfigChange a && s.headKept a && (ioOf a).saveLog && (ioOf a).saveSnap
    | .life (.crash n a c _ peers _) =>
      noConfigChange a && M.ids.contains n && peers == M.peersOf n && decide (c = .beforeSnapshot)
    | .between n _ _ peers _ => M.ids.contains n && peers == M.peersOf n

/-! ## Runs -/

/-- The files of the node hold its term, its vote, its snapshot and its log. -/
structure FilesHold (r : Raft) : Prop where
  synced : Synced r
  held : logHeld r.disk r = true
  headed : Headed r

theorem NodeStep.headed (hstep : NodeStep s a n r) (h : Headed (s.raft n)) (hok : s.headKept a = true) : Headed r := by
  obtain ⟨e, l, hel⟩ := List.exists_cons_of_ne_nil h.ne
  cases hstep.logStep with
  | same _ hs => exact h.of_cons hel (hs.log.trans hel) hs.base hs.snapshot
  | append _ cmd hs => exact h.of_cons hel (hs.log.trans (by rw [hel]; rfl)) hs.base hs.snapshot
  | merge call io src req hp _ hs hacc =>
    cases hsnap : (s.raft n).snapshot with
    | none =>
      refine ⟨?_, fun snap hs' => ?_, fun snap x m hs' _ => ?_⟩
      · rw [hs.log]
        exact mergeEntries_ne req.entries h.ne
      all_goals
        rw [hs.snapshot, hsnap] at hs'
        cases hs'
    | some snap =>
      simp only [headKept, accepts_deliver hp hacc, hsnap, Option.all_some, List.all_eq_true, Bool.or_eq_true,
        bne_iff_ne, beq_iff_eq] at hok
      obtain ⟨_, hterm⟩ := h.head snap e l hsnap hel
      obtain ⟨l', hl'⟩ := mergeEntries_head (b := (s.raft n).logBaseIndex) (e := e) req.entries l fun x hx hidx => by
        rw [hterm]
        exact (hok x hx).resolve_left (not_not.2 (hidx.trans (h.base snap hsnap)))
      exact h.of_cons hel (hs.log.trans (by rw [hel, hl'])) hs.base hs.snapshot
  | install _ _ _ _ _ _ _ hs => exact hs.headed
  | snapshot _ _ hs => exact hs.compacts.headed

theorem logHeld_iff {d : Disk} {r : Raft} : logHeld d r = true ↔
    d.snapFile = r.snapshot ∧ (d.logFile = some r.log ∨ d.logFile = none ∧ r.log = [boundary 0 0]) := by
  simp only [logHeld, Bool.and_eq_true, Bool.or_eq_true, beq_iff_eq]

/-- A step without failing saves keeps the files up to date. -/
theorem FilesHold.nodeStep (h : FilesHold (s.raft n)) (hstep : NodeStep s a n r)
    (hok : s.termsKept (.life (.step a)) = true) (hhead : s.headKept a = true) (hlog : (ioOf a).saveLog = true)
    (hsnap : (ioOf a).saveSnap = true) : FilesHold r := by
  simp only [termsKept, metaSaved, Bool.and_eq_true] at hok
  obtain ⟨⟨hterm, hvote⟩, hans⟩ := hok
  refine ⟨((hstep.metaStep hterm hvote).synced h.synced hans).1, logHeld_iff.2 ?_, hstep.headed h.headed hhead⟩
  obtain ⟨hs, hl⟩ := logHeld_iff.1 h.held
  constructor
  · rcases hstep.snapWritten hsnap with ⟨_, h1, h2⟩ | h1
    · rw [h1, h2]; exact hs
    · exact h1
  · rcases hstep.written hlog with ⟨h1, _, h2⟩ | h1
    · rw [h1, h2]; exact hl
    · exact .inl h1

/-- What is saved with a term that the node moves to is not behind it. -/
theorem savedMeta_forward {r r' : Raft} (h : Synced r') (hm : TermMove r r') : metaForward r'.disk r = true := by
  have hterm : (r'.disk.metaFile.getD ⟨0, "", []⟩).term = r'.term := h.term
  have hvote : (r'.disk.metaFile.getD ⟨0, "", []⟩).votedFor = r'.votedFor := h.vote
  simp only [metaForward, hterm, hvote, Bool.or_eq_true, Bool.and_eq_true, decide_eq_true_eq, beq_iff_eq]
  rcases hm with hlt | ⟨hsame, _, hv⟩
  · exact .inl hlt
  · exact .inr ⟨hsame, hv⟩

/-- The meta file of before a step, or of after it, unless the step is an answer that brings a newer term. -/
theorem MetaStep.forward (h : MetaStep s n r a) (hs : Synced (s.raft n)) (hm : TermMove (s.raft n) r) :
    metaForward r.disk (s.raft n) = true := by
  have hold := savedMeta_forward hs (SameVotes.refl _).termMove
  have hsame : r.disk.metaFile = (s.raft n).disk.metaFile → metaForward r.disk (s.raft n) = true := by
    intro hf
    unfold metaForward at hold ⊢
    rw [hf]; exact hold
  cases h with
  | kept _ h =>
    rcases h with h | h
    · rcases h.file with hf | hs'
      · exact hsame hf
      · exact savedMeta_forward hs' hm
    · exact savedMeta_forward h.synced hm
  | cast _ _ _ h => exact savedMeta_forward h.synced hm
  | answer _ _ _ _ _ _ _ _ _ _ _ _ hf => exact hsame hf
  | applier _ _ h =>
    rcases h with ⟨hf, _⟩ | hs'
    · exact hsame hf
    · exact savedMeta_forward hs' hm

/-- What a process leaves when it dies before it has replaced the snapshot or the log. -/
theorem FilesHold.left {l : RestartAction} {d : Disk} (h : ∀ m, FilesHold (s.raft m)) (hf : Fixed M s)
    (hok : s.savesKept M l = true) (hd : s.restartDisk l = some (n, d)) :
    metaForward d (s.raft n) = true ∧ d.snapFile = (s.raft n).disk.snapFile ∧ d.logFile = (s.raft n).disk.logFile := by
  have hsame := savedMeta_forward (h n).synced (SameVotes.refl (s.raft n)).termMove
  simp only [savesKept, termsKept, Bool.and_eq_true] at hok
  rcases l with (a | ⟨m, a, c, metaDone, peers, start⟩) | ⟨m, call, io, peers, start⟩
  · cases hd
  · obtain ⟨s₁, hs₁, he⟩ := Option.map_eq_some_iff.1 hd
    cases he
    simp only [metaSaved, Bool.and_eq_true, decide_eq_true_eq] at hok
    obtain ⟨⟨⟨⟨hterm, hvote⟩, _⟩, _⟩, _, rfl⟩ := hok
    refine ⟨?_, rfl, rfl⟩
    cases metaDone with
    | false => exact hsame
    | true =>
      show metaForward (s₁.raft n).disk (s.raft n) = true
      rcases step_at hs₁ n with heq | ⟨_, hk⟩
      · rw [heq]; exact hsame
      · exact (hk.metaStep hterm hvote).forward (h n).synced (hf.termMove hs₁ n)
  · obtain ⟨d', hd', he⟩ := Option.map_eq_some_iff.1 hd
    cases he
    simp only [metaSaved, Bool.and_eq_true] at hok
    obtain ⟨T, rfl⟩ := betweenSaves_disk hd'
    have hl := adoptTerm_data (s.raft n) T (s.envOf n io)
    refine ⟨?_, hl.file, hl.logFile⟩
    rcases adoptTerm_saves (s.envOf n io) hok.1.1.1 (s.raft n) T with hk | hk
    · rcases hk.file with hfile | hs'
      · unfold metaForward at hsame ⊢
        rw [hfile]; exact hsame
      · exact savedMeta_forward hs' (adoptTerm_move ..).termMove
    · exact savedMeta_forward hk.synced (adoptTerm_move ..).termMove

/-- The restarts of a run: the steps are anything else. -/
def isRestart : RestartAction → Bool
  | .life (.step _) => false
  | _ => true

/-- What is asked of a restart for committed entries to be for ever is met. -/
theorem FilesHold.recovers {l : RestartAction} (h : ∀ m, FilesHold (s.raft m)) (hf : Fixed M s)
    (hok : s.savesKept M l = true) (hl : isRestart l = true) : s.fairRestarts M l = true ∧ s.logsFound l = true := by
  have hleft := fun n d => FilesHold.left (n := n) (d := d) h hf hok
  have hfound : s.logsFound l = true := by
    unfold logsFound
    split
    · rename_i n d hd
      obtain ⟨_, h1, h2⟩ := hleft n d hd
      rw [logHeld_iff, h1, h2]
      exact logHeld_iff.1 (h n).held
    · rfl
  simp only [savesKept, Bool.and_eq_true] at hok
  have hmember : ∀ m peers, (∀ x d, s.restartDisk l = some (x, d) → x = m) → peersGiven l = peers →
      M.ids.contains m = true → peers = M.peersOf m → s.memberRestarts M l = true := by
    intro m peers hx hp hm hpeers
    unfold memberRestarts
    split
    · rename_i n d hd
      have hn := hx n d hd
      subst hn
      rw [hm, hp, hpeers, (hleft n d hd).1, beq_self_eq_true]
      rfl
    · rfl
  rcases l with (a | ⟨m, a, c, metaDone, peers, start⟩) | ⟨m, call, io, peers, start⟩
  · cases hl
  · simp only [Bool.and_eq_true, beq_iff_eq] at hok
    obtain ⟨_, ⟨⟨hcfg, hm⟩, hpeers⟩, _⟩ := hok
    have hmem := hmember m peers (fun x d hd => by
      obtain ⟨_, _, he⟩ := Option.map_eq_some_iff.1 hd
      exact (congrArg Prod.fst he).symm) rfl hm hpeers
    refine ⟨?_, hfound⟩
    simp only [fairRestarts, performed, Option.all_some, hcfg, hmem, Bool.and_self]
  · simp only [Bool.and_eq_true, beq_iff_eq] at hok
    obtain ⟨_, hm, hpeers⟩ := hok
    have hmem := hmember m peers (fun x d hd => by
      obtain ⟨_, _, he⟩ := Option.map_eq_some_iff.1 hd
      exact (congrArg Prod.fst he).symm) rfl hm hpeers
    refine ⟨?_, hfound⟩
    simp only [fairRestarts, performed, Option.all_none, hmem, Bool.and_self]

/-- The files of every node hold its state, and are those of members. -/
structure FilesInv (M : Members) (s : Cluster) : Prop where
  files : ∀ n, FilesHold (s.raft n)
  saved : MembersSaved M s
  fixed : Fixed M s

theorem FilesInv.start (M : Members) (snapshotter restorer : Bool) :
    FilesInv M (start M.ids M.peersOf snapshotter restorer) := by
  refine ⟨fun n => ⟨⟨rfl, rfl⟩, rfl, ?_⟩, (Reigns.start M snapshotter restorer).saved, .start M snapshotter restorer⟩
  have h := (new_loaded n (M.peersOf n) {} {}).headed
  exact ⟨h.ne, h.base, h.head⟩

theorem FilesInv.step (h : FilesInv M s) (hok : s.savesKept M (.life (.step a)) = true) (hs : s.step a = some s') :
    FilesInv M s' := by
  simp only [savesKept, Bool.and_eq_true] at hok
  obtain ⟨hterms, ⟨⟨hcfg, hhead⟩, hlog⟩, hsnap⟩ := hok
  refine ⟨fun m => ?_, h.saved.step hcfg hs, h.fixed.step hcfg hs⟩
  rcases step_at hs m with heq | ⟨_, hk⟩
  · rw [heq]; exact h.files m
  · exact (h.files m).nodeStep hk hterms hhead hlog hsnap

/-- A node that comes back has what the files hold, and the files are as they were. -/
theorem FilesHold.restart {d : Disk} {peers : List NodeID} {io : Io} (h : FilesHold (s.raft n))
    (hd : logHeld d (s.raft n) = true) (hsync : Synced ((s.restart n peers d io).raft n)) :
    FilesHold ((s.restart n peers d io).raft n) := by
  have hl := new_loaded n peers d io
  rw [restart_raft, if_pos rfl] at hsync ⊢
  refine ⟨hsync, logHeld_iff.2 ?_, ?_⟩
  · show (Raft.new n peers d io).disk.snapFile = (Raft.new n peers d io).snapshot ∧
      ((Raft.new n peers d io).disk.logFile = some (Raft.new n peers d io).log ∨
        (Raft.new n peers d io).disk.logFile = none ∧ (Raft.new n peers d io).log = [boundary 0 0])
    rw [hl.snapFile, hl.snapshot, hl.logFile, hl.log, (loadLog_held h.headed.ne hd h.headed.head).1]
    exact ⟨rfl, (logHeld_iff.1 hd).2⟩
  · exact ⟨hl.headed.ne, hl.headed.base, hl.headed.head⟩

theorem FilesInv.restartStep {l : RestartAction} (h : FilesInv M s) (hok : s.savesKept M l = true)
    (hs : s.restartStep l = some s') : FilesInv M s' := by
  cases hl : isRestart l with
  | false =>
    rcases l with (a | _) | _
    · exact h.step hok hs
    · cases hl
    · cases hl
  | true =>
    obtain ⟨hfair, hfound⟩ := FilesHold.recovers h.files h.fixed hok hl
    simp only [savesKept, Bool.and_eq_true] at hok
    have hsync := fun m => (restartStep_synced (fun m => (h.files m).synced) hok.1 hs m).1
    obtain ⟨hsaved', ⟨a, rfl, _⟩ | ⟨n, d, io, hd, hf, rfl⟩⟩ := h.saved.restartStep hfair hs
    · cases hl
    · refine ⟨fun m => ?_, hsaved', h.fixed.restart hf.member hf.files (hf.comesBack h.fixed io)⟩
      by_cases hm : m = n
      · subst hm
        simp only [logsFound, hd] at hfound
        exact (h.files m).restart hfound (hsync m)
      · rw [restart_raft, if_neg hm]
        exact h.files m

/-- In every run of a cluster with fixed membership in which no save fails, no vote answer brings a newer term, no accepted
request brings another term for the index of the snapshot, and a process that dies has not yet replaced its snapshot or
its log, the files of every node hold its term, its vote, its snapshot and its log after every step. So every restart of
the run finds what `recoversKept` asks of it: the log and the snapshot that the process had, and a meta file that is not
behind its term and vote. Nothing is asked of the elections or of the order of the messages. -/
theorem files_hold_state (M : Members) {h : List (Cluster × RestartAction)} {s : Cluster}
    (hr : M.restarts.Run (fun s l => s.savesKept M l = true) h s) :
    (∀ n, (s.raft n).savedMeta.term = (s.raft n).term ∧ (s.raft n).savedMeta.votedFor = (s.raft n).votedFor ∧
        logHeld (s.raft n).disk (s.raft n) = true) ∧
      ∀ x ∈ h, isRestart x.2 = true → x.1.fairRestarts M x.2 = true ∧ x.1.logsFound x.2 = true := by
  have hinv : FilesInv M s ∧
      ∀ x ∈ h, isRestart x.2 = true → x.1.fairRestarts M x.2 = true ∧ x.1.logsFound x.2 = true := by
    refine Machine.Run.history (I := fun h s => FilesInv M s ∧
      ∀ x ∈ h, isRestart x.2 = true → x.1.fairRestarts M x.2 = true ∧ x.1.logsFound x.2 = true) ?_ ?_ hr
    · rintro s ⟨snapshotter, restorer, rfl⟩
      exact ⟨.start M snapshotter restorer, fun x hx => by cases hx⟩
    · rintro h s l s' _ ⟨hi, hpast⟩ hok hs
      exact ⟨hi.restartStep hok hs, List.forall_mem_cons.2 ⟨FilesHold.recovers hi.files hi.fixed hok, hpast⟩⟩
  exact ⟨fun n => ⟨(hinv.1.files n).synced.term, (hinv.1.files n).synced.vote, (hinv.1.files n).held⟩, hinv.2⟩

/-- A, which has led and has committed its first entry, comes back in the term and with the log that it had. -/
theorem files_hold_state_takeover :
    ∃ h s, threeNodes.restarts.Run (fun s l => s.savesKept threeNodes l = true) h s ∧
      (∃ x ∈ h, isRestart x.2 = true ∧ x.1.logsFound x.2 = true) ∧ (s.raft "A").state = .follower ∧
      (s.raft "A").savedMeta.term = 1 ∧ (s.raft "A").entryAt 1 = some ⟨1, 1, .put [1] [2]⟩ ∧
      logHeld (s.raft "A").disk (s.raft "A") = true := by
  obtain ⟨h, s, hr, ⟨x, hx, hre⟩, hf, ht, he⟩ := Machine.exists_run (S := threeNodes.restarts)
    (fun s l => Cluster.savesKept threeNodes s l = true)
    (fun (h : List (Cluster × RestartAction)) s => (∃ x ∈ h, isRestart x.2 = true) ∧ (s.raft "A").state = .follower ∧
      (s.raft "A").term = 1 ∧ (s.raft "A").entryAt 1 = some ⟨1, 1, .put [1] [2]⟩)
    (threeNodes.machine_init false false) takeover (by decide +kernel)
  obtain ⟨hfiles, hpast⟩ := files_hold_state threeNodes hr
  exact ⟨h, s, hr, ⟨x, hx, hre, (hpast x hx hre).2⟩, hf, (hfiles "A").1.trans ht, he, (hfiles "A").2.2⟩

end Cluster

end Mimori
