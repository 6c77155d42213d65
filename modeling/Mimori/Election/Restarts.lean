/-
Leaders of a run with restarts. A node may die at any point of a step and is started again on the files it leaves: as a
follower, with the term and the vote of its meta file. As long as this file is not behind the node, nobody is elected in
a term that has had a leader, be it one that has died in office and come back in its own term.
-/
import Mimori.Election.Leaders
import Mimori.Storage.OneVote
import Mimori.Storage.Roster

namespace Mimori

open Raft

/-- Clusters with the members `M`, whose processes die and come back. -/
def Members.restarts (M : Members) : Machine Cluster Cluster.RestartAction := ⟨M.machine.init, Cluster.restartStep⟩

namespace Cluster

/-! ## Conditions -/

/-- The meta file knows the term and the vote of the node, or a newer term. -/
def metaForward (d : Disk) (r : Raft) : Bool :=
  decide (r.term < (d.metaFile.getD ⟨0, "", []⟩).term) ||
    ((d.metaFile.getD ⟨0, "", []⟩).term == r.term &&
      ((d.metaFile.getD ⟨0, "", []⟩).votedFor == r.votedFor || r.votedFor == ""))

/-- A process that comes back is one of the members, its command line gives the members, and the meta file it finds is
not behind the process that died. -/
def memberRestarts (M : Members) (s : Cluster) (l : RestartAction) : Bool :=
  match s.restartDisk l with
  | some (n, d) => M.ids.contains n && peersGiven l == M.peersOf n && metaForward d (s.raft n)
  | none => true

/-- The conditions of election safety with restarts: every step keeps `fairElections` (nobody proposes a configuration
change, terms fit the messages, a candidate counts a vote only in the term it asked for it), and so does every restart
`memberRestarts`. -/
def fairRestarts (M : Members) (s : Cluster) : RestartAction → Bool
  | .life (.step a) => s.fairElections a
  | l => (performed l).all noConfigChange && s.memberRestarts M l

variable {M : Members} {s s' : Cluster} {n m : NodeID} {d : Disk} {io : Io} {r : Raft}

/-! ## A node that comes back -/

/-- `r'` is a follower with the members of `r`, in its term with its vote or in a newer term. -/
structure ComesBack (r r' : Raft) : Prop where
  members : SameMembers r r'
  state : r'.state = .follower
  forward : r.term < r'.term ∨ (r'.term = r.term ∧ (r'.votedFor = r.votedFor ∨ r.votedFor = ""))

theorem ComesBack.le_term {r' : Raft} (h : ComesBack r r') : r.term ≤ r'.term := by
  rcases h.forward with h | ⟨h, _⟩
  · exact le_of_lt h
  · exact le_of_eq h.symm

/-- The files have the members, and no configuration entry. -/
structure MemberFiles (M : Members) (n : NodeID) (d : Disk) : Prop where
  peers : (d.metaFile.getD ⟨0, "", []⟩).peers = [] ∨ (d.metaFile.getD ⟨0, "", []⟩).peers = M.peersOf n
  log : ∀ f, d.logFile = some f → ∀ e ∈ f, e.data.isConfig = false

/-- `New` without configuration entries to replay. -/
theorem new_unreplayed (id : NodeID) (peers : List NodeID) (io : Io)
    (h : ∀ f, d.logFile = some f → ∀ e ∈ f, e.data.isConfig = false) :
    new id peers d io =
      { unreplayed id peers d io with
        nextIndex := (unreplayed id peers d io).nextIndex.setAll (unreplayed id peers d io).peers
          ((unreplayed id peers d io).lastLogIndex + 1)
        matchIndex := (unreplayed id peers d io).matchIndex.setAll (unreplayed id peers d io).peers 0
        commitIndex := (d.snapFile.map Snapshot.lastIncludedIndex).getD 0
        lastApplied := (d.snapFile.map Snapshot.lastIncludedIndex).getD 0 } := by
  have hr : (unreplayed id peers d io).replayConfigChanges io = unreplayed id peers d io :=
    replayConfigChanges_noConfig io (loadLog_carries (fun _ hc => hc) h)
  rw [new_eq, hr]
  rfl

theorem MemberFiles.comesBack (h : MemberFiles M n d) (hid : r.id = n) (hpeers : r.peers = M.peersOf n)
    (hrem : r.removedFromCluster = false) (hf : metaForward d r = true) (io : Io) :
    ComesBack r (new n (M.peersOf n) d io) := by
  rw [new_unreplayed n (M.peersOf n) io h.log]
  refine ⟨⟨hid.symm, ?_, hrem.symm⟩, rfl, ?_⟩
  · show (if _ then M.peersOf n else _) = r.peers
    rw [hpeers]
    rcases h.peers with hp | hp
    · rw [hp]
      rfl
    · rw [hp]
      split <;> rfl
  · simp only [metaForward, Bool.or_eq_true, Bool.and_eq_true, decide_eq_true_eq, beq_iff_eq] at hf
    exact hf

/-! ## Restarts and votes -/

/-- After a restart the network is what it was, and goroutines of the node are gone. -/
theorem VoteFrame.restart (s : Cluster) (n : NodeID) (peers : List NodeID) (d : Disk) (io : Io) :
    VoteFrame (s.setRaft n ((s.restart n peers d io).raft n)) (s.restart n peers d io) := by
  refine ⟨fun m => ?_, List.filter_sublist.filterMap _, List.filter_sublist.filterMap _,
    fun _ _ _ _ h => (List.mem_filter.1 h).1, fun _ _ _ _ => .rfl, fun _ _ _ => .rfl, id⟩
  by_cases hm : m = n
  · subst hm
    rw [setRaft_raft_self]
    exact .refl _
  · rw [setRaft_raft_ne _ _ _ _ hm, restart_raft, if_neg hm]
    exact .refl _

theorem VoteInv.comesBack {C : Campaigns} (h : VoteInv C s) {r' : Raft} (hc : ComesBack (s.raft n) r') :
    VoteInv C (s.setRaft n r') := by
  have hnot : ∀ {q : RaftState}, q ≠ .follower → r'.state ≠ q := fun hq hs => hq (hs.symm.trans hc.state)
  refine h.move (hc.members.id.trans (h.id n)) hc.le_term (by rw [hc.members.peers]; exact h.peers n)
    (fun hs => absurd hs (hnot nofun)) ?_ (fun hs => absurd hc.state hs) (fun _ => hc.state)
    (fun hs => absurd hs (hnot nofun)) (fun hs => absurd hs (hnot nofun))
  intro x T hg ht
  obtain ⟨hx, hle, hvote⟩ := h.voted n x T hg
  rcases hc.forward with hlt | ⟨hterm, hsame⟩
  · omega
  · rw [hc.members.removed]
    rcases hvote (by omega) with hv | hrem
    · rcases hsame with hsame | hsame
      · exact .inl (hsame.trans hv)
      · exact absurd (hv.symm.trans hsame) hx
    · exact .inr hrem

theorem Fixed.restart (h : Fixed M s) (hn : n ∈ M.ids) (hd : MemberFiles M n d)
    (hc : ComesBack (s.raft n) ((s.restart n (M.peersOf n) d io).raft n)) :
    Fixed M (s.restart n (M.peersOf n) d io) := by
  have hcases : ∀ {P : NodeID → Raft → Prop}, P n ((s.restart n (M.peersOf n) d io).raft n) → (∀ m, P m (s.raft m)) →
      ∀ m, P m ((s.restart n (M.peersOf n) d io).raft m) := by
    intro P hnew hold m
    by_cases hm : m = n
    · rw [hm]; exact hnew
    · rw [restart_raft, if_neg hm]; exact hold m
  refine ⟨fun m hm => ?_, hcases (P := fun m r => r.id = m) ?_ h.id,
    hcases (P := fun m r => r.peers = M.peersOf m) ?_ h.peers,
    hcases (P := fun _ r => r.removedFromCluster = false) ?_ h.removed,
    hcases (P := fun _ r => ∀ e ∈ r.log, e.data.isConfig = false) ?_ h.log,
    fun m cmd ht => h.propose m cmd (restart_tasks ht), fun m t args ht => h.args m t args (restart_tasks ht), h.request⟩
  · rcases List.mem_append.1 hm with hm | hm
    · exact h.procs m (List.mem_filter.1 hm).1
    · rw [List.mem_singleton.1 hm]; exact hn
  · rw [hc.members.id]; exact h.id n
  · rw [hc.members.peers]; exact h.peers n
  · rw [hc.members.removed]; exact h.removed n
  · rw [restart_raft, if_pos rfl]
    exact (new_noConfig n (M.peersOf n) io hd.log).2.2.2.2

theorem ElectionInv.restart (h : ElectionInv M s) (hn : n ∈ M.ids) (hd : MemberFiles M n d)
    (hc : ComesBack (s.raft n) ((s.restart n (M.peersOf n) d io).raft n)) :
    ElectionInv M (s.restart n (M.peersOf n) d io) :=
  ⟨h.fixed.restart hn hd hc, (h.votes.comesBack hc).frame (.restart s n (M.peersOf n) d io)⟩

/-- A leader that comes back in its own term has left office, and does not stand again in this term. -/
theorem LeadInv.restart {lead : Int → Option NodeID} (h : LeadInv M lead s) {peers : List NodeID}
    (hc : ComesBack (s.raft n) ((s.restart n peers d io).raft n)) : LeadInv M lead (s.restart n peers d io) := by
  refine ⟨fun m hm => ?_, fun T m hl => ?_, h.won, h.vote⟩
  · by_cases hmn : m = n
    · subst hmn
      rw [hc.state] at hm; cases hm
    · rw [restart_raft, if_neg hmn] at hm ⊢
      exact h.leader m hm
  · obtain ⟨hle, hoff⟩ := h.office T m hl
    by_cases hmn : m = n
    · subst hmn
      have hback := hc.le_term
      refine ⟨hle.trans hback, fun hT => ⟨by rw [hc.state]; exact nofun, fun hne => ?_⟩⟩
      obtain ⟨_, hself⟩ := hoff (by omega)
      rcases hc.forward with hlt | ⟨_, hv | hv⟩
      · omega
      · exact hv.trans (hself hne)
      · exact absurd ((hself hne).symm.trans hv) hne
    · unfold HeldOffice
      rw [restart_raft, if_neg hmn]
      exact ⟨hle, hoff⟩

/-! ## Runs -/

/-- The lists of peers that a node with the members `M` has in memory or on disk. -/
abbrev OwnPeers (M : Members) (n : NodeID) (peers : List NodeID) : Prop := peers = [] ∨ peers = M.peersOf n

/-- The files of the nodes are those of members, and so is what is on its way to them. -/
abbrev MembersSaved (M : Members) (s : Cluster) : Prop := Rostered (OwnPeers M) (fun cmd => cmd.isConfig = false) s

theorem configured_same {peers : List NodeID} {e : LogEntry} (he : e.data.isConfig = false) :
    configured n peers e = peers := by
  unfold configured
  split
  · rename_i hc
    rw [hc] at he; cases he
  · rfl

theorem MembersSaved.step {a : Action} (h : MembersSaved M s) (ha : noConfigChange a = true) (hs : s.step a = some s') :
    MembersSaved M s' :=
  Rostered.step (fun _ hc => hc) (fun n peers e hp he => by rw [configured_same he]; exact hp) h
    (noConfigChange_offers ha) hs

/-- What a process finds when it comes back. -/
structure FoundBy (M : Members) (s : Cluster) (n : NodeID) (d : Disk) : Prop where
  member : n ∈ M.ids
  files : MemberFiles M n d
  forward : metaForward d (s.raft n) = true

/-- A step with restarts is a step of the cluster, or the restart of a member. -/
theorem MembersSaved.restartStep {l : RestartAction} (h : MembersSaved M s) (hok : s.fairRestarts M l = true)
    (hs : s.restartStep l = some s') : MembersSaved M s' ∧
      ((∃ a, l = .life (.step a) ∧ s.fairElections a = true ∧ s.step a = some s') ∨
        ∃ n d io, s.restartDisk l = some (n, d) ∧ FoundBy M s n d ∧ s' = s.restart n (M.peersOf n) d io) := by
  rcases restartStep_cases hs with ⟨a, rfl, hs⟩ | ⟨n, d, io, hd, rfl⟩
  · have ha := hok
    simp only [fairRestarts, fairElections, Bool.and_eq_true] at ha
    exact ⟨h.step ha.1.1 hs, .inl ⟨a, rfl, hok, hs⟩⟩
  · have hok' : (performed l).all noConfigChange = true ∧ s.memberRestarts M l = true := by
      rcases l with (a | _) | _
      · cases hd
      · simpa only [fairRestarts, Bool.and_eq_true] using hok
      · simpa only [fairRestarts, Bool.and_eq_true] using hok
    obtain ⟨hperf, hmem⟩ := hok'
    simp only [memberRestarts, hd, Bool.and_eq_true, beq_iff_eq] at hmem
    obtain ⟨⟨hn, hpeers⟩, hfwd⟩ := hmem
    have hoffers : ∀ a, performed l = some a → Offers (fun cmd => cmd.isConfig = false) a := by
      intro a ha
      rw [ha] at hperf
      exact noConfigChange_offers hperf
    have hkeeps : ∀ n peers (e : LogEntry), OwnPeers M n peers → e.data.isConfig = false →
        OwnPeers M n (configured n peers e) := by
      intro n peers e hp he
      rw [configured_same he]; exact hp
    obtain ⟨hsaved, hlog⟩ := Rostered.restartDisk (fun _ hc => hc) hkeeps h hoffers hd
    refine ⟨?_, .inr ⟨n, d, io, hd, ⟨List.contains_iff_mem.1 hn, ⟨hsaved, hlog⟩, hfwd⟩, by rw [hpeers]⟩⟩
    refine Rostered.restartStep (fun _ hc => hc) hkeeps h hoffers (fun m d' hd' => ?_) hs
    rw [hd] at hd'
    cases hd'
    exact .inr hpeers

theorem FoundBy.comesBack (hf : FoundBy M s n d) (h : Fixed M s) (io : Io) :
    ComesBack (s.raft n) ((s.restart n (M.peersOf n) d io).raft n) := by
  obtain ⟨⟨h1, h2, h3⟩, h4, h5⟩ := hf.files.comesBack (h.id n) (h.peers n) (h.removed n) hf.forward io
  rw [restart_raft, if_pos rfl]
  exact ⟨⟨h1, h2, h3⟩, h4, h5⟩

/-- The leaders that a run has had: `lead T` is the one of term `T`. -/
structure Reigns (M : Members) (lead : Int → Option NodeID) (h : List (Cluster × RestartAction)) (s : Cluster) : Prop where
  saved : MembersSaved M s
  elect : ElectionInv M s
  inv : LeadInv M lead s
  past : ∀ x ∈ h, ∀ n, (x.1.raft n).state = .leader → lead (x.1.raft n).term = some n

theorem Reigns.restartStep {lead : Int → Option NodeID} {h : List (Cluster × RestartAction)} {l : RestartAction}
    (hi : Reigns M lead h s) (hok : s.fairRestarts M l = true) (hs : s.restartStep l = some s') :
    ∃ lead', Reigns M lead' ((s, l) :: h) s' := by
  obtain ⟨hsaved, ⟨a, _, hfair, hs⟩ | ⟨n, d, io, _, hf, rfl⟩⟩ := hi.saved.restartStep hok hs
  · have helect := hi.elect.step hfair hs
    have hpast : ∀ x ∈ (s, l) :: h, ∀ n, (x.1.raft n).state = .leader → lead (x.1.raft n).term = some n := by
      intro x hx n hn
      rcases List.mem_cons.1 hx with rfl | hx
      · exact hi.inv.leader n hn
      · exact hi.past x hx n hn
    rcases hi.inv.step hi.elect helect hs with hlead | ⟨n, hn, hnone, hlead⟩
    · exact ⟨lead, hsaved, helect, hlead, hpast⟩
    · refine ⟨_, hsaved, helect, hlead, fun x hx m hm => ?_⟩
      have hled := hpast x hx m hm
      rw [Function.update_of_ne]
      · exact hled
      · intro heq
        rw [heq, hnone] at hled
        cases hled
  · have hc := hf.comesBack hi.elect.fixed io
    refine ⟨lead, hsaved, hi.elect.restart hf.member hf.files hc, hi.inv.restart hc, fun x hx n hn => ?_⟩
    rcases List.mem_cons.1 hx with rfl | hx
    · exact hi.inv.leader n hn
    · exact hi.past x hx n hn

theorem Reigns.start (M : Members) (snapshotter restorer : Bool) :
    Reigns M (fun _ => none) [] (Cluster.start M.ids M.peersOf snapshotter restorer) := by
  refine ⟨⟨.start (fun _ hc => hc) .., fun n => ⟨rfl, .inr rfl, .inl rfl⟩⟩, .start M snapshotter restorer,
    .start M snapshotter restorer, ?_⟩
  intro x hx
  cases hx

/-- One leader for each term, over a whole run: in every run of a cluster with fixed membership whose processes die, at
any point of any step, and come back, in which terms fit the messages, a candidate counts a vote only in the term it
asked for it, and who comes back finds a meta file that is not behind it (`fairRestarts`), nodes that lead the same term,
in whatever states of the run, are one node. -/
theorem one_leader_per_term (M : Members) {h : List (Cluster × RestartAction)} {x y s : Cluster} {n m : NodeID}
    (hr : M.restarts.Run (fun s l => s.fairRestarts M l = true) h s) (hx : x ∈ s :: h.map Prod.fst)
    (hy : y ∈ s :: h.map Prod.fst) (hn : (x.raft n).state = .leader) (hm : (y.raft m).state = .leader)
    (ht : (x.raft n).term = (y.raft m).term) : n = m := by
  obtain ⟨lead, hi⟩ : ∃ lead, Reigns M lead h s := by
    refine Machine.Run.history (I := fun h s => ∃ lead, Reigns M lead h s) ?_ ?_ hr
    · rintro s ⟨snapshotter, restorer, rfl⟩
      exact ⟨_, .start M snapshotter restorer⟩
    · rintro h s l s' _ ⟨lead, hi⟩ hok hs
      exact hi.restartStep hok hs
  have hlead : ∀ {z : Cluster} {k : NodeID}, z ∈ s :: h.map Prod.fst → (z.raft k).state = .leader →
      lead (z.raft k).term = some k := by
    intro z k hz hk
    rcases List.mem_cons.1 hz with rfl | hz
    · exact hi.inv.leader k hk
    · obtain ⟨w, hw, rfl⟩ := List.mem_map.1 hz
      exact hi.past w hw k hk
  have hnm := hlead hx hn
  rw [ht, hlead hy hm] at hnm
  exact (Option.some.inj hnm).symm

/-- A leads term 1, dies and comes back in term 1. Then B stands in term 2 and gets the vote of A, which dies when the
vote is saved, before B hears of it, and comes back. -/
def leaderComesBack : List RestartAction :=
  (electA.map fun a => .life (.step a)) ++
    [.life (.crash "A" (.tick 1) .beforeSnapshot false ["B", "C"] {}),
      .life (.step (.tick 2000)), .life (.step (.electionTimeout "B" 1500 {})), .life (.step (.run 0 .go {})),
      .life (.step (.run 0 .go {})), .life (.crash "A" (.deliver 1 {}) .afterLog true ["B", "C"] {})]

theorem one_leader_per_term_leaderComesBack :
    ∃ h s, threeNodes.restarts.Run (fun s l => s.fairRestarts threeNodes l = true) h s ∧
      (∃ x ∈ s :: h.map Prod.fst, (x.raft "A").state = .leader ∧ (x.raft "A").term = 1) ∧
      (s.raft "A").votedFor = "B" ∧
      ∀ y ∈ s :: h.map Prod.fst, ∀ m, (y.raft m).state = .leader → (y.raft m).term = 1 → m = "A" := by
  obtain ⟨h, s, hr, ⟨x, hx, hl, ht⟩, hv⟩ := Machine.exists_run (S := threeNodes.restarts)
    (fun s l => Cluster.fairRestarts threeNodes s l = true)
    (fun (h : List (Cluster × RestartAction)) s =>
      (∃ x ∈ s :: h.map Prod.fst, (x.raft "A").state = .leader ∧ (x.raft "A").term = 1) ∧ (s.raft "A").votedFor = "B")
    (threeNodes.machine_init false false) leaderComesBack (by decide +kernel)
  exact ⟨h, s, hr, ⟨x, hx, hl, ht⟩, hv, fun y hy m hm htm =>
    one_leader_per_term threeNodes hr hy hx hm hl (htm.trans ht.symm)⟩

end Cluster

end Mimori
