/-
Committed entries are for ever. What a node has committed, in whatever state of a run, is at its place in the log of
every later leader of its term or a newer one, and in the log of every node that has committed this place, unless it
has been compacted there. Neither snapshots nor restarts change this: a node that has installed a snapshot has
committed what it stands for, and a node that comes back has its log.
-/
import Mimori.Commit.Restarts

namespace Mimori

open Raft TermLog

namespace Cluster

variable {M : Members} {s s' : Cluster} {a : Action} {n m : NodeID} {L : Ledger} {T : Int}
  {full : NodeID → List LogEntry} {e : LogEntry}

/-- Entry `e` is committed in a term up to `T`. -/
def CommittedBy (M : Members) (L : Ledger) (s : Cluster) (T : Int) (e : LogEntry) : Prop :=
  ∃ (p : List LogEntry) (k : Nat), e.index = k + 1 ∧ p[k]? = some e ∧ Committed M L s T (k + 1) p

/-- What a node has in its log and has committed is committed in a term up to its own. -/
theorem CommitInv.committedBy (h : CommitInv M L full s) (hb : (s.raft n).logBaseIndex < e.index)
    (hc : e.index ≤ (s.raft n).commitIndex) (he : (s.raft n).entryAt e.index = some e) :
    CommittedBy M L s (s.raft n).term e := by
  have hin := h.inv.inv.logs.stable.index.node n
  have hb0 := hin.base
  rw [(h.inv.inv.logs.nodes.whole n).entryAt hin hb] at he
  exact ⟨full n, e.index.toNat - 1, by omega, he, (h.commit n).le (by omega)⟩

/-- A leader of this term or a later one has the entry. -/
theorem CommitInv.leader_has (h : CommitInv M L full s) (he : CommittedBy M L s T e)
    (hl : (s.raft m).state = .leader) (hT : T ≤ (s.raft m).term) :
    e.index ≤ (s.raft m).lastLogIndex ∧
      ((s.raft m).logBaseIndex < e.index → (s.raft m).entryAt e.index = some e) := by
  obtain ⟨p, k, hk, hp, hc⟩ := he
  have hlogs := h.inv.inv.logs
  have hin := hlogs.stable.index.node m
  have htake : (full m).take (k + 1) = p.take (k + 1) := by
    rw [← hlogs.nodes.current m hl]
    exact h.inv.complete.settled hc.chosen hT ⟨m, hlogs.lead.leader m hl⟩
  have hlen := le_length_of_take_eq htake hc.le_length
  rw [(hlogs.nodes.whole m).lastLogIndex hin]
  refine ⟨by omega, fun hb => ?_⟩
  have hget := congrArg (fun l => l[k]?) htake
  simp only [List.getElem?_take, if_pos (Nat.lt_succ_self k), hp] at hget
  rw [(hlogs.nodes.whole m).entryAt hin hb, show e.index.toNat - 1 = k by omega]
  exact hget

/-- A node that has committed the place of the entry has the entry there. -/
theorem CommitInv.committer_has (h : CommitInv M L full s) (he : CommittedBy M L s T e)
    (hb : (s.raft m).logBaseIndex < e.index) (hc : e.index ≤ (s.raft m).commitIndex) :
    (s.raft m).entryAt e.index = some e := by
  obtain ⟨p, k, hk, hp, hcom⟩ := he
  have hlogs := h.inv.inv.logs
  have hin := hlogs.stable.index.node m
  have hlen := (h.commit m).le_length
  rw [(hlogs.nodes.whole m).entryAt hin hb, show e.index.toNat - 1 = k by omega]
  have hagree := h.inv.complete.agree (fun T => L.led_of_ne_nil) (h.commit m).chosen hcom.chosen
    (show k + 1 ≤ (s.raft m).commitIndex.toNat by omega) (le_refl _)
  have hget := congrArg (fun l => l[k]?) hagree
  simp only [List.getElem?_take, if_pos (Nat.lt_succ_self k), hp] at hget
  exact hget

/-- What a node has committed in a state of a run is committed at its end. -/
theorem CommitInv.run_since {h : List (Cluster × RestartAction)} {x : Cluster}
    (hr : M.restarts.Run (fun s l => s.recoversKept M l = true) h s) (hx : x ∈ s :: h.map Prod.fst)
    (hb : (x.raft n).logBaseIndex < e.index) (hc : e.index ≤ (x.raft n).commitIndex)
    (he : (x.raft n).entryAt e.index = some e) :
    ∃ L full, CommitInv M L full s ∧ CommittedBy M L s (x.raft n).term e := by
  obtain ⟨_, L, full, hi, hpast⟩ : MembersSaved M s ∧ ∃ L full, CommitInv M L full s ∧
      ∀ y ∈ h, ∀ n (e : LogEntry), (y.1.raft n).logBaseIndex < e.index → e.index ≤ (y.1.raft n).commitIndex →
        (y.1.raft n).entryAt e.index = some e → CommittedBy M L s (y.1.raft n).term e := by
    refine Machine.Run.history (I := fun h s => MembersSaved M s ∧ ∃ L full, CommitInv M L full s ∧
      ∀ y ∈ h, ∀ n (e : LogEntry), (y.1.raft n).logBaseIndex < e.index → e.index ≤ (y.1.raft n).commitIndex →
        (y.1.raft n).entryAt e.index = some e → CommittedBy M L s (y.1.raft n).term e) ?_ ?_ hr
    · rintro s ⟨snapshotter, restorer, rfl⟩
      refine ⟨(Reigns.start M snapshotter restorer).saved, _, _, .start M snapshotter restorer, fun y hy => ?_⟩
      cases hy
    · rintro h s l s' _ ⟨hsaved, L, full, hi, hpast⟩ hok hs
      obtain ⟨hsaved', L', full', hi', hkeep⟩ := hi.restartStep hsaved hok hs
      refine ⟨hsaved', L', full', hi', fun y hy n e hb hc he => ?_⟩
      obtain ⟨p, k, hk, hp, hcom⟩ : CommittedBy M L s (y.1.raft n).term e := by
        rcases List.mem_cons.1 hy with rfl | hy
        · exact hi.committedBy hb hc he
        · exact hpast y hy n e hb hc he
      exact ⟨p, k, hk, hp, hkeep _ _ _ hcom⟩
  rcases List.mem_cons.1 hx with rfl | hx
  · exact ⟨L, full, hi, hi.committedBy hb hc he⟩
  · obtain ⟨y, hy, rfl⟩ := List.mem_map.1 hx
    exact ⟨L, full, hi, hpast y hy n e hb hc he⟩

/-- Leader completeness: in every run of a cluster with fixed membership that keeps the conditions `recoversKept`, those of
the steps (`choicesKept`) and those of the restarts, with any compaction and snapshots, and with processes that die and
come back on their files, an entry that a node has in its log and has committed in a state `x` is in the log of every
leader of a later state `s` that is in the node's term or a newer one: this log reaches up to the entry, and has it in
place unless it has compacted it. -/
theorem leader_completeness (M : Members) {h : List (Cluster × RestartAction)} {x s : Cluster} {n m : NodeID}
    {e : LogEntry} (hr : M.restarts.Run (fun s l => s.recoversKept M l = true) h s) (hx : x ∈ s :: h.map Prod.fst)
    (hb : (x.raft n).logBaseIndex < e.index) (hc : e.index ≤ (x.raft n).commitIndex)
    (he : (x.raft n).entryAt e.index = some e) (hl : (s.raft m).state = .leader)
    (ht : (x.raft n).term ≤ (s.raft m).term) :
    e.index ≤ (s.raft m).lastLogIndex ∧
      ((s.raft m).logBaseIndex < e.index → (s.raft m).entryAt e.index = some e) := by
  obtain ⟨L, full, hi, hcom⟩ := CommitInv.run_since hr hx hb hc he
  exact hi.leader_has hcom hl ht

/-- A has committed its first entry, which B has, and dies. B is elected with the vote of C, which has never seen the
entry, and A comes back. -/
def takeover : List RestartAction :=
  (firstApplied.map fun a => .life (.step a)) ++
    [.life (.step (.tick 2000)), .life (.step (.electionTimeout "B" 1500 {})), .life (.step (.run 3 .go {})),
      .life (.step (.run 4 .go {})), .life (.step (.deliver 2 {})), .life (.step (.run 4 (.reply 2) {})),
      .life (.crash "A" (.tick 1) .beforeSnapshot false ["B", "C"] {})]

theorem leader_completeness_takeover :
    ∃ h s, threeNodes.restarts.Run (fun s l => s.recoversKept threeNodes l = true) h s ∧
      (s.raft "B").state = .leader ∧ (s.raft "B").term = 2 ∧ (s.raft "A").commitIndex = 0 ∧
      (s.raft "B").entryAt 1 = some ⟨1, 1, .put [1] [2]⟩ := by
  obtain ⟨h, s, hr, hx, hl, ht, hA, hb⟩ := Machine.exists_run (S := threeNodes.restarts)
    (fun s l => Cluster.recoversKept threeNodes s l = true)
    (fun (h : List (Cluster × RestartAction)) s =>
      (∃ x ∈ s :: h.map Prod.fst, (x.raft "A").logBaseIndex < 1 ∧ 1 ≤ (x.raft "A").commitIndex ∧
        (x.raft "A").term ≤ 2 ∧ (x.raft "A").entryAt 1 = some ⟨1, 1, .put [1] [2]⟩) ∧
      (s.raft "B").state = .leader ∧ (s.raft "B").term = 2 ∧ (s.raft "A").commitIndex = 0 ∧
      (s.raft "B").logBaseIndex < 1)
    (threeNodes.machine_init false false) takeover (by decide +kernel)
  obtain ⟨x, hx, hbx, hcx, htx, hex⟩ := hx
  obtain ⟨_, hhas⟩ := leader_completeness threeNodes (e := ⟨1, 1, .put [1] [2]⟩) hr hx hbx hcx hex hl (ht.symm ▸ htx)
  exact ⟨h, s, hr, hl, ht, hA, hhas hb⟩

/-- State machine safety, with snapshots and restarts: what a node has in its log and has committed in a state `x` is
what every node has at that place in every later state in which it has committed the place and has not compacted it. -/
theorem committed_for_ever (M : Members) {h : List (Cluster × RestartAction)} {x s : Cluster} {n m : NodeID}
    {e : LogEntry} (hr : M.restarts.Run (fun s l => s.recoversKept M l = true) h s) (hx : x ∈ s :: h.map Prod.fst)
    (hb : (x.raft n).logBaseIndex < e.index) (hc : e.index ≤ (x.raft n).commitIndex)
    (he : (x.raft n).entryAt e.index = some e) (hb' : (s.raft m).logBaseIndex < e.index)
    (hc' : e.index ≤ (s.raft m).commitIndex) : (s.raft m).entryAt e.index = some e := by
  obtain ⟨L, full, hi, hcom⟩ := CommitInv.run_since hr hx hb hc he
  exact hi.committer_has hcom hb' hc'

/-- Then B appends an entry, C refuses it as its log has a gap and gets both entries in the next round, and B commits
them. -/
def takeoverCommit : List RestartAction :=
  takeover ++ (([.propose "B" (.put [1] [3]) {}, .run 1 .go {}, .run 1 .go {}, .run 1 .go {}, .run 1 .go {},
    .run 3 .go {}, .run 3 .go {}, .deliver 3 {}, .run 4 (.reply 3) {}, .run 2 .go {}, .run 3 .go {}, .run 3 .go {},
    .run 3 .go {}, .run 3 .go {}, .run 5 .go {}, .run 5 .go {}, .deliver 4 {}, .run 6 (.reply 4) {}] : List Action).map
      fun a => .life (.step a))

theorem committed_for_ever_takeoverCommit :
    ∃ h s, threeNodes.restarts.Run (fun s l => s.recoversKept threeNodes l = true) h s ∧
      (s.raft "B").commitIndex = 2 ∧ (s.raft "B").entryAt 1 = some ⟨1, 1, .put [1] [2]⟩ := by
  obtain ⟨h, s, hr, hx, hb, hc⟩ := Machine.exists_run (S := threeNodes.restarts)
    (fun s l => Cluster.recoversKept threeNodes s l = true)
    (fun (h : List (Cluster × RestartAction)) s =>
      (∃ x ∈ s :: h.map Prod.fst, (x.raft "A").logBaseIndex < 1 ∧ 1 ≤ (x.raft "A").commitIndex ∧
        (x.raft "A").entryAt 1 = some ⟨1, 1, .put [1] [2]⟩) ∧
      (s.raft "B").logBaseIndex < 1 ∧ (s.raft "B").commitIndex = 2)
    (threeNodes.machine_init false false) takeoverCommit (by decide +kernel)
  obtain ⟨x, hx, hbx, hcx, hex⟩ := hx
  have hhas := committed_for_ever threeNodes (e := ⟨1, 1, .put [1] [2]⟩) hr hx hbx hcx hex hb (by rw [hc]; decide)
  exact ⟨h, s, hr, hc, hhas⟩

end Cluster

end Mimori
