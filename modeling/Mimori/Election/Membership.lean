/-
Election safety while the membership changes. Every node counts majorities over its own peers, which
change when it applies a configuration entry, and nothing bounds how many changes are on their way.
Two leaders of one term are one node as long as the voter sets of the campaigns of a term overlap;
two removals proposed one after the other take that away.
-/
import Mimori.Election.Safety

namespace Mimori

open Raft

namespace Cluster

/-- Two nodes that campaign in one term count their votes over voter sets that overlap: each a node
and its peers at the start of the campaign. -/
def CampaignsOverlap (h : List (Cluster × Action)) : Prop :=
  ∀ n m T P P', n ≠ m → campaignsOf h n T P → campaignsOf h m T P' →
    Overlap (insert n P.toFinset) (insert m P'.toFinset)

/-- Every answer to a request for a vote is handled while the node that asked is in the term it asked
for. -/
def promptVote (s : Cluster) (a : Action) : Bool :=
  match s.voteAnswered a with
  | some (n, term, _) => (s.raft n).term == term
  | none => true

/-- Election safety under membership change: in every run from any peer lists in which votes are counted
in the term they were asked in, a candidate applies no configuration entry, a removed node grants no
vote, and the campaigns of one term are counted over overlapping voter sets, two leaders of one term
are one node. -/
theorem election_safety_membership {h : List (Cluster × Action)} {s : Cluster}
    (hr : machine.Run (fun s a => s.fairVotes a = true) h s) (ho : CampaignsOverlap h) {n m : NodeID}
    (hn : (s.raft n).state = .leader) (hm : (s.raft m).state = .leader)
    (ht : (s.raft n).term = (s.raft m).term) : n = m :=
  (voteInv_of_run hr).leader_unique hn hm ht fun hne P P' hP hP' => ho n m _ P P' hne hP hP'

/-- A proposes the removal of C, which B acknowledges, and applies it. -/
def removeC : List Action :=
  electA ++ [.configChange "A" .removeNode "C" {}, .run 2 .go {}, .run 2 .go {}, .run 3 .go {}, .run 3 .go {},
    .deliver 1 {}, .run 4 (.reply 1) {}, .applierTake "A" {}]

/-- The only campaign of `removeC` is the one of A. -/
theorem removeC_overlap {h : List (Cluster × Action)}
    (hc : (h.map fun x => x.1.campaign x.2).filterMap id = [("A", 1, ["B", "C"])]) : CampaignsOverlap h := by
  have hmem : ∀ n T P, campaignsOf h n T P → n = "A" := by
    rintro n T P ⟨x, hx, he⟩
    have hin : (n, T, P) ∈ (h.map fun x => x.1.campaign x.2).filterMap id :=
      List.mem_filterMap.2 ⟨_, List.mem_map.2 ⟨x, hx, rfl⟩, he⟩
    rw [hc, List.mem_singleton] at hin
    exact (Prod.mk.inj hin).1
  intro n m T P P' hne hn hm
  exact absurd ((hmem n T P hn).trans (hmem m T P' hm).symm) hne

theorem election_safety_membership_removeC :
    ∃ h s, machine.Run (fun s a => s.fairVotes a = true) h s ∧ CampaignsOverlap h ∧
      (s.raft "A").state = .leader ∧ (s.raft "A").peers = ["B"] ∧
      ∀ m, (s.raft m).state = .leader → (s.raft "A").term = (s.raft m).term → "A" = m := by
  obtain ⟨h, s, hr, hc, hl, hp⟩ := Machine.exists_run (fun s a => s.fairVotes a = true)
    (fun h s => (h.map fun x => x.1.campaign x.2).filterMap id = [("A", 1, ["B", "C"])] ∧
      (s.raft "A").state = .leader ∧ (s.raft "A").peers = ["B"])
    (machine_init threeNodes false false) removeC (by decide +kernel)
  have ho := removeC_overlap hc
  exact ⟨h, s, hr, ho, hl, hp, fun m hm ht => election_safety_membership hr ho hl hm ht⟩

/-- A proposes to remove B and C before either change is applied; C acknowledges both, A applies them
and is alone. B and C still know of three members: A elects itself in term 3, B and C elect C. -/
def twoRemovals : List Action :=
  electA ++ [.configChange "A" .removeNode "B" {}, .configChange "A" .removeNode "C" {}, .run 2 .go {}, .run 3 .go {},
    .run 3 .go {}, .run 5 .go {}, .run 5 .go {}, .deliver 1 {}, .run 6 (.reply 1) {}, .applierTake "A" {},
    .applierSend "A", .applierDone "A" {}, .run 3 .go {}, .run 5 .go {}, .tick 2000, .electionTimeout "C" 1500 {},
    .run 7 .go {}, .run 8 .go {}, .deliver 3 {}, .deliver 2 {}, .run 6 (.reply 3) {}, .tick 2000,
    .electionTimeout "A" 1500 {}, .electionTimeout "C" 1500 {}, .run 9 .go {}, .run 10 .go {}, .deliver 4 {},
    .run 10 (.reply 4) {}]

theorem twoRemovals_two_leaders :
    ∃ h s, threeNodes.machine.Run (fun s a => (s.promptVote a && s.termsFit) = true) h s ∧
      (s.raft "A").state = .leader ∧ (s.raft "C").state = .leader ∧ (s.raft "A").term = (s.raft "C").term :=
  Machine.exists_run (fun s a => (s.promptVote a && s.termsFit) = true)
    (fun _ s => (s.raft "A").state = .leader ∧ (s.raft "C").state = .leader ∧
      (s.raft "A").term = (s.raft "C").term)
    (threeNodes.machine_init false false) twoRemovals (by decide +kernel)

end Cluster

end Mimori
