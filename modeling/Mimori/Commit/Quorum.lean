/-
Commit quorum soundness. When a leader moves its commit index to an entry, a majority of the members has
held this entry in the leader's term: the leader itself, and every peer it counted, which accepted a request
of that term up to it. With an answer of an earlier time in office the leader commits an entry no other
member has.
-/
import Mimori.Commit.Acks

namespace Mimori

open Raft TermLog

namespace Cluster

variable {M : Members} {s s' : Cluster} {a : Action} {n p : NodeID} {T m : Int} {L L' : Ledger}
  {full full' : NodeID → List LogEntry} {h : List (Cluster × Action)}

/-! ## What members have held -/

/-- The states of a run, the last one first. -/
def visited (h : List (Cluster × Action)) (s : Cluster) : List Cluster := s :: h.map Prod.fst

/-- In one of the states `p` was in term `T` and held the log of this term's leader up to index `m`. -/
def Held (L : Ledger) (states : List Cluster) (p : NodeID) (T m : Int) : Prop :=
  ∃ x ∈ states, (x.raft p).term = T ∧
    ∀ k : Nat, (k : Int) < m → ∃ e, (L.log T)[k]? = some e ∧ (x.raft p).entryAt (k + 1) = some e

theorem Held.mono {states states' : List Cluster} (hh : Held L states p T m) (hL : Ledger.Extends L L')
    (hsub : ∀ x ∈ states, x ∈ states') : Held L' states' p T m := by
  obtain ⟨x, hx, ht, hent⟩ := hh
  refine ⟨x, hsub x hx, ht, fun k hk => ?_⟩
  obtain ⟨e, he, hxe⟩ := hent k hk
  obtain ⟨rest, hrest⟩ := hL.log T
  refine ⟨e, ?_, hxe⟩
  rw [← hrest, List.getElem?_append_left (List.getElem?_eq_some_iff.1 he).1]; exact he

/-- Who acknowledged entries has held them. -/
structure QuorumInv (M : Members) (L : Ledger) (full : NodeID → List LogEntry) (h : List (Cluster × Action))
    (s : Cluster) : Prop where
  inv : CountInv M L full s
  plain : Plain s
  held : ∀ n p T m, s.Acked n p T m → Held L (visited h s) p T m

/-- A node that accepts a request holds what it acknowledges. -/
theorem LogInv.held (hl : LogInv M L full s) (hp : Plain s) (hL : Ledger.Extends L L') (hl' : LogInv M L' full' s')
    (hp' : Plain s') (hs : s.step a = some s') {src : NodeID} {req : AppendEntriesRequest}
    (ha : s.accepts a = some (src, p, req)) (hm : m ≤ req.prevLogIndex + req.entries.length) :
    Held L' (visited ((s, a) :: h) s') p req.term m := by
  obtain ⟨_, _, _, hreq, _⟩ := step_accepts hs ha
  have hover := hl.accepted hL hl' hs ha (by rw [hp.base hl.stable.index p]; rfl)
  have hseg := hl.carried.append _ (List.mem_of_getElem? hreq) req rfl
  refine ⟨s', List.mem_cons_self, step_accepts_term hs ha, fun k hk => ?_⟩
  have hlen := hseg.entries_length
  have hnn := hseg.nonneg
  have hlt : k < req.prevLogIndex.toNat + req.entries.length := by omega
  obtain ⟨e, hke⟩ : ∃ e, (L.log req.term)[k]? = some e := ⟨_, List.getElem?_eq_getElem (by omega)⟩
  refine ⟨e, ?_, ?_⟩
  · obtain ⟨rest, hrest⟩ := hL.log req.term
    rw [← hrest, List.getElem?_append_left (by omega)]; exact hke
  · have hk' := congrArg (fun l => l[k]?) hover.take
    simp only [List.getElem?_take, if_pos hlt] at hk'
    rw [hp'.entryAt hl', hk', hke]

theorem QuorumInv.step (hq : QuorumInv M L full h s) (hok : s.countsKept a = true) (hs : s.step a = some s') :
    ∃ L' full', Stepped M s a s' L full L' full' ∧ QuorumInv M L' full' ((s, a) :: h) s' := by
  obtain ⟨L', full', hst⟩ := hq.inv.step (hq.plain.acksKept hok) hs
  have hL := hst.extends
  have hp' : Plain s' := by
    simp only [countsKept, plainLogs, Bool.and_eq_true] at hok
    exact hq.plain.step hq.inv.logs.stable.index hok.1.2 hs
  refine ⟨L', full', hst, hst.after, hp', fun n p T m hack => ?_⟩
  rcases acked_of_step hq.inv.logs.stable.elect.votes.replied hs hack with hack | ⟨req, ha, rfl, hm⟩
  · exact (hq.held n p T m hack).mono hL fun x hx => List.mem_cons_of_mem _ hx
  · exact hq.inv.logs.held hq.plain hL hst.after.logs hp' hs ha hm

theorem QuorumInv.run {h : List (Cluster × Action)} (hr : M.machine.Run (fun s a => s.countsKept a = true) h s) :
    ∃ L full, QuorumInv M L full h s := by
  refine Machine.Run.history (I := fun h s => ∃ L full, QuorumInv M L full h s) ?_ ?_ hr
  · rintro s ⟨snapshotter, restorer, rfl⟩
    refine ⟨_, _, .start M snapshotter restorer, .start M snapshotter restorer, ?_⟩
    rintro n p T m ⟨call, req, resp, hp, _⟩
    cases hp
  · rintro h s a s' _ ⟨L, full, hq⟩ hok hs
    obtain ⟨L', full', _, hq'⟩ := hq.step hok hs
    exact ⟨L', full', hq'⟩

/-! ## Commits -/

/-- Commit quorum soundness: in every run of a cluster with fixed membership and without snapshots that keeps
the conditions `countsKept`, when the commit index of a leader moves, the leader and the peers it counts are a
majority of the members, each of them was in the leader's term and held the leader's entry at this index in
some state of the run, and each peer counted has accepted a request that the leader sent in this term and
that reaches up to it. -/
theorem commit_counts_majority (M : Members) {h : List (Cluster × Action)} {s s' : Cluster} {a : Action}
    (hr : M.machine.Run (fun s a => s.countsKept a = true) ((s, a) :: h) s') {n : NodeID}
    (hl : (s'.raft n).state = .leader) (hlt : (s.raft n).commitIndex < (s'.raft n).commitIndex) :
    ∃ e, (s'.raft n).entryAt (s'.raft n).commitIndex = some e ∧ e.term = (s'.raft n).term ∧
      IsMajority M.ids.toFinset (insert n ((s'.raft n).counted (s'.raft n).commitIndex).toFinset) ∧
      (∀ p ∈ (s'.raft n).counted (s'.raft n).commitIndex, s'.Acked n p (s'.raft n).term (s'.raft n).commitIndex) ∧
      ∀ p ∈ insert n ((s'.raft n).counted (s'.raft n).commitIndex).toFinset, ∃ x ∈ visited ((s, a) :: h) s',
        (x.raft p).term = (s'.raft n).term ∧ (x.raft p).entryAt (s'.raft n).commitIndex = some e := by
  cases hr with
  | next hr hok hs =>
  obtain ⟨L₀, full₀, hq₀⟩ := QuorumInv.run hr
  obtain ⟨L, full, hst, hq⟩ := hq₀.step hok hs
  obtain ⟨⟨e, he, ht⟩, hmaj, hack⟩ := hst.committed hl hlt
  have hlead := hq.inv.logs.lead.leader n hl
  have hpeers := hq.inv.logs.stable.elect.fixed.peers n
  have hpos : 0 < (s'.raft n).commitIndex := lt_of_le_of_lt (hq₀.inv.counts.commit n) hlt
  replace hack := hack (by rw [hq₀.plain.base hq₀.inv.logs.stable.index n]; exact hpos)
  obtain ⟨k, hk⟩ : ∃ k : Nat, (s'.raft n).commitIndex = k + 1 := ⟨((s'.raft n).commitIndex - 1).toNat, by omega⟩
  refine ⟨e, he, ht, counted_majority hpeers (hq.inv.logs.lead.won _ n hlead).1 hmaj, hack, fun p hp => ?_⟩
  rcases Finset.mem_insert.1 hp with rfl | hp
  · exact ⟨s', List.mem_cons_self, rfl, he⟩
  · obtain ⟨x, hx, hxt, hent⟩ := hq.held n p _ _ (hack p (List.mem_toFinset.1 hp))
    refine ⟨x, hx, hxt, ?_⟩
    obtain ⟨e', he', hxe⟩ := hent k (by omega)
    rw [hk] at he ⊢
    rw [hq.plain.entryAt hq.inv.logs, ← hq.inv.logs.nodes.current n hl, he'] at he
    cases he
    exact hxe

theorem commit_counts_majority_firstAck :
    ∃ h s a s', threeNodes.machine.Run (fun s a => s.countsKept a = true) ((s, a) :: h) s' ∧
      (s'.raft "A").state = .leader ∧ (s.raft "A").commitIndex < (s'.raft "A").commitIndex ∧
      IsMajority threeNodes.ids.toFinset
        (insert "A" ((s'.raft "A").counted (s'.raft "A").commitIndex).toFinset) := by
  obtain ⟨h, s', hr, hl, hlt⟩ := Machine.exists_run (fun s a => Cluster.countsKept s a = true)
    (fun h s => (s.raft "A").state = .leader ∧
      (h.head?.any fun x => decide ((x.1.raft "A").commitIndex < (s.raft "A").commitIndex)) = true)
    (threeNodes.machine_init false false) (firstAppend ++ [.deliver 1 {}, .run 3 (.reply 1) {}]) (by decide +kernel)
  cases h with
  | nil => cases hlt
  | cons x h =>
    obtain ⟨s, a⟩ := x
    have hlt := of_decide_eq_true hlt
    obtain ⟨_, _, _, hmaj, _⟩ := commit_counts_majority threeNodes hr hl hlt
    exact ⟨h, s, a, s', hr, hl, hlt, hmaj⟩

/-- A leads term 1 and appends two entries, C leads term 2 and appends one; nobody else has any of them. A
leads term 3 and B accepts its two entries. C leads term 4 and A drops its entries for the one of C. A leads
term 5, appends an entry and gets the answer of B from term 3. -/
def lateAck : List Action :=
  electA ++ ([.propose "A" (.put [1] [1]) {}, .propose "A" (.put [2] [2]) {}, .electionTimeout "C" 1500 {},
    .tick 2000, .electionTimeout "C" 1500 {}, .run 3 .go {}, .run 4 .go {}, .deliver 1 {}, .run 4 (.reply 1) {},
    .propose "C" (.put [3] [3]) {}, .run 3 .go {}, .deliver 2 {}, .tick 2000, .electionTimeout "A" 1500 {},
    .run 5 .go {}, .run 5 .go {}, .deliver 3 {}, .run 6 (.reply 3) {}, .run 1 .go {}, .run 6 .go {}, .run 6 .go {},
    .run 7 .go {}, .deliver 4 {}, .run 7 (.reply 4) {}, .run 6 .go {}, .run 6 .go {}, .run 5 .go {}, .run 7 .go {},
    .run 7 .go {}, .run 8 .go {}, .run 8 .go {}, .deliver 5 {}, .run 9 (.reply 5) {}, .run 7 .go {}, .run 8 .go {},
    .run 6 .go {}, .run 9 .go {}, .run 9 .go {}, .run 10 .go {}, .run 10 .go {}, .deliver 6 {}, .run 4 .go {},
    .deliver 7 {}, .tick 2000, .electionTimeout "C" 1500 {}, .run 12 .go {}, .run 13 .go {}, .deliver 8 {},
    .run 13 (.reply 8) {}, .run 12 .go {}, .deliver 9 {}, .run 2 .go {}, .run 13 .go {}, .run 13 .go {}, .run 14 .go {},
    .deliver 10 {}, .run 14 (.reply 10) {}, .run 13 .go {}, .run 13 .go {}, .run 11 .go {}, .run 14 .go {},
    .run 14 .go {}, .run 15 .go {}, .run 15 .go {}, .deliver 11 {}, .run 16 (.reply 11) {}, .run 14 .go {},
    .run 15 .go {}, .tick 2000, .electionTimeout "A" 1500 {}, .run 17 .go {}, .run 18 .go {}, .deliver 12 {},
    .run 18 (.reply 12) {}, .propose "A" (.put [4] [4]) {}, .run 9 (.reply 6) {}] : List Action)

/-- Then A commits an entry that neither B nor C has ever held. -/
theorem lateAck_commits_alone :
    ∃ h s a s', threeNodes.machine.Run (fun s a => s.plainLogs a = true) ((s, a) :: h) s' ∧
      (s'.raft "A").state = .leader ∧ (s.raft "A").commitIndex < 2 ∧ (s'.raft "A").commitIndex = 2 ∧
      (s'.raft "A").entryAt 2 = some ⟨2, 5, .put [4] [4]⟩ ∧
      ∀ x ∈ visited ((s, a) :: h) s', ∀ p ∈ ["B", "C"], (x.raft p).entryAt 2 ≠ some ⟨2, 5, .put [4] [4]⟩ := by
  obtain ⟨h, s', hr, hl, hlt, hc, he, hnot⟩ := Machine.exists_run (fun s a => Cluster.plainLogs s a = true)
    (fun h s => (s.raft "A").state = .leader ∧
      (h.head?.any fun x => decide ((x.1.raft "A").commitIndex < 2)) = true ∧ (s.raft "A").commitIndex = 2 ∧
      (s.raft "A").entryAt 2 = some ⟨2, 5, .put [4] [4]⟩ ∧
      ∀ x ∈ visited h s, ∀ p ∈ ["B", "C"], (x.raft p).entryAt 2 ≠ some ⟨2, 5, .put [4] [4]⟩)
    (threeNodes.machine_init false false) lateAck (by decide +kernel)
  cases h with
  | nil => cases hlt
  | cons x h => exact ⟨h, x.1, x.2, s', hr, hl, of_decide_eq_true hlt, hc, he, hnot⟩

end Cluster

end Mimori
