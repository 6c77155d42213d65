/-
Read leases. A follower serves reads while its lease runs, four seconds from `electionReset`. The lease is
meant to say that the follower has heard the leader it names within that time, and it does as long as
nothing but AppendEntries restarts the timer of a node that knows a leader or moves it to a newer term
while its lease runs.
-/
import Mimori.Election.Hint

namespace Mimori

open Raft

namespace Cluster

/-! ## Conditions -/

/-- The node has been removed, knows no leader, or has not restarted its timer for four seconds: it has no
lease as a follower. -/
def leaseless (s : Cluster) (n : NodeID) : Bool :=
  (s.raft n).removedFromCluster || (s.raft n).leader == "" || decide (4000 ≤ s.clock - (s.raft n).electionReset)

/-- A newer term that a request for a vote, a snapshot or an answer brings reaches nodes without a lease. -/
def termsReachLeaseless (s : Cluster) (a : Action) : Bool :=
  (s.termBrought a).all fun x => decide (x.2 ≤ (s.raft x.1).term) || s.leaseless x.1

/-- The node that grants a vote in this step, and the request. -/
def granting (s : Cluster) : Action → Option (NodeID × RequestVoteRequest)
  | .deliver call io =>
    match s.requests[call]? with
    | some ⟨_, n, .requestVote req⟩ =>
      if ((s.raft n).requestVote req (s.envOf n io)).2.voteGranted then some (n, req) else none
    | _ => none
  | _ => none

/-- A vote is granted by nodes that know no leader, do not follow one in the term of the vote, or have
restarted their timer in the same instant. -/
def votesWithoutLeader (s : Cluster) (a : Action) : Bool :=
  (s.granting a).all fun x =>
    (s.raft x.1).removedFromCluster || (s.raft x.1).leader == "" ||
      (x.2.term == (s.raft x.1).term && ((s.raft x.1).state != .follower || (s.raft x.1).electionReset == s.clock))

/-- The answer to TimeoutNow that this step handles: the node, the target of the transfer and the answer. -/
def transferAnswered (s : Cluster) : Action → Option (NodeID × NodeID × TimeoutNowResponse)
  | .run i (.reply j) _ =>
    match s.tasks[i]? with
    | some (n, .awaitTimeoutNow target call) =>
      match s.replyTo call j with
      | some (.timeoutNow resp) => some (n, target, resp)
      | _ => none
    | _ => none
  | _ => none

/-- The answer to TimeoutNow brings no newer term to a node whose timer was restarted within four seconds. -/
def transfersLate (s : Cluster) (a : Action) : Bool :=
  (s.transferAnswered a).all fun x =>
    decide (x.2.2.term ≤ (s.raft x.1).term) || (s.raft x.1).removedFromCluster || x.2.1 == "" ||
      decide (4000 ≤ s.clock - (s.raft x.1).electionReset)

def leasesKept (s : Cluster) : RestartAction → Bool
  | .life (.step a) => s.termsReachLeaseless a && s.votesWithoutLeader a && s.transfersLate a
  | _ => true

/-! ## The last contact -/

/-- The AppendEntries request that passes the checks of sender and term in this step: sender, receiver and
request. -/
def hearing (s : Cluster) : Action → Option (NodeID × NodeID × AppendEntriesRequest)
  | .deliver call _ =>
    match s.requests[call]? with
    | some ⟨src, n, .appendEntries req⟩ => if (s.raft n).hears req then some (src, n, req) else none
    | _ => none
  | _ => none

/-- Node `n` heard the leader it names in its term when its timer was restarted. -/
def Contact (n : NodeID) (h : List (Cluster × RestartAction)) (s : Cluster) : Prop :=
  ∃ x a src req, (x, .life (.step a)) ∈ h ∧ x.hearing a = some (src, n, req) ∧
    (req.leaderId, x.clock) = (s.raft n).hint ∧ req.term = (s.raft n).term ∧ x.clock ≤ s.clock

/-- A follower with a lease has heard its leader. -/
def LeaseInv (n : NodeID) (h : List (Cluster × RestartAction)) (s : Cluster) : Prop :=
  (s.raft n).state = .follower → s.leaseless n = false → Contact n h s

/-- In this step of the history, at most four seconds before `s`, node `n` heard an AppendEntries request of the
term it has in `s` from the leader it names there. -/
def recentContact (n : NodeID) (s : Cluster) (x : Cluster × RestartAction) : Bool :=
  match x.2 with
  | .life (.step a) =>
    (x.1.hearing a).any fun y => y.2.1 == n && y.2.2.leaderId == (s.raft n).leader && y.2.2.term == (s.raft n).term &&
      decide (x.1.clock ≤ s.clock) && decide (s.clock - x.1.clock < 4000)
  | _ => false

variable {s s' : Cluster} {n : NodeID} {h : List (Cluster × RestartAction)}

theorem leaseless_eq_false : s.leaseless n = false ↔ (s.raft n).removedFromCluster = false ∧
    (s.raft n).leader ≠ "" ∧ s.clock - (s.raft n).electionReset < 4000 := by
  simp [leaseless, and_assoc]

theorem step_clock {a : Action} (hs : s.step a = some s') : s.clock ≤ s'.clock := by
  cases step_cases hs with
  | tick ms =>
    show s.clock ≤ s.clock + ms
    omega
  | run i c io n t _ hx hn ht => cases ht <;> exact le_refl s.clock
  | deliver call io p =>
    obtain ⟨src, n, req⟩ := p
    cases req <;> exact le_refl s.clock
  | _ => exact le_refl s.clock

theorem restartStep_clock {l : RestartAction} (hs : s.restartStep l = some s') : s.clock ≤ s'.clock := by
  rcases restartStep_cases hs with ⟨a, _, hs⟩ | ⟨m, d, start, _, rfl⟩
  · exact step_clock hs
  · exact le_refl s.clock

/-! ## The invariant -/

theorem LeaseInv.same (hi : LeaseInv n h s) {l : RestartAction} (hs : s.restartStep l = some s')
    (hr : SameRole (s.raft n) (s'.raft n)) : LeaseInv n ((s, l) :: h) s' := by
  have hclock := restartStep_clock hs
  have hlead : (s'.raft n).leader = (s.raft n).leader := congrArg Prod.fst hr.hint
  have hreset : (s'.raft n).electionReset = (s.raft n).electionReset := congrArg Prod.snd hr.hint
  intro hf hl
  obtain ⟨hrem, hne, hage⟩ := leaseless_eq_false.1 hl
  rw [hr.removed] at hrem
  rw [hlead] at hne
  rw [hreset] at hage
  obtain ⟨x, a, src, req, hm, hx, hhint, hterm, hle⟩ :=
    hi (hr.state.symm.trans hf) (leaseless_eq_false.2 ⟨hrem, hne, by omega⟩)
  exact ⟨x, a, src, req, List.mem_cons_of_mem _ hm, hx, hhint.trans hr.hint.symm, hterm.trans hr.term.symm, by omega⟩

theorem LeaseInv.of_leaseless {l : RestartAction} (hl : s'.leaseless n = true) : LeaseInv n ((s, l) :: h) s' := by
  intro _ hf
  rw [hl] at hf
  cases hf

theorem leaseless_of_hint (hs : s.leaseless n = true) (hc : s.clock ≤ s'.clock)
    (hrem : (s'.raft n).removedFromCluster = (s.raft n).removedFromCluster)
    (hh : (s'.raft n).hint = (s.raft n).hint) : s'.leaseless n = true := by
  have hlead : (s'.raft n).leader = (s.raft n).leader := congrArg Prod.fst hh
  have hreset : (s'.raft n).electionReset = (s.raft n).electionReset := congrArg Prod.snd hh
  by_contra hl
  obtain ⟨h1, h2, h3⟩ := leaseless_eq_false.1 (Bool.not_eq_true _ ▸ hl)
  rw [hrem] at h1
  rw [hlead] at h2
  rw [hreset] at h3
  rw [leaseless_eq_false.2 ⟨h1, h2, by omega⟩] at hs
  cases hs

theorem LeaseInv.step (hi : LeaseInv n h s) {l : RestartAction} (hok : s.leasesKept l = true)
    (hs : s.restartStep l = some s') : LeaseInv n ((s, l) :: h) s' := by
  have hclock := restartStep_clock hs
  rcases restartStep_hint hs n with heq | ⟨a, rfl, hstep⟩ | ⟨hlead, _⟩
  · exact hi.same hs (by rw [heq]; exact .refl _)
  · simp only [leasesKept, Bool.and_eq_true] at hok
    obtain ⟨⟨hterms, hvotes⟩, htransfers⟩ := hok
    cases hstep with
    | same _ hr => exact hi.same hs hr
    | heard call io src req hp hk hr =>
      intro _ _
      exact ⟨s, _, src, req, List.mem_cons_self, by simp [hearing, hp, hk], hr.hint.symm, hr.term.symm, hclock⟩
    | deposed _ T ha ht hr =>
      -- the node keeps its hint in the new term, so it must not have had a lease
      have hless : s.leaseless n = true := by
        simp only [termsReachLeaseless, ha, Option.all_some, Bool.or_eq_true, decide_eq_true_eq] at hterms
        rcases hterms with hle | hless
        · omega
        · exact hless
      exact .of_leaseless (leaseless_of_hint hless hclock hr.removed hr.hint)
    | granted call io src req hp hg hr =>
      have hlead : (s'.raft n).leader = (s.raft n).leader := congrArg Prod.fst hr.hint
      simp only [votesWithoutLeader, granting, hp, hg, if_true, Option.all_some, Bool.or_eq_true, Bool.and_eq_true,
        beq_iff_eq, bne_iff_ne] at hvotes
      rcases hvotes with (hrem | hnone) | ⟨hterm, hvotes⟩
      · exact .of_leaseless (by simp [leaseless, hr.removed, hrem])
      · exact .of_leaseless (by simp [leaseless, hlead, hnone])
      · have hstate : (s'.raft n).state = (s.raft n).state := by
          rcases hr.state with ⟨hlt, _⟩ | ⟨_, hsame⟩
          · omega
          · exact hsame
        rcases hvotes with hnot | hnow
        · intro hf
          exact absurd (hstate.symm.trans hf) hnot
        · refine hi.same hs ⟨hstate, hr.term.trans hterm, hr.removed, hr.hint.trans ?_⟩
          rw [← hnow]; rfl
    | timeout timeout io _ _ hr => exact fun hf => absurd hf hr.not_follower
    | asked call io src req hp _ hr =>
      rcases hr with ⟨_, hrem, _⟩ | ⟨_, hr⟩
      · exact .of_leaseless (by simp [leaseless, hrem])
      · exact fun hf => absurd hf hr.not_follower
    | elected i j io _ hr => exact fun hf => absurd hf hr.not_follower
    | transferred i j io target call resp hx hr ht hrem hh =>
      have hlead : (s'.raft n).leader = target := congrArg Prod.fst hh
      have hreset : (s'.raft n).electionReset = (s.raft n).electionReset := congrArg Prod.snd hh
      simp only [transfersLate, transferAnswered, hx, hr, Option.all_some, Bool.or_eq_true, decide_eq_true_eq,
        beq_iff_eq] at htransfers
      refine .of_leaseless ?_
      rcases htransfers with ((hle | hgone) | hnone) | hage
      · omega
      · simp [leaseless, hrem, hgone]
      · simp [leaseless, hlead, hnone]
      · have hage' : 4000 ≤ s'.clock - (s'.raft n).electionReset := by omega
        simp [leaseless, hage']
    | left _ hr => exact .of_leaseless (by simp [leaseless, hr.removed])
  · exact .of_leaseless (by simp [leaseless, hlead])

/-- A read lease means recent contact: in every run in which processes die at any point and come back, and
in which newer terms, votes and the answers of a transfer reach only nodes without a lease of their own,
a follower that has a read lease has heard, within the last four seconds, an AppendEntries request of its term
from the leader it names. -/
theorem lease_means_contact {h : List (Cluster × RestartAction)} {s : Cluster}
    (hr : restartMachine.Run (fun s l => s.leasesKept l = true) h s) {n : NodeID}
    (hf : (s.raft n).state = .follower) (hl : (s.raft n).hasReadLease s.clock = true) :
    ∃ x ∈ h, recentContact n s x = true := by
  have hi : LeaseInv n h s := by
    refine Machine.Run.history ?_ (fun h s l s' _ hi hok hs => hi.step hok hs) hr
    rintro s ⟨procs, peersOf, snapshotter, restorer, _, rfl⟩ _ hl
    exact absurd rfl (leaseless_eq_false.1 hl).2.1
  have hless : s.leaseless n = false := by
    simp only [hasReadLease, hf] at hl
    refine leaseless_eq_false.2 ?_
    split at hl
    · cases hl
    · rename_i hrem
      rw [if_neg (by decide)] at hl
      split at hl
      · rename_i hlead
        exact ⟨by simpa using hrem, by simpa using hlead, of_decide_eq_true hl⟩
      · cases hl
  obtain ⟨x, a, src, req, hm, hx, hhint, hterm, hle⟩ := hi hf hless
  have hlead : req.leaderId = (s.raft n).leader := congrArg Prod.fst hhint
  have hage : s.clock - x.clock < 4000 := by
    rw [show x.clock = (s.raft n).electionReset from congrArg Prod.snd hhint]
    exact (leaseless_eq_false.1 hless).2.2
  exact ⟨_, hm, by simp [recentContact, hx, hlead, hterm, hle, hage]⟩

/-- The leader A sends its first heartbeat to B, which hears it. -/
def firstHeartbeat : List Action :=
  electA ++ [.run 1 .go {}, .run 1 .go {}, .run 1 .go {}, .run 2 .go {}, .deliver 1 {}]

theorem lease_means_contact_firstHeartbeat :
    ∃ h s, restartMachine.Run (fun s l => s.leasesKept l = true) h s ∧ (s.raft "B").state = .follower ∧
      (s.raft "B").hasReadLease s.clock = true ∧ ∃ x ∈ h, recentContact "B" s x = true := by
  obtain ⟨h, s, hr, hf, hl⟩ := Machine.exists_run (S := restartMachine) (fun s l => s.leasesKept l = true)
    (fun _ s => (s.raft "B").state = .follower ∧ (s.raft "B").hasReadLease s.clock = true)
    (machine_init threeNodes true true) ((firstHeartbeat ++ [Action.tick 3000]).map (.life ∘ .step)) (by decide +kernel)
  exact ⟨h, s, hr, hf, hl, lease_means_contact hr hf hl⟩

/-- A second and a half after the heartbeat, C asks B for its vote in term 2 and gets it. -/
def voteAfterHeartbeat : List Action :=
  firstHeartbeat ++ [.electionTimeout "C" 1500 {}, .tick 1500, .electionTimeout "C" 1500 {}, .run 4 .go {}, .run 5 .go {},
    .deliver 2 {}]

/-- Five seconds after the heartbeat B still has a lease, from A and in a term in which it has heard nobody. -/
theorem vote_extends_lease :
    ∃ h s, restartMachine.Run (fun _ _ => True) h s ∧ (s.raft "B").state = .follower ∧
      (s.raft "B").hasReadLease s.clock = true ∧ (s.raft "B").leader = "A" ∧ (s.raft "B").term = 2 ∧
      ¬∃ x ∈ h, recentContact "B" s x = true :=
  Machine.exists_run (S := restartMachine) (fun _ _ => True)
    (fun h s => (s.raft "B").state = .follower ∧ (s.raft "B").hasReadLease s.clock = true ∧
      (s.raft "B").leader = "A" ∧ (s.raft "B").term = 2 ∧ ¬∃ x ∈ h, recentContact "B" s x = true)
    (machine_init threeNodes true true) ((voteAfterHeartbeat ++ [Action.tick 3500]).map (.life ∘ .step)) (by decide +kernel)

end Cluster

end Mimori
