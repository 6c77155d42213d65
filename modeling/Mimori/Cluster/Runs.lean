/-
The runs the theorems speak about: clusters started from peer lists of any kind or from one
membership set, and the conditions a theorem may put on the steps of a run. A condition is a test of
the state and the action before the step is taken, so a run that meets it can be evaluated.
-/
import Mimori.Cluster.Step
import Mimori.Base.Run

namespace Mimori

open Raft

/-! ## Clusters -/

/-- The members of a cluster. -/
structure Members where
  ids : List NodeID
  nodup : ids.Nodup

/-- The peer list `n` is started with: the other members. -/
def Members.peersOf (M : Members) (n : NodeID) : List NodeID := M.ids.filter (· ≠ n)

theorem Members.peersOf_nodup (M : Members) (n : NodeID) : (M.peersOf n).Nodup := M.nodup.filter _

theorem Members.not_mem_peersOf (M : Members) (n : NodeID) : n ∉ M.peersOf n := by
  intro h
  have := (List.mem_filter.1 h).2
  simp at this

namespace Cluster

theorem start_raft (procs : List NodeID) (peersOf : NodeID → List NodeID) (snapshotter restorer : Bool) (n : NodeID) :
    (start procs peersOf snapshotter restorer).raft n =
      { id := n
        peers := peersOf n
        log := [boundary 0 0]
        nextIndex := IndexMap.setAll (fun _ => none) (peersOf n) 1
        matchIndex := IndexMap.setAll (fun _ => none) (peersOf n) 0
        snapshotter, restorer } := rfl

/-- Processes with peer lists of any kind, none of which names its own node or a peer twice. -/
def machine : Machine Cluster Action where
  init s := ∃ procs peersOf snapshotter restorer, (∀ n, (peersOf n).Nodup ∧ n ∉ peersOf n) ∧
    s = start procs peersOf snapshotter restorer
  step := step

end Cluster

/-- The cluster of these members, each with the others as its peers. -/
def Members.machine (M : Members) : Machine Cluster Action where
  init s := ∃ snapshotter restorer, s = Cluster.start M.ids M.peersOf snapshotter restorer
  step := Cluster.step

/-- A cluster of three. -/
def threeNodes : Members := ⟨["A", "B", "C"], by decide⟩

theorem Members.machine_init (M : Members) (snapshotter restorer : Bool) :
    M.machine.init (Cluster.start M.ids M.peersOf snapshotter restorer) := ⟨snapshotter, restorer, rfl⟩

namespace Cluster

/-- The members' peer lists are a case of peer lists of any kind. -/
theorem machine_init (M : Members) (snapshotter restorer : Bool) :
    machine.init (Cluster.start M.ids M.peersOf snapshotter restorer) :=
  ⟨_, _, _, _, fun n => ⟨M.peersOf_nodup n, M.not_mem_peersOf n⟩, rfl⟩

/-- Node A asks B for its vote in term 1 and wins. -/
def electA : List Action :=
  [.tick 2000, .electionTimeout "A" 1500 {}, .run 0 .go {}, .run 0 .go {}, .deliver 0 {}, .run 1 (.reply 0) {}]

/-- The leader A adds D, B acknowledges the entry and A applies it. -/
def addD : List Action :=
  electA ++ [.configChange "A" .addNode "D" {}, .run 2 .go {}, .run 2 .go {}, .run 3 .go {}, .run 3 .go {},
    .deliver 1 {}, .run 4 (.reply 1) {}, .applierTake "A" {}, .applierSend "A", .applierDone "A" {}]

/-- The leader A sends its first entry to B. -/
def firstAppend : List Action :=
  electA ++ [.propose "A" (.put [1] [2]) {}, .run 1 .go {}, .run 1 .go {}, .run 1 .go {}, .run 2 .go {}, .run 2 .go {}]

/-- B acknowledges it, and A commits and takes it. -/
def firstApplied : List Action := firstAppend ++ [.deliver 1 {}, .run 3 (.reply 1) {}, .applierTake "A" {}]

/-! ## Conditions on a step -/

/-- Nobody proposes a configuration change. -/
def noConfigChange : Action → Bool
  | .configChange _ _ _ _ => false
  | .propose _ cmd _ => !cmd.isConfig
  | _ => true

/-- The terms of the running nodes fit the `int32` of the messages. -/
def termsFit (s : Cluster) : Bool := s.procs.all fun n => decide (Fits (s.raft n).term)

/-- The answer a goroutine that asked for a vote gets: who asked, in which term, and the answer. -/
def voteAnswered (s : Cluster) : Action → Option (NodeID × Int × RequestVoteResponse)
  | .run i (.reply j) _ =>
    match s.tasks[i]? with
    | some (n, .awaitVote term _ call) =>
      match s.replyTo call j with
      | some (.requestVote resp) => some (n, term, resp)
      | _ => none
    | _ => none
  | _ => none

/-- A candidate counts a vote only in the term it asked for it. -/
def timelyVote (s : Cluster) (a : Action) : Bool :=
  match s.voteAnswered a with
  | some (n, term, resp) => !resp.voteGranted || (s.raft n).state != .candidate || (s.raft n).term == term
  | none => true

end Cluster

end Mimori
