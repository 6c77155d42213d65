/-
How a run can go on. A continuation keeps the conditions under which committed entries are for ever, and with them what
is known of every state of the run; what has to be seen to at each step is that the numbers of the nodes still fit the
messages. The kinds of steps are listed here with the part of the conditions that is not empty for them.
-/
import Mimori.Commit.Restarts
import Mimori.Replication.Rounds

namespace Mimori

open Raft TermLog

namespace Cluster

variable {M : Members} {s s' : Cluster} {a : Action} {n m : NodeID} {B K : Int}

/-- The run can go on from `s` to `s'`, keeping the conditions under which committed entries are for ever. -/
abbrev Onward (M : Members) (s s' : Cluster) : Prop := M.restarts.Leads (fun s l => s.recoversKept M l = true) s s'

/-! ## What is known on the way -/

/-- What is known of every state of the run, and bounds on the numbers of the running nodes that fit the messages. -/
structure Calm (M : Members) (B K : Int) (s : Cluster) : Prop where
  room : B < 2 ^ 31 ∧ K < 2 ^ 31
  saved : MembersSaved M s
  inv : ∃ L full, CommitInv M L full s
  terms : ∀ n ∈ s.procs, (s.raft n).term ≤ B
  indices : ∀ n ∈ s.procs, (s.raft n).lastLogIndex ≤ K

/-- What is known of every state of a run with restarts. -/
theorem CommitInv.run {h : List (Cluster × RestartAction)}
    (hr : M.restarts.Run (fun s l => s.recoversKept M l = true) h s) :
    MembersSaved M s ∧ ∃ L full, CommitInv M L full s := by
  refine hr.invariant (I := fun s => MembersSaved M s ∧ ∃ L full, CommitInv M L full s) ?_ ?_
  · rintro s ⟨snapshotter, restorer, rfl⟩
    exact ⟨(Reigns.start M snapshotter restorer).saved, _, _, .start M snapshotter restorer⟩
  · rintro s l s' ⟨hsaved, L, full, hi⟩ hok hs
    obtain ⟨hsaved', L', full', hi', _⟩ := hi.restartStep hsaved hok hs
    exact ⟨hsaved', L', full', hi'⟩

namespace Calm

theorem fixed (h : Calm M B K s) : Fixed M s := by
  obtain ⟨L, full, hi⟩ := h.inv
  exact hi.inv.inv.logs.stable.elect.fixed

theorem indexed (h : Calm M B K s) (n : NodeID) : Indexed (s.raft n) := by
  obtain ⟨L, full, hi⟩ := h.inv
  exact hi.inv.inv.logs.stable.index.node n

theorem nonneg (h : Calm M B K s) (n : NodeID) : 0 ≤ (s.raft n).term := by
  obtain ⟨L, full, hi⟩ := h.inv
  exact hi.inv.inv.logs.stable.elect.votes.nonneg n

theorem fitsTerm (h : Calm M B K s) (hn : n ∈ s.procs) : Fits (s.raft n).term := by
  have := h.nonneg n
  have := h.terms n hn
  have := h.room.1
  exact ⟨by omega, by omega⟩

theorem fitsIndex (h : Calm M B K s) (hn : n ∈ s.procs) : Fits (s.raft n).lastLogIndex := by
  have := (h.indexed n).base
  have := (h.indexed n).base_le_last
  have := h.indices n hn
  have := h.room.2
  exact ⟨by omega, by omega⟩

theorem entryTerm_le (h : Calm M B K s) {i : Int} {e : LogEntry} (he : (s.raft n).entryAt i = some e) :
    0 ≤ e.term ∧ e.term ≤ (s.raft n).term := by
  obtain ⟨L, full, hi⟩ := h.inv
  have hlogs := hi.inv.inv.logs
  have hpos := h.nonneg n
  obtain ⟨hlen, hterm⟩ := (hlogs.nodes.whole n).entryAt_term (h.indexed n) he
  rw [← hterm]
  cases hk : i.toNat with
  | zero => exact ⟨le_refl _, hpos⟩
  | succ k =>
    obtain ⟨x, hx⟩ : ∃ x, (full n)[k]? = some x := ⟨_, List.getElem?_eq_getElem (by omega)⟩
    rw [termAt_succ hx]
    exact (hlogs.nodes.sound n).terms x (List.mem_of_getElem? hx)

theorem lastLogTerm_le (h : Calm M B K s) (n : NodeID) :
    0 ≤ (s.raft n).lastLogTerm ∧ (s.raft n).lastLogTerm ≤ (s.raft n).term := by
  have hi := h.indexed n
  have hpos := hi.length_pos
  have hlast := hi.lastLogIndex
  have hbase := hi.base_le_last
  have he : (s.raft n).entryAt (s.raft n).lastLogIndex = (s.raft n).log.getLast? := by
    rw [hi.entryAt hbase, List.getLast?_eq_getElem?]
    congr 1
    omega
  cases hg : (s.raft n).log.getLast? with
  | none => exact absurd (List.getLast?_eq_none_iff.1 hg) hi.ne
  | some e =>
    rw [hg] at he
    rw [lastLogTerm, hg]
    exact h.entryTerm_le he

theorem fitsLastTerm (h : Calm M B K s) (hn : n ∈ s.procs) : Fits (s.raft n).lastLogTerm := by
  have := h.lastLogTerm_le n
  have := h.terms n hn
  have := h.room.1
  exact ⟨by omega, by omega⟩

theorem entriesFit (h : Calm M B K s) (hn : n ∈ s.procs) : EntriesFit (s.raft n).log := by
  intro e he
  have hi := h.indexed n
  obtain ⟨k, hk⟩ := List.mem_iff_getElem?.1 he
  have hlen := (List.getElem?_eq_some_iff.1 hk).1
  have hidx := hi.numbered k e hk
  have hget : (s.raft n).entryAt e.index = some e := by
    rw [hi.entryAt (by omega), show (e.index - (s.raft n).logBaseIndex).toNat = k by omega]
    exact hk
  have := h.entryTerm_le hget
  have := h.terms n hn
  have := h.indices n hn
  have := (hi.entryAt_some hget).2
  have := hi.base
  have := h.room
  exact ⟨⟨by omega, by omega⟩, by omega, by omega⟩

end Calm

theorem Fixed.known (h : Fixed M s) (hn : n ∈ M.ids) (hne : m ≠ n) (hname : n ≠ "") : (s.raft m).isKnownNode n = true := by
  have hmem : n ∈ (s.raft m).peers := by
    rw [h.peers]
    exact List.mem_filter.2 ⟨hn, decide_eq_true (Ne.symm hne)⟩
  simp only [isKnownNode, beq_iff_eq, if_neg hname, List.contains_iff_mem.2 hmem, Bool.or_true]

/-! ## Steps that keep the conditions -/

/-- Steps and what the conditions ask of them: goroutines speak in office, answers are counted in the term of their
question, and an accepted request does not commit what it has not shown. -/
inductive Orderly (s : Cluster) : Action → Prop
  | tick (ms : Nat) : Orderly s (.tick ms)
  | timeout (n : NodeID) (timeout : Int) (io : Io) : Orderly s (.electionTimeout n timeout io)
  | go {i : Nat} (io : Io) (h : s.speaksInOffice (.run i .go io) = true) : Orderly s (.run i .go io)
  | lost {i : Nat} {n p : NodeID} {snap : Snapshot} {call : Nat} (io : Io)
      (hx : s.tasks[i]? = some (n, .awaitSnapshot p snap call)) : Orderly s (.run i .fail io)
  | handleVote {call : Nat} {src dst : NodeID} {req : RequestVoteRequest} (io : Io)
      (hq : s.requests[call]? = some ⟨src, dst, .requestVote req⟩) : Orderly s (.deliver call io)
  | handleAppend {call : Nat} {src dst : NodeID} {req : AppendEntriesRequest} (io : Io)
      (hq : s.requests[call]? = some ⟨src, dst, .appendEntries req⟩)
      (hc : (s.raft dst).acceptsEntries req = true → (s.raft dst).commitsVerified req = true) :
      Orderly s (.deliver call io)
  | countVote {i : Nat} {n p : NodeID} {T : Int} {call : Nat} (j : Nat) (io : Io)
      (hx : s.tasks[i]? = some (n, .awaitVote T p call)) (ht : (s.raft n).term = T) : Orderly s (.run i (.reply j) io)
  | countAck {i : Nat} {n : NodeID} {args : AppendArgs} {call : Nat} (j : Nat) (io : Io)
      (hx : s.tasks[i]? = some (n, .awaitAppend args call)) (ht : (s.raft n).term = args.term) :
      Orderly s (.run i (.reply j) io)
  | take (n : NodeID) (io : Io) : Orderly s (.applierTake n io)
  | send (n : NodeID) : Orderly s (.applierSend n)
  | done (n : NodeID) (io : Io) : Orderly s (.applierDone n io)
  | consume (n : NodeID) (stored : Bool) : Orderly s (.consume n stored)
  | client (n : NodeID) (req : ClientRequest) : Orderly s (.client n req)

theorem choicesKept_of (hcfg : noConfigChange a = true) (hterms : s.termsFit = true) (hvote : s.timelyVote a = true)
    (hgap : s.noGap a = true) (hindices : s.indicesFit = true) (hfresh : s.freshSnapshot a = true)
    (hmatch : s.matchingSnapshot a = true) (hspeak : s.speaksInOffice a = true) (hack : s.timelyAck a = true)
    (hwithin : s.commitWithin a = true) : s.choicesKept a = true := by
  simp only [choicesKept, acksKept, logsKept, fairElections, inPlace, hcfg, hterms, hvote, hgap, hindices, hfresh, hmatch,
    hspeak, hack, hwithin, Bool.and_self]

theorem Orderly.kept (h : Orderly s a) (hc : Calm M B K s) : s.choicesKept a = true := by
  have hterms : s.termsFit = true := List.all_eq_true.2 fun n hn => decide_eq_true (hc.fitsTerm hn)
  have hindices : s.indicesFit = true := List.all_eq_true.2 fun n hn => decide_eq_true (hc.fitsIndex hn)
  cases h with
  | tick | timeout | take | send | done | consume | client =>
    exact choicesKept_of rfl hterms rfl rfl hindices rfl rfl rfl rfl rfl
  | go _ hspeak => exact choicesKept_of rfl hterms rfl rfl hindices rfl rfl hspeak rfl rfl
  | lost _ hx => exact choicesKept_of rfl hterms rfl (by simp only [noGap, hx]) hindices rfl rfl rfl rfl rfl
  | handleVote _ hq =>
    refine choicesKept_of rfl hterms rfl rfl hindices ?_ ?_ rfl rfl ?_
    · simp only [freshSnapshot, hq]
    · simp only [matchingSnapshot, hq]
    · simp only [commitWithin, accepts, hq]
  | @handleAppend call src dst req io hq hcommit =>
    refine choicesKept_of rfl hterms rfl rfl hindices ?_ ?_ rfl rfl ?_
    · simp only [freshSnapshot, hq]
    · simp only [matchingSnapshot, hq]
    · cases hok : (s.raft dst).acceptsEntries req with
      | false => simp only [commitWithin, accepts, hq, hok, Bool.false_eq_true, if_false]
      | true => simp only [commitWithin, accepts, hq, hok, if_true, hcommit hok]
  | @countVote i n p T call j io hx ht =>
    refine choicesKept_of rfl hterms ?_ rfl hindices rfl rfl rfl ?_ rfl
    · unfold timelyVote voteAnswered
      simp only [hx]
      split
      · rename_i heq
        split at heq
        · cases heq
          rw [beq_iff_eq.2 ht, Bool.or_true]
        · cases heq
      · rfl
    · simp only [timelyAck, appendAnswered, hx]
  | @countAck i n args call j io hx ht =>
    refine choicesKept_of rfl hterms ?_ rfl hindices rfl rfl rfl ?_ rfl
    · simp only [timelyVote, voteAnswered, hx]
    · unfold timelyAck appendAnswered
      simp only [hx]
      split
      · rename_i heq
        split at heq
        · cases heq
          rw [beq_iff_eq.2 ht, Bool.or_true]
        · cases heq
      · rfl

/-- An orderly step is a step of the run, as long as the numbers stay within their bounds. -/
theorem Orderly.onward (h : Orderly s a) (hc : Calm M B K s) (hs : s.step a = some s')
    (hterms : ∀ n ∈ s'.procs, (s'.raft n).term ≤ B) (hindices : ∀ n ∈ s'.procs, (s'.raft n).lastLogIndex ≤ K) :
    Onward M s s' ∧ Calm M B K s' := by
  have hok : s.recoversKept M (.life (.step a)) = true := h.kept hc
  obtain ⟨L, full, hi⟩ := hc.inv
  obtain ⟨hsaved, L', full', hi', _⟩ := hi.restartStep hc.saved hok hs
  exact ⟨Machine.Leads.single hok hs, hc.room, hsaved, ⟨L', full', hi'⟩, hterms, hindices⟩

/-- A step that leaves every node but `n` as it is. -/
theorem Orderly.moves (h : Orderly s a) (hc : Calm M B K s) (hs : s.step a = some s') (hp : s'.procs = s.procs)
    (hother : ∀ m, m ≠ n → s'.raft m = s.raft m) (hterm : (s'.raft n).term ≤ B) (hlast : (s'.raft n).lastLogIndex ≤ K) :
    Onward M s s' ∧ Calm M B K s' := by
  have heach : ∀ {f : Raft → Int} {b : Int}, (∀ m ∈ s.procs, f (s.raft m) ≤ b) → f (s'.raft n) ≤ b →
      ∀ m ∈ s'.procs, f (s'.raft m) ≤ b := by
    intro f b hP hn m hm
    by_cases heq : m = n
    · rw [heq]; exact hn
    · rw [hother m heq]
      exact hP m (hp ▸ hm)
  exact h.onward hc hs (heach hc.terms hterm) (heach hc.indices hlast)

theorem Orderly.rests (h : Orderly s a) (hc : Calm M B K s) (hs : s.step a = some s') (hp : s'.procs = s.procs)
    (hraft : s'.raft = s.raft) : Onward M s s' ∧ Calm M B K s' :=
  h.onward hc hs (by rw [hp, hraft]; exact hc.terms) (by rw [hp, hraft]; exact hc.indices)

/-! ## Goroutines -/

theorem mem_dropTask {i : Nat} {x y : NodeID × Task} (hx : s.tasks[i]? = some x) (hy : y ∈ s.tasks) (hne : y ≠ x) :
    y ∈ (s.dropTask i).tasks := by
  obtain ⟨j, hj⟩ := List.getElem?_of_mem hy
  have hij : j ≠ i := by
    rintro rfl
    rw [hx] at hj
    exact hne (Option.some.inj hj).symm
  exact List.mem_eraseIdx_iff_getElem?.2 ⟨j, hij, hj⟩

end Cluster

end Mimori
