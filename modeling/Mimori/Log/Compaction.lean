/-
Compaction is transparent. `createSnapshotLocked` replaces the entries up to `lastApplied` by one that carries the
last index and term of them. All accesses to the log are by offset from its base, so the two representations are
compared by a relation, and the handlers that read or rewrite the log keep it and answer alike.
-/
import Mimori.Log.Merge
import Mimori.Election.Roles

namespace Mimori

namespace Raft

variable {a : Int} {r c : Raft} {pre rest : List LogEntry} {e : LogEntry}

/-! ## The two representations -/

/-- `c` is node `r` with the entries up to index `a` compacted: `d` stands for them and the rest is the same. -/
structure Compacted (a : Int) (r c : Raft) : Prop where
  votes : SameVotes r c
  base : c.logBaseIndex = a
  log : ∃ pre l d rest, r.log = pre ++ l :: rest ∧ c.log = d :: rest ∧ (pre.length : Int) = a - r.logBaseIndex ∧
    (l.index = a ∧ d.index = a ∧ d.term = l.term) ∧ (∀ x ∈ pre, x.index ≤ a) ∧ ∀ x ∈ rest, a < x.index

/-- The snapshot a node takes of a well-indexed log compacts it up to `lastApplied`. -/
theorem compacted_of_compacts (hlog : Numbered r.logBaseIndex r.log) {snap : Snapshot} (hv : SameVotes r c)
    (ho : OwnSnapshot r snap) (hc : Compacts r c snap) : Compacted r.lastApplied r c := by
  obtain ⟨l, hl, ht⟩ := ho.entry
  have hb := base_le_of_entryAt hl
  rw [entryAt_getElem? hb] at hl
  have hidx := hlog _ l hl
  have hlen := (List.getElem?_eq_some_iff.1 hl).1
  have hi := ho.index
  -- the log is what lies below `lastApplied`, the entry there, and the rest, which the compaction keeps
  refine ⟨hv, hc.base.trans hi, r.log.take (r.lastApplied - r.logBaseIndex).toNat, l,
    boundary r.lastApplied l.term, r.log.drop ((r.lastApplied - r.logBaseIndex).toNat + 1), ?_, ?_, ?_, ?_, ?_, ?_⟩
  · rw [← (List.getElem?_eq_some_iff.1 hl).2, ← List.drop_eq_getElem_cons hlen, List.take_append_drop]
  · rw [hc.log, hi, ht]
    unfold compact
    rw [hlog.filter_eq_drop, show (r.lastApplied - r.logBaseIndex + 1).toNat =
      (r.lastApplied - r.logBaseIndex).toNat + 1 by omega]
  · rw [List.length_take]; omega
  · exact ⟨by omega, rfl, rfl⟩
  · intro x hx
    obtain ⟨k, hk⟩ := List.mem_iff_getElem?.1 hx
    rw [List.getElem?_take] at hk
    split at hk
    · have := hlog k x hk
      omega
    · cases hk
  · intro x hx
    obtain ⟨k, hk⟩ := List.mem_iff_getElem?.1 hx
    rw [List.getElem?_drop] at hk
    have := hlog _ x hk
    push_cast at this
    omega

namespace Compacted

variable (h : Compacted a r c)

include h

theorem base_le : r.logBaseIndex ≤ a := by
  obtain ⟨pre, l, d, rest, _, _, hlen, _⟩ := h.log
  omega

theorem lastLogIndex : c.lastLogIndex = r.lastLogIndex := by
  obtain ⟨pre, l, d, rest, hr, hc, _, ⟨hl, hd, _⟩, _⟩ := h.log
  unfold Raft.lastLogIndex
  rw [hr, hc, List.getLast?_append_of_ne_nil _ (List.cons_ne_nil l rest)]
  cases rest with
  | nil => exact hd.trans hl.symm
  | cons x rest =>
    rw [List.getLast?_cons_cons, List.getLast?_cons_cons, List.getLast?_eq_some_getLast (List.cons_ne_nil x rest)]

theorem lastLogTerm : c.lastLogTerm = r.lastLogTerm := by
  obtain ⟨pre, l, d, rest, hr, hc, _, ⟨_, _, ht⟩, _⟩ := h.log
  unfold Raft.lastLogTerm
  rw [hr, hc, List.getLast?_append_of_ne_nil _ (List.cons_ne_nil l rest)]
  cases rest with
  | nil => exact ht
  | cons x rest => rw [List.getLast?_cons_cons, List.getLast?_cons_cons]

/-- The entries above `a` are the same, place by place. -/
theorem entryAt {i : Int} (hi : a < i) : c.entryAt i = r.entryAt i := by
  have hb := h.base_le
  obtain ⟨pre, l, d, rest, hr, hc, hlen, _⟩ := h.log
  rw [entryAt_getElem? (by rw [h.base]; omega), entryAt_getElem? (by omega), h.base, hr, hc,
    List.getElem?_append_right (by omega)]
  obtain ⟨k, hk⟩ : ∃ k : Nat, i = a + 1 + k := ⟨(i - a - 1).toNat, by omega⟩
  rw [show (i - a).toNat = k + 1 by omega, show (i - r.logBaseIndex).toNat - pre.length = k + 1 by omega,
    List.getElem?_cons_succ, List.getElem?_cons_succ]

theorem entryAt_term : (c.entryAt a).map LogEntry.term = (r.entryAt a).map LogEntry.term := by
  have hb := h.base_le
  obtain ⟨pre, l, d, rest, hr, hc, hlen, ⟨_, _, ht⟩, _⟩ := h.log
  rw [entryAt_getElem? (by rw [h.base]), entryAt_getElem? hb, h.base, hr, hc, List.getElem?_append_right (by omega),
    show (a - r.logBaseIndex).toNat - pre.length = 0 by omega, Int.sub_self]
  exact congrArg some ht

theorem filter_above : c.log.filter (fun e => decide (a < e.index)) = r.log.filter fun e => decide (a < e.index) := by
  obtain ⟨pre, l, d, rest, hr, hc, _, ⟨hl, hd, _⟩, hpre, _⟩ := h.log
  have hnone : pre.filter (fun e => decide (a < e.index)) = [] := by
    rw [List.filter_eq_nil_iff]
    intro x hx
    have := hpre x hx
    simp only [decide_eq_true_eq]
    omega
  rw [hr, hc, List.filter_append, hnone, List.filter_cons, List.filter_cons, hl, hd]
  simp

/-- Handlers that leave the log alone and change the voting state alike keep the relation. -/
theorem of_sameLog {r' c' : Raft} (hr : SameLog r r') (hc : SameLog c c') (hv : SameVotes r' c') :
    Compacted a r' c' :=
  ⟨hv, by rw [hc.base]; exact h.base, by rw [hr.log, hr.base, hc.log]; exact h.log⟩

theorem saveMeta (ok : Bool) : Compacted a (r.saveMeta ok) (c.saveMeta ok) :=
  h.of_sameLog (saveMeta_data r ok).toSameLog (saveMeta_data c ok).toSameLog
    ((saveMeta_same r ok).symm.trans (h.votes.trans (saveMeta_same c ok)))

theorem saveLog (ok : Bool) : Compacted a (r.saveLog ok) (c.saveLog ok) :=
  h.of_sameLog (saveLog_sameLog r ok) (saveLog_sameLog c ok)
    ((saveLog_rest r ok).toSameVotes.symm.trans (h.votes.trans (saveLog_rest c ok).toSameVotes))

theorem advanceCommit (leaderCommit : Int) : Compacted a (r.advanceCommit leaderCommit) (c.advanceCommit leaderCommit) :=
  h.of_sameLog (advanceCommit_data r leaderCommit).toSameLog (advanceCommit_data c leaderCommit).toSameLog
    ((advanceCommit_same r leaderCommit).symm.trans (h.votes.trans (advanceCommit_same c leaderCommit)))

end Compacted

/-! ## RequestVote -/

theorem SameVotes.known (h : SameVotes r c) (id : NodeID) : c.isKnownNode id = r.isKnownNode id := by
  unfold isKnownNode
  rw [h.id, h.peers]

theorem SameVotes.adoptTerm (h : SameVotes r c) (term : Int) (io : Io) :
    SameVotes (r.adoptTerm term io) (c.adoptTerm term io) := by
  unfold Raft.adoptTerm
  rw [h.term]
  split
  · refine .trans ((saveMeta_same _ _).symm) (.trans ?_ (saveMeta_same _ _))
    exact ⟨h.id, h.peers, rfl, rfl, h.votes, rfl, h.removed⟩
  · exact h

theorem Compacted.requestVote (h : Compacted a r c) (req : RequestVoteRequest) (io : Io) :
    (c.requestVote req io).2 = (r.requestVote req io).2 ∧
      Compacted a (r.requestVote req io).1 (c.requestVote req io).1 := by
  have hv := h.votes.adoptTerm req.term io
  have hlog := h.of_sameLog (adoptTerm_data r req.term io).toSameLog (adoptTerm_data c req.term io).toSameLog hv
  have hup : (c.adoptTerm req.term io).upToDate req = (r.adoptTerm req.term io).upToDate req := by
    unfold upToDate
    rw [hlog.lastLogIndex, hlog.lastLogTerm]
  unfold Raft.requestVote
  simp only [h.votes.known, h.votes.term, hup, hv.votedFor]
  split
  · exact ⟨rfl, h⟩
  · split
    · exact ⟨rfl, h⟩
    · split
      · exact ⟨rfl, hlog⟩
      · split
        · refine ⟨rfl, Compacted.saveMeta ?_ _⟩
          refine hlog.of_sameLog ⟨rfl, rfl, rfl, rfl⟩ ⟨rfl, rfl, rfl, rfl⟩ ?_
          exact ⟨hv.id, hv.peers, hv.state, hv.term, hv.votes, rfl, hv.removed⟩
        · exact ⟨rfl, hlog⟩

/-! ## AppendEntries -/

/-- The loop on a log whose front lies below all entries works on the rest alone. -/
theorem mergeEntry_append {b : Int} (hlen : (pre.length : Int) = a + 1 - b) (he : a < e.index) :
    mergeEntry b (pre ++ rest) e = pre ++ mergeEntry (a + 1) rest e := by
  unfold mergeEntry
  simp only
  rw [if_neg (by omega), if_neg (by omega), List.getElem?_append_right (by omega),
    show (e.index - b).toNat - pre.length = (e.index - (a + 1)).toNat by omega]
  cases rest[(e.index - (a + 1)).toNat]? with
  | none => exact List.append_assoc ..
  | some old =>
    simp only
    split
    · rw [show (e.index - b).toNat = pre.length + (e.index - (a + 1)).toNat by omega, List.take_length_add_append,
        List.append_assoc]
    · rfl

theorem mergeEntries_append {b : Int} (hlen : (pre.length : Int) = a + 1 - b) :
    ∀ {es rest : List LogEntry}, (∀ e ∈ es, a < e.index) →
      mergeEntries b (pre ++ rest) es = pre ++ mergeEntries (a + 1) rest es
  | [], _, _ => rfl
  | e :: es, rest, h => by
    rw [mergeEntries_cons, mergeEntries_cons, mergeEntry_append hlen (h e List.mem_cons_self)]
    exact mergeEntries_append hlen fun x hx => h x (List.mem_cons_of_mem e hx)

theorem Compacted.mergeEntries (h : Compacted a r c) {es : List LogEntry} (hes : ∀ e ∈ es, a < e.index) :
    Compacted a { r with log := mergeEntries r.logBaseIndex r.log es }
      { c with log := Raft.mergeEntries c.logBaseIndex c.log es } := by
  obtain ⟨pre, l, d, rest, hr, hc, hlen, hld, hpre, hrest⟩ := h.log
  refine ⟨⟨h.votes.id, h.votes.peers, h.votes.state, h.votes.term, h.votes.votes, h.votes.votedFor, h.votes.removed⟩,
    h.base, pre, l, d, Raft.mergeEntries (a + 1) rest es, ?_, ?_, hlen, hld, hpre, fun x hx => ?_⟩
  · show Raft.mergeEntries r.logBaseIndex r.log es = _
    rw [hr, List.append_cons, mergeEntries_append (by simp; omega) hes, List.append_assoc]
    rfl
  · show Raft.mergeEntries c.logBaseIndex c.log es = _
    rw [hc, h.base]
    have hone : (([d] : List LogEntry).length : Int) = a + 1 - a := by simp
    exact mergeEntries_append hone hes
  · rcases mergeEntries_mem hx with hx | hx
    · exact hrest x hx
    · exact hes x hx

theorem Compacted.logConsistent (h : Compacted a r c) {i t : Int} (hi : a ≤ i) :
    c.logConsistent i t = r.logConsistent i t := by
  have hb := h.base_le
  have hread : ∀ x : Raft, x.logBaseIndex ≤ i →
      x.logConsistent i t = if i > 0 then ((x.entryAt i).map LogEntry.term).any (· == t) else true := by
    intro x hx
    unfold Raft.logConsistent
    rw [if_neg (show ¬ i < x.logBaseIndex by omega)]
    cases x.entryAt i <;> rfl
  rw [hread c (by rw [h.base]; exact hi), hread r (by omega)]
  rcases lt_or_eq_of_le hi with hlt | rfl
  · rw [h.entryAt hlt]
  · rw [h.entryAt_term]

/-- The compacted node answers alike and stays the compacted form of the other. -/
theorem Compacted.appendEntries (h : Compacted a r c) {req : AppendEntriesRequest} (hprev : a ≤ req.prevLogIndex)
    (hes : ∀ e ∈ req.entries, a < e.index) (io : Io) :
    (c.appendEntries req io).2 = (r.appendEntries req io).2 ∧
      Compacted a (r.appendEntries req io).1 (c.appendEntries req io).1 := by
  have hv := h.votes.adoptTerm req.term io
  have hlead : Compacted a { r.adoptTerm req.term io with leader := req.leaderId, electionReset := io.now }
      { c.adoptTerm req.term io with leader := req.leaderId, electionReset := io.now } := by
    refine h.of_sameLog (.trans (adoptTerm_data r req.term io).toSameLog ⟨rfl, rfl, rfl, rfl⟩)
      (.trans (adoptTerm_data c req.term io).toSameLog ⟨rfl, rfl, rfl, rfl⟩) ?_
    exact ⟨hv.id, hv.peers, hv.state, hv.term, hv.votes, hv.votedFor, hv.removed⟩
  unfold Raft.appendEntries
  simp only [h.votes.known, h.votes.term, hlead.logConsistent hprev]
  split
  · exact ⟨rfl, h⟩
  · split
    · exact ⟨rfl, h⟩
    · split
      · exact ⟨rfl, hlead⟩
      · exact ⟨rfl, ((hlead.mergeEntries hes).saveLog _).advanceCommit _⟩

/-! ## The snapshot a node takes -/

/-- Compaction is transparent: whatever a node with a well-indexed log does when it is told to take a snapshot
leaves the last index and term, the term at `lastApplied` and every entry above it as they were, and the log well-indexed.
So every vote request gets the same answer as before, and so does every `AppendEntries` request that starts at
`lastApplied` or above, and it leaves the same entries above `lastApplied`. -/
theorem createSnapshotLocked_transparent {io : Io} (hlog : Numbered r.logBaseIndex r.log) :
    ((r.createSnapshotLocked io).lastLogIndex = r.lastLogIndex ∧
      (r.createSnapshotLocked io).lastLogTerm = r.lastLogTerm ∧
      ((r.createSnapshotLocked io).entryAt r.lastApplied).map LogEntry.term =
        (r.entryAt r.lastApplied).map LogEntry.term ∧
      (∀ i, r.lastApplied < i → (r.createSnapshotLocked io).entryAt i = r.entryAt i) ∧
      Numbered (r.createSnapshotLocked io).logBaseIndex (r.createSnapshotLocked io).log) ∧
    (∀ req io', ((r.createSnapshotLocked io).requestVote req io').2 = (r.requestVote req io').2) ∧
    ∀ req io', r.lastApplied ≤ req.prevLogIndex → (∀ e ∈ req.entries, r.lastApplied < e.index) →
      ((r.createSnapshotLocked io).appendEntries req io').2 = (r.appendEntries req io').2 ∧
      ((r.createSnapshotLocked io).appendEntries req io').1.log.filter (fun e => decide (r.lastApplied < e.index)) =
        (r.appendEntries req io').1.log.filter (fun e => decide (r.lastApplied < e.index)) ∧
      ∀ i, r.lastApplied < i →
        ((r.createSnapshotLocked io).appendEntries req io').1.entryAt i = (r.appendEntries req io').1.entryAt i := by
  rcases createSnapshotLocked_compacts r io with ⟨_, hsame⟩ | ⟨_, snap, ⟨ho, hc⟩⟩
  · rw [hsame]
    exact ⟨⟨rfl, rfl, rfl, fun _ _ => rfl, hlog⟩, fun _ _ => rfl, fun _ _ _ _ => ⟨rfl, rfl, fun _ _ => rfl⟩⟩
  · have h := compacted_of_compacts hlog (createSnapshotLocked_rest r io).toSameVotes ho hc
    refine ⟨⟨h.lastLogIndex, h.lastLogTerm, h.entryAt_term, fun i hi => h.entryAt hi, ?_⟩,
      fun req io' => (h.requestVote req io').1, fun req io' hprev hes => ?_⟩
    · rw [hc.base, hc.log, ho.index]
      exact hlog.compact h.base_le _
    · obtain ⟨hans, h'⟩ := h.appendEntries hprev hes io'
      exact ⟨hans, h'.filter_above, fun i hi => h'.entryAt hi⟩

/-- A leader that has applied index 4 of a log with base 2. -/
def appliedLeader : Raft where
  id := "A"
  peers := ["B", "C"]
  state := .leader
  term := 2
  log := [boundary 2 1, ⟨3, 1, .put [1] [1]⟩, ⟨4, 2, .put [1] [2]⟩, ⟨5, 2, .put [1] [3]⟩]
  logBaseIndex := 2
  commitIndex := 4
  lastApplied := 4
  snapshotter := true

/-- The snapshot succeeds, and a candidate of a later term with a shorter log is refused as before. -/
theorem createSnapshotLocked_transparent_appliedLeader :
    (appliedLeader.createSnapshotLocked {}).log = [boundary 4 2, ⟨5, 2, .put [1] [3]⟩] ∧
      ((appliedLeader.createSnapshotLocked {}).requestVote ⟨"B", 3, 4, 2⟩ {}).2 = ⟨2, false⟩ ∧
      (appliedLeader.createSnapshotLocked {}).entryAt 5 = some ⟨5, 2, .put [1] [3]⟩ := by
  obtain ⟨⟨_, _, _, hentry, _⟩, hvote, _⟩ := @createSnapshotLocked_transparent appliedLeader {} (by decide)
  refine ⟨by decide, ?_, ?_⟩
  · rw [hvote]; decide
  · rw [hentry 5 (by decide)]; decide

end Raft

end Mimori
