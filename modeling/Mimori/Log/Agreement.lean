/-
What the answers of a follower stand for. A leader counts an index as held by a follower once a request
that ends there was answered with success, and pipelined requests may arrive again, late and out of
order: what was acknowledged stays. The follower's own commit index, on the other hand, moves up to the
end of its log, which may go on beyond what the request has verified.
-/
import Mimori.Log.Merge

namespace Mimori

open Raft TermLog

/-! ## The log of a leader -/

/-- The term of the entry with index `i` in a log that starts at index 0. -/
def termIn (L : List LogEntry) (i : Int) : Option Int := if i < 0 then none else L[i.toNat]?.map LogEntry.term

/-- The entries of the request follow its previous index in `L`, and its previous term is that of `L`. -/
structure SegmentOf (L : List LogEntry) (req : AppendEntriesRequest) : Prop where
  nonneg : 0 ≤ req.prevLogIndex
  prevTerm : termIn L req.prevLogIndex = some req.prevLogTerm
  entries : (L.drop (req.prevLogIndex.toNat + 1)).take req.entries.length = req.entries

theorem Numbered.segment {L : List LogEntry} (hL : Numbered 0 L) {req : AppendEntriesRequest} (h : SegmentOf L req) :
    Numbered (req.prevLogIndex + 1) req.entries := by
  have hn := (hL.drop (req.prevLogIndex.toNat + 1)).take req.entries.length
  rw [h.entries] at hn
  have h0 := h.nonneg
  rwa [show (0 : Int) + ((req.prevLogIndex.toNat + 1 : Nat) : Int) = req.prevLogIndex + 1 by omega] at hn

namespace Raft

variable {r r' : Raft} {L : List LogEntry} {req : AppendEntriesRequest} {i : Int}

/-- The term of the entry with index `i`. -/
def entryTerm (r : Raft) (i : Int) : Option Int := (r.entryAt i).map LogEntry.term

/-- Equal terms at an index imply equal terms below it. -/
def LogMatching (L : List LogEntry) (r : Raft) : Prop :=
  ∀ i t, r.entryTerm i = some t → termIn L i = some t → ∀ j, r.logBaseIndex ≤ j → j ≤ i → r.entryTerm j = termIn L j

/-- The entry at the base of the log has the term of `L` there. -/
def BaseAgrees (L : List LogEntry) (r : Raft) : Prop :=
  ∃ t, r.entryTerm r.logBaseIndex = some t ∧ termIn L r.logBaseIndex = some t

theorem entryTerm_getElem? (hi : r.logBaseIndex ≤ i) :
    r.entryTerm i = (r.log.map LogEntry.term)[(i - r.logBaseIndex).toNat]? := by
  unfold entryTerm
  rw [entryAt_getElem? hi, List.getElem?_map]

/-! ## By position -/

/-- The terms `L` has from index `b` on. -/
def termsFrom (L : List LogEntry) (b : Int) : List Int := (L.drop b.toNat).map LogEntry.term

theorem termIn_getElem? {b : Int} (hb : 0 ≤ b) (hi : b ≤ i) : termIn L i = (termsFrom L b)[(i - b).toNat]? := by
  unfold termIn termsFrom
  rw [if_neg (by omega), List.getElem?_map, List.getElem?_drop, show b.toNat + (i - b).toNat = i.toNat by omega]

/-- The log of the node and `L` from its base on, compared by their terms. -/
structure Comparable (L : List LogEntry) (r : Raft) : Prop where
  base : 0 ≤ r.logBaseIndex
  first : (r.log.map LogEntry.term).take 1 = (termsFrom L r.logBaseIndex).take 1
  matching : TermsMatch (r.log.map LogEntry.term) (termsFrom L r.logBaseIndex)

/-- The terms agree on the indices from the base up to `m`. -/
def AgreesUpTo (L : List LogEntry) (r : Raft) (m : Int) : Prop :=
  (r.log.map LogEntry.term).take (m + 1 - r.logBaseIndex).toNat =
    (termsFrom L r.logBaseIndex).take (m + 1 - r.logBaseIndex).toNat

theorem AgreesUpTo.entryTerm {m : Int} (h : AgreesUpTo L r m) (h0 : 0 ≤ r.logBaseIndex) (hb : r.logBaseIndex ≤ i)
    (hi : i ≤ m) : r.entryTerm i = termIn L i := by
  have hget := congrArg (fun l => l[(i - r.logBaseIndex).toNat]?) h
  simp only [List.getElem?_take, if_pos (by omega : (i - r.logBaseIndex).toNat < (m + 1 - r.logBaseIndex).toNat)] at hget
  rw [entryTerm_getElem? hb, termIn_getElem? h0 hb, hget]

theorem take_eq_of_getElem? {α : Type} {p q : List α} {n : Nat} (h : ∀ k < n, p[k]? = q[k]?) : p.take n = q.take n := by
  refine List.ext_getElem? fun k => ?_
  rw [List.getElem?_take, List.getElem?_take]
  split
  · rename_i hk; exact h k hk
  · rfl

/-- Log matching and agreement at the base, by position. -/
theorem BaseAgrees.comparable (hb : BaseAgrees L r) (hm : LogMatching L r) : Comparable L r := by
  obtain ⟨t, h1, h2⟩ := hb
  have h0 : 0 ≤ r.logBaseIndex := by
    by_contra hneg
    rw [termIn, if_pos (by omega)] at h2
    cases h2
  refine ⟨h0, take_eq_of_getElem? fun k hk => ?_, fun k x hx hy => take_eq_of_getElem? fun j hj => ?_⟩
  · obtain rfl : k = 0 := by omega
    have e1 := entryTerm_getElem? (r := r) (le_refl r.logBaseIndex)
    have e2 := termIn_getElem? (L := L) h0 (le_refl r.logBaseIndex)
    rw [Int.sub_self] at e1 e2
    exact e1.symm.trans (h1.trans (h2.symm.trans e2))
  · have e1 := fun j : Nat => entryTerm_getElem? (r := r) (show r.logBaseIndex ≤ r.logBaseIndex + j by omega)
    have e2 := fun j : Nat => termIn_getElem? (L := L) h0 (show r.logBaseIndex ≤ r.logBaseIndex + j by omega)
    have hpos : ∀ j : Nat, (r.logBaseIndex + j - r.logBaseIndex).toNat = j := fun j => by omega
    simp only [hpos] at e1 e2
    rw [← e1, ← e2]
    exact hm (r.logBaseIndex + k) x ((e1 k).trans hx) ((e2 k).trans hy) _ (by omega) (by omega)

/-! ## Requests -/

/-- Where the check finds the previous entry of a segment of `L`, the log agrees with `L` up to it. -/
theorem Comparable.consistent (h : Comparable L r) (hs : SegmentOf L req)
    (hc : r.logConsistent req.prevLogIndex req.prevLogTerm = true) : AgreesUpTo L r req.prevLogIndex := by
  have h0 := h.base
  unfold AgreesUpTo
  rcases logConsistent_cases hc with hz | ⟨e, he, ht⟩
  · exact take_eq_of_le h.first (by omega)
  · have hb := base_le_of_entryAt he
    have e1 := entryTerm_getElem? hb
    have e2 := hs.prevTerm
    rw [entryTerm, he, Option.map_some, ht] at e1
    rw [termIn_getElem? h0 hb] at e2
    rw [show (req.prevLogIndex + 1 - r.logBaseIndex).toNat = (req.prevLogIndex - r.logBaseIndex).toNat + 1 by omega]
    exact h.matching _ _ e1.symm e2

/-- An accepted segment of `L` changes no term, if the log agrees with `L` up to its end, or leaves the
terms of `L` up to there. -/
theorem Comparable.merge (h : Comparable L r) (hL : Numbered 0 L) (hs : SegmentOf L req) (hm : Merges r r' req) :
    Overwritten (r.log.map LogEntry.term) (termsFrom L r.logBaseIndex) (req.lastIndex + 1 - r.logBaseIndex).toNat
      (r'.log.map LogEntry.term) := by
  have h0 := h.base
  have hprev := hs.nonneg
  have hn := hL.segment hs
  unfold AppendEntriesRequest.lastIndex
  rw [hm.log]
  rcases Int.lt_or_le (req.prevLogIndex + 1) r.logBaseIndex with hlt | hle
  · -- the request starts from the beginning, and what lies below the base is skipped
    have hz : req.prevLogIndex = 0 := by
      rcases logConsistent_cases hm.consistent with hz | ⟨e, he, _⟩
      · omega
      · have := base_le_of_entryAt he
        omega
    obtain ⟨k, hk⟩ : ∃ k : Nat, r.logBaseIndex = k + 1 := ⟨(r.logBaseIndex - 1).toNat, by omega⟩
    have hd := hn.drop k
    rw [show req.prevLogIndex + 1 + (k : Int) = (r.logBaseIndex - 1) + 1 by omega] at hd
    have hskip : mergeEntries r.logBaseIndex r.log req.entries =
        splice LogEntry.term r.log 0 (req.entries.drop k) := by
      rw [mergeEntries_skip hn (by omega), show (r.logBaseIndex - (req.prevLogIndex + 1)).toNat = k by omega,
        mergeEntries_eq_splice hd (by omega), show (r.logBaseIndex - 1 + 1 - r.logBaseIndex).toNat = 0 by omega]
    have hseg : ((termsFrom L r.logBaseIndex).drop 0).take (req.entries.drop k).length =
        (req.entries.drop k).map LogEntry.term := by
      have he := congrArg (List.drop k) hs.entries
      rw [List.drop_take, List.drop_drop, hz, show (0 : Int).toNat + 1 + k = r.logBaseIndex.toNat by omega] at he
      rw [List.drop_zero, List.length_drop, termsFrom, ← List.map_take, he]
    have hover := h.matching.splice (k := 0) (by simp) hseg
    rw [List.length_drop] at hover
    rw [hskip, show (req.prevLogIndex + req.entries.length + 1 - r.logBaseIndex).toNat =
      0 + (req.entries.length - k) by omega]
    exact hover
  · have hbelow := h.consistent hs hm.consistent
    have hseg : ((termsFrom L r.logBaseIndex).drop (req.prevLogIndex + 1 - r.logBaseIndex).toNat).take
        req.entries.length = req.entries.map LogEntry.term := by
      rw [termsFrom, ← List.map_drop, List.drop_drop, ← List.map_take,
        show r.logBaseIndex.toNat + (req.prevLogIndex + 1 - r.logBaseIndex).toNat = req.prevLogIndex.toNat + 1 by omega,
        hs.entries]
    rw [mergeEntries_eq_splice hn hle,
      show (req.prevLogIndex + req.entries.length + 1 - r.logBaseIndex).toNat =
        (req.prevLogIndex + 1 - r.logBaseIndex).toNat + req.entries.length by omega]
    exact h.matching.splice hbelow hseg

/-- One request, whatever the answer: the logs stay comparable, and agree where they did before. -/
theorem Comparable.step (h : Comparable L r) (hL : Numbered 0 L) (hs : SegmentOf L req) (io : Io) :
    Comparable L (r.appendEntries req io).1 ∧ (r.appendEntries req io).1.logBaseIndex = r.logBaseIndex ∧
      (∀ m, AgreesUpTo L r m → AgreesUpTo L (r.appendEntries req io).1 m) ∧
      ((r.appendEntries req io).2.success = true → AgreesUpTo L (r.appendEntries req io).1 req.lastIndex) := by
  rcases appendEntries_merges r req io with ⟨hf, hsame⟩ | ⟨_, hm⟩
  · refine ⟨⟨?_, ?_, ?_⟩, hsame.base, fun m hm => ?_, fun ht => ?_⟩
    · rw [hsame.base]; exact h.base
    · rw [hsame.base, hsame.log]; exact h.first
    · rw [hsame.base, hsame.log]; exact h.matching
    · unfold AgreesUpTo
      rw [hsame.base, hsame.log]; exact hm
    · rw [hf] at ht; cases ht
  · have hover := h.merge hL hs hm
    refine ⟨⟨?_, ?_, ?_⟩, hm.base, fun m hag => ?_, fun _ => ?_⟩
    · rw [hm.base]; exact h.base
    · rw [hm.base]; exact hover.keeps h.first
    · rw [hm.base]; exact h.matching.overwritten hover
    · unfold AgreesUpTo
      rw [hm.base]; exact hover.keeps hag
    · unfold AgreesUpTo
      rw [hm.base]; exact hover.take

/-! ## Sequences of requests -/

/-- A follower after handling a sequence of requests. -/
def appendAll (r : Raft) (reqs : List (AppendEntriesRequest × Io)) : Raft :=
  reqs.foldl (fun r q => (r.appendEntries q.1 q.2).1) r

theorem appendAll_append (r : Raft) (xs ys : List (AppendEntriesRequest × Io)) :
    r.appendAll (xs ++ ys) = (r.appendAll xs).appendAll ys := List.foldl_append ..

theorem Comparable.run (hL : Numbered 0 L) :
    ∀ (reqs : List (AppendEntriesRequest × Io)) {r : Raft}, Comparable L r → (∀ q ∈ reqs, SegmentOf L q.1) →
      Comparable L (r.appendAll reqs) ∧ (r.appendAll reqs).logBaseIndex = r.logBaseIndex ∧
        ∀ m, AgreesUpTo L r m → AgreesUpTo L (r.appendAll reqs) m
  | [], _, h, _ => ⟨h, rfl, fun _ hm => hm⟩
  | (req, io) :: reqs, r, h, hs => by
    obtain ⟨h1, hb1, ha1, _⟩ := h.step hL (hs _ List.mem_cons_self) io
    obtain ⟨h2, hb2, ha2⟩ := Comparable.run hL reqs h1 fun q hq => hs q (List.mem_cons_of_mem _ hq)
    exact ⟨h2, hb2.trans hb1, fun m hm => ha2 m (ha1 m hm)⟩

/-- Acknowledged prefixes never shrink: a follower whose log matches the log `L` of a leader and agrees
with it at its base handles any sequence of requests that are segments of `L`, in any order and with
repetitions. Once one of them was answered with success, the follower has the term of `L` at every index
it has not compacted up to the end of that request, after any further requests of the sequence. -/
theorem acknowledged_prefix_kept (hL : Numbered 0 L) (hmatch : LogMatching L r) (hbase : BaseAgrees L r)
    {before after : List (AppendEntriesRequest × Io)} {io : Io}
    (hs : ∀ q ∈ before ++ (req, io) :: after, SegmentOf L q.1)
    (hack : ((r.appendAll before).appendEntries req io).2.success = true) :
    ∀ i, (r.appendAll (before ++ (req, io) :: after)).logBaseIndex ≤ i → i ≤ req.lastIndex →
      (r.appendAll (before ++ (req, io) :: after)).entryTerm i = termIn L i := by
  have hreq : SegmentOf L req := hs (req, io) (by simp)
  obtain ⟨h1, _, _⟩ := Comparable.run hL before (hbase.comparable hmatch) fun q hq => hs q (List.mem_append_left _ hq)
  obtain ⟨h2, _, _, hagree⟩ := h1.step hL hreq io
  obtain ⟨h3, _, hkeep⟩ := Comparable.run hL after h2 fun q hq => hs q (by simp [hq])
  intro i hb hi
  rw [appendAll_append] at hb ⊢
  exact (hkeep _ (hagree hack)).entryTerm h3.base hb hi

/-- The log of a leader, and a follower whose second entry is of an older term. -/
def leaderLog : List LogEntry :=
  [boundary 0 0, ⟨1, 1, .put [1] [1]⟩, ⟨2, 2, .put [1] [2]⟩, ⟨3, 2, .put [1] [3]⟩]

@[inherit_doc leaderLog]
def staleFollower : Raft where
  id := "B"
  peers := ["A", "C"]
  log := [boundary 0 0, ⟨1, 1, .put [1] [1]⟩, ⟨2, 1, .delete [1]⟩]

theorem staleFollower_matches : LogMatching leaderLog staleFollower := by
  intro i t h1 h2 j hb hj
  have hi : i < 3 := by
    by_contra hc
    rw [entryTerm_getElem? (show staleFollower.logBaseIndex ≤ i from by show (0 : Int) ≤ i; omega)] at h1
    have hlen := (List.getElem?_eq_some_iff.1 h1).1
    simp [staleFollower] at hlen
    omega
  have hj0 : (0 : Int) ≤ j := hb
  have hi0 : (0 : Int) ≤ i := by omega
  interval_cases i
  · interval_cases j; rfl
  · interval_cases j <;> rfl
  · simp [entryTerm, entryAt, termIn, staleFollower, leaderLog] at h1 h2
    omega

/-- A request that ends at index 3, and a shorter one and a heartbeat that come late. -/
def longRequest : AppendEntriesRequest := ⟨2, "A", 1, 1, leaderLog.drop 2, 0⟩

@[inherit_doc longRequest]
def lateRequests : List (AppendEntriesRequest × Io) :=
  [(⟨2, "A", 0, 0, [⟨1, 1, .put [1] [1]⟩], 0⟩, ({} : Io)), (⟨2, "A", 2, 2, [], 3⟩, ({} : Io))]

theorem acknowledged_prefix_kept_late :
    (staleFollower.appendEntries longRequest {}).2.success = true ∧
      ∀ i, (staleFollower.appendAll ([] ++ (longRequest, {}) :: lateRequests)).logBaseIndex ≤ i →
        i ≤ longRequest.lastIndex →
        (staleFollower.appendAll ([] ++ (longRequest, {}) :: lateRequests)).entryTerm i = termIn leaderLog i := by
  have hack : (staleFollower.appendEntries longRequest {}).2.success = true := by decide
  refine ⟨hack, acknowledged_prefix_kept (by decide) staleFollower_matches ⟨0, rfl, rfl⟩ (fun q hq => ?_) hack⟩
  simp only [lateRequests, List.nil_append, List.mem_cons, List.not_mem_nil, or_false] at hq
  rcases hq with rfl | rfl | rfl
  · exact ⟨by decide, by decide, by decide⟩
  · exact ⟨by decide, by decide, by decide⟩
  · exact ⟨by decide, by decide, by decide⟩

/-! ## The follower's commit index -/

/-- The log ends with the last entry of the request, or it is as before and holds all of them. -/
theorem Merges.lastLogIndex (hm : Merges r r' req) (hn : Numbered (req.prevLogIndex + 1) req.entries) :
    r'.lastLogIndex = req.lastIndex ∨
      (r'.lastLogIndex = r.lastLogIndex ∧ ∀ e ∈ req.entries, Holds r.logBaseIndex r.log e) := by
  rcases mergeEntries_cases r.logBaseIndex r.log hn with ⟨hsame, hall⟩ | ⟨front, e, rest, hsplit, _, _, _, hmerge⟩
  · right
    unfold Raft.lastLogIndex
    rw [hm.log, hm.base, hsame]
    exact ⟨rfl, hall⟩
  · left
    have hlast : r'.log.getLast? = req.entries.getLast? := by
      rw [hm.log, hmerge, hsplit, List.getLast?_append_of_ne_nil _ (by simp), List.getLast?_append_of_ne_nil _ (by simp)]
    have hne' : req.entries ≠ [] := by rw [hsplit]; simp
    have hpos := List.length_pos_iff.2 hne'
    have hget := List.getElem?_eq_getElem (show req.entries.length - 1 < req.entries.length by omega)
    have hidx := hn _ _ hget
    unfold Raft.lastLogIndex
    rw [hlast, List.getLast?_eq_getElem?, hget]
    simp only [AppendEntriesRequest.lastIndex]
    omega

/-- Nothing beyond the end of the request comes into question for the commit index: the leader has not
committed more, or the log does not go on, or an entry of the request cuts it off. -/
def commitsVerified (r : Raft) (req : AppendEntriesRequest) : Bool :=
  decide (req.leaderCommit ≤ max r.commitIndex req.lastIndex) ||
    decide (r.lastLogIndex ≤ max r.commitIndex req.lastIndex) || r.contradicts req

theorem Merges.commit_le (hm : Merges r r' req) (hf : Follows r r' req.leaderCommit)
    (hn : Numbered (req.prevLogIndex + 1) req.entries) (hok : r.commitsVerified req = true) :
    r'.commitIndex ≤ max r.commitIndex req.lastIndex := by
  have hc := hf.commit
  rw [hc]
  rcases hm.lastLogIndex hn with hlast | ⟨hlast, hall⟩
  · rw [hlast]
    split
    · split <;> omega
    · omega
  · rw [hlast]
    simp only [commitsVerified, contradicts_eq_false hall, Bool.or_false, Bool.or_eq_true, decide_eq_true_eq] at hok
    split
    · split <;> omega
    · omega

/-- Without a contradiction a well-indexed log ends where it did, or it was shorter than the request. -/
theorem Merges.last_of_not_contradicts (hi : Indexed r) (hm : Merges r r' req)
    (hn : Numbered (req.prevLogIndex + 1) req.entries) (hc : r.contradicts req = false) :
    r'.lastLogIndex = r.lastLogIndex ∨ r.lastLogIndex < req.lastIndex := by
  have hl := hi.lastLogIndex
  rcases mergeEntries_cases r.logBaseIndex r.log hn with ⟨hsame, _⟩ | ⟨front, e, rest, hsplit, _, hb, hnot, _⟩
  · left
    unfold Raft.lastLogIndex
    rw [hm.log, hm.base, hsame]
  · right
    have he : e ∈ req.entries := by rw [hsplit]; simp
    have hlen := length_le_of_not_contradicts hc he hb hnot
    obtain ⟨k, hk⟩ := List.mem_iff_getElem?.1 he
    have hidx := hn k e hk
    have hk' := (List.getElem?_eq_some_iff.1 hk).1
    unfold AppendEntriesRequest.lastIndex
    omega

/-- The condition is exact: a well-indexed follower that commits no more than the request verified met it. -/
theorem Merges.commitsVerified (hi : Indexed r) (hm : Merges r r' req) (hf : Follows r r' req.leaderCommit)
    (hn : Numbered (req.prevLogIndex + 1) req.entries) (hle : r'.commitIndex ≤ max r.commitIndex req.lastIndex) :
    r.commitsVerified req = true := by
  cases hc : r.contradicts req with
  | true => simp only [Raft.commitsVerified, hc, Bool.or_true]
  | false =>
    simp only [Raft.commitsVerified, hc, Bool.or_false, Bool.or_eq_true, decide_eq_true_eq]
    rw [hf.commit] at hle
    rcases hm.last_of_not_contradicts hi hn hc with hlast | hlast
    · rw [hlast] at hle
      split at hle
      · split at hle <;> omega
      · omega
    · omega

theorem appendEntries_accepted {io : Io} (hs : (r.appendEntries req io).2.success = true) :
    Merges r (r.appendEntries req io).1 req ∧ Follows r (r.appendEntries req io).1 req.leaderCommit := by
  rcases appendEntries_merges r req io with ⟨hf, _⟩ | ⟨_, hm⟩
  · rw [hf] at hs; cases hs
  rcases appendEntries_follows r req io with ⟨hf, _⟩ | ⟨_, hfol⟩
  · rw [hf] at hs; cases hs
  exact ⟨hm, hfol⟩

/-- A follower commits only what the request verified: after a successful answer to a request with
consecutive entries the commit index has moved at most to the end of the request, unless the leader has
committed more and the follower's log goes on beyond the request without contradicting it. -/
theorem commit_verified {io : Io} (hn : Numbered (req.prevLogIndex + 1) req.entries)
    (hok : r.commitsVerified req = true) (hs : (r.appendEntries req io).2.success = true) :
    (r.appendEntries req io).1.commitIndex ≤ max r.commitIndex (req.prevLogIndex + req.entries.length) := by
  obtain ⟨hm, hf⟩ := appendEntries_accepted hs
  exact hm.commit_le hf hn hok

/-- The leader has committed index 3, and the request brings the entries up to there. -/
theorem commit_verified_long :
    (staleFollower.appendEntries ⟨2, "A", 1, 1, leaderLog.drop 2, 3⟩ {}).2.success = true ∧
      (staleFollower.appendEntries ⟨2, "A", 1, 1, leaderLog.drop 2, 3⟩ {}).1.commitIndex ≤ max 0 (1 + 2) := by
  have hs : (staleFollower.appendEntries ⟨2, "A", 1, 1, leaderLog.drop 2, 3⟩ {}).2.success = true := by decide
  exact ⟨hs, commit_verified (r := staleFollower) (by decide) (by decide) hs⟩

/-- A heartbeat that verifies the log up to index 1 makes the follower commit its own entry at index 2,
which is not the leader's. -/
theorem heartbeat_commits_unverified :
    Numbered staleFollower.logBaseIndex staleFollower.log ∧
      (staleFollower.appendEntries ⟨2, "A", 1, 1, [], 2⟩ {}).2.success = true ∧
      (staleFollower.appendEntries ⟨2, "A", 1, 1, [], 2⟩ {}).1.commitIndex = 2 ∧
      max staleFollower.commitIndex (1 + ([] : List LogEntry).length) = 1 ∧
      (staleFollower.appendEntries ⟨2, "A", 1, 1, [], 2⟩ {}).1.entryTerm 2 = some 1 ∧ termIn leaderLog 2 = some 2 := by
  decide

end Raft

end Mimori
