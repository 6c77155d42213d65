/-
Synchronous rounds between a leader and one peer: `sendHeartbeats` reads from `nextIndex` what the peer
lacks, the batches are delivered in order, and every answer is handled before the next batch is sent. A
batch that is refused moves `nextIndex` back by one, so after finitely many rounds one is accepted and all
that follow it are. Then the logs agree exactly if the terms that were sent with them fit the messages. A
peer behind the snapshot is another matter: `nextIndex` does not go back as far as the snapshot.
-/
import Mimori.Log.Agreement
import Mimori.Log.Placed
import Mimori.Replication.Pipeline

namespace Mimori

open Raft TermLog

/-- A leader and one of its peers. -/
structure Pair where
  leader : Raft
  follower : Raft

/-- What `sendAppendEntriesBatch` returns after an answer. -/
def Raft.batchReplicated (r : Raft) (a : AppendArgs) (resp : AppendEntriesResponse) : Bool :=
  decide (resp.term ≤ r.term) && resp.success && r.peers.contains a.peer

/-- The batches of the loop of `sendBatchesWithPipeline` when there is always a free permit. -/
def batchesFrom : Nat → AppendArgs → List AppendArgs
  | 0, _ => []
  | fuel + 1, a => if a.entries = [] then [] else currentBatch a :: batchesFrom fuel (afterSent a)

/-- What `sendBatchesWithPipeline` sends: an empty heartbeat, or the entries in batches. -/
def batches (a : AppendArgs) : List AppendArgs :=
  if a.entries = [] then [a] else batchesFrom a.entries.length a

theorem pipelineLoop_granted : ∀ (fuel : Nat) (a : AppendArgs),
    pipelineLoop (List.replicate fuel true) a = batchesFrom fuel a
  | 0, _ => rfl
  | fuel + 1, a => by
    rw [List.replicate_succ, pipelineLoop, batchesFrom]
    split
    · rfl
    · show currentBatch a :: pipelineLoop (List.replicate fuel true) (afterSent a) = _
      rw [pipelineLoop_granted fuel]

/-- The batches of a round are those of the pipeline when every batch gets its permit. -/
theorem batches_eq_pipeline (a : AppendArgs) :
    batches a = sendBatchesWithPipeline a (List.replicate a.entries.length true) := by
  unfold batches sendBatchesWithPipeline
  rw [pipelineLoop_granted]

inductive RoundResult
  /-- The peer has no name. -/
  | skipped
  /-- The process of the leader died. -/
  | died
  /-- The snapshot is sent. -/
  | snapshot
  /-- What each batch returned, and the goroutines the answers started. -/
  | sent (replicated : List Bool) (started : List Task)
  deriving DecidableEq

namespace Pair

/-- One batch: the peer handles the request, and the leader its answer. -/
def exchange (x : Pair) (a : AppendArgs) (io : Io) : Pair × Bool × List Task :=
  let answer := x.follower.appendEntries (appendEntriesRequest a) io
  let handled := x.leader.handleAppendResponse a answer.2 io
  (⟨handled.1, answer.1⟩, x.leader.batchReplicated a answer.2, handled.2)

def exchangeAll (io : Io) : Pair → List AppendArgs → Pair × List Bool × List Task
  | x, [] => (x, [], [])
  | x, a :: as =>
    let first := x.exchange a io
    let rest := exchangeAll io first.1 as
    (rest.1, first.2.1 :: rest.2.1, first.2.2 ++ rest.2.2)

/-- What `sendHeartbeats` does for the peer, with all that follows from it. -/
def round (x : Pair) (io : Io) : Pair × RoundResult :=
  if x.follower.id = "" then (x, .skipped)
  else
    match x.leader.heartbeatTo x.leader.term x.leader.id x.follower.id with
    | .panic => (x, .died)
    | .snapshot => (x, .snapshot)
    | .batches a =>
      let y := exchangeAll io x (batches a)
      (y.1, .sent y.2.1 y.2.2)

/-- The two nodes after `k` rounds. -/
def after (x : Pair) (io : Nat → Io) : Nat → Pair
  | 0 => x
  | k + 1 => ((x.after io k).round (io k)).1

/-- The result of round number `k`. -/
def result (x : Pair) (io : Nat → Io) (k : Nat) : RoundResult := ((x.after io k).round (io k)).2

end Pair

/-! ## What a round carries -/

section Tiles

variable {L : List LogEntry} {T : Int} {A B : NodeID} {a : AppendArgs} {as : List AppendArgs} {i : Int}

/-- The message of the batch has a segment of `L` for node `B`, and node `A` as the leader of term `T`. -/
structure Carries (L : List LogEntry) (T : Int) (A B : NodeID) (a : AppendArgs) : Prop where
  peer : a.peer = B
  term : (appendEntriesRequest a).term = T
  leader : (appendEntriesRequest a).leaderId = A
  prev : (appendEntriesRequest a).prevLogIndex = a.prevLogIndex
  segment : SegmentOf L (appendEntriesRequest a)
  acked : ackedIndex a = (appendEntriesRequest a).lastIndex

/-- The batches follow each other in `L`, the first one after index `i` and the last one up to the end. -/
inductive Tiles (L : List LogEntry) (T : Int) (A B : NodeID) : Int → List AppendArgs → Prop
  | last {i : Int} {a : AppendArgs} (h : Carries L T A B a) (hp : a.prevLogIndex = i)
      (hl : ackedIndex a + 1 = L.length) : Tiles L T A B i [a]
  | cons {i : Int} {a : AppendArgs} {as : List AppendArgs} (h : Carries L T A B a) (hp : a.prevLogIndex = i)
      (hrest : Tiles L T A B (ackedIndex a) as) : Tiles L T A B i (a :: as)

/-- The loop stands after index `prevLogIndex` of `L` and has all the rest before it. -/
structure Pending (L : List LogEntry) (T : Int) (A B : NodeID) (a : AppendArgs) : Prop where
  peer : a.peer = B
  term : int32 a.term = T
  leader : a.leaderID = A
  nonneg : 0 ≤ a.prevLogIndex
  prevTerm : termIn L a.prevLogIndex = some (int32 a.prevLogTerm)
  entries : a.entries = L.drop (a.prevLogIndex.toNat + 1)

/-- The indices and terms of the entries fit the messages. -/
def EntriesFit (L : List LogEntry) : Prop := ∀ e ∈ L, Fits e.index ∧ Fits e.term

/-- Those of a log in the form of the messages do. -/
theorem entriesFit_wire (L : List LogEntry) : EntriesFit (L.map LogEntry.toWire) := by
  intro e he
  obtain ⟨e₀, _, rfl⟩ := List.mem_map.1 he
  exact ⟨fits_int32 _, fits_int32 _⟩

theorem termIn_some {t : Int} (h : termIn L i = some t) : 0 ≤ i ∧ ∃ e, L[i.toNat]? = some e ∧ e.term = t := by
  unfold termIn at h
  split at h
  · cases h
  · obtain ⟨e, he, ht⟩ := Option.map_eq_some_iff.1 h
    exact ⟨by omega, e, he, ht⟩

theorem Pending.numbered (h : Pending L T A B a) (hL : Numbered 0 L) : Numbered (a.prevLogIndex + 1) a.entries := by
  have hn := hL.drop (a.prevLogIndex.toNat + 1)
  have h0 := h.nonneg
  rwa [← h.entries, show (0 : Int) + ((a.prevLogIndex.toNat + 1 : Nat) : Int) = a.prevLogIndex + 1 by omega] at hn

/-- The next batch, or an empty one, is a segment. -/
theorem Pending.carries (h : Pending L T A B a) (hL : Numbered 0 L) (hf : EntriesFit L) (n : Nat) :
    Carries L T A B { a with entries := a.entries.take n } := by
  have h0 := h.nonneg
  obtain ⟨_, e, he, _⟩ := termIn_some h.prevTerm
  have hidx := hL _ e he
  have hprev : int32 a.prevLogIndex = a.prevLogIndex := int32_of_fits (by
    have hfi := (hf e (List.mem_of_getElem? he)).1
    rwa [show e.index = a.prevLogIndex by omega] at hfi)
  have hseg : SegmentOf L (appendEntriesRequest { a with entries := a.entries.take n }) := by
    refine ⟨?_, ?_, ?_⟩
    · show 0 ≤ int32 a.prevLogIndex
      rw [hprev]; exact h0
    · show termIn L (int32 a.prevLogIndex) = some (int32 a.prevLogTerm)
      rw [hprev]; exact h.prevTerm
    · show (L.drop ((int32 a.prevLogIndex).toNat + 1)).take (a.entries.take n).length = a.entries.take n
      rw [hprev, ← h.entries, List.length_take, List.take_eq_take_iff]
      omega
  refine ⟨h.peer, h.term, h.leader, hprev, hseg, ?_⟩
  · rw [ackedIndex_eq ((h.numbered hL).take n), AppendEntriesRequest.lastIndex]
    show _ = int32 a.prevLogIndex + _
    rw [hprev]; rfl

theorem Pending.sent (h : Pending L T A B a) (hL : Numbered 0 L) (hf : EntriesFit L)
    (hne : (afterSent a).entries ≠ []) : Pending L T A B (afterSent a) := by
  have hn := h.numbered hL
  have h0 := h.nonneg
  rw [afterSent_entries] at hne
  have hlen : maxEntriesPerBatch < a.entries.length := by
    by_contra hle
    exact hne (List.drop_eq_nil_of_le (by omega))
  have hne' : a.entries ≠ [] := by
    rintro he
    rw [he] at hlen
    simp at hlen
  obtain ⟨hp, e, he, _, ht⟩ := Cluster.afterSent_prev hn hne'
  have htake : (a.entries.take maxEntriesPerBatch).length = maxEntriesPerBatch := by
    rw [List.length_take]; omega
  rw [htake] at hp he
  rw [h.entries, List.getElem?_drop] at he
  refine ⟨(afterSent_peer a).trans h.peer, (afterSent_term a).symm ▸ h.term, (afterSent_leaderID a).trans h.leader,
    by omega, ?_, ?_⟩
  · rw [hp, termIn, if_neg (by omega), ht, int32_of_fits (hf e (List.mem_of_getElem? he)).2]
    rw [show (a.prevLogIndex + (maxEntriesPerBatch : Int)).toNat =
      a.prevLogIndex.toNat + 1 + (maxEntriesPerBatch - 1) by unfold maxEntriesPerBatch; omega, he]
    rfl
  · rw [afterSent_entries, h.entries, List.drop_drop, hp]
    congr 1
    omega

theorem batchesFrom_tile (hL : Numbered 0 L) (hf : EntriesFit L) :
    ∀ {fuel : Nat} {a : AppendArgs}, Pending L T A B a → a.entries ≠ [] → a.entries.length ≤ fuel →
      Tiles L T A B a.prevLogIndex (batchesFrom fuel a)
  | 0, a, _, hne, hfuel => absurd (List.length_eq_zero_iff.1 (by omega)) hne
  | fuel + 1, a, h, hne, hfuel => by
    have hc := h.carries hL hf maxEntriesPerBatch
    have hlen := List.length_pos_iff.2 hne
    have hacked : ackedIndex (currentBatch a) = (afterSent a).prevLogIndex := by
      rw [(Cluster.afterSent_prev (h.numbered hL) hne).1]
      exact ackedIndex_eq ((h.numbered hL).take maxEntriesPerBatch)
    rw [batchesFrom, if_neg hne]
    by_cases hlast : (afterSent a).entries = []
    · -- the batch was the last one
      have hnil : batchesFrom fuel (afterSent a) = [] := by
        cases fuel with
        | zero => rfl
        | succ fuel => rw [batchesFrom, if_pos hlast]
      rw [hnil]
      refine .last hc rfl ?_
      have hall : a.entries.length ≤ maxEntriesPerBatch := by
        rw [afterSent_entries] at hlast
        exact List.drop_eq_nil_iff.1 hlast
      have hL' : a.entries.length = L.length - (a.prevLogIndex.toNat + 1) := by rw [h.entries, List.length_drop]
      have h0 := h.nonneg
      rw [hacked, (Cluster.afterSent_prev (h.numbered hL) hne).1, List.length_take]
      omega
    · refine .cons hc rfl ?_
      rw [hacked]
      refine batchesFrom_tile hL hf (h.sent hL hf hlast) hlast ?_
      rw [afterSent_entries, List.length_drop]
      unfold maxEntriesPerBatch
      omega

/-- What `sendBatchesWithPipeline` sends covers the log from the previous index to its end. -/
theorem Pending.batches (h : Pending L T A B a) (hL : Numbered 0 L) (hf : EntriesFit L) :
    Tiles L T A B a.prevLogIndex (batches a) := by
  unfold Mimori.batches
  split
  · rename_i he
    have hc := h.carries hL hf 0
    rw [List.take_zero, ← he] at hc
    refine .last hc rfl ?_
    obtain ⟨h0, e, hget, _⟩ := termIn_some h.prevTerm
    have hlt := (List.getElem?_eq_some_iff.1 hget).1
    have hdrop := h.entries
    rw [he] at hdrop
    have hle := List.drop_eq_nil_iff.1 hdrop.symm
    rw [ackedIndex_eq (h.numbered hL), he]
    simp only [List.length_nil]
    omega
  · rename_i he
    exact batchesFrom_tile hL hf h he (le_refl _)

end Tiles

/-! ## One batch -/

namespace Raft

variable {r : Raft}

/-- A request from a known node that is not of an older term is answered by the consistency check. -/
theorem appendEntries_known {req : AppendEntriesRequest} (hk : r.isKnownNode req.leaderId = true)
    (ht : r.term ≤ req.term) (io : Io) :
    (r.appendEntries req io).1.term = req.term ∧ (r.appendEntries req io).2.term = int32 r.term ∧
      (r.appendEntries req io).2.success = r.logConsistent req.prevLogIndex req.prevLogTerm := by
  have hterm := adoptTerm_term r req.term io ht
  have hsame : SameLog r (r.afterHearing req io) := (adoptTerm_data r req.term io).toSameLog.trans ⟨rfl, rfl, rfl, rfl⟩
  rw [← logConsistent_sameLog hsame]
  have ho := appendEntries_outcome r req io
  generalize r.appendEntries req io = out at ho ⊢
  cases ho with
  | ignored hno =>
    rcases hno with hno | hno
    · rw [hk] at hno
      cases hno
    · omega
  | refused _ _ hc => exact ⟨hterm, rfl, hc.symm⟩
  | accepted _ _ hc =>
    refine ⟨?_, rfl, hc.symm⟩
    rw [(advanceCommit_same _ _).term, (saveLog_rest _ _).term]
    exact hterm

theorem handleAppendResponse_success {a : AppendArgs} {resp : AppendEntriesResponse} (ht : resp.term ≤ r.term)
    (hs : resp.success = true) (hp : a.peer ∈ r.peers) (hprev : r.logBaseIndex ≤ a.prevLogIndex) (io : Io) :
    (r.handleAppendResponse a resp io).1.nextIndex a.peer = some (ackedIndex a + 1) ∧
      (r.handleAppendResponse a resp io).1.matchIndex a.peer = some (ackedIndex a) := by
  have hprog : r.recordProgress a = { r with
      matchIndex := r.matchIndex.setAll [a.peer] (ackedIndex a)
      nextIndex := r.nextIndex.setAll [a.peer] (ackedIndex a + 1) } := by
    unfold recordProgress
    rw [if_neg (by omega)]
  have heq : (r.handleAppendResponse a resp io).1 = (r.recordProgress a).updateCommitIndexLocked := by
    unfold handleAppendResponse
    simp only [hs, Bool.not_true, Bool.false_eq_true, if_false, List.contains_eq_mem, hp, decide_true]
    rw [if_neg (by omega)]
  rw [heq, hprog]
  rcases updateCommitIndexLocked_cases { r with
      matchIndex := r.matchIndex.setAll [a.peer] (ackedIndex a)
      nextIndex := r.nextIndex.setAll [a.peer] (ackedIndex a + 1) } with h | ⟨N, _, h, _⟩
  · rw [h]; constructor <;> simp [IndexMap.setAll]
  · rw [h]; constructor <;> simp [IndexMap.setAll]

/-- A refused batch moves the next index one back, down to the first index after the base. -/
theorem handleAppendResponse_refused {a : AppendArgs} {resp : AppendEntriesResponse} (ht : resp.term ≤ r.term)
    (hs : resp.success = false) (hsnap : r.behindSnapshot (r.nextIndex.get a.peer) = false) (io : Io) :
    (r.handleAppendResponse a resp io).1.nextIndex.get a.peer =
        max (min (r.logBaseIndex + 1) (r.nextIndex.get a.peer)) (r.nextIndex.get a.peer - 1) ∧
      (r.handleAppendResponse a resp io).2 = [] := by
  unfold handleAppendResponse
  simp only [hs, hsnap, Bool.not_false, if_true, Bool.false_eq_true, if_false]
  rw [if_neg (by omega)]
  split
  · refine ⟨?_, rfl⟩
    simp only [IndexMap.get, IndexMap.setAll, List.mem_singleton, if_true, Option.getD_some]
    simp only [IndexMap.get] at *
    omega
  · refine ⟨?_, rfl⟩
    show r.nextIndex.get a.peer = _
    omega

end Raft

/-! ## Repair -/

/-- A request put the log `W` into the log of the node after index `p`, where both had the same term, and up to `m`. -/
structure Replaced (W : List LogEntry) (r r' : Raft) (p m : Int) : Prop where
  found : ∃ t, r.entryTerm p = some t ∧ termIn W p = some t
  below : ∀ i ≤ p, r'.entryAt i = r.entryAt i
  upTo : ∀ i, p ≤ i → i ≤ m → r'.entryTerm i = termIn W i

section Replaced

variable {W : List LogEntry} {r r' r'' : Raft} {req : AppendEntriesRequest} {p m m' : Int}

theorem Replaced.trans (h : Replaced W r r' p m) (h' : Replaced W r' r'' m m') (hp : p ≤ m) :
    Replaced W r r'' p m' := by
  refine ⟨h.found, fun i hi => (h'.below i (hi.trans hp)).trans (h.below i hi), fun i hi hm => ?_⟩
  rcases le_total i m with him | hmi
  · rw [entryTerm, h'.below i him]; exact h.upTo i hi him
  · exact h'.upTo i hmi hm

/-- Nothing depends on what the node had above `p`. -/
theorem Replaced.of_same (h : Replaced W r' r'' p m) (hsame : ∀ i, r'.entryAt i = r.entryAt i) :
    Replaced W r r'' p m := by
  refine ⟨?_, fun i hi => (h.below i hi).trans (hsame i), h.upTo⟩
  have hf := h.found
  rwa [entryTerm, hsame] at hf

/-- The term of an entry of the segment, from the previous one on. -/
theorem SegmentOf.termIn (hs : SegmentOf W req) {i : Int} (hi : req.prevLogIndex < i) (hm : i ≤ req.lastIndex) :
    ∃ e ∈ req.entries, W[i.toNat]? = some e := by
  have h0 := hs.nonneg
  unfold AppendEntriesRequest.lastIndex at hm
  have hlt : (i - req.prevLogIndex - 1).toNat < req.entries.length := by omega
  have hget := congrArg (fun l => l[(i - req.prevLogIndex - 1).toNat]?) hs.entries
  simp only [List.getElem?_take, if_pos hlt, List.getElem?_drop] at hget
  rw [show req.prevLogIndex.toNat + 1 + (i - req.prevLogIndex - 1).toNat = i.toNat by omega,
    List.getElem?_eq_getElem hlt] at hget
  exact ⟨_, List.getElem_mem hlt, hget⟩

/-- An accepted request of a segment, where the term before it is that of `W`. -/
theorem Replaced.of_merges (hm : Merges r r' req) (hi : Indexed r) (hb : r.logBaseIndex = 0) (hW : Numbered 0 W)
    (hs : SegmentOf W req) (hfound : r.entryTerm req.prevLogIndex = Mimori.termIn W req.prevLogIndex) :
    Replaced W r r' req.prevLogIndex req.lastIndex := by
  have hn := hW.segment hs
  have h0 := hs.nonneg
  have hbelow := fun i (h : i ≤ req.prevLogIndex) => hm.entryAt_below (i := i) hi.base hi.ne hn h
  refine ⟨⟨_, hfound.trans hs.prevTerm, hs.prevTerm⟩, hbelow, fun i hpi him => ?_⟩
  rcases eq_or_lt_of_le hpi with rfl | hpi
  · rw [entryTerm, hbelow _ (le_refl _)]; exact hfound
  · obtain ⟨e, he, hget⟩ := hs.termIn hpi him
    have hidx := hW _ e hget
    obtain ⟨old, hold, ht⟩ := hm.entryAt_sent hi.base hi.ne hi.numbered hn he (by omega)
    rw [show e.index = i by omega] at hold
    rw [entryTerm, hold, Mimori.termIn, if_neg (by omega), hget, Option.map_some, Option.map_some, ht]

end Replaced

namespace Pair

variable {W F : List LogEntry} {T : Int} {A B : NodeID} {a : AppendArgs} {as : List AppendArgs} {x : Pair} {i : Int}

/-- The uncompacted log of leader `A` is `W` in its messages, and the log of its peer `B` is uncompacted too; `F` is the
one with which `B` began. `T` is the term that the messages of `A` say: it is not older than that of `B`, and the
answers of `B` are not of a later term than `A` has. -/
structure Repairing (W F : List LogEntry) (T : Int) (A B : NodeID) (x : Pair) : Prop where
  wire : x.leader.log.map LogEntry.toWire = W
  indexed : Indexed x.leader
  fresh : x.leader.snapshot = none
  leader : x.leader.id = A ∧ int32 x.leader.term = T ∧ T ≤ x.leader.term
  peer : B ∈ x.leader.peers
  follower : x.follower.id = B
  known : x.follower.isKnownNode A = true
  term : x.follower.term ≤ T ∧ int32 x.follower.term ≤ x.leader.term
  placed : Indexed x.follower ∧ x.follower.snapshot = none
  first : x.follower.entryTerm 0 = termIn W 0
  entries : ∀ e ∈ x.follower.log, e ∈ F ∨ e ∈ W

theorem Repairing.base (h : Repairing W F T A B x) : x.follower.logBaseIndex = 0 := (h.placed.1.fresh h.placed.2).1

/-- The check of the follower finds out whether it has the term of the previous index. -/
theorem logConsistent_iff {r : Raft} {req : AppendEntriesRequest} (hb : r.logBaseIndex = 0)
    (hfirst : r.entryTerm 0 = termIn W 0) (hs : SegmentOf W req) :
    r.logConsistent req.prevLogIndex req.prevLogTerm = true ↔
      r.entryTerm req.prevLogIndex = termIn W req.prevLogIndex := by
  have h0 := hs.nonneg
  constructor
  · intro hc
    rcases logConsistent_cases hc with hz | ⟨e, he, ht⟩
    · rwa [show req.prevLogIndex = 0 by omega]
    · rw [entryTerm, he, Option.map_some, ht, hs.prevTerm]
  · intro hterm
    rw [hs.prevTerm] at hterm
    obtain ⟨e, he, ht⟩ := Option.map_eq_some_iff.1 hterm
    unfold logConsistent
    split
    · rw [if_neg (by omega), he]
      simpa using ht
    · rfl

/-- The follower's side of one batch. -/
theorem Repairing.answer (h : Repairing W F T A B x) (hW : Numbered 0 W) (hc : Carries W T A B a) (io : Io) :
    Repairing W F T A B ⟨x.leader, (x.follower.appendEntries (appendEntriesRequest a) io).1⟩ ∧
      (x.follower.appendEntries (appendEntriesRequest a) io).2.term ≤ x.leader.term ∧
      ((x.follower.appendEntries (appendEntriesRequest a) io).2.success = true ↔
        x.follower.entryTerm a.prevLogIndex = termIn W a.prevLogIndex) ∧
      ((x.follower.appendEntries (appendEntriesRequest a) io).2.success = true →
        Replaced W x.follower (x.follower.appendEntries (appendEntriesRequest a) io).1 a.prevLogIndex (ackedIndex a)) ∧
      ((x.follower.appendEntries (appendEntriesRequest a) io).2.success = false →
        ∀ i, (x.follower.appendEntries (appendEntriesRequest a) io).1.entryAt i = x.follower.entryAt i) := by
  have hk : x.follower.isKnownNode (appendEntriesRequest a).leaderId = true := by rw [hc.leader]; exact h.known
  obtain ⟨hterm, hresp, hsucc⟩ := appendEntries_known hk (by rw [hc.term]; exact h.term.1) io
  have hmem := (appendEntries_move x.follower (appendEntriesRequest a) io).members
  have hmerge := appendEntries_merges x.follower (appendEntriesRequest a) io
  have hiff := logConsistent_iff h.base h.first hc.segment
  rw [← hsucc, hc.prev] at hiff
  have hn := hW.segment hc.segment
  have h0 := hc.segment.nonneg
  rw [hc.acked, ← hc.prev]
  rw [← hc.prev] at hiff
  generalize x.follower.appendEntries (appendEntriesRequest a) io = answer at *
  have hfirst : answer.1.entryAt 0 = x.follower.entryAt 0 := by
    rcases hmerge with ⟨_, hsame⟩ | ⟨_, hm⟩
    · exact hsame.entryAt 0
    · exact hm.entryAt_below h.placed.1.base h.placed.1.ne hn h0
  refine ⟨⟨h.wire, h.indexed, h.fresh, h.leader, h.peer, hmem.id.trans h.follower, ?_, ?_, ?_, ?_, ?_⟩, ?_, hiff, ?_, ?_⟩
  · have hknown : ∀ id, answer.1.isKnownNode id = x.follower.isKnownNode id := by
      intro id
      unfold isKnownNode
      rw [hmem.id, hmem.peers]
    rw [hknown]; exact h.known
  · rw [hterm, hc.term, int32_of_fits (h.leader.2.1 ▸ fits_int32 _)]
    exact ⟨le_refl _, h.leader.2.2⟩
  · rcases hmerge with ⟨_, hsame⟩ | ⟨_, hm⟩
    · exact ⟨h.placed.1.of_sameLog hsame.toSameLog, hsame.snapshot.trans h.placed.2⟩
    · exact ⟨h.placed.1.merge hm hn, hm.snapshot.trans h.placed.2⟩
  · rw [entryTerm, hfirst]; exact h.first
  · intro e he
    rcases hmerge with ⟨_, hsame⟩ | ⟨_, hm⟩
    · rw [hsame.log] at he; exact h.entries e he
    · rw [hm.log] at he
      rcases mergeEntries_mem he with he | he
      · exact h.entries e he
      · rw [← hc.segment.entries] at he
        exact .inr (List.mem_of_mem_drop (List.mem_of_mem_take he))
  · rw [hresp]; exact h.term.2
  · intro hs
    rcases hmerge with ⟨hno, _⟩ | ⟨_, hm⟩
    · rw [hno] at hs; cases hs
    · exact .of_merges hm h.placed.1 h.base hW hc.segment (hiff.1 hs)
  · intro hs j
    rcases hmerge with ⟨_, hsame⟩ | ⟨hyes, _⟩
    · exact hsame.entryAt j
    · rw [hyes] at hs; cases hs

/-- What a batch leaves behind: it was replicated up to its end, because the peer has the term before it, or it was
refused and the next index went one back. -/
theorem Repairing.exchange (h : Repairing W F T A B x) (hW : Numbered 0 W) (hc : Carries W T A B a) (io : Io) :
    Repairing W F T A B (x.exchange a io).1 ∧
      ((x.follower.entryTerm a.prevLogIndex = termIn W a.prevLogIndex ∧ (x.exchange a io).2.1 = true ∧
          Replaced W x.follower (x.exchange a io).1.follower a.prevLogIndex (ackedIndex a) ∧
          (x.exchange a io).1.leader.nextIndex B = some (ackedIndex a + 1) ∧
          (x.exchange a io).1.leader.matchIndex B = some (ackedIndex a)) ∨
        (x.follower.entryTerm a.prevLogIndex ≠ termIn W a.prevLogIndex ∧ (x.exchange a io).2.1 = false ∧
          (∀ i, (x.exchange a io).1.follower.entryAt i = x.follower.entryAt i) ∧
          (x.exchange a io).1.leader.nextIndex.get B =
            max (min 1 (x.leader.nextIndex.get B)) (x.leader.nextIndex.get B - 1))) := by
  obtain ⟨hrep, hterm, hsucc, hreplaced, hkept⟩ := h.answer hW hc io
  have hb := (h.indexed.fresh h.fresh).1
  have hpeer : a.peer ∈ x.leader.peers := by rw [hc.peer]; exact h.peer
  have hprev : x.leader.logBaseIndex ≤ a.prevLogIndex := by
    have := hc.segment.nonneg
    rw [hc.prev] at this
    omega
  unfold Pair.exchange Raft.batchReplicated
  simp only [hterm, decide_true, Bool.true_and, List.contains_eq_mem, hpeer, Bool.and_true]
  generalize x.follower.appendEntries (appendEntriesRequest a) io = answer at *
  have hsame := handleAppendResponse_same hterm a io
  have hlog := (handleAppendResponse_data x.leader a answer.2 io).toSameLog
  refine ⟨⟨by rw [hlog.log]; exact h.wire, h.indexed.of_sameLog hlog, hlog.snapshot.trans h.fresh,
    ⟨hsame.id.trans h.leader.1, by rw [hsame.term]; exact h.leader.2⟩, by rw [hsame.peers]; exact h.peer, hrep.follower,
    hrep.known, by rw [hsame.term]; exact hrep.term, hrep.placed, hrep.first, hrep.entries⟩, ?_⟩
  -- the answer says whether the peer has the term before the batch
  by_cases hs : answer.2.success = true
  · left
    obtain ⟨hnext, hmatch⟩ := handleAppendResponse_success hterm hs hpeer hprev io
    rw [hc.peer] at hnext hmatch
    exact ⟨hsucc.1 hs, hs, hreplaced hs, hnext, hmatch⟩
  · right
    have hfalse : answer.2.success = false := by simpa using hs
    have hsnap : x.leader.behindSnapshot (x.leader.nextIndex.get a.peer) = false := by
      rw [behindSnapshot, h.fresh]
    obtain ⟨hnext, _⟩ := handleAppendResponse_refused hterm hfalse hsnap io
    rw [hc.peer, hb] at hnext
    exact ⟨fun ha => hs (hsucc.2 ha), hfalse, hkept hfalse, hnext⟩

/-! ## One round -/

/-- The batches that the peer accepts. -/
def acceptedOf (io : Io) : Pair → List AppendArgs → List AppendArgs
  | _, [] => []
  | x, a :: as =>
    let first := x.exchange a io
    let rest := acceptedOf io first.1 as
    if first.2.1 then a :: rest else rest

/-- The batches that the peer accepts in round number `k`. -/
def accepted (x : Pair) (io : Nat → Io) (k : Nat) : List AppendArgs :=
  let y := x.after io k
  match y.leader.heartbeatTo y.leader.term y.leader.id y.follower.id with
  | .batches a => acceptedOf (io k) y (batches a)
  | _ => []

/-- Batches up to the end of the log, of which those from index `p` on were accepted. -/
structure Reached (W : List LogEntry) (B : NodeID) (io : Io) (x : Pair) (as : List AppendArgs) (p : Int) : Prop where
  replaced : Replaced W x.follower (exchangeAll io x as).1.follower p (W.length - 1)
  next : (exchangeAll io x as).1.leader.nextIndex B = some (W.length : Int)
  counted : (exchangeAll io x as).1.leader.matchIndex B = some ((W.length : Int) - 1)
  least : ∀ a ∈ acceptedOf io x as, p ≤ a.prevLogIndex
  attained : ∃ a ∈ acceptedOf io x as, a.prevLogIndex = p

/-- Where the peer has the term before the first batch, every batch is replicated. -/
theorem Repairing.accepted (hW : Numbered 0 W) (io : Io) {as : List AppendArgs} {i : Int} (ht : Tiles W T A B i as) :
    ∀ {x : Pair}, Repairing W F T A B x → x.follower.entryTerm i = termIn W i →
      Repairing W F T A B (exchangeAll io x as).1 ∧ (∀ b ∈ (exchangeAll io x as).2.1, b = true) ∧
        Reached W B io x as i := by
  induction ht with
  | @last _ a hc hp hl =>
    intro x h ha
    obtain ⟨hrep, ⟨_, hb, hreplaced, hnext, hmatch⟩ | ⟨hno, _⟩⟩ := h.exchange hW hc io
    · have hacc : acceptedOf io x [a] = [a] := by simp only [acceptedOf, hb, if_true]
      rw [hp, show ackedIndex a = (W.length : Int) - 1 by omega] at hreplaced
      rw [show ackedIndex a = (W.length : Int) - 1 by omega] at hnext hmatch
      rw [Int.sub_add_cancel] at hnext
      refine ⟨hrep, fun b hm => ?_, hreplaced, hnext, hmatch, ?_, ?_⟩
      · rw [List.mem_singleton.1 hm]; exact hb
      · rw [hacc]
        intro b hm
        rw [List.mem_singleton.1 hm, hp]
      · rw [hacc]
        exact ⟨a, List.mem_singleton_self a, hp⟩
    · exact absurd (hp ▸ ha) hno
  | @cons _ a as hc hp _ ih =>
    intro x h ha
    obtain ⟨hrep, ⟨_, hb, hreplaced, _, _⟩ | ⟨hno, _⟩⟩ := h.exchange hW hc io
    · have hle : a.prevLogIndex ≤ ackedIndex a := by
        rw [hc.acked, AppendEntriesRequest.lastIndex, hc.prev]
        omega
      obtain ⟨h1, h2, h3⟩ := ih hrep (hreplaced.upTo _ hle (le_refl _))
      have hacc : acceptedOf io x (a :: as) = a :: acceptedOf io (x.exchange a io).1 as := by
        simp only [acceptedOf, hb, if_true]
      subst hp
      refine ⟨h1, fun b hm => ?_, hreplaced.trans h3.replaced hle, h3.next, h3.counted, ?_, ?_⟩
      · rcases List.mem_cons.1 hm with rfl | hm
        · exact hb
        · exact h2 b hm
      · rw [hacc]
        exact List.forall_mem_cons.2 ⟨le_refl _, fun b hm => hle.trans (h3.least b hm)⟩
      · rw [hacc]
        exact ⟨a, List.mem_cons_self, rfl⟩
    · exact absurd (hp ▸ ha) hno

/-- Where it does not, a later batch may be the first one that is accepted; if none is, the log of the peer is as
before, and the next index goes back without falling below 1. -/
theorem Repairing.refused (hW : Numbered 0 W) (io : Io) {as : List AppendArgs} {i : Int} (ht : Tiles W T A B i as) :
    ∀ {x : Pair}, Repairing W F T A B x → x.follower.entryTerm i ≠ termIn W i → 1 ≤ x.leader.nextIndex.get B →
      Repairing W F T A B (exchangeAll io x as).1 ∧
        ((∃ p, Reached W B io x as p) ∨
          (acceptedOf io x as = [] ∧ (∀ i, (exchangeAll io x as).1.follower.entryAt i = x.follower.entryAt i) ∧
            1 ≤ (exchangeAll io x as).1.leader.nextIndex.get B ∧
            (exchangeAll io x as).1.leader.nextIndex.get B ≤ max 1 (x.leader.nextIndex.get B - 1))) := by
  induction ht with
  | @last _ a hc hp hl =>
    intro x h ha hv
    obtain ⟨hrep, ⟨hyes, _⟩ | ⟨_, hb, hsame, hnext⟩⟩ := h.exchange hW hc io
    · exact absurd (hp ▸ hyes) ha
    · refine ⟨hrep, .inr ⟨by simp only [acceptedOf, hb, Bool.false_eq_true, if_false], hsame, ?_⟩⟩
      show 1 ≤ (x.exchange a io).1.leader.nextIndex.get B ∧ (x.exchange a io).1.leader.nextIndex.get B ≤ _
      rw [hnext]
      omega
  | @cons _ a as hc hp hrest ih =>
    intro x h ha hv
    obtain ⟨hrep, ⟨hyes, _⟩ | ⟨_, hb, hsame, hnext⟩⟩ := h.exchange hW hc io
    · exact absurd (hp ▸ hyes) ha
    · have hacc : acceptedOf io x (a :: as) = acceptedOf io (x.exchange a io).1 as := by
        simp only [acceptedOf, hb, Bool.false_eq_true, if_false]
      have hlater : ∀ p, Reached W B io (x.exchange a io).1 as p → Reached W B io x (a :: as) p := fun p hr =>
        ⟨hr.replaced.of_same hsame, hr.next, hr.counted, by rw [hacc]; exact hr.least, by rw [hacc]; exact hr.attained⟩
      by_cases hfound : (x.exchange a io).1.follower.entryTerm (ackedIndex a) = termIn W (ackedIndex a)
      · obtain ⟨h1, _, h3⟩ := Repairing.accepted hW io hrest hrep hfound
        exact ⟨h1, .inl ⟨_, hlater _ h3⟩⟩
      · obtain ⟨h1, ⟨p, h2⟩ | ⟨h2, h3, h4, h5⟩⟩ := ih hrep hfound (by omega)
        · exact ⟨h1, .inl ⟨p, hlater p h2⟩⟩
        · refine ⟨h1, .inr ⟨hacc.trans h2, fun i => (h3 i).trans (hsame i), h4, le_trans h5 ?_⟩⟩
          rw [hnext]; omega

/-- What `sendHeartbeats` reads of an uncompacted log: everything from the next index on. -/
theorem Repairing.reads (h : Repairing W F T A B x) (hlo : 1 ≤ x.leader.nextIndex.get B)
    (hhi : x.leader.nextIndex.get B ≤ W.length) :
    ∃ args, x.leader.heartbeatTo x.leader.term x.leader.id B = .batches args ∧ Pending W T A B args ∧
      args.prevLogIndex = x.leader.nextIndex.get B - 1 := by
  have hi := h.indexed
  have hb := (hi.fresh h.fresh).1
  have hlast := hi.lastLogIndex
  have hlen : x.leader.log.length = W.length := by rw [← h.wire, List.length_map]
  rw [hlen, hb] at hlast
  have hnext : x.leader.nextIdx B = x.leader.nextIndex.get B := by
    unfold nextIdx
    rw [if_neg (by omega)]
  unfold heartbeatTo
  simp only [behindSnapshot, h.fresh, Bool.false_eq_true, if_false, hnext]
  rw [if_neg (by omega)]
  refine ⟨_, rfl, ⟨rfl, h.leader.2.1, h.leader.1, by show 0 ≤ _ - 1; omega, ?_, ?_⟩, rfl⟩
  · show termIn W (x.leader.nextIndex.get B - 1) =
      some (int32 (((x.leader.entryAt (x.leader.nextIndex.get B - 1)).map LogEntry.term).getD 0))
    rw [hi.entryAt (by omega), hb, Int.sub_zero, termIn, if_neg (by omega), ← h.wire, List.getElem?_map,
      List.getElem?_eq_getElem (by omega)]
    rfl
  · show ((indices (x.leader.nextIndex.get B) x.leader.lastLogIndex).filterMap x.leader.entryAt).map LogEntry.toWire =
      W.drop ((x.leader.nextIndex.get B - 1).toNat + 1)
    rw [hi.filterMap_entryAt (by omega), hb, Int.sub_zero, List.map_drop, h.wire]
    congr 1
    omega

/-- What the round number `k` was, if the next index was in the log. -/
theorem Repairing.sends {io : Nat → Io} {k : Nat} (h : Repairing W F T A B (x.after io k)) (hW : Numbered 0 W)
    (hnamed : B ≠ "") (hlo : 1 ≤ (x.after io k).leader.nextIndex.get B)
    (hhi : (x.after io k).leader.nextIndex.get B ≤ W.length) :
    ∃ as, Tiles W T A B ((x.after io k).leader.nextIndex.get B - 1) as ∧
      x.accepted io k = acceptedOf (io k) (x.after io k) as ∧
      x.after io (k + 1) = (exchangeAll (io k) (x.after io k) as).1 ∧
      x.result io k = .sent (exchangeAll (io k) (x.after io k) as).2.1 (exchangeAll (io k) (x.after io k) as).2.2 := by
  obtain ⟨args, hbeat, hpend, hprev⟩ := h.reads hlo hhi
  have htile := hpend.batches hW (h.wire ▸ entriesFit_wire _)
  rw [← h.follower] at hbeat hnamed
  refine ⟨batches args, hprev ▸ htile, ?_, ?_, ?_⟩
  · simp only [Pair.accepted, hbeat]
  · rw [after, Pair.round, if_neg hnamed, hbeat]
  · rw [result, Pair.round, if_neg hnamed, hbeat]

/-! ## Rounds -/

/-- Round number `k` replicated the whole log, and of the batches of the rounds from number `j` on those from index `p` on
were accepted. -/
structure Repaired (W : List LogEntry) (B : NodeID) (x : Pair) (io : Nat → Io) (j k : Nat) (p : Int) : Prop where
  result : ∃ bs started, x.result io k = .sent bs started ∧ ∀ b ∈ bs, b = true
  replaced : Replaced W (x.after io j).follower (x.after io (k + 1)).follower p (W.length - 1)
  counted : (x.after io (k + 1)).leader.matchIndex B = some ((W.length : Int) - 1)
  least : ∀ i, j ≤ i → i ≤ k → ∀ a ∈ x.accepted io i, p ≤ a.prevLogIndex
  attained : ∃ i, j ≤ i ∧ i ≤ k ∧ ∃ a ∈ x.accepted io i, a.prevLogIndex = p

/-- A round that begins where the peer has the term of the leader. -/
theorem Repairing.replicates {io : Nat → Io} {k : Nat} (h : Repairing W F T A B (x.after io k)) (hW : Numbered 0 W)
    (hnamed : B ≠ "") (hlo : 1 ≤ (x.after io k).leader.nextIndex.get B)
    (hhi : (x.after io k).leader.nextIndex.get B ≤ W.length)
    (hfound : (x.after io k).follower.entryTerm ((x.after io k).leader.nextIndex.get B - 1) =
      termIn W ((x.after io k).leader.nextIndex.get B - 1)) :
    Repairing W F T A B (x.after io (k + 1)) ∧
      Repaired W B x io k k ((x.after io k).leader.nextIndex.get B - 1) := by
  obtain ⟨as, htile, hacc, hafter, hres⟩ := h.sends hW hnamed hlo hhi
  obtain ⟨h1, h2, h3⟩ := Repairing.accepted hW (io k) htile h hfound
  rw [← hafter] at h1
  refine ⟨h1, ⟨_, _, hres, h2⟩, by rw [hafter]; exact h3.replaced, by rw [hafter]; exact h3.counted, ?_, ?_⟩
  · intro i hki hik
    obtain rfl : i = k := by omega
    rw [hacc]; exact h3.least
  · refine ⟨k, le_refl k, le_refl k, ?_⟩
    rw [hacc]; exact h3.attained

/-- Rounds follow each other until one replicates the log; the next index bounds how many. -/
theorem Repairing.rounds (hW : Numbered 0 W) (hnamed : B ≠ "") (io : Nat → Io) :
    ∀ (n j : Nat), Repairing W F T A B (x.after io j) → 1 ≤ (x.after io j).leader.nextIndex.get B →
      (x.after io j).leader.nextIndex.get B ≤ W.length → (x.after io j).leader.nextIndex.get B ≤ n →
      ∃ k p, k < j + n ∧ Repairing W F T A B (x.after io (k + 1)) ∧ Repaired W B x io j k p
  | 0, _, _, hlo, _, hn => by omega
  | n + 1, j, h, hlo, hhi, hn => by
    by_cases hfound : (x.after io j).follower.entryTerm ((x.after io j).leader.nextIndex.get B - 1) =
        termIn W ((x.after io j).leader.nextIndex.get B - 1)
    · obtain ⟨h1, h2⟩ := h.replicates hW hnamed hlo hhi hfound
      exact ⟨j, _, by omega, h1, h2⟩
    -- index 0 is always found, so there is room to go back
    have hpos : 1 < (x.after io j).leader.nextIndex.get B := by
      by_contra hle
      rw [show (x.after io j).leader.nextIndex.get B - 1 = 0 by omega] at hfound
      exact hfound h.first
    obtain ⟨as, htile, hacc, hafter, _⟩ := h.sends hW hnamed hlo hhi
    obtain ⟨h1, ⟨p, h2⟩ | ⟨h2, h3, h4, h5⟩⟩ := Repairing.refused hW (io j) htile h hfound hlo
    · -- a later batch was accepted, so the next round is an empty one that the peer accepts
      rw [← hafter] at h1
      have hrep := h2.replaced
      rw [← hafter] at hrep
      have hnext : (x.after io (j + 1)).leader.nextIndex.get B = W.length := by
        rw [hafter, IndexMap.get, h2.next]; rfl
      obtain ⟨t, _, hin⟩ := hrep.found
      obtain ⟨hp0, e, he, _⟩ := termIn_some hin
      have hlen := (List.getElem?_eq_some_iff.1 he).1
      obtain ⟨h6, h7⟩ := h1.replicates hW hnamed (by omega) (by omega)
        (by rw [hnext]; exact hrep.upTo _ (by omega) (le_refl _))
      rw [hnext] at h7
      refine ⟨j + 1, p, by omega, h6, h7.result, hrep.trans h7.replaced (by omega), h7.counted, ?_, ?_⟩
      · intro i hji hik a ha
        rcases Nat.lt_or_ge i (j + 1) with hi | hi
        · obtain rfl : i = j := by omega
          rw [hacc] at ha
          exact h2.least a ha
        · have := h7.least i hi hik a ha
          omega
      · refine ⟨j, le_refl j, by omega, ?_⟩
        rw [hacc]; exact h2.attained
    · rw [← hafter] at h1 h3 h4 h5
      obtain ⟨k, p, hk, h6, h7⟩ := Repairing.rounds hW hnamed io n (j + 1) h1 h4 (by omega) (by omega)
      obtain ⟨i₀, hi₀, hi₀k, hatt⟩ := h7.attained
      refine ⟨k, p, by omega, h6, h7.result, h7.replaced.of_same h3, h7.counted, ?_, i₀, by omega, hi₀k, hatt⟩
      intro i hji hik a ha
      rcases Nat.lt_or_ge i (j + 1) with hi | hi
      · obtain rfl : i = j := by omega
        rw [hacc, h2] at ha
        cases ha
      · exact h7.least i hi hik a ha

/-- An uncompacted log: the boundary of index and term 0, and the entries from index 1 on. -/
structure Uncompacted (r : Raft) : Prop where
  indexed : Indexed r
  fresh : r.snapshot = none
  boundary : r.entryTerm 0 = some 0

theorem Uncompacted.termIn {r : Raft} (h : Uncompacted r) (hi : 0 ≤ i) : termIn r.log i = r.entryTerm i := by
  have hb := (h.indexed.fresh h.fresh).1
  rw [Mimori.termIn, if_neg (by omega), entryTerm, h.indexed.entryAt (by omega), hb, Int.sub_zero]

theorem Uncompacted.of_numbered {r : Raft} (hb : r.logBaseIndex = 0) (hs : r.snapshot = none)
    (hf : r.disk.snapFile = none) (hn : Numbered 0 r.log) (h0 : r.entryTerm 0 = some 0) : Uncompacted r := by
  have hne : r.log ≠ [] := by
    intro he
    simp [entryTerm, entryAt, he] at h0
  refine ⟨⟨hb.ge, hne, by rw [hb]; exact hn, fun snap h => ?_, fun _ => ⟨hb, hf⟩⟩, hs, h0⟩
  rw [hs] at h; cases h

/-- The peer is not in a later term than the messages of the leader say, and its answers are not of a later term than the
leader has. -/
def termsHeard (x : Pair) : Bool :=
  decide (x.follower.term ≤ int32 x.leader.term) && decide (int32 x.follower.term ≤ x.leader.term)

/-- The terms that are sent with the batch and after it, from the one before the batch on, fit `int32`. -/
def termsFit (x : Pair) (a : AppendArgs) : Bool :=
  x.leader.log.all fun e => decide (e.index < a.prevLogIndex) || decide (Fits e.term)

theorem termsFit_iff : x.termsFit a = true ↔ ∀ e ∈ x.leader.log, a.prevLogIndex ≤ e.index → Fits e.term := by
  simp only [termsFit, List.all_eq_true, Bool.or_eq_true, decide_eq_true_eq, or_iff_not_imp_left, not_lt]

/-- No batch is replicated unless the terms were heard. -/
theorem termsHeard_of_exchange {io : Io} (ha : a.term = x.leader.term) (hyes : (x.exchange a io).2.1 = true) :
    x.termsHeard = true := by
  simp only [exchange, batchReplicated, Bool.and_eq_true, decide_eq_true_eq] at hyes
  have ho := appendEntries_outcome x.follower (appendEntriesRequest a) io
  generalize x.follower.appendEntries (appendEntriesRequest a) io = out at ho hyes
  simp only [termsHeard, Bool.and_eq_true, decide_eq_true_eq, ← ha]
  cases ho with
  | ignored => cases hyes.1.2
  | refused => cases hyes.1.2
  | accepted _ ht _ => exact ⟨ht, by rw [ha]; exact hyes.1.1⟩

theorem termIn_wire (L : List LogEntry) (i : Int) : termIn (L.map LogEntry.toWire) i = (termIn L i).map int32 := by
  unfold termIn
  split
  · rfl
  · rw [List.getElem?_map, Option.map_map, Option.map_map]; rfl

/-- The log as the messages carry it has its indices, if the last one fits. -/
theorem numbered_wire {L : List LogEntry} (hL : Numbered 0 L) (hfit : Fits (L.length - 1)) :
    Numbered 0 (L.map LogEntry.toWire) := by
  intro k e hk
  rw [List.getElem?_map] at hk
  obtain ⟨e₀, he₀, rfl⟩ := Option.map_eq_some_iff.1 hk
  have hidx := hL k e₀ he₀
  have hlt := (List.getElem?_eq_some_iff.1 he₀).1
  rw [Cluster.toWire_index (Cluster.fits_of_le (by omega) (by omega) hfit)]
  exact hidx

/-- The peer has the terms of the leader's log exactly if those that it accepted, and those before them, fit. -/
theorem Repaired.terms_iff {io : Nat → Io} {k : Nat} {p : Int} (hl : Uncompacted x.leader) (hf : Uncompacted x.follower)
    (hmatch : LogMatching x.leader.log x.follower)
    (h : Repaired (x.leader.log.map LogEntry.toWire) B x io 0 k p) :
    (∀ i, 0 ≤ i → i ≤ x.leader.lastLogIndex → (x.after io (k + 1)).follower.entryTerm i = x.leader.entryTerm i) ↔
      ∀ e ∈ x.leader.log, p ≤ e.index → Fits e.term := by
  have hb := (hl.indexed.fresh hl.fresh).1
  have hbf := (hf.indexed.fresh hf.fresh).1
  have hlast := hl.indexed.lastLogIndex
  rw [hb] at hlast
  have hlen : ((x.leader.log.map LogEntry.toWire).length : Int) - 1 = x.leader.lastLogIndex := by
    rw [List.length_map]; omega
  have hupTo := h.replaced.upTo
  rw [hlen] at hupTo
  obtain ⟨t, hfol, hwire⟩ := h.replaced.found
  obtain ⟨hp0, _⟩ := termIn_some hwire
  constructor
  · intro hterms e he hpe
    obtain ⟨n, hn⟩ := List.mem_iff_getElem?.1 he
    have hidx := hl.indexed.numbered n e hn
    rw [hb] at hidx
    have hlt := (List.getElem?_eq_some_iff.1 hn).1
    have hin : Mimori.termIn x.leader.log e.index = some e.term := by
      rw [Mimori.termIn, if_neg (by omega), show e.index.toNat = n by omega, hn]; rfl
    have heq := hterms e.index (by omega) (by omega)
    rw [hupTo _ hpe (by omega), termIn_wire, ← hl.termIn (by omega), hin] at heq
    exact Option.some.inj heq ▸ fits_int32 e.term
  · intro hfits
    have hsame : ∀ i, p ≤ i → Mimori.termIn (x.leader.log.map LogEntry.toWire) i = Mimori.termIn x.leader.log i := by
      intro i hi
      rw [termIn_wire]
      cases hin : Mimori.termIn x.leader.log i with
      | none => rfl
      | some t =>
        obtain ⟨h0, e, he, rfl⟩ := termIn_some hin
        have hidx := hl.indexed.numbered _ e he
        rw [Option.map_some, int32_of_fits (hfits e (List.mem_of_getElem? he) (by omega))]
    intro i h0 hi
    rcases le_total i p with hip | hpi
    · -- the peer had the leader's term at `p`, and so also below
      rw [entryTerm, h.replaced.below i hip, ← hl.termIn h0]
      exact hmatch p t hfol (hsame p (le_refl p) ▸ hwire) i (by rw [hbf]; exact h0) hip
    · rw [hupTo i hpi hi, hsame i hpi, hl.termIn h0]

/-- Log repair converges: for every uncompacted log of a leader whose last index fits the messages, and every uncompacted
log of a peer that satisfies log matching with it, where the peer knows the leader and is not in a later term than the
messages say, lossless rounds from any next index between 1 and the end of the log lead, after at most as many rounds as
the next index says, to a round all of whose batches succeed. The leader then counts its whole log as replicated. The
peer has the leader's term at each of its indices exactly if the terms fit that were sent from the first accepted batch
on, and then also the leader's entries, if entries of one index and term were the same before. -/
theorem log_repair_converges (hl : Uncompacted x.leader) (hf : Uncompacted x.follower)
    (hmatch : LogMatching x.leader.log x.follower) (hterm : x.termsHeard = true)
    (hknown : x.leader.id ∈ x.follower.peers) (hpeer : x.follower.id ∈ x.leader.peers)
    (hids : x.leader.id ≠ "" ∧ x.follower.id ≠ "") (hlo : 1 ≤ x.leader.nextIndex.get x.follower.id)
    (hhi : x.leader.nextIndex.get x.follower.id ≤ x.leader.lastLogIndex + 1) (hfit : Fits x.leader.lastLogIndex)
    (io : Nat → Io) :
    ∃ k : Nat, (k : Int) < x.leader.nextIndex.get x.follower.id ∧
      (∃ bs started, x.result io k = .sent bs started ∧ ∀ b ∈ bs, b = true) ∧
      (x.after io (k + 1)).leader.matchIndex x.follower.id = some x.leader.lastLogIndex ∧
      ((∀ i, 0 ≤ i → i ≤ x.leader.lastLogIndex →
          (x.after io (k + 1)).follower.entryTerm i = x.leader.entryTerm i) ↔
        ∀ j ≤ k, ∀ a ∈ x.accepted io j, x.termsFit a = true) ∧
      ((∀ j ≤ k, ∀ a ∈ x.accepted io j, x.termsFit a = true) →
        (∀ e ∈ x.follower.log, ∀ e' ∈ x.leader.log, e.index = e'.index → e.term = e'.term → e = e') →
        ∀ i, 0 ≤ i → i ≤ x.leader.lastLogIndex → (x.after io (k + 1)).follower.entryAt i = x.leader.entryAt i) := by
  have hb := (hl.indexed.fresh hl.fresh).1
  have hlast := hl.indexed.lastLogIndex
  rw [hb] at hlast
  have hL : Numbered 0 x.leader.log := hb ▸ hl.indexed.numbered
  have hW := numbered_wire hL (by rwa [show (x.leader.log.length : Int) - 1 = x.leader.lastLogIndex by omega])
  simp only [termsHeard, Bool.and_eq_true, decide_eq_true_eq] at hterm
  have hrep : Repairing (x.leader.log.map LogEntry.toWire) x.follower.log (int32 x.leader.term) x.leader.id x.follower.id
      (x.after io 0) := by
    refine ⟨rfl, hl.indexed, hl.fresh, ⟨rfl, rfl, int32_le hterm.2⟩, hpeer, rfl, ?_, hterm, ⟨hf.indexed, hf.fresh⟩, ?_,
      fun e he => .inl he⟩
    · show x.follower.isKnownNode x.leader.id = true
      simp [isKnownNode, hids.1, hknown]
    · show x.follower.entryTerm 0 = _
      rw [termIn_wire, hl.termIn (le_refl 0), hl.boundary, hf.boundary]
      rfl
  obtain ⟨k, p, hk, h, hr⟩ := Repairing.rounds hW hids.2 io (x.leader.nextIndex.get x.follower.id).toNat 0 hrep hlo
    (by show x.leader.nextIndex.get _ ≤ _; rw [List.length_map]; omega) (by show x.leader.nextIndex.get _ ≤ _; omega)
  have hiff := hr.terms_iff hl hf hmatch
  -- the first accepted batch begins at `p`
  have hsent : (∀ j ≤ k, ∀ a ∈ x.accepted io j, x.termsFit a = true) ↔ ∀ e ∈ x.leader.log, p ≤ e.index → Fits e.term := by
    simp only [termsFit_iff]
    constructor
    · intro hall
      obtain ⟨j, _, hj, a, ha, rfl⟩ := hr.attained
      exact hall j hj a ha
    · exact fun hall j hj a ha e he hae => hall e he ((hr.least j (Nat.zero_le j) hj a ha).trans hae)
  refine ⟨k, by omega, hr.result, ?_, hiff.trans hsent.symm, fun hfits hsame i h0 hi => ?_⟩
  · rw [hr.counted, List.length_map]; congr 1; omega
  · have hfits := hsent.1 hfits
    obtain ⟨e', he'⟩ := hl.indexed.entryAt_isSome (by omega) hi
    have ht := hiff.2 hfits i h0 hi
    rw [entryTerm, entryTerm, he', Option.map_some] at ht
    obtain ⟨e, he, het⟩ := Option.map_eq_some_iff.1 ht
    have hidx : e.index = e'.index := by rw [(h.placed.1.entryAt_some he).1, (hl.indexed.entryAt_some he').1]
    rw [he, he']
    congr 1
    -- an entry of the peer is one it had, or one of the leader's
    rcases h.entries e (entryAt_mem he) with hin | hin
    · exact hsame e hin e' (entryAt_mem he') hidx het
    · obtain ⟨e₀, he₀, rfl⟩ := List.mem_map.1 hin
      obtain ⟨n, hn⟩ := List.mem_iff_getElem?.1 he₀
      have hn' := hL n e₀ hn
      have hlt := (List.getElem?_eq_some_iff.1 hn).1
      have hi₀ := Cluster.toWire_index (Cluster.fits_of_le (show 0 ≤ e₀.index by omega) (by omega) hfit)
      obtain rfl := hL.unique he₀ (entryAt_mem he') (hi₀ ▸ hidx)
      exact congrArg₂ (fun i t => (⟨i, t, e₀.data⟩ : LogEntry)) hidx het

/-- A has been elected with the log `leaderLog`, and B has an entry of an older term at index 2. -/
def conflictAtTwo : Pair where
  leader := {
    id := "A"
    peers := ["B", "C"]
    state := .leader
    term := 2
    log := leaderLog
    nextIndex := IndexMap.setAll (fun _ => none) ["B", "C"] 4 }
  follower := staleFollower

theorem log_repair_converges_conflictAtTwo :
    ∃ k : Nat, (k : Int) < 4 ∧
      (∃ bs started, conflictAtTwo.result (fun _ => {}) k = .sent bs started ∧ ∀ b ∈ bs, b = true) ∧
      (conflictAtTwo.after (fun _ => {}) (k + 1)).leader.matchIndex "B" = some 3 ∧
      (∀ i, 0 ≤ i → i ≤ 3 →
        (conflictAtTwo.after (fun _ => {}) (k + 1)).follower.entryTerm i = conflictAtTwo.leader.entryTerm i) ∧
      ((∀ e ∈ staleFollower.log, ∀ e' ∈ leaderLog, e.index = e'.index → e.term = e'.term → e = e') →
        ∀ i, 0 ≤ i → i ≤ 3 →
          (conflictAtTwo.after (fun _ => {}) (k + 1)).follower.entryAt i = conflictAtTwo.leader.entryAt i) := by
  have hl : Uncompacted conflictAtTwo.leader := .of_numbered rfl rfl rfl (by decide) rfl
  have hf : Uncompacted conflictAtTwo.follower := .of_numbered rfl rfl rfl (by decide) rfl
  have hfits : ∀ j < 4, ∀ a ∈ conflictAtTwo.accepted (fun _ => {}) j, conflictAtTwo.termsFit a = true := by decide
  obtain ⟨k, hk, hres, hcount, hterms, hentries⟩ := log_repair_converges (x := conflictAtTwo) hl hf staleFollower_matches
    (by decide) (by decide) (by decide) (by decide) (by decide) (by decide) (by decide) fun _ => {}
  have hk4 : (k : Int) < 4 := hk
  have hsent := fun j (hj : j ≤ k) => hfits j (by omega)
  exact ⟨k, hk, hres, hcount, hterms.2 hsent, hentries hsent⟩

/-- B has the whole log of A, with a term at index 1 that no message can say. -/
def unfitBefore : Pair where
  leader := {
    id := "A"
    peers := ["B", "C"]
    state := .leader
    term := 7
    log := [boundary 0 0, ⟨1, 2147483648, .put [1] [1]⟩, ⟨2, 5, .put [1] [2]⟩]
    nextIndex := IndexMap.setAll (fun _ => none) ["B", "C"] 3 }
  follower := {
    id := "B"
    peers := ["A", "C"]
    log := [boundary 0 0, ⟨1, 2147483648, .put [1] [1]⟩, ⟨2, 5, .put [1] [2]⟩] }

-- nothing before index 2 is sent
example : unfitBefore.termsHeard = true ∧
    (unfitBefore.accepted (fun _ => {}) 0).map AppendArgs.prevLogIndex = [2] ∧
    ∀ a ∈ unfitBefore.accepted (fun _ => {}) 0, unfitBefore.termsFit a = true := by decide

/-- A leads term 2147483648, one more than the messages can say, and has one entry for B. -/
def overflowing : Pair where
  leader := {
    id := "A"
    peers := ["B", "C"]
    state := .leader
    term := 2147483648
    log := [boundary 0 0, ⟨1, 2147483648, .put [1] [1]⟩]
    nextIndex := IndexMap.setAll (fun _ => none) ["B", "C"] 1 }
  follower := { id := "B", peers := ["A", "C"], log := [boundary 0 0] }

theorem overflowing_round (io : Io) : overflowing.round io = (overflowing, .sent [false] []) := rfl

theorem overflowing_after (io : Nat → Io) : ∀ k, overflowing.after io k = overflowing
  | 0 => rfl
  | k + 1 => by rw [after, overflowing_after io k, overflowing_round]

/-- The request of term 2147483648 arrives as one of a negative term, so every round is refused and B
never gets the entry. -/
theorem overflowing_never_repaired :
    (Uncompacted overflowing.leader ∧ Uncompacted overflowing.follower ∧
        LogMatching overflowing.leader.log overflowing.follower ∧
        overflowing.follower.term ≤ overflowing.leader.term ∧ "A" ∈ overflowing.follower.peers ∧
        overflowing.leader.nextIndex.get "B" = 1) ∧
      ∀ io k, overflowing.result io k = .sent [false] [] ∧
        (overflowing.after io k).leader.matchIndex.get "B" = 0 ∧
        (overflowing.after io k).follower.entryAt 1 = none ∧ overflowing.leader.lastLogIndex = 1 := by
  refine ⟨⟨?_, ?_, ?_, by decide, by decide, rfl⟩, fun io k => ?_⟩
  · exact .of_numbered rfl rfl rfl (by decide) rfl
  · exact .of_numbered rfl rfl rfl (by decide) rfl
  · intro i t h1 _ j hb hj
    have hj0 : (0 : Int) ≤ j := hb
    have hi : i ≤ 0 := by
      by_contra hc
      rw [entryTerm_getElem? (show overflowing.follower.logBaseIndex ≤ i by show (0 : Int) ≤ i; omega)] at h1
      have hlen := (List.getElem?_eq_some_iff.1 h1).1
      simp [overflowing] at hlen
      omega
    obtain rfl : j = 0 := by omega
    rfl
  · rw [result, overflowing_after, overflowing_round]
    exact ⟨rfl, rfl, rfl, rfl⟩

end Pair

end Mimori
