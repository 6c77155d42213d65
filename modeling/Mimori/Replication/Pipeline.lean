/-
Batches with pipelining. The loop of `sendBatchesWithPipeline` moves on to the next batch whether or not there was
a permit for this one, but only a batch that was sent moves the previous index and term. So the requests are chained
as long as no batch is sent after one that was skipped.
-/
import Mimori.Log.Index

namespace Mimori

open Raft

/-! ## The loop -/

/-- One turn of the loop: the batch it sends, if it got a permit, and the arguments of the next turn. -/
def pipelineTurn (granted : Bool) (a : AppendArgs) : List AppendArgs × AppendArgs :=
  if granted then ([currentBatch a], afterSent a) else ([], afterRefused a)

/-- The batches the loop sends. `permits` are the outcomes of its selects; when they end before the entries do, the
node is shutting down. -/
def pipelineLoop : List Bool → AppendArgs → List AppendArgs
  | [], _ => []
  | granted :: permits, a =>
    if a.entries = [] then []
    else (pipelineTurn granted a).1 ++ pipelineLoop permits (pipelineTurn granted a).2

/-- The calls of `sendAppendEntriesBatch` that `sendBatchesWithPipeline` makes: one without entries, or the batches. -/
def sendBatchesWithPipeline (a : AppendArgs) (permits : List Bool) : List AppendArgs :=
  if a.entries = [] then [a] else pipelineLoop permits a

/-- A turn of the loop is a section of the goroutine that runs it. -/
theorem runTask_pipeline (s : Cluster) (n : NodeID) {a : AppendArgs} (h : a.entries ≠ []) (granted : Bool) (io : Io) :
    s.runTask n (.pipeline a) (if granted then .go else .fail) io =
      some (s.spawn n ((pipelineTurn granted a).1.map .sendAppend ++ [.pipeline (pipelineTurn granted a).2])) := by
  cases granted <;> simp [Cluster.runTask, pipelineTurn, h]

/-! ## Chained requests -/

/-- The request continues the log of `r` where it says: its entries are consecutive and follow its previous index,
whose term in `r` is its previous term, and there are not more than a batch has. -/
structure Chained (r : Raft) (req : AppendEntriesRequest) : Prop where
  numbered : Numbered (req.prevLogIndex + 1) req.entries
  prevTerm : ∃ e, r.entryAt req.prevLogIndex = some e ∧ e.term = req.prevLogTerm
  length : req.entries.length ≤ maxEntriesPerBatch

/-- The arguments of the loop: entries of the log of `r` that follow each other and the previous index, whose term is
the previous term; and all these numbers fit the messages. -/
structure PendingEntries (r : Raft) (a : AppendArgs) : Prop where
  prevTerm : ∃ e, r.entryAt a.prevLogIndex = some e ∧ e.term = a.prevLogTerm
  numbered : Numbered (a.prevLogIndex + 1) a.entries
  entries : ∀ e ∈ a.entries, r.entryAt e.index = some e
  prevFits : Fits a.prevLogIndex ∧ Fits a.prevLogTerm
  fits : ∀ e ∈ a.entries, Fits e.index ∧ Fits e.term

theorem toWire_eq {e : LogEntry} (h : Fits e.index ∧ Fits e.term) : e.toWire = e := by
  unfold LogEntry.toWire
  rw [int32_of_fits h.1, int32_of_fits h.2]

namespace PendingEntries

variable {r : Raft} {a : AppendArgs}

theorem request (h : PendingEntries r a) (hlen : a.entries.length ≤ maxEntriesPerBatch) :
    Chained r (appendEntriesRequest a) := by
  have hp : (appendEntriesRequest a).prevLogIndex = a.prevLogIndex := int32_of_fits h.prevFits.1
  have ht : (appendEntriesRequest a).prevLogTerm = a.prevLogTerm := int32_of_fits h.prevFits.2
  exact ⟨by rw [hp]; exact h.numbered, by rw [hp, ht]; exact h.prevTerm, hlen⟩

theorem currentBatch (h : PendingEntries r a) : PendingEntries r (currentBatch a) :=
  ⟨h.prevTerm, h.numbered.take _, fun e he => h.entries e (List.mem_of_mem_take he), h.prevFits,
    fun e he => h.fits e (List.mem_of_mem_take he)⟩

theorem afterSent (h : PendingEntries r a) : PendingEntries r (afterSent a) := by
  cases hlast : (a.entries.take maxEntriesPerBatch).getLast? with
  | none =>
    have hnil : a.entries = [] := by
      have htake := List.getLast?_eq_none_iff.1 hlast
      rcases List.take_eq_nil_iff.1 htake with h0 | h0
      · cases h0
      · exact h0
    have hsent : Raft.afterSent a = { a with entries := [] } := by
      unfold Raft.afterSent
      simp only [hlast]
      rw [hnil, List.drop_nil]
    rw [hsent]
    exact ⟨h.prevTerm, .nil, fun e he => (by cases he), h.prevFits, fun e he => (by cases he)⟩
  | some e =>
    have he : e ∈ a.entries := List.mem_of_mem_take (List.mem_of_getLast? hlast)
    have hidx : e.index = a.prevLogIndex + (a.entries.take maxEntriesPerBatch).length := by
      have hget := hlast
      rw [List.getLast?_eq_getElem?] at hget
      have hlen := (List.getElem?_eq_some_iff.1 hget).1
      have := h.numbered.take maxEntriesPerBatch _ e hget
      omega
    have hsent : Raft.afterSent a =
        { a with entries := a.entries.drop maxEntriesPerBatch, prevLogIndex := e.index, prevLogTerm := e.term } := by
      unfold Raft.afterSent
      simp only [hlast]
    rw [hsent]
    refine ⟨⟨e, h.entries e he, rfl⟩, ?_, fun x hx => h.entries x (List.mem_of_mem_drop hx), h.fits e he,
      fun x hx => h.fits x (List.mem_of_mem_drop hx)⟩
    show Numbered (e.index + 1) (a.entries.drop maxEntriesPerBatch)
    rcases Nat.lt_or_ge a.entries.length maxEntriesPerBatch with hlt | hge
    · rw [List.drop_of_length_le (le_of_lt hlt)]; exact .nil
    · have hd := h.numbered.drop maxEntriesPerBatch
      rw [List.length_take, Nat.min_eq_left hge] at hidx
      rwa [show a.prevLogIndex + 1 + (maxEntriesPerBatch : Int) = e.index + 1 by omega] at hd

end PendingEntries

theorem pipelineLoop_refused : ∀ (permits : List Bool) (a : AppendArgs), (∀ g ∈ permits, g = false) →
    pipelineLoop permits a = []
  | [], _, _ => rfl
  | g :: permits, a, h => by
    have hg : g = false := h g List.mem_cons_self
    unfold pipelineLoop pipelineTurn
    rw [hg, pipelineLoop_refused permits _ fun x hx => h x (List.mem_cons_of_mem g hx)]
    split <;> rfl

theorem pipelineLoop_chained {r : Raft} : ∀ (permits : List Bool) {a : AppendArgs}, PendingEntries r a →
    permits.Pairwise (fun g g' => g' = true → g = true) → ∀ b ∈ pipelineLoop permits a, Chained r (appendEntriesRequest b)
  | [], _, _, _ => fun b hb => by cases hb
  | g :: permits, a, h, hp => by
    obtain ⟨hfirst, hrest⟩ := List.pairwise_cons.1 hp
    intro b hb
    unfold pipelineLoop at hb
    split at hb
    · cases hb
    · cases g with
      | false =>
        -- a batch without a permit is followed only by others without one
        rw [pipelineLoop_refused permits _ fun x hx =>
          Bool.eq_false_iff.2 fun hx' => Bool.false_ne_true (hfirst x hx hx')] at hb
        cases hb
      | true =>
        rcases List.mem_cons.1 hb with rfl | hb
        · exact h.currentBatch.request (List.length_take_le ..)
        · exact pipelineLoop_chained permits h.afterSent hrest b hb

/-- Pipelined batches are chained: the leader `r` hands consecutive entries of its log to `sendBatchesWithPipeline`, of
any number, with the index before them and its term. If no batch gets a permit after one that got none, and the indices
and terms fit the messages, every request that is sent starts right after its previous index, has the leader's term
there as previous term, has at most `maxEntriesPerBatch` entries, and these have consecutive indices. -/
theorem pipelined_requests_chained {r : Raft} {a : AppendArgs} {pending : List LogEntry} {permits : List Bool}
    (hprev : ∃ e, r.entryAt a.prevLogIndex = some e ∧ e.term = a.prevLogTerm)
    (hnum : Numbered (a.prevLogIndex + 1) pending) (hlog : ∀ e ∈ pending, r.entryAt e.index = some e)
    (hwire : a.entries = pending.map LogEntry.toWire)
    (hfit : (Fits a.prevLogIndex ∧ Fits a.prevLogTerm) ∧ ∀ e ∈ pending, Fits e.index ∧ Fits e.term)
    (hpermits : permits.Pairwise (fun g g' => g' = true → g = true)) :
    ∀ b ∈ sendBatchesWithPipeline a permits, Chained r (appendEntriesRequest b) := by
  have hsame : a.entries = pending := by
    rw [hwire]
    conv_rhs => rw [← List.map_id pending]
    exact List.map_congr_left fun e he => toWire_eq (hfit.2 e he)
  have h : PendingEntries r a := by
    refine ⟨hprev, ?_, ?_, hfit.1, ?_⟩ <;> rw [hsame]
    · exact hnum
    · exact hlog
    · exact hfit.2
  intro b hb
  unfold sendBatchesWithPipeline at hb
  split at hb
  · rename_i hnil
    rw [List.mem_singleton.1 hb]
    exact h.request (by rw [hnil]; exact Nat.zero_le _)
  · exact pipelineLoop_chained permits h hpermits b hb

/-- After a batch that got no permit, the next one that gets one leaves a gap. -/
theorem pipelineLoop_gap : ∀ (permits : List Bool) {a : AppendArgs} {d : Int}, 0 < d →
    Numbered (a.prevLogIndex + 1 + d) a.entries → Fits a.prevLogIndex →
    permits.length * maxEntriesPerBatch < a.entries.length + maxEntriesPerBatch → true ∈ permits →
    ∃ b ∈ pipelineLoop permits a, ¬ Numbered ((appendEntriesRequest b).prevLogIndex + 1) (appendEntriesRequest b).entries
  | [], _, _, _, _, _, _, hmem => by cases hmem
  | g :: permits, a, d, hd, hnum, hfit, hlen, hmem => by
    rw [List.length_cons, Nat.succ_mul] at hlen
    have hne : a.entries ≠ [] := by
      intro hnil
      rw [hnil, List.length_nil] at hlen
      omega
    rw [pipelineLoop, if_neg hne]
    cases g with
    | true =>
      refine ⟨currentBatch a, List.mem_append_left _ List.mem_cons_self, fun hcon => ?_⟩
      have hprev : (appendEntriesRequest (currentBatch a)).prevLogIndex = a.prevLogIndex := int32_of_fits hfit
      rw [hprev] at hcon
      obtain ⟨e, es, he⟩ := List.exists_cons_of_ne_nil hne
      have h1 := hnum 0 e (by rw [he]; rfl)
      have h2 := hcon 0 e (by show (a.entries.take maxEntriesPerBatch)[0]? = some e; rw [he]; rfl)
      omega
    | false =>
      have hmem' : true ∈ permits := (List.mem_cons.1 hmem).resolve_left (by decide)
      have hdrop := hnum.drop maxEntriesPerBatch
      rw [show a.prevLogIndex + 1 + d + (maxEntriesPerBatch : Int) = a.prevLogIndex + 1 + (d + maxEntriesPerBatch) by
        omega] at hdrop
      have hpos := List.length_pos_of_mem hmem'
      have hlen' : permits.length * maxEntriesPerBatch <
          (a.entries.drop maxEntriesPerBatch).length + maxEntriesPerBatch := by
        rw [List.length_drop]
        omega
      obtain ⟨b, hb, hgap⟩ := pipelineLoop_gap permits (a := afterRefused a) (d := d + maxEntriesPerBatch)
        (by omega) hdrop hfit hlen' hmem'
      exact ⟨b, List.mem_append_right _ hb, hgap⟩

/-- The condition on the permits is exact: where each of them is that of a batch and all requests are chained, none was
granted after a refusal. -/
theorem permits_of_chained {r : Raft} : ∀ (permits : List Bool) {a : AppendArgs}, PendingEntries r a →
    permits.length * maxEntriesPerBatch < a.entries.length + maxEntriesPerBatch →
    (∀ b ∈ pipelineLoop permits a, Chained r (appendEntriesRequest b)) →
    permits.Pairwise (fun g g' => g' = true → g = true)
  | [], _, _, _, _ => .nil
  | g :: permits, a, h, hlen, hall => by
    rw [List.length_cons, Nat.succ_mul] at hlen
    have hne : a.entries ≠ [] := by
      intro hnil
      rw [hnil, List.length_nil] at hlen
      omega
    rw [pipelineLoop, if_neg hne] at hall
    cases g with
    | true =>
      have hlen' : permits.length * maxEntriesPerBatch < (afterSent a).entries.length + maxEntriesPerBatch := by
        have : (afterSent a).entries = a.entries.drop maxEntriesPerBatch := by
          unfold afterSent
          split <;> rfl
        rw [this, List.length_drop]
        omega
      refine List.pairwise_cons.2 ⟨fun _ _ _ => rfl, permits_of_chained permits h.afterSent hlen' fun b hb => ?_⟩
      exact hall b (List.mem_append_right _ hb)
    | false =>
      have hnone : ∀ g ∈ permits, g = false := by
        intro g hg
        by_contra hg'
        rw [Bool.not_eq_false] at hg'
        subst hg'
        have hpos := List.length_pos_of_mem hg
        have hdrop := h.numbered.drop maxEntriesPerBatch
        obtain ⟨b, hb, hgap⟩ := pipelineLoop_gap permits (a := afterRefused a) (d := maxEntriesPerBatch) (by decide)
          hdrop h.prevFits.1 (by show _ < (a.entries.drop maxEntriesPerBatch).length + _; rw [List.length_drop]; omega) hg
        exact hgap (hall b (List.mem_append_right _ hb)).numbered
      refine List.pairwise_cons.2 ⟨fun g hg hg' => ?_, List.pairwise_of_forall_mem_list fun _ _ g hg hg' => ?_⟩ <;>
        rw [hnone g hg] at hg' <;> cases hg'

/-- A leader of term 1 with 101 entries beyond the base, and the arguments `sendHeartbeats` makes of them for a peer that
has none of them: a batch of 100 entries and one of a single entry. -/
def longLeader : Raft where
  id := "A"
  peers := ["B"]
  state := .leader
  term := 1
  log := boundary 0 0 :: (List.range 101).map fun k => ⟨(k : Int) + 1, 1, .delete [1]⟩

@[inherit_doc longLeader]
def longArgs : AppendArgs := ⟨"B", 1, "A", 0, 0, longLeader.log.tail.map LogEntry.toWire, 0⟩

/-- The first batch gets a permit and the second does not. -/
theorem pipelined_requests_chained_long :
    ((sendBatchesWithPipeline longArgs [true, false]).map fun b => (b.prevLogIndex, b.entries.length)) = [(0, 100)] ∧
      ∀ b ∈ sendBatchesWithPipeline longArgs [true, false], Chained longLeader (appendEntriesRequest b) := by
  refine ⟨by decide +kernel,
    @pipelined_requests_chained longLeader longArgs longLeader.log.tail [true, false] ?_ ?_ ?_ rfl ?_ ?_⟩
  · exact ⟨boundary 0 0, by decide +kernel, rfl⟩
  · decide +kernel
  · decide +kernel
  · decide +kernel
  · decide

/-- The first batch gets no permit and the second does: its only entry is number 101, and it claims to follow
index 0. -/
theorem skippedBatch_leaves_gap :
    (∃ e, longLeader.entryAt longArgs.prevLogIndex = some e ∧ e.term = longArgs.prevLogTerm) ∧
      Numbered (longArgs.prevLogIndex + 1) longLeader.log.tail ∧
      longArgs.entries = longLeader.log.tail.map LogEntry.toWire ∧
      (sendBatchesWithPipeline longArgs [false, true]).map (fun b => (b.prevLogIndex, b.entries)) =
        [(0, [⟨101, 1, .delete [1]⟩])] ∧
      ∃ b ∈ sendBatchesWithPipeline longArgs [false, true], ¬ Numbered ((appendEntriesRequest b).prevLogIndex + 1)
        (appendEntriesRequest b).entries := by
  refine ⟨⟨boundary 0 0, by decide +kernel, rfl⟩, by decide +kernel, rfl, by decide +kernel, by decide +kernel⟩

end Mimori
