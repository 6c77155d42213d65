/-
Acknowledged writes. `Server.Put` and `Server.Delete` propose a command, wait for its index to be
applied and answer. A waiter knows only the index, so the answer is about the command as long as the
entry at that index is not replaced before it is applied.
-/
import Mimori.Apply.Waiters
import Mimori.Log.Agreement
import Mimori.Log.Order

namespace Mimori

open Raft

namespace Raft

variable {r r' : Raft} {i : Int} {ch : Nat}

/-! ## Channels -/

/-- Every channel a waiter holds was handed out. -/
def ChansOk (r : Raft) : Prop := ∀ j ch, r.waiters j = some ch → ch < r.chans.length

/-- Channel `ch` is that of a client that waits for index `i`: it is closed only when `i` is applied. -/
structure WaitsOn (r : Raft) (i : Int) (ch : Nat) : Prop where
  handed : ch < r.chans.length
  closed : r.chans[ch]? = some true → i ≤ r.lastApplied
  index : ∀ j, r.waiters j = some ch → j = i

theorem ChansOk.of_same (h : ChansOk r) (hs : SameWaiters r r') : ChansOk r' := by
  intro j ch hj
  rw [hs.waiters] at hj
  rw [hs.chans]; exact h j ch hj

theorem WaitsOn.of_same (h : WaitsOn r i ch) (hs : SameWaiters r r') (hl : r.lastApplied ≤ r'.lastApplied) :
    WaitsOn r' i ch := by
  refine ⟨by rw [hs.chans]; exact h.handed, fun hc => ?_, fun j hj => h.index j (by rw [← hs.waiters]; exact hj)⟩
  rw [hs.chans] at hc
  exact le_trans (h.closed hc) hl

theorem appliedWait_chansOk (h : ChansOk r) (index : Int) : ChansOk (r.appliedWait index).1 := by
  intro j ch hj
  unfold appliedWait at hj ⊢
  split at hj
  · rename_i hi
    rw [if_pos hi]
    simp only [List.length_append, List.length_singleton]
    exact Nat.lt_succ_of_lt (h j ch hj)
  · rename_i hi
    rw [if_neg hi]
    simp only [List.length_append, List.length_singleton] at hj ⊢
    split at hj
    · cases hj; omega
    · exact Nat.lt_succ_of_lt (h j ch hj)

/-- A client that starts to wait does not disturb the others. -/
theorem appliedWait_waitsOn (h : WaitsOn r i ch) (index : Int) : WaitsOn (r.appliedWait index).1 i ch := by
  have hlen := h.handed
  unfold appliedWait
  split
  · refine ⟨?_, fun hc => h.closed ?_, h.index⟩
    · simp only [List.length_append, List.length_singleton]; omega
    · simp only [List.getElem?_append_left hlen] at hc; exact hc
  · refine ⟨?_, fun hc => h.closed ?_, fun j hj => ?_⟩
    · simp only [List.length_append, List.length_singleton]; omega
    · simp only [List.getElem?_append_left hlen] at hc; exact hc
    · simp only at hj
      split at hj
      · cases hj; omega
      · exact h.index j hj

theorem appliedWait_new (h : ChansOk r) (index : Int) :
    WaitsOn (r.appliedWait index).1 index (r.appliedWait index).2 := by
  unfold appliedWait
  split
  · rename_i hi
    refine ⟨by simp, fun _ => hi, fun j hj => ?_⟩
    exact absurd (h j _ hj) (lt_irrefl _)
  · refine ⟨by simp, fun hc => ?_, fun j hj => ?_⟩
    · simp at hc
    · simp only at hj
      split at hj
      · rename_i he; exact he
      · exact absurd (h j _ hj) (lt_irrefl _)

theorem closeWaiter_chansOk (h : ChansOk r) : ChansOk r.closeWaiter := by
  intro j ch hj
  unfold closeWaiter at hj ⊢
  split at hj
  · exact h j ch hj
  · simp only at hj ⊢
    split at hj
    · cases hj
    · rw [List.length_set]; exact h j ch hj

/-- Closing the waiter of `lastApplied` closes only channels of clients that wait for it. -/
theorem closeWaiter_waitsOn (h : WaitsOn r i ch) : WaitsOn r.closeWaiter i ch := by
  unfold closeWaiter
  split
  · exact h
  · rename_i c hw
    refine ⟨?_, fun hc => ?_, fun j hj => ?_⟩
    · simp only [List.length_set]; exact h.handed
    · by_cases he : c = ch
      · subst he; exact (h.index _ hw).ge
      · simp only [List.getElem?_set_ne he] at hc; exact h.closed hc
    · simp only at hj
      split at hj
      · cases hj
      · exact h.index j hj

theorem Indexed.append_entryAt (h : Indexed r) {cmd : Command} (ha : Appends r r' cmd) {e : LogEntry}
    (he : r.entryAt i = some e) : r'.entryAt i = some e := by
  have hi := (h.entryAt_some he).2.1
  rw [h.entryAt hi] at he
  rw [(h.append ha).entryAt (by rw [ha.base]; exact hi), ha.log, ha.base,
    List.getElem?_append_left (List.getElem?_eq_some_iff.1 he).1]
  exact he

theorem Indexed.append_last (h : Indexed r) {cmd : Command} (ha : Appends r r' cmd) :
    r'.lastLogIndex = r.lastLogIndex + 1 ∧ r'.entryAt (r.lastLogIndex + 1) = some ⟨r.lastLogIndex + 1, r.term, cmd⟩ := by
  have h' := h.append ha
  have hl := h.lastLogIndex
  have hl' := h'.lastLogIndex
  rw [ha.log, ha.base, List.length_append, List.length_singleton] at hl'
  push_cast at hl'
  have hb := h.base_le_last
  refine ⟨by omega, ?_⟩
  have hpos : (r.lastLogIndex + 1 - r.logBaseIndex).toNat = r.log.length := by omega
  rw [h'.entryAt (by rw [ha.base]; omega), ha.log, ha.base, hpos, List.getElem?_concat_length]

/-! ## What a request leaves -/

/-- The request brings no other term for an entry of the log up to index `i`. -/
def keepsUpTo (r : Raft) (req : AppendEntriesRequest) (i : Int) : Bool :=
  req.entries.all fun e => decide (i < e.index) || (r.entryAt e.index).all (·.term == e.term)

/-- The request brings no other entry for index `i`: its entries agree with the log up to there, or this one is among
them again. -/
def keepsEntry (r : Raft) (req : AppendEntriesRequest) (i : Int) : Bool :=
  r.keepsUpTo req i || (req.entries.find? (·.index == i)).any fun e => r.entryAt i == some e

/-- The request does not cut the log below what was applied. -/
def keepsLength (r : Raft) (req : AppendEntriesRequest) : Bool :=
  decide (r.lastApplied ≤ req.lastIndex) || r.keepsUpTo req r.lastApplied

section Merges

variable {r r' : Raft} {req : AppendEntriesRequest}

/-- An entry the log has and the request brings again is in the log afterwards. -/
theorem Indexed.merge_mem (h : Indexed r) (hm : Merges r r' req) (hn : Numbered (req.prevLogIndex + 1) req.entries)
    {e : LogEntry} (he : e ∈ req.entries) (hat : r.entryAt e.index = some e) : e ∈ r'.log := by
  have hb := (h.entryAt_some hat).2.1
  rw [hm.log]
  rcases mergeEntries_cases r.logBaseIndex r.log hn with ⟨hsame, _⟩ | ⟨front, x, rest, hsplit, _, hx, _, hcut⟩
  · rw [hsame]; exact entryAt_mem hat
  · rw [hcut]
    rw [hsplit] at he hn
    rcases List.mem_append.1 he with he | he
    · -- below the cut
      have hlt := (Numbered.split hn).2 e he
      refine List.mem_append_left _ (List.mem_of_getElem? (i := (e.index - r.logBaseIndex).toNat) ?_)
      rw [List.getElem?_take, if_pos (by omega), ← h.entryAt hb]
      exact hat
    · exact List.mem_append_right _ he

theorem Indexed.merge_keepsEntry (h : Indexed r) (hm : Merges r r' req)
    (hn : Numbered (req.prevLogIndex + 1) req.entries) {i : Int} {e : LogEntry} (hk : r.keepsEntry req i = true)
    (he : r.entryAt i = some e) : r'.entryAt i = some e := by
  have h' := h.merge hm hn
  obtain ⟨hidx, hb, _⟩ := h.entryAt_some he
  rw [keepsEntry, Bool.or_eq_true, keepsUpTo, List.all_eq_true] at hk
  rcases hk with hk | hk
  · have hpre := h.merge_keeps hm hk
    refine h'.entryAt_iff.2 ⟨hpre.subset (List.mem_of_getElem? (i := (i - r.logBaseIndex).toNat) ?_), hidx⟩
    rw [List.getElem?_take, if_pos (by omega), ← h.entryAt hb]
    exact he
  · obtain ⟨x, hfind, hat⟩ := (Option.any_eq_true _ _).1 hk
    have hx := List.mem_of_find?_eq_some hfind
    rw [beq_iff_eq, he, Option.some.injEq] at hat
    subst hat
    rw [← hidx] at he ⊢
    exact h'.entryAt_iff.2 ⟨h.merge_mem hm hn hx he, rfl⟩

theorem Indexed.merge_keepsLength (h : Indexed r) (hm : Merges r r' req)
    (hn : Numbered (req.prevLogIndex + 1) req.entries) (hk : r.keepsLength req = true)
    (hl : r.lastApplied ≤ r.lastLogIndex) : r.lastApplied ≤ r'.lastLogIndex := by
  rw [keepsLength, Bool.or_eq_true, decide_eq_true_eq, keepsUpTo, List.all_eq_true] at hk
  rcases hk with hk | hk
  · rcases hm.lastLogIndex hn with hlast | ⟨hlast, _⟩ <;> omega
  · exact h.prefix_le_last (h.merge hm hn) hm.base hl (h.merge_keeps hm hk)

end Merges

end Raft

namespace Cluster

/-! ## Conditions -/

/-- The write a goroutine of `Server.Put` or `Server.Delete` has proposed. -/
def pendingOf : Task → Option (Int × Command)
  | .proposed index cmd => some (index, cmd)
  | .waiting index cmd _ => some (index, cmd)
  | _ => none

/-- The indices beyond `lastApplied` that clients of node `n` wait for. -/
def awaited (s : Cluster) (n : NodeID) : List Int :=
  (s.tasks.filterMap fun x => if x.1 = n then (pendingOf x.2).map Prod.fst else none).filter
    fun i => decide ((s.raft n).lastApplied < i)

/-- AppendEntries cuts no log below what was applied and replaces no entry a client waits for. -/
def appendKeepsWrites (s : Cluster) (a : Action) : Bool :=
  match s.accepts a with
  | some (_, n, req) => (s.raft n).keepsLength req && (s.awaited n).all ((s.raft n).keepsEntry req)
  | none => true

/-- InstallSnapshot does not go back behind what was applied and skips no entry a client waits for. -/
def installKeepsWrites (s : Cluster) : Action → Bool
  | .deliver call _ =>
    match s.requests[call]? with
    | some ⟨_, n, .installSnapshot req⟩ => decide (req.term < (s.raft n).term) ||
        decide ((s.raft n).lastApplied ≤ req.lastIncludedIndex) &&
          (s.awaited n).all fun i => decide (req.lastIncludedIndex < i)
    | _ => true
  | _ => true

/-- The conditions under which an acknowledged write is the applied one. -/
def writesKept (s : Cluster) (a : Action) : Bool := s.inPlace a && s.appendKeepsWrites a && s.installKeepsWrites a

theorem mem_awaited {s : Cluster} {n : NodeID} {t : Task} {i : Int} {cmd : Command} (ht : (n, t) ∈ s.tasks)
    (hp : pendingOf t = some (i, cmd)) (hl : (s.raft n).lastApplied < i) : i ∈ s.awaited n := by
  unfold awaited
  rw [List.mem_filter]
  refine ⟨List.mem_filterMap.2 ⟨(n, t), ht, ?_⟩, by simpa using hl⟩
  simp [hp]

/-! ## The invariant -/

/-- Node `n` has applied the command `cmd` at index `i`. -/
def Applied (s : Cluster) (n : NodeID) (i : Int) (cmd : Command) : Prop :=
  ∃ e ∈ (s.app n).taken, e.index = i ∧ e.data = cmd

/-- Every write that a client waits for is applied at its index, or still to come there. -/
structure PendingInv (s : Cluster) : Prop where
  index : IndexInv s
  applied : ∀ n, (s.raft n).lastApplied ≤ (s.raft n).lastLogIndex
  taken : ∀ n, ∀ e ∈ (s.app n).taken, e.index ≤ (s.raft n).lastApplied
  order : ∀ n, (s.app n).taken.Pairwise fun e e' => e.index < e'.index
  chans : ∀ n, ChansOk (s.raft n)
  waiting : ∀ n i cmd ch, (n, .waiting i cmd ch) ∈ s.tasks → WaitsOn (s.raft n) i ch
  pending : ∀ n t i cmd, (n, t) ∈ s.tasks → pendingOf t = some (i, cmd) → s.Applied n i cmd ∨
    ((s.raft n).lastApplied < i ∧ ∃ e, (s.raft n).entryAt i = some e ∧ e.data = cmd)

structure WriteInv (s : Cluster) : Prop extends PendingInv s where
  answers : ∀ n i cmd, .written n i cmd ∈ s.answers → s.Applied n i cmd

variable {s s' : Cluster} {a : Action} {n : NodeID} {i : Int} {cmd : Command} {t : Task}

theorem installKeepsWrites_le (h : s.installKeepsWrites a = true) {call : Nat} {io : Io} {src : NodeID}
    {req : InstallSnapshotRequest} (ha : a = .deliver call io)
    (hp : s.requests[call]? = some ⟨src, n, .installSnapshot req⟩) (ht : (s.raft n).term ≤ req.term) :
    (s.raft n).lastApplied ≤ req.lastIncludedIndex ∧ ∀ i ∈ s.awaited n, req.lastIncludedIndex < i := by
  subst ha
  simp only [installKeepsWrites, hp, Bool.or_eq_true, Bool.and_eq_true, decide_eq_true_eq, List.all_eq_true] at h
  rcases h with h | h
  · omega
  · exact h

theorem Takes.grows (h : Takes s a s' n) (hk : s.installKeepsWrites a = true) :
    (s.raft n).lastApplied ≤ (s'.raft n).lastApplied ∧ (s.app n).taken <+: (s'.app n).taken := by
  cases h with
  | idle ht hl => rw [ht, hl]; exact ⟨le_refl _, List.prefix_refl _⟩
  | take e ht hl => rw [ht, hl]; exact ⟨by omega, List.prefix_append ..⟩
  | install call io src req ha hp hterm ht hl =>
    rw [ht, hl]; exact ⟨(installKeepsWrites_le hk ha hp hterm).1, List.prefix_refl _⟩

theorem Applied.mono (h : s.Applied n i cmd) (hp : (s.app n).taken <+: (s'.app n).taken) : s'.Applied n i cmd := by
  obtain ⟨e, he, h1⟩ := h
  exact ⟨e, hp.subset he, h1⟩

theorem IndexInv.keepsAwaited (hi : IndexInv s) (hok : s.writesKept a = true) {r : Raft} (hs : LogStep s n r a)
    {e : LogEntry} (hm : i ∈ s.awaited n) (he : (s.raft n).entryAt i = some e) : r.entryAt i = some e := by
  simp only [writesKept, inPlace, Bool.and_eq_true] at hok
  obtain ⟨⟨⟨_, hfresh⟩, happ⟩, hins⟩ := hok
  have hl : (s.raft n).lastApplied < i := by simpa using (List.mem_filter.1 hm).2
  cases hs with
  | same _ h => rw [h.entryAt]; exact he
  | append _ _ h => exact (hi.node n).append_entryAt h he
  | merge call io src req hp _ h hsucc =>
    simp only [appendKeepsWrites, accepts_deliver hp hsucc, Bool.and_eq_true, List.all_eq_true] at happ
    exact (hi.node n).merge_keepsEntry h (hi.request _ (List.mem_of_getElem? hp) req rfl).numbered (happ.2 i hm) he
  | install call io src req hp hr ht h =>
    rw [(hi.node n).compact_entryAt h (freshSnapshot_base hfresh rfl hp ht) ((installKeepsWrites_le hins rfl hp ht).2 i hm)]
    exact he
  | snapshot _ snap h =>
    rw [(hi.node n).compact_entryAt h.compacts ((hi.node n).own_within h.own).1 (by rw [h.own.index]; exact hl)]
    exact he

theorem PendingInv.appliedStep (h : PendingInv s) (hi : IndexInv s') (hok : s.writesKept a = true)
    (hs : s.step a = some s') (n : NodeID) : (s'.raft n).lastApplied ≤ (s'.raft n).lastLogIndex := by
  have hbase := (hi.node n).base_le_last
  simp only [writesKept, inPlace, Bool.and_eq_true] at hok
  obtain ⟨⟨⟨_, hfresh⟩, happ⟩, hins⟩ := hok
  cases step_takes h.index hs n with
  | take e _ hl he _ hlog =>
    have hlast := hlog ((s.raft n).lastApplied + 1) (by omega)
    rw [he] at hlast
    rw [hl]; exact ((hi.node n).entryAt_some hlast).2.2
  | install call io src req ha hp hterm _ hl hb => omega
  | idle _ hl =>
    rw [hl]
    rcases step_at hs n with heq | ⟨_, hm⟩
    · rw [heq]; exact h.applied n
    · have hold := h.applied n
      have hlog := hm.logStep
      generalize s'.raft n = r at hlog hbase
      cases hlog with
      | same _ hl => rw [hl.lastLogIndex]; exact hold
      | append _ _ hl => have := ((h.index.node n).append_last hl).1; omega
      | merge call io src req hp _ hl hsucc =>
        simp only [appendKeepsWrites, accepts_deliver hp hsucc, Bool.and_eq_true] at happ
        have hn := (h.index.request _ (List.mem_of_getElem? hp) req rfl).numbered
        exact (h.index.node n).merge_keepsLength hl hn happ.1 hold
      | install call io src req hp _ ht hl =>
        have := (installKeepsWrites_le hins rfl hp ht).1
        have := hl.base
        simp only at this
        omega
      | snapshot _ snap hl =>
        have := hl.compacts.base
        have := hl.own.index
        omega

/-- Node `n` has taken entry `e`, or has it in its log and has not come to it. -/
def Retains (s : Cluster) (n : NodeID) (e : LogEntry) : Prop :=
  e ∈ (s.app n).taken ∨ ((s.raft n).lastApplied < e.index ∧ (s.raft n).entryAt e.index = some e)

/-- An entry stays with the node while a client waits for its index. -/
theorem PendingInv.retainsKept (h : PendingInv s) (hok : s.writesKept a = true) (hs : s.step a = some s')
    {e : LogEntry} (ht : (n, t) ∈ s.tasks) (hp : pendingOf t = some (e.index, cmd)) (he : s.Retains n e) :
    s'.Retains n e := by
  have hins : s.installKeepsWrites a = true := by
    simp only [writesKept, Bool.and_eq_true] at hok; exact hok.2
  have htakes := step_takes h.index hs n
  rcases he with he | ⟨hl, he⟩
  · exact .inl ((htakes.grows hins).2.subset he)
  · have hm := mem_awaited ht hp hl
    have hkept : (s'.raft n).entryAt e.index = some e := by
      rcases step_at hs n with heq | ⟨_, hstep⟩
      · rw [heq]; exact he
      · exact h.index.keepsAwaited hok hstep.logStep hm he
    cases htakes with
    | idle _ hl' => exact .inr ⟨by omega, hkept⟩
    | install call io src req ha hp' hterm _ hl' =>
      exact .inr ⟨by rw [hl']; exact (installKeepsWrites_le hins ha hp' hterm).2 _ hm, hkept⟩
    | take x htk hl' hx =>
      by_cases hi : e.index = (s.raft n).lastApplied + 1
      · -- the applier takes this very entry
        rw [← hi, he] at hx; cases hx
        refine .inl ?_
        rw [htk]; exact List.mem_append_right _ (List.mem_singleton_self _)
      · exact .inr ⟨by omega, hkept⟩

/-- A write that is not applied yet is in the log, at its index. -/
theorem PendingInv.pendingKept (h : PendingInv s) (hok : s.writesKept a = true) (hs : s.step a = some s')
    (ht : (n, t) ∈ s.tasks) (hp : pendingOf t = some (i, cmd)) :
    s'.Applied n i cmd ∨ ((s'.raft n).lastApplied < i ∧ ∃ e, (s'.raft n).entryAt i = some e ∧ e.data = cmd) := by
  obtain ⟨e, he, hi, hcmd⟩ : ∃ e, s.Retains n e ∧ e.index = i ∧ e.data = cmd := by
    rcases h.pending n t i cmd ht hp with ⟨e, he, hi, hcmd⟩ | ⟨hl, e, he, hcmd⟩
    · exact ⟨e, .inl he, hi, hcmd⟩
    · obtain rfl := ((h.index.node n).entryAt_some he).1
      exact ⟨e, .inr ⟨hl, he⟩, rfl, hcmd⟩
  subst hi
  rcases h.retainsKept hok hs ht hp he with he | ⟨hl, he⟩
  · exact .inl ⟨e, he, rfl, hcmd⟩
  · exact .inr ⟨hl, e, he, hcmd⟩

/-- A goroutine that waits for a write has proposed it, or has it from one that did. -/
theorem NewTask.pending (h : NewTask s a n t) (hp : pendingOf t = some (i, cmd)) :
    (∃ k io, a = .run k .go io ∧ s.tasks[k]? = some (n, .propose cmd) ∧ (s.raft n).state = .leader ∧
        i = (s.raft n).lastLogIndex + 1 ∧ t = .proposed i cmd) ∨
      ∃ k io, a = .run k .go io ∧ s.tasks[k]? = some (n, .proposed i cmd) ∧
        t = .waiting i cmd ((s.raft n).appliedWait i).2 := by
  cases h with
  | next k c io _ u _ hx hsp =>
    cases hsp with
    | proposed cmd hl => cases hp; exact .inl ⟨k, io, rfl, hx, hl, rfl, rfl⟩
    | waiting index cmd => cases hp; exact .inr ⟨k, io, rfl, hx, rfl⟩
    | _ => cases hp
  | _ => cases hp

/-- What a leader proposes it holds. -/
theorem PendingInv.proposedRetained (h : PendingInv s) {k : Nat} {io : Io} (hs : s.step (.run k .go io) = some s')
    (hx : s.tasks[k]? = some (n, .propose cmd)) (hl : (s.raft n).state = .leader) :
    s'.Retains n ⟨(s.raft n).lastLogIndex + 1, (s.raft n).term, cmd⟩ := by
  right
  rw [step_propose hs hx]
  have happlied := (propose_rest (s.raft n) cmd (s.envOf n io)).applied
  have hle := h.applied n
  refine ⟨by rw [happlied]; exact Int.lt_add_one_of_le hle, ?_⟩
  rcases propose_appends (s.raft n) cmd (s.envOf n io) with hsame | ⟨happ, _⟩
  · -- a leader does append
    have hne := hsame.log
    unfold Raft.propose at hne
    rw [if_neg (not_not.2 hl), (saveLog_sameLog _ _).log] at hne
    have := congrArg List.length hne
    simp [appendOwn] at this
  · exact ((h.index.node n).append_last happ).2

theorem PendingInv.newPending (h : PendingInv s) (hok : s.writesKept a = true) (hs : s.step a = some s')
    (ht : NewTask s a n t) (hp : pendingOf t = some (i, cmd)) :
    s'.Applied n i cmd ∨ ((s'.raft n).lastApplied < i ∧ ∃ e, (s'.raft n).entryAt i = some e ∧ e.data = cmd) := by
  rcases ht.pending hp with ⟨k, io, rfl, hx, hl, rfl, _⟩ | ⟨k, io, rfl, hx, _⟩
  · rcases h.proposedRetained hs hx hl with he | ⟨hlt, he⟩
    · exact .inl ⟨_, he, rfl, rfl⟩
    · exact .inr ⟨hlt, _, he, rfl⟩
  · exact h.pendingKept hok hs (List.mem_of_getElem? hx) rfl

theorem PendingInv.channels (h : PendingInv s) (hok : s.writesKept a = true) (hs : s.step a = some s') (n : NodeID) :
    ChansOk (s'.raft n) ∧ ∀ i ch, WaitsOn (s.raft n) i ch → WaitsOn (s'.raft n) i ch := by
  have hins : s.installKeepsWrites a = true := by
    simp only [writesKept, Bool.and_eq_true] at hok; exact hok.2
  have hmono := ((step_takes h.index hs n).grows hins).1
  rcases step_at hs n with heq | ⟨_, hm⟩
  · rw [heq]; exact ⟨h.chans n, fun _ _ hw => hw⟩
  · have hwait := hm.waiters
    generalize s'.raft n = r at hwait hmono
    cases hwait with
    | same _ hw => exact ⟨(h.chans n).of_same hw, fun i ch hch => hch.of_same hw hmono⟩
    | wait k io t index _ _ hr =>
      rw [hr]; exact ⟨appliedWait_chansOk (h.chans n) index, fun i ch hch => appliedWait_waitsOn hch index⟩
    | close io hw =>
      have hl : (s.raft n).closeWaiter.lastApplied = (s.raft n).lastApplied := (closeWaiter_rest _).applied
      exact ⟨(closeWaiter_chansOk (h.chans n)).of_same hw,
        fun i ch hch => (closeWaiter_waitsOn hch).of_same hw (by rw [hl]; exact hmono)⟩

theorem PendingInv.step (h : PendingInv s) (hok : s.writesKept a = true) (hs : s.step a = some s') : PendingInv s' := by
  have hin : s.inPlace a = true ∧ s.installKeepsWrites a = true := by
    simp only [writesKept, Bool.and_eq_true] at hok; exact ⟨hok.1.1, hok.2⟩
  have hi := h.index.step hin.1 hs
  have hgrows := fun n => (step_takes h.index hs n).grows hin.2
  refine ⟨hi, h.appliedStep hi hok hs, fun n e he => ?_, fun n => ?_, fun n => (h.channels hok hs n).1,
    fun n i cmd ch ht => ?_, fun n t i cmd ht hp => ?_⟩
  · cases step_takes h.index hs n with
    | idle ht hl => rw [ht] at he; rw [hl]; exact h.taken n e he
    | take x ht hl hx =>
      rw [ht, List.mem_append, List.mem_singleton] at he
      rw [hl]
      rcases he with he | rfl
      · have := h.taken n e he; omega
      · exact (((h.index.node n).entryAt_some hx).1).le
    | install call io src req ha hp hterm ht hl =>
      rw [ht] at he
      have := h.taken n e he
      have := (hgrows n).1
      omega
  · cases step_takes h.index hs n with
    | idle ht => rw [ht]; exact h.order n
    | take x ht hl hx =>
      rw [ht, List.pairwise_append]
      refine ⟨h.order n, List.pairwise_singleton .., fun e he y hy => ?_⟩
      rw [List.mem_singleton] at hy
      subst hy
      have := h.taken n e he
      have := ((h.index.node n).entryAt_some hx).1
      omega
    | install _ _ _ _ _ _ _ ht => rw [ht]; exact h.order n
  · rcases step_tasks hs ht with ht | ⟨_, ht⟩
    · exact (h.channels hok hs n).2 i ch (h.waiting n i cmd ch ht)
    · rcases ht.pending rfl with ⟨_, _, _, _, _, _, he⟩ | ⟨k, io, rfl, hx, he⟩
      · cases he
      · cases he
        rw [step_waitsFor hs hx rfl]; exact appliedWait_new (h.chans n) i
  · rcases step_tasks hs ht with ht | ⟨_, ht⟩
    · exact h.pendingKept hok hs ht hp
    · exact h.newPending hok hs ht hp

/-- A write that is answered now has been applied: its channel is closed, so the applier has passed the index, and the
entry was there. -/
theorem PendingInv.written (h : PendingInv s) (hnew : NewAnswer s a (.written n i cmd)) : s.Applied n i cmd := by
  cases hnew with
  | written k io _ _ _ ch hx hc =>
    have hm := List.mem_of_getElem? hx
    have hle := (h.waiting n i cmd ch hm).closed hc
    rcases h.pending n _ i cmd hm rfl with hd | ⟨hl, _⟩
    · exact hd
    · omega

theorem WriteInv.step (h : WriteInv s) (hok : s.writesKept a = true) (hs : s.step a = some s') : WriteInv s' := by
  have hins : s.installKeepsWrites a = true := by
    simp only [writesKept, Bool.and_eq_true] at hok; exact hok.2
  refine ⟨h.toPendingInv.step hok hs, fun n i cmd hans => ?_⟩
  have hold : s.Applied n i cmd := by
    rcases step_answers hs with he | ⟨ans, he, hnew⟩
    · rw [he] at hans; exact h.answers n i cmd hans
    · rw [he, List.mem_append, List.mem_singleton] at hans
      rcases hans with hans | rfl
      · exact h.answers n i cmd hans
      · exact h.written hnew
  exact hold.mono ((step_takes h.index hs n).grows hins).2

theorem WriteInv.start (procs : List NodeID) (peersOf : NodeID → List NodeID) (snapshotter restorer : Bool) :
    WriteInv (Cluster.start procs peersOf snapshotter restorer) := by
  refine ⟨⟨.start .., fun n => le_refl _, fun n e h => ?_, fun n => List.Pairwise.nil, fun n j ch h => ?_,
    fun n i cmd ch h => ?_, fun n t i cmd h => ?_⟩, fun n i cmd h => ?_⟩
  · cases h
  · cases h
  · cases h
  · cases h
  · cases h

/-- An acknowledged write is the applied write: in every run in which no AppendEntries or
InstallSnapshot request replaces or skips an entry that a client still waits for or cuts the log below
what was applied, a node that answers a write with success at index `i` has applied that command at `i`,
and no other. -/
theorem acknowledged_applied {h : List (Cluster × Action)} {s : Cluster}
    (hr : machine.Run (fun s a => s.writesKept a = true) h s) {n : NodeID} {i : Int} {cmd : Command}
    (ha : .written n i cmd ∈ s.answers) :
    (∃ e ∈ (s.app n).taken, e.index = i ∧ e.data = cmd) ∧ ∀ e ∈ (s.app n).taken, e.index = i → e.data = cmd := by
  have hi : WriteInv s := by
    refine Machine.Run.invariant ?_ (fun s a s' hi hok hs => hi.step hok hs) hr
    rintro s ⟨procs, peersOf, snapshotter, restorer, _, rfl⟩
    exact .start procs peersOf snapshotter restorer
  obtain ⟨e, he, hidx, hcmd⟩ := hi.answers n i cmd ha
  -- indices of taken entries grow, so there is one entry of index `i`
  have hone : ∀ x ∈ (s.app n).taken, ∀ y ∈ (s.app n).taken, x.index = y.index → x = y :=
    List.Pairwise.forall_of_forall_of_flip (fun _ _ _ => rfl) ((hi.order n).imp fun hlt heq => absurd heq hlt.ne)
      ((hi.order n).imp fun hlt heq => absurd heq hlt.ne')
  refine ⟨⟨e, he, hidx, hcmd⟩, fun x hx hxi => ?_⟩
  rw [hone x hx e he (hxi.trans hidx.symm)]
  exact hcmd

/-- A client writes through the leader A; B acknowledges the entry, A applies it and answers. -/
def firstWrite : List Action :=
  electA ++ [.client "A" (.put [1] [2]), .run 2 .go {}, .run 2 .go {}, .run 2 .go {}, .run 1 .go {}, .run 2 .go {},
    .run 2 .go {}, .run 3 .go {}, .run 3 .go {}, .deliver 1 {}, .run 4 (.reply 1) {}, .applierTake "A" {},
    .applierSend "A", .applierDone "A" {}, .run 1 .go {}]

theorem acknowledged_applied_firstWrite :
    ∃ h s, machine.Run (fun s a => s.writesKept a = true) h s ∧ .written "A" 1 (.put [1] [2]) ∈ s.answers ∧
      (∃ e ∈ (s.app "A").taken, e.index = 1 ∧ e.data = .put [1] [2]) ∧
      ∀ e ∈ (s.app "A").taken, e.index = 1 → e.data = .put [1] [2] := by
  obtain ⟨h, s, hr, ha⟩ := Machine.exists_run (fun s a => s.writesKept a = true)
    (fun _ s => .written "A" 1 (.put [1] [2]) ∈ s.answers) (machine_init threeNodes false false) firstWrite
    (by decide +kernel)
  exact ⟨h, s, hr, ha, acknowledged_applied hr ha⟩

/-- A proposes a write at index 1 and waits. C wins term 2, puts an entry of its own at index 1, has it
acknowledged by B and overwrites A's log with it. A applies it and tells its client that the write
succeeded. -/
def replacedWrite : List Action :=
  electA ++ [.client "A" (.put [1] [2]), .run 2 .go {}, .run 2 .go {}, .run 2 .go {}, .electionTimeout "C" 1500 {},
    .tick 2000, .electionTimeout "C" 1500 {}, .run 4 .go {}, .run 5 .go {}, .deliver 1 {}, .run 5 (.reply 1) {},
    .propose "C" (.put [1] [3]) {}, .run 5 .go {}, .run 5 .go {}, .run 5 .go {}, .run 5 .go {}, .run 7 .go {},
    .run 7 .go {}, .deliver 2 {}, .run 8 (.reply 2) {}, .run 5 .go {}, .run 7 .go {}, .deliver 3 {}, .run 8 (.reply 3) {},
    .run 5 .go {}, .run 7 .go {}, .run 7 .go {}, .run 7 .go {}, .run 8 .go {}, .deliver 4 {}, .applierTake "A" {},
    .applierSend "A", .applierDone "A" {}, .run 2 .go {}]

theorem replacedWrite_acknowledged :
    ∃ h s, machine.Run (fun s a => s.inPlace a = true) h s ∧ s.answers = [.written "A" 1 (.put [1] [2])] ∧
      (s.app "A").taken = [⟨1, 2, .put [1] [3]⟩] :=
  Machine.exists_run (fun s a => s.inPlace a = true)
    (fun _ s => s.answers = [.written "A" 1 (.put [1] [2])] ∧ (s.app "A").taken = [⟨1, 2, .put [1] [3]⟩])
    (machine_init threeNodes false false) replacedWrite (by decide +kernel)

end Cluster

end Mimori
