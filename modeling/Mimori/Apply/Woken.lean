/-
Waiters and the applier. A channel that `AppliedWait` hands out is closed by the applier when it is through
with the index, and only if the channel is still the one registered there and `lastApplied` has come to the
index step by step. So a second call for the same index loses the first caller, and a snapshot that carries
`lastApplied` over an index loses everyone who waits for it.
-/
import Mimori.Apply.Waiters
import Mimori.Storage.Removed

namespace Mimori

open Raft

namespace Raft

/-! ## A channel and its index -/

/-- Channel `ch` was handed out for index `i`: it is closed, or it is registered and the applier, which stands
at `x`, has not been through with the index. -/
def Due (r : Raft) (x : Applier) (i : Int) (ch : Nat) : Prop :=
  r.chans[ch]? = some true ∨
    (ch < r.chans.length ∧ r.waiters i = some ch ∧ (r.lastApplied < i ∨ (r.lastApplied = i ∧ x ≠ .loop)))

variable {r r' : Raft} {x x' : Applier} {i : Int} {ch : Nat}

theorem Due.closed (h : Due r x i ch) (hi : i ≤ r.lastApplied) (hx : x = .loop ∨ i < r.lastApplied) :
    r.chans[ch]? = some true := by
  rcases h with h | ⟨_, _, h | ⟨h, hne⟩⟩
  · exact h
  · omega
  · rcases hx with hx | hx
    · exact absurd hx hne
    · omega

/-- The channels stay as they are; `lastApplied` and the applier move, but not past an index that is waited for. -/
theorem Due.moved (h : Due r x i ch) (hs : SameWaiters r r')
    (hl : r.waiters i = some ch → r.lastApplied < i ∨ (r.lastApplied = i ∧ x ≠ .loop) →
      r'.lastApplied < i ∨ (r'.lastApplied = i ∧ x' ≠ .loop)) : Due r' x' i ch := by
  rcases h with h | ⟨hlen, hw, h⟩
  · exact .inl (by rw [hs.chans]; exact h)
  · exact .inr ⟨by rw [hs.chans]; exact hlen, by rw [hs.waiters]; exact hw, hl hw h⟩

/-- A further call leaves the channels of the others registered, if nobody waits for its index. -/
theorem Due.appliedWait (h : Due r x i ch) {index : Int} (hfree : index ≤ r.lastApplied ∨ r.waiters index = none) :
    Due (r.appliedWait index).1 x i ch := by
  have happend : ∀ b, r.chans[ch]? = some true → (r.chans ++ [b])[ch]? = some true := by
    intro b hc
    rw [List.getElem?_append_left (List.getElem?_eq_some_iff.1 hc).1]
    exact hc
  unfold Raft.appliedWait
  split
  · rcases h with h | ⟨hlen, hw, h⟩
    · exact .inl (happend true h)
    · exact .inr ⟨by simp only [List.length_append, List.length_singleton]; omega, hw, h⟩
  · rename_i hindex
    have hnone := hfree.resolve_left hindex
    rcases h with h | ⟨hlen, hw, h⟩
    · exact .inl (happend false h)
    · refine .inr ⟨by simp only [List.length_append, List.length_singleton]; omega, ?_, h⟩
      have hne : i ≠ index := by
        rintro rfl
        rw [hnone] at hw
        cases hw
      simp only [if_neg hne, hw]

theorem appliedWait_due (r : Raft) (x : Applier) (index : Int) :
    Due (r.appliedWait index).1 x index (r.appliedWait index).2 := by
  unfold Raft.appliedWait
  split
  · exact .inl (by simp)
  · exact .inr ⟨by simp, by simp, .inl (by simp only; omega)⟩

/-- After the applier has closed the waiter of `lastApplied` nobody waits for that index. -/
theorem Due.closeWaiter (h : Due r x i ch) : Due r.closeWaiter .loop i ch := by
  unfold Raft.closeWaiter
  split
  · rename_i hnone
    rcases h with h | ⟨hlen, hw, h | ⟨h, _⟩⟩
    · exact .inl h
    · exact .inr ⟨hlen, hw, .inl h⟩
    · rw [h, hw] at hnone
      cases hnone
  · rename_i c hc
    rcases h with h | ⟨hlen, hw, h | ⟨h, _⟩⟩
    · left
      by_cases hch : c = ch
      · subst hch
        simp [(List.getElem?_eq_some_iff.1 h).1]
      · rw [List.getElem?_set_ne hch]
        exact h
    · have hne : i ≠ r.lastApplied := by omega
      exact .inr ⟨by simpa using hlen, by simp only [if_neg hne, hw], .inl h⟩
    · rw [h, hw] at hc
      cases hc
      exact .inl (by simp [hlen])

theorem Due.afterApply (h : Due r x i ch) (io : Io) : Due (r.afterApply io) .loop i ch := by
  refine h.closeWaiter.moved (afterApply_waiters r io) fun _ hl => ?_
  rw [(afterApply_rest r io).applied, ← (closeWaiter_rest r).applied]
  exact hl

/-- The applier takes the next entry, and stands before the close of its waiter from then on. -/
theorem Due.takeNext (h : Due r .loop i ch) (io : Io) :
    Due (r.takeNext io).1 (((r.takeNext io).2.map Applier.deliver).getD .loop) i ch := by
  refine h.moved (takeNext_data r io).toSameWaiters fun _ hl => ?_
  have hlt : r.lastApplied < i := by
    rcases hl with hl | ⟨_, hne⟩
    · exact hl
    · exact absurd rfl hne
  rcases takeNext_progress r io with ⟨_, he⟩ | ⟨e, _, he, _, happ⟩
  · rw [he]
    exact .inl hlt
  · rw [happ, he]
    by_cases hi : r.lastApplied + 1 = i
    · exact .inr ⟨hi, fun hc => by cases hc⟩
    · exact .inl (by omega)

end Raft

namespace Cluster

/-! ## Steps -/

/-- What a step means for those who wait at node `n`. When the applier looks for the next entry, `r` is the node
just before. -/
inductive Awaits (s : Cluster) (a : Action) (s' : Cluster) (n : NodeID) : Prop
  | quiet (hw : SameWaiters (s.raft n) (s'.raft n)) (hl : (s'.raft n).lastApplied = (s.raft n).lastApplied)
      (happ : (s'.app n).applier = .loop → (s.app n).applier = .loop)
  | wait (i : Nat) (io : Io) (t : Task) (index : Int) (ha : a = .run i .go io) (hx : s.tasks[i]? = some (n, t))
      (ht : waitsFor t = some index) (hr : s'.raft n = ((s.raft n).appliedWait index).1)
      (happ : (s'.app n).applier = (s.app n).applier)
  | install (call : Nat) (io : Io) (src : NodeID) (req : InstallSnapshotRequest) (ha : a = .deliver call io)
      (hp : s.requests[call]? = some ⟨src, n, .installSnapshot req⟩) (hterm : (s.raft n).term ≤ req.term)
      (hw : SameWaiters (s.raft n) (s'.raft n)) (hl : (s'.raft n).lastApplied = req.lastIncludedIndex)
      (happ : (s'.app n).applier = (s.app n).applier)
  | next (r : Raft) (io : Io)
      (hfrom : (r = s.raft n ∧ (s.app n).applier = .loop) ∨ r = (s.raft n).afterApply io)
      (hr : s'.raft n = (r.takeNext io).1)
      (happ : (s'.app n).applier = ((r.takeNext io).2.map Applier.deliver).getD .loop)

variable {s s' : Cluster} {a : Action} {n : NodeID}

theorem awaits_other (hs : s.step a = some s') (ha : ∀ io, a ≠ .applierTake n io ∧ a ≠ .applierDone n io) :
    Awaits s a s' n := by
  have happ := step_applier hs ha
  have hloop : (s'.app n).applier = .loop → (s.app n).applier = .loop := by
    intro hx
    rcases happ with h | ⟨_, _, h⟩
    · rw [← h]; exact hx
    · rw [h] at hx; cases hx
  -- a step that is not the applier's at all leaves it where it is
  have hsame : a ≠ .applierSend n → (s'.app n).applier = (s.app n).applier :=
    fun hne => happ.resolve_right fun h => hne h.1
  rcases step_at hs n with heq | ⟨_, hm⟩
  · exact .quiet (by rw [heq]; exact .refl _) (by rw [heq]) hloop
  · cases hm.waiters with
    | same _ hw =>
      rcases hm.progress.applied with h | ⟨call, io, src, req, rfl, h2, h3, h4, _⟩ | ⟨io, h | h⟩
      · exact .quiet hw h hloop
      · exact .install call io src req rfl h2 h3 hw h4 (hsame fun hc => by cases hc)
      · exact absurd h (ha io).1
      · exact absurd h (ha io).2
    | wait i io t index hx ht h => exact .wait i io t index rfl hx ht h (hsame fun hc => by cases hc)
    | close io => exact absurd rfl (ha io).2

theorem step_awaits (hs : s.step a = some s') (n : NodeID) : Awaits s a s' n := by
  rcases step_search hs n with ha | ⟨io, r, hfrom, hraft, happ⟩
  · exact awaits_other hs ha
  · refine .next r (s.envOf n io) ?_ hraft (by rw [happ])
    cases hfrom with
    | loop h => exact .inl ⟨rfl, h⟩
    | delivered => exact .inr rfl

/-! ## Runs with callers of their own -/

inductive WaitAction
  | life (l : RestartAction)
  /-- Some caller asks node `n` for the channel of an index. -/
  | wait (n : NodeID) (index : Int)
  /-- Node `n` handles a snapshot, whoever sent it. -/
  | install (n : NodeID) (req : InstallSnapshotRequest) (io : Io)

def waitStep (s : Cluster) : WaitAction → Option Cluster
  | .life l => s.restartStep l
  | .wait n index => if n ∈ s.procs then some (s.setRaft n ((s.raft n).appliedWait index).1) else none
  | .install n req io =>
    if n ∈ s.procs then
      let (r, payload, _) := (s.raft n).installSnapshot req (s.envOf n io)
      some ((s.setRaft n r).setApp n ((s.app n).restore payload io.restore))
    else none

/-- The cluster with restarts, in which `AppliedWait` may be called for any index and `InstallSnapshot` with any
request. -/
def waitMachine : Machine Cluster WaitAction := ⟨machine.init, waitStep⟩

/-- The channel that an action hands out: the node, the index it is for, and its number there. -/
def handed (s : Cluster) : WaitAction → Option (NodeID × Int × Nat)
  | .wait n index => some (n, index, ((s.raft n).appliedWait index).2)
  | .life (.life (.step (.run i .go _))) =>
    match s.tasks[i]? with
    | some (n, t) => (waitsFor t).map fun index => (n, index, ((s.raft n).appliedWait index).2)
    | none => none
  | _ => none

/-- The process that an action ends. Its channels are gone with it. -/
def ended (s : Cluster) : WaitAction → Option NodeID
  | .life l => (s.restartDisk l).map Prod.fst
  | _ => none

/-- The channels ever handed out, each by the process its node still runs in. -/
def issued : List (Cluster × WaitAction) → List (NodeID × Int × Nat)
  | [] => []
  | (s, l) :: h => (s.handed l).toList ++ (issued h).filter fun c => decide (s.ended l ≠ some c.1)

/-- The snapshot an action installs. -/
def installing (s : Cluster) : WaitAction → Option (NodeID × InstallSnapshotRequest)
  | .install n req _ => some (n, req)
  | .life (.life (.step (.deliver call _))) =>
    match s.requests[call]? with
    | some ⟨_, n, .installSnapshot req⟩ => some (n, req)
    | _ => none
  | _ => none

/-- Nobody waits for the index. -/
def waitsAlone (s : Cluster) (l : WaitAction) : Bool :=
  match s.handed l with
  | some (n, index, _) => decide (index ≤ (s.raft n).lastApplied) || ((s.raft n).waiters index).isNone
  | none => true

/-- An accepted snapshot carries `lastApplied` over no index that someone waits for. It may come to such an index
while the applier is busy, which then closes the waiter. -/
def skipsNobody (s : Cluster) (l : WaitAction) : Bool :=
  match s.installing l with
  | some (n, req) => decide (req.term < (s.raft n).term) ||
      (indices (s.raft n).lastApplied req.lastIncludedIndex).all fun j => ((s.raft n).waiters j).isNone ||
        (j == req.lastIncludedIndex && (s.app n).applier != .loop)
  | none => true

def keepsWaiters (s : Cluster) (l : WaitAction) : Bool := s.waitsAlone l && s.skipsNobody l

/-! ## The invariant -/

variable {l : WaitAction} {i : Int} {ch : Nat}

theorem mem_indices {lo hi j : Int} (h1 : lo ≤ j) (h2 : j ≤ hi) : j ∈ indices lo hi := by
  refine List.mem_map.2 ⟨(j - lo).toNat, List.mem_range.2 ?_, ?_⟩ <;> omega

theorem waitsAlone_free (h : s.waitsAlone l = true) {index : Int} {c : Nat} (hl : s.handed l = some (n, index, c)) :
    index ≤ (s.raft n).lastApplied ∨ (s.raft n).waiters index = none := by
  simpa only [waitsAlone, hl, Bool.or_eq_true, decide_eq_true_eq, Option.isNone_iff_eq_none] using h

theorem due_install {r' : Raft} {x' : Applier} {req : InstallSnapshotRequest}
    (h : Due (s.raft n) (s.app n).applier i ch) (hok : s.skipsNobody l = true) (hl : s.installing l = some (n, req))
    (hterm : (s.raft n).term ≤ req.term) (hw : SameWaiters (s.raft n) r')
    (happ : r'.lastApplied = req.lastIncludedIndex) (hx : x' = (s.app n).applier) : Due r' x' i ch := by
  refine h.moved hw fun hreg hat => ?_
  simp only [skipsNobody, hl, Bool.or_eq_true, decide_eq_true_eq, List.all_eq_true, Option.isNone_iff_eq_none,
    Bool.and_eq_true, beq_iff_eq, bne_iff_ne] at hok
  rw [happ, hx]
  by_cases hi : i ≤ req.lastIncludedIndex
  · rcases hok.resolve_left (by omega) i (mem_indices (by omega) hi) with hnone | ⟨heq, hne⟩
    · rw [hreg] at hnone
      cases hnone
    · exact .inr ⟨heq.symm, hne⟩
  · exact .inl (by omega)

theorem installSnapshot_due {req : InstallSnapshotRequest} {io : Io} (h : Due (s.raft n) (s.app n).applier i ch)
    (hok : s.skipsNobody (.install n req io) = true) :
    Due ((s.raft n).installSnapshot req (s.envOf n io)).1 (s.app n).applier i ch := by
  have hw := installSnapshot_waiters (s.raft n) req (s.envOf n io)
  by_cases hterm : req.term < (s.raft n).term
  · rw [show (s.raft n).installSnapshot req (s.envOf n io) = _ from if_pos hterm]
    exact h
  · rcases installSnapshot_progress (s.raft n) req (s.envOf n io) with ⟨hlt, _⟩ | ⟨_, happ, _⟩
    · exact absurd hlt hterm
    · exact due_install h hok rfl (by omega) hw happ rfl

theorem step_due (hs : s.step a = some s') (hok : s.keepsWaiters (.life (.life (.step a))) = true)
    (h : Due (s.raft n) (s.app n).applier i ch) : Due (s'.raft n) (s'.app n).applier i ch := by
  simp only [keepsWaiters, Bool.and_eq_true] at hok
  cases step_awaits hs n with
  | quiet hw hl happ =>
    refine h.moved hw fun _ hat => ?_
    rw [hl]
    rcases hat with hlt | ⟨heq, hne⟩
    · exact .inl hlt
    · exact .inr ⟨heq, fun hx => hne (happ hx)⟩
  | wait k io t index ha hx ht hr happ =>
    subst ha
    rw [hr, happ]
    exact h.appliedWait (waitsAlone_free hok.1 (by simp only [handed, hx, ht]; rfl))
  | install call io src req ha hp hterm hw hl happ =>
    subst ha
    exact due_install h hok.2 (by simp only [installing, hp]) hterm hw hl happ
  | next r io hfrom hr happ =>
    rw [hr, happ]
    refine Due.takeNext ?_ io
    rcases hfrom with ⟨rfl, hloop⟩ | rfl
    · rw [← hloop]; exact h
    · exact h.afterApply io

theorem waitStep_due (hs : s.waitStep l = some s') (hok : s.keepsWaiters l = true) (hn : s.ended l ≠ some n)
    (h : Due (s.raft n) (s.app n).applier i ch) : Due (s'.raft n) (s'.app n).applier i ch := by
  have hboth := hok
  simp only [keepsWaiters, Bool.and_eq_true] at hboth
  cases l with
  | life l =>
    rcases restartStep_cases hs with ⟨a, rfl, hs⟩ | ⟨m, d, start, hd, rfl⟩
    · exact step_due hs hok h
    · have hm : n ≠ m := by
        rintro rfl
        exact hn (by simp only [ended, hd]; rfl)
      rw [restart_raft, if_neg hm]
      simp only [restart, Function.update_of_ne hm]
      exact h
  | wait m index =>
    simp only [waitStep] at hs
    split at hs
    · cases hs
      by_cases hm : n = m
      · subst hm
        rw [setRaft_raft_self, setRaft_app]
        exact h.appliedWait (waitsAlone_free hboth.1 rfl)
      · rw [setRaft_raft_ne _ _ _ _ hm, setRaft_app]
        exact h
    · cases hs
  | install m req io =>
    simp only [waitStep] at hs
    split at hs
    · cases hs
      by_cases hm : n = m
      · subst hm
        rw [setApp_raft, setRaft_raft_self, setApp_app, if_pos rfl]
        rw [App.restore_applier]
        exact installSnapshot_due h hboth.2
      · rw [setApp_raft, setRaft_raft_ne _ _ _ _ hm, setApp_app, if_neg hm]
        exact h
    · cases hs

/-- The channel of a call is registered or closed when the call returns. -/
theorem waitStep_handed (hs : s.waitStep l = some s') (hl : s.handed l = some (n, i, ch)) :
    Due (s'.raft n) (s'.app n).applier i ch := by
  have hcall : ∀ m index, s'.raft m = ((s.raft m).appliedWait index).1 →
      (m, index, ((s.raft m).appliedWait index).2) = (n, i, ch) → Due (s'.raft n) (s'.app n).applier i ch := by
    intro m index hr heq
    cases heq
    rw [hr]
    exact appliedWait_due ..
  unfold handed at hl
  split at hl
  · rename_i m index
    simp only [waitStep] at hs
    split at hs
    · cases hs
      exact hcall m index (setRaft_raft_self ..) (Option.some.inj hl)
    · cases hs
  · rename_i k io
    split at hl
    · rename_i m t hx
      obtain ⟨index, ht, heq⟩ := Option.map_eq_some_iff.1 hl
      exact hcall m index (step_waitsFor hs hx ht) heq
    · cases hl
  · cases hl

theorem run_due {h : List (Cluster × WaitAction)} {s : Cluster}
    (hr : waitMachine.Run (fun s l => s.keepsWaiters l = true) h s) :
    ∀ n i ch, (n, i, ch) ∈ issued h → Due (s.raft n) (s.app n).applier i ch := by
  refine hr.history (I := fun h s => ∀ n i ch, (n, i, ch) ∈ issued h → Due (s.raft n) (s.app n).applier i ch) ?_ ?_
  · intro s _ n i ch hc
    cases hc
  · intro h s l s' _ ih hok hs n i ch hc
    rcases List.mem_append.1 hc with hc | hc
    · exact waitStep_handed hs (Option.mem_toList.1 hc)
    · obtain ⟨hc, hn⟩ := List.mem_filter.1 hc
      exact waitStep_due hs hok (of_decide_eq_true hn) (ih n i ch hc)

/-! ## The result -/

/-- No waiter is lost in a run in which nobody asks for an index that is waited for already, and no snapshot
carries `lastApplied` over one: once `lastApplied` has reached the index of a channel, the channel is closed, the
one of the entry the applier is about to deliver apart. -/
theorem no_waiter_lost {h : List (Cluster × WaitAction)} {s : Cluster} {n : NodeID} {i : Int} {ch : Nat}
    (hr : waitMachine.Run (fun s l => s.keepsWaiters l = true) h s) (hc : (n, i, ch) ∈ issued h)
    (hi : i ≤ (s.raft n).lastApplied) (hx : (s.app n).applier = .loop ∨ i < (s.raft n).lastApplied) :
    (s.raft n).chans[ch]? = some true :=
  (run_due hr n i ch hc).closed hi hx

/-- The leader A applies its first entry. -/
def appliedFirst : List WaitAction :=
  (firstApplied ++ [Action.applierSend "A", .applierDone "A" {}]).map fun a => .life (.life (.step a))

theorem no_waiter_lost_first :
    ∃ h s, waitMachine.Run (fun s l => s.keepsWaiters l = true) h s ∧ ("A", 1, 0) ∈ issued h ∧
      (s.raft "A").lastApplied = 1 ∧ (s.raft "A").chans[0]? = some true := by
  obtain ⟨h, s, hr, hc, hl, hx⟩ := Machine.exists_run (S := waitMachine) (fun s l => s.keepsWaiters l = true)
    (fun h s => ("A", 1, 0) ∈ issued h ∧ (s.raft "A").lastApplied = 1 ∧ (s.app "A").applier = .loop)
    (machine_init threeNodes true true) (.wait "A" 1 :: appliedFirst) (by decide +kernel)
  exact ⟨h, s, hr, hc, hl, no_waiter_lost hr hc hl.ge (.inl hx)⟩

/-- A node whose applier is at rest has applied the index of an open channel. -/
def losesWaiter (h : List (Cluster × WaitAction)) (s : Cluster) : Bool :=
  (issued h).any fun c => decide (c.2.1 ≤ (s.raft c.1).lastApplied) && (s.app c.1).applier == .loop &&
    (s.raft c.1).chans[c.2.2]? == some false

/-- Two calls for index 1 before A applies it, and a call for index 1 at B before a snapshot comes that covers it. -/
theorem waiters_are_lost :
    (∃ h s, waitMachine.Run (fun _ _ => True) h s ∧ losesWaiter h s = true ∧ ∀ x ∈ h, x.1.skipsNobody x.2 = true) ∧
      ∃ h s, waitMachine.Run (fun _ _ => True) h s ∧ losesWaiter h s = true ∧ ∀ x ∈ h, x.1.waitsAlone x.2 = true :=
  ⟨Machine.exists_run (fun _ _ => True) (fun h s => losesWaiter h s = true ∧ ∀ x ∈ h, x.1.skipsNobody x.2 = true)
      (machine_init threeNodes true true) (.wait "A" 1 :: .wait "A" 1 :: appliedFirst) (by decide +kernel),
    Machine.exists_run (fun _ _ => True) (fun h s => losesWaiter h s = true ∧ ∀ x ∈ h, x.1.waitsAlone x.2 = true)
      (machine_init threeNodes true true)
      [.wait "B" 1, .install "B" ⟨1, "A", 1, 1, .state []⟩ {}]
      (by decide +kernel)⟩

end Cluster

end Mimori
