/-
The apply loop behind `applyCh`: which of the entries the applier took the store has executed. The
applier runs ahead of the store, by the entries in the channel and the one it is about to send, so an
acknowledged write is executed only if the loop has caught up when the waiter is closed.
-/
import Mimori.Apply.Acknowledged
import Mimori.Apply.Store

namespace Mimori

open Raft

namespace App

/-- The entries the apply loop has received. -/
def executed (a : App) : List LogEntry := a.sent.take a.received

/-- Everything the applier took has been executed. -/
def drained (a : App) : Bool := a.taken.length == a.received

theorem executed_prefix_taken (a : App) : a.executed <+: a.taken :=
  (List.take_prefix ..).trans (List.prefix_append ..)

theorem drained_executed {a : App} (h : a.drained = true) (hle : a.received ≤ a.sent.length) :
    a.executed = a.taken := by
  have hlen : a.taken.length = a.received := by simpa [drained] using h
  apply List.IsPrefix.eq_of_length a.executed_prefix_taken
  rw [executed, List.length_take, hlen]
  omega

end App

namespace Cluster

/-! ## Installed snapshots -/

/-- The index of the snapshot that node `n` installs in this step. -/
def restores (n : NodeID) (s : Cluster) : Action → Option Int
  | .deliver call _ =>
    match s.requests[call]? with
    | some ⟨_, m, .installSnapshot req⟩ =>
      if m = n ∧ (s.raft n).term ≤ req.term then some req.lastIncludedIndex else none
    | _ => none
  | _ => none

theorem restores_some {s : Cluster} {a : Action} {n : NodeID} {k : Int} (h : restores n s a = some k) :
    ∃ call io src req, a = .deliver call io ∧ s.requests[call]? = some ⟨src, n, .installSnapshot req⟩ ∧
      (s.raft n).term ≤ req.term ∧ req.lastIncludedIndex = k := by
  unfold restores at h
  split at h
  · split at h
    · split at h
      · rename_i hm
        obtain ⟨rfl, hterm⟩ := hm
        cases h
        exact ⟨_, _, _, _, rfl, by assumption, hterm, rfl⟩
      · cases h
    · cases h
  · cases h

theorem restores_of_install {s : Cluster} {a : Action} {n src : NodeID} {call : Nat} {io : Io}
    {req : InstallSnapshotRequest} (ha : a = .deliver call io)
    (hp : s.requests[call]? = some ⟨src, n, .installSnapshot req⟩) (hterm : (s.raft n).term ≤ req.term) :
    restores n s a = some req.lastIncludedIndex := by
  subst ha
  simp [restores, hp, hterm]

/-- Node `n` installs no snapshot from another node. -/
def keepsStore (n : NodeID) (s : Cluster) (a : Action) : Bool := (restores n s a).isNone

/-- The store of node `n` takes every write of the apply loop. -/
def writesStored (n : NodeID) : Action → Bool
  | .consume m stored => decide (m ≠ n) || stored
  | _ => true

/-! ## The store of a node -/

/-- What a step means for the apply loop of node `n`. -/
inductive Consumes (s : Cluster) (a : Action) (s' : Cluster) (n : NodeID) : Prop
  | idle (hr : (s'.app n).received = (s.app n).received) (hs : (s.app n).sent <+: (s'.app n).sent)
      (hst : (s'.app n).store = (s.app n).store)
  | consume (stored : Bool) (e : LogEntry) (ha : a = .consume n stored)
      (he : (s.app n).sent[(s.app n).received]? = some e)
      (hr : (s'.app n).received = (s.app n).received + 1) (hs : (s'.app n).sent = (s.app n).sent)
      (hst : (s'.app n).store = if stored then (s.app n).store.apply e.data else (s.app n).store)
  | restore (call : Nat) (io : Io) (src : NodeID) (req : InstallSnapshotRequest) (ha : a = .deliver call io)
      (hp : s.requests[call]? = some ⟨src, n, .installSnapshot req⟩) (hterm : (s.raft n).term ≤ req.term)
      (hr : (s'.app n).received = (s.app n).received) (hs : (s'.app n).sent = (s.app n).sent)
      (hap : (s'.app n).applier = (s.app n).applier)

theorem App.restore_channel (a : App) (payload : Option Payload) (ok : Bool) :
    (a.restore payload ok).received = a.received ∧ (a.restore payload ok).sent = a.sent ∧
      (a.restore payload ok).applier = a.applier := by
  unfold App.restore
  split <;> exact ⟨rfl, rfl, rfl⟩

theorem AppStep.consumes {s s' : Cluster} {a : Action} {n : NodeID} (h : AppStep s a n (s'.app n)) :
    Consumes s a s' n := by
  generalize hx : s'.app n = x at h
  cases h with
  | take _ io => exact .idle (by rw [hx]) (by rw [hx]) (by rw [hx])
  | send _ e => exact .idle (by rw [hx]) (by rw [hx]; exact List.prefix_append ..) (by rw [hx])
  | done _ io => exact .idle (by rw [hx]) (by rw [hx]) (by rw [hx])
  | consume _ stored e he => exact .consume stored e rfl he (by rw [hx]) (by rw [hx]) (by rw [hx])
  | restore call io src _ req hp =>
    obtain ⟨h1, h2, h3⟩ := App.restore_channel (s.app n) ((s.raft n).installSnapshot req (s.envOf n io)).2.1 io.restore
    by_cases hterm : req.term < (s.raft n).term
    · refine .idle (by rw [hx, h1]) (by rw [hx, h2]) ?_
      rw [hx, installSnapshot_payload, if_pos hterm]
      simp [App.restore]
    · exact .restore call io src req rfl hp (by omega) (by rw [hx, h1]) (by rw [hx, h2]) (by rw [hx, h3])

theorem step_consumes {s s' : Cluster} {a : Action} (hs : s.step a = some s') (n : NodeID) : Consumes s a s' n := by
  rcases step_app hs with heq | ⟨m, _, hm, hother⟩
  · exact .idle (by rw [heq]) (by rw [heq]) (by rw [heq])
  · by_cases hn : n = m
    · subst hn; exact hm.consumes
    · exact .idle (by rw [hother n hn]) (by rw [hother n hn]) (by rw [hother n hn])

/-- The store holds what the apply loop received, and nothing else. -/
structure StoreInv (s : Cluster) (n : NodeID) : Prop where
  received : (s.app n).received ≤ (s.app n).sent.length
  store : (s.app n).store = Store.replay [] (s.app n).executed

variable {s s' : Cluster} {a : Action} {n : NodeID}

theorem Consumes.received (h : Consumes s a s' n) (hle : (s.app n).received ≤ (s.app n).sent.length) :
    (s'.app n).received ≤ (s'.app n).sent.length ∧ (s.app n).executed <+: (s'.app n).executed := by
  unfold App.executed
  cases h with
  | idle hr hs =>
    obtain ⟨rest, hrest⟩ := hs
    rw [hr, ← hrest, List.take_append_of_le_length hle, List.length_append]
    exact ⟨by omega, List.prefix_refl _⟩
  | consume _ e _ he hr hs =>
    have hlt := (List.getElem?_eq_some_iff.1 he).1
    rw [hr, hs]
    exact ⟨hlt, List.take_prefix_take_left (Nat.le_succ _)⟩
  | restore _ _ _ _ _ _ _ hr hs => rw [hr, hs]; exact ⟨hle, List.prefix_refl _⟩

theorem keepsStore_term (hk : keepsStore n s a = true) {call : Nat} {io : Io} {src : NodeID}
    {req : InstallSnapshotRequest} (ha : a = .deliver call io)
    (hp : s.requests[call]? = some ⟨src, n, .installSnapshot req⟩) : req.term < (s.raft n).term := by
  by_contra hterm
  rw [keepsStore, restores_of_install ha hp (by omega)] at hk
  cases hk

theorem StoreInv.step (h : StoreInv s n) (hk : keepsStore n s a = true) (hw : writesStored n a = true)
    (hs : s.step a = some s') : StoreInv s' n := by
  have hc := step_consumes hs n
  refine ⟨(hc.received h.received).1, ?_⟩
  cases hc with
  | idle hr hsent hst =>
    obtain ⟨rest, hrest⟩ := hsent
    have hsame : (s'.app n).executed = (s.app n).executed := by
      unfold App.executed
      rw [hr, ← hrest, List.take_append_of_le_length h.received]
    rw [hst, hsame]; exact h.store
  | consume stored e ha he hr hsent hst =>
    have hstored : stored = true := by simpa [ha, writesStored] using hw
    have hnext : (s'.app n).executed = (s.app n).executed ++ [e] := by
      unfold App.executed
      rw [hr, hsent, List.take_add_one, he]
      rfl
    rw [hst, if_pos hstored, hnext, Store.replay_concat, h.store]
  | restore _ _ _ req ha hp hterm =>
    have := keepsStore_term hk ha hp
    omega

theorem StoreInv.start (procs : List NodeID) (peersOf : NodeID → List NodeID) (snapshotter restorer : Bool) :
    StoreInv (Cluster.start procs peersOf snapshotter restorer) n := ⟨le_refl _, rfl⟩

/-! ## Acknowledged and executed -/

/-- A waiter is closed, and `AppliedWait` finds its index applied, only when the apply loop has caught up
with the applier. -/
def executesFirst (s : Cluster) : Action → Bool
  | .applierDone n _ => ((s.raft n).waiters (s.raft n).lastApplied).isNone || (s.app n).drained
  | .run i .go _ =>
    match s.tasks[i]? with
    | some (n, .proposed index _) => decide ((s.raft n).lastApplied < index) || (s.app n).drained
    | _ => true
  | _ => true

def executionKept (n : NodeID) (s : Cluster) (a : Action) : Bool :=
  s.writesKept a && keepsStore n s a && writesStored n a && s.executesFirst a

/-- Node `n` has acknowledged `cmd` at index `i`: the channel of the call is closed, or it has answered. -/
def Acknowledged (s : Cluster) (n : NodeID) (i : Int) (cmd : Command) : Prop :=
  (∃ ch, (n, .waiting i cmd ch) ∈ s.tasks ∧ (s.raft n).chans[ch]? = some true) ∨ .written n i cmd ∈ s.answers

/-- What node `n` took up to index `i` has been executed. -/
structure Reached (s : Cluster) (n : NodeID) (i : Int) : Prop where
  applied : i ≤ (s.raft n).lastApplied
  executed : ∀ e ∈ (s.app n).taken, e.index ≤ i → e ∈ (s.app n).executed

theorem Reached.of_drained (hst : StoreInv s n) (hd : (s.app n).drained = true) {i : Int}
    (hi : i ≤ (s.raft n).lastApplied) : Reached s n i :=
  ⟨hi, fun e he _ => by rw [App.drained_executed hd hst.received]; exact he⟩

theorem Reached.step {i : Int} (h : Reached s n i) (hw : WriteInv s) (hst : StoreInv s n)
    (hok : s.writesKept a = true) (hs : s.step a = some s') : Reached s' n i := by
  simp only [writesKept, Bool.and_eq_true] at hok
  have happ := h.applied
  have htakes := step_takes hw.index hs n
  have hgrows := (htakes.grows hok.2).1
  have hexec := ((step_consumes hs n).received hst.received).2
  refine ⟨by omega, fun e he hle => hexec.subset ?_⟩
  cases htakes with
  | idle ht => rw [ht] at he; exact h.executed e he hle
  | take x ht _ hx =>
    rw [ht, List.mem_append, List.mem_singleton] at he
    rcases he with he | rfl
    · exact h.executed e he hle
    · have := ((hw.index.node n).entryAt_some hx).1
      omega
  | install _ _ _ _ _ _ _ ht => rw [ht] at he; exact h.executed e he hle

theorem closeWaiter_closed {r : Raft} {ch : Nat} (h : r.closeWaiter.chans[ch]? = some true) :
    r.chans[ch]? = some true ∨ r.waiters r.lastApplied = some ch := by
  unfold closeWaiter at h
  split at h
  · exact .inl h
  · rename_i c hc
    by_cases he : c = ch
    · subst he; exact .inr hc
    · rw [List.getElem?_set_ne he] at h; exact .inl h

/-- Where a closed channel comes from: it was closed before, or the step closes it, and then the apply
loop has caught up. -/
theorem NodeStep.closed {r : Raft} (hm : NodeStep s a n r) (hok : s.executesFirst a = true) {i : Int} {ch : Nat}
    (hw : WaitsOn (s.raft n) i ch) (hc : r.chans[ch]? = some true) :
    (s.raft n).chans[ch]? = some true ∨ (i ≤ (s.raft n).lastApplied ∧ (s.app n).drained = true) := by
  cases hm.waiters with
  | same _ h => rw [h.chans] at hc; exact .inl hc
  | wait k io t index hx ht h =>
    left
    rw [h] at hc
    unfold appliedWait at hc
    split at hc
    all_goals
      simp only [List.getElem?_append_left hw.handed] at hc
      exact hc
  | close io h =>
    rw [h.chans] at hc
    rcases closeWaiter_closed hc with hc | hc
    · exact .inl hc
    · right
      simp only [executesFirst, hc, Option.isNone_some, Bool.false_or] at hok
      exact ⟨le_of_eq (hw.index _ hc).symm, hok⟩

structure ExecInv (s : Cluster) (n : NodeID) : Prop where
  write : WriteInv s
  store : StoreInv s n
  acked : ∀ i cmd, s.Acknowledged n i cmd → Reached s n i

/-- A call that is acknowledged after a step was so before, or the step closes its channel. -/
theorem ExecInv.ackedBefore (h : ExecInv s n) (hok : s.executesFirst a = true) (hs : s.step a = some s') {i : Int}
    {cmd : Command} (hack : s'.Acknowledged n i cmd) : Reached s n i := by
  rcases hack with ⟨ch, ht, hc⟩ | hans
  · rcases step_tasks hs ht with ht | ⟨_, ht⟩
    · have hwait := h.write.waiting n i cmd ch ht
      rcases step_at hs n with heq | ⟨_, hm⟩
      · rw [heq] at hc; exact h.acked i cmd (.inl ⟨ch, ht, hc⟩)
      · rcases hm.closed hok hwait hc with hc | ⟨hle, hd⟩
        · exact h.acked i cmd (.inl ⟨ch, ht, hc⟩)
        · exact .of_drained h.store hd hle
    · -- a call that starts to wait: its channel is closed at once when the index is applied
      rcases ht.pending rfl with ⟨_, _, _, _, _, _, he⟩ | ⟨k, io, rfl, hx, he⟩
      · cases he
      · cases he
        rw [step_waitsFor hs hx rfl] at hc
        unfold appliedWait at hc
        split at hc
        · rename_i hle
          simp only [executesFirst, hx, Bool.or_eq_true, decide_eq_true_eq] at hok
          rcases hok with hok | hok
          · omega
          · exact .of_drained h.store hok hle
        · simp at hc
  · rcases step_answers hs with he | ⟨ans, he, hnew⟩
    · rw [he] at hans; exact h.acked i cmd (.inr hans)
    · rw [he, List.mem_append, List.mem_singleton] at hans
      rcases hans with hans | rfl
      · exact h.acked i cmd (.inr hans)
      · cases hnew with
        | written k io _ _ _ ch hx hc => exact h.acked i cmd (.inl ⟨ch, List.mem_of_getElem? hx, hc⟩)

theorem ExecInv.step (h : ExecInv s n) (hok : executionKept n s a = true) (hs : s.step a = some s') :
    ExecInv s' n := by
  simp only [executionKept, Bool.and_eq_true] at hok
  obtain ⟨⟨⟨hwrite, hstore⟩, hstored⟩, hexec⟩ := hok
  refine ⟨h.write.step hwrite hs, h.store.step hstore hstored hs, fun i cmd hack => ?_⟩
  exact (h.ackedBefore hexec hs hack).step h.write h.store hwrite hs

theorem ExecInv.start (procs : List NodeID) (peersOf : NodeID → List NodeID) (snapshotter restorer : Bool) :
    ExecInv (Cluster.start procs peersOf snapshotter restorer) n := by
  refine ⟨.start .., .start .., fun i cmd hack => ?_⟩
  rcases hack with ⟨ch, ht, _⟩ | hans
  · cases ht
  · cases hans

theorem ExecInv.found (h : ExecInv s n) {i : Int} {cmd : Command} (hack : s.Acknowledged n i cmd) :
    ∃ e ∈ (s.app n).executed, e.index = i ∧ e.data = cmd := by
  have hreach := h.acked i cmd hack
  have happ : s.Applied n i cmd := by
    rcases hack with ⟨ch, ht, _⟩ | hans
    · rcases h.write.pending n _ i cmd ht rfl with hd | ⟨hlt, _⟩
      · exact hd
      · have := hreach.applied
        omega
    · exact h.write.answers n i cmd hans
  obtain ⟨e, he, hidx, hcmd⟩ := happ
  exact ⟨e, hreach.executed e he (by omega), hidx, hcmd⟩

/-- The store holds the value of a write it executed until another entry writes the key. -/
theorem ExecInv.value (h : ExecInv s n) {e : LogEntry} (he : e ∈ (s.app n).executed) {key : Bytes}
    (hkey : e.data.writes key = true)
    (hlast : ∀ x ∈ (s.app n).executed, e.index < x.index → x.data.writes key = false) :
    (s.app n).store.get key = e.data.value := by
  have horder : (s.app n).executed.Pairwise fun x y => x.index < y.index :=
    (h.write.order n).sublist (App.executed_prefix_taken _).sublist
  rw [h.store.store]
  obtain ⟨before, after, hsplit⟩ := List.append_of_mem he
  rw [hsplit] at horder hlast ⊢
  have hafter : Store.written after key = false := by
    simp only [Store.written, List.any_eq_false, Bool.not_eq_true]
    intro x hx
    have hlt := List.rel_of_pairwise_cons (List.pairwise_append.1 horder).2.1 hx
    exact hlast x (by simp [hx]) hlt
  rw [List.append_cons, Store.replay_append, Store.get_replay hafter, Store.replay_concat]
  exact Store.get_apply _ hkey

/-- Acknowledgement implies execution: in every run that keeps the conditions `executionKept`, when the
channel of a write at index `i` is closed or the write is answered, its command has been executed on the
store of the node, and a read of the key that finds no later write of it returns the written value. -/
theorem acknowledged_executed {h : List (Cluster × Action)} {s : Cluster} {n : NodeID}
    (hr : machine.Run (fun s a => executionKept n s a = true) h s) {i : Int} {cmd : Command}
    (hack : s.Acknowledged n i cmd) :
    (∃ e ∈ (s.app n).executed, e.index = i ∧ e.data = cmd) ∧
      ∀ key, cmd.writes key = true →
        (∀ e ∈ (s.app n).executed, i < e.index → e.data.writes key = false) →
        (s.app n).store.get key = cmd.value ∧
          ∀ j io s', s.tasks[j]? = some (n, .reading key) → s.step (.run j .go io) = some s' →
            s'.answers = s.answers ++ [.value n key cmd.value] := by
  have hi : ExecInv s n := by
    refine Machine.Run.invariant (I := fun s => ExecInv s n) ?_ (fun s a s' hi hok hs => hi.step hok hs) hr
    rintro s ⟨procs, peersOf, snapshotter, restorer, _, rfl⟩
    exact .start procs peersOf snapshotter restorer
  obtain ⟨e, he, rfl, rfl⟩ := hi.found hack
  refine ⟨⟨e, he, rfl, rfl⟩, fun key hkey hlast => ?_⟩
  have hget := hi.value he hkey hlast
  refine ⟨hget, fun j io s' hx hs => ?_⟩
  obtain ⟨_, hrun⟩ := step_runTask hs hx
  simp only [runTask, Option.some.injEq] at hrun
  rw [← hrun, ← hget]
  rfl

/-- A write through the leader A as in `firstWrite`, with an apply loop that is faster than the applier,
and a read of the key. -/
def readBack : List Action :=
  firstWrite.dropLast.dropLast ++ [.consume "A" true, .applierDone "A" {}, .run 1 .go {}, .client "A" (.get [1] false),
    .run 3 .go {}]

theorem acknowledged_executed_readBack :
    ∃ h s, machine.Run (fun s a => executionKept "A" s a = true) h s ∧ s.Acknowledged "A" 1 (.put [1] [2]) ∧
      (s.app "A").store.get [1] = some [2] := by
  obtain ⟨h, s, hr, ha, hlast⟩ := Machine.exists_run (fun s a => executionKept "A" s a = true)
    (fun _ s => .written "A" 1 (.put [1] [2]) ∈ s.answers ∧
      ∀ e ∈ (s.app "A").executed, 1 < e.index → e.data.writes [1] = false)
    (machine_init threeNodes false false) readBack (by decide +kernel)
  exact ⟨h, s, hr, .inr ha, ((acknowledged_executed hr (.inr ha)).2 [1] rfl hlast).1⟩

/-- With a slower apply loop the write is answered first, and the read finds nothing. It finds nothing either when the
loop is fast and the store returns an error. -/
theorem firstWrite_not_executed :
    (∃ h s, machine.Run (fun s a => (s.writesKept a && keepsStore "A" s a && writesStored "A" a) = true) h s ∧
      s.answers = [.written "A" 1 (.put [1] [2]), .value "A" [1] none] ∧ (s.app "A").executed = []) ∧
    ∃ h s, machine.Run (fun s a => (s.writesKept a && keepsStore "A" s a && s.executesFirst a) = true) h s ∧
      s.answers = [.written "A" 1 (.put [1] [2]), .value "A" [1] none] :=
  ⟨Machine.exists_run (fun s a => (s.writesKept a && keepsStore "A" s a && writesStored "A" a) = true)
    (fun _ s => s.answers = [.written "A" 1 (.put [1] [2]), .value "A" [1] none] ∧ (s.app "A").executed = [])
    (machine_init threeNodes false false)
    (firstWrite ++ [.client "A" (.get [1] false), .run 3 .go {}, .run 3 .go {}]) (by decide +kernel),
  Machine.exists_run (fun s a => (s.writesKept a && keepsStore "A" s a && s.executesFirst a) = true)
    (fun _ s => s.answers = [.written "A" 1 (.put [1] [2]), .value "A" [1] none])
    (machine_init threeNodes false false)
    (firstWrite.dropLast.dropLast ++ [.consume "A" false, .applierDone "A" {}, .run 1 .go {},
      .client "A" (.get [1] false), .run 3 .go {}, .run 3 .go {}]) (by decide +kernel)⟩

end Cluster

end Mimori
