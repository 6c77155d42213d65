/-
What the apply loop of a node can bring about: it receives whatever was sent to it, so that the channel has room again and
the applier can go on to the next committed entry, up to the commit index. In the end the store has executed that entry.
-/
import Mimori.Apply.Taken
import Mimori.Commit.Delivery

namespace Mimori

open Raft

namespace Cluster

variable {M : Members} {s s' : Cluster} {n c : NodeID} {B K N : Int}

/-! ## The apply loop -/

/-- The apply loop has received at most what was sent. -/
def Queued (s : Cluster) : Prop := ∀ n, (s.app n).received ≤ (s.app n).sent.length

theorem Queued.step {a : Action} (h : Queued s) (hs : s.step a = some s') : Queued s' := by
  intro n
  rcases step_app hs with heq | ⟨m, _, hm, hother⟩
  · rw [heq]; exact h n
  · by_cases hn : n = m
    · subst hn
      have hle := h n
      generalize s'.app n = x at hm
      cases hm with
      | take | done => exact hle
      | send => exact hle.trans (by rw [List.length_append]; omega)
      | consume _ _ e he => exact (List.getElem?_eq_some_iff.1 he).1
      | restore =>
        unfold App.restore
        split
        · exact hle
        · exact hle
    · rw [hother n hn]; exact h n

theorem Queued.restart (h : Queued s) (n : NodeID) (peers : List NodeID) (d : Disk) (io : Io) :
    Queued (s.restart n peers d io) := by
  intro m
  rw [restart_app]
  split
  · exact le_refl _
  · exact h m

theorem Queued.restartStep {l : RestartAction} (h : Queued s) (hs : s.restartStep l = some s') : Queued s' := by
  rcases l with (a | ⟨n, a, p, saved, peers, io⟩) | ⟨n, call, io, peers, start⟩
  · exact h.step hs
  · simp only [Cluster.restartStep, lifeStep] at hs
    split at hs
    · cases hs
      exact h.restart n peers _ io
    · cases hs
  · obtain ⟨d, _, rfl⟩ := Option.map_eq_some_iff.1 hs
    exact h.restart n peers d start

theorem Queued.onward (h : Queued s) (ho : Onward M s s') : Queued s' :=
  Machine.Leads.invariant (fun _ _ _ hi _ hs => hi.restartStep hs) ho h

/-- Nothing but the application of a node moves. -/
structure Still (s s' : Cluster) : Prop where
  raft : s'.raft = s.raft
  procs : s'.procs = s.procs
  answers : s'.answers = s.answers
  tasks : s'.tasks = s.tasks

theorem Still.trans {s'' : Cluster} (h : Still s s') (h' : Still s' s'') : Still s s'' :=
  ⟨h'.raft.trans h.raft, h'.procs.trans h.procs, h'.answers.trans h.answers, h'.tasks.trans h.tasks⟩

theorem Calm.consumesNext {e : LogEntry} (hc : Calm M B K s) (hcp : c ∈ s.procs)
    (he : (s.app c).sent[(s.app c).received]? = some e) :
    ∃ s', s'.app c = { s.app c with received := (s.app c).received + 1, store := (s.app c).store.apply e.data } ∧
      Onward M s s' ∧ Calm M B K s' ∧ Still s s' := by
  have hs : s.step (.consume c true) = some (s.setApp c { s.app c with
      received := (s.app c).received + 1, store := (s.app c).store.apply e.data }) := by
    simp only [step, App.receive, he, if_pos hcp, if_true]
  obtain ⟨ho, hc'⟩ := (Orderly.consume c true).rests hc hs rfl rfl
  exact ⟨_, by rw [setApp_app, if_pos rfl], ho, hc', rfl, rfl, rfl, rfl⟩

/-- The apply loop receives everything that was sent. -/
theorem Calm.consumes (d : Nat) (hc : Calm M B K s) (hcp : c ∈ s.procs)
    (hd : (s.app c).sent.length ≤ (s.app c).received + d) :
    ∃ s', Onward M s s' ∧ Calm M B K s' ∧ Still s s' ∧ (s'.app c).sent = (s.app c).sent ∧
      (s'.app c).applier = (s.app c).applier ∧ (s.app c).sent.length ≤ (s'.app c).received := by
  induction d generalizing s with
  | zero => exact ⟨s, .refl s, hc, ⟨rfl, rfl, rfl, rfl⟩, rfl, rfl, hd⟩
  | succ d ih =>
    cases he : (s.app c).sent[(s.app c).received]? with
    | none => exact ⟨s, .refl s, hc, ⟨rfl, rfl, rfl, rfl⟩, rfl, rfl, List.getElem?_eq_none_iff.1 he⟩
    | some e =>
      obtain ⟨s₁, hs₁, ho₁, hc₁, hst₁⟩ := hc.consumesNext hcp he
      obtain ⟨s', ho, hc', hst, hsent, happ, hle⟩ := ih hc₁ (hst₁.procs ▸ hcp) (by rw [hs₁]; simp only; omega)
      rw [hs₁] at hsent happ hle
      exact ⟨s', ho₁.trans ho, hc', hst₁.trans hst, hsent, happ, hle⟩

/-- An entry that was taken is sent. -/
theorem Calm.sends {e : LogEntry} (hc : Calm M B K s) (hq : Queued s) (hcp : c ∈ s.procs)
    (he : (s.app c).applier = .deliver e) :
    ∃ s', Onward M s s' ∧ Calm M B K s' ∧ Still s s' ∧ (s'.app c).applier = .delivered ∧
      (s'.app c).sent = (s.app c).sent ++ [e] ∧ (s'.app c).received ≤ (s.app c).sent.length := by
  obtain ⟨s₁, ho₁, hc₁, hst, hsent, happ, hle⟩ := hc.consumes (s.app c).sent.length hcp (by omega)
  have hroom : (s₁.app c).sent.length - (s₁.app c).received < applyChCap := by
    rw [hsent]
    unfold applyChCap
    omega
  have hs : s₁.step (.applierSend c) = some (s₁.setApp c { s₁.app c with
      sent := (s₁.app c).sent ++ [e], applier := .delivered }) := by
    simp only [step, happ, he]
    rw [if_pos ⟨hst.procs ▸ hcp, hroom⟩]
  obtain ⟨ho, hc'⟩ := (Orderly.send c).rests hc₁ hs rfl rfl
  refine ⟨_, ho₁.trans ho, hc', ⟨hst.raft, hst.procs, hst.answers, hst.tasks⟩, ?_, ?_, ?_⟩ <;>
    rw [setApp_app, if_pos rfl]
  · rw [hsent]
  · rw [← hsent]; exact hq.onward ho₁ c

end Cluster

namespace Raft

variable {r : Raft} {io : Io}

theorem takeNext_takes {e : LogEntry} (he : r.entryAt (r.lastApplied + 1) = some e) (hlt : r.lastApplied < r.commitIndex)
    (hcfg : e.data.isConfig = false) : r.takeNext io = ({ r with lastApplied := r.lastApplied + 1 }, some e) := by
  unfold takeNext
  rw [if_pos hlt, he]
  simp only
  rw [handleConfigChangeIfNeeded_same _ _ _ hcfg]

theorem afterApply_failed (hio : io.snapshot = none) : r.afterApply io = r.closeWaiter := by
  unfold afterApply
  simp only
  split
  · have ho := createSnapshotLocked_outcome r.closeWaiter io
    generalize r.closeWaiter.createSnapshotLocked io = out at ho ⊢
    cases ho with
    | kept => rfl
    | taken e payload he hp =>
      rw [hio] at hp
      cases hp
  · rfl

theorem closeWaiter_indices (r : Raft) : r.closeWaiter.commitIndex = r.commitIndex ∧
    r.closeWaiter.lastApplied = r.lastApplied := by
  unfold closeWaiter
  split <;> exact ⟨rfl, rfl⟩

/-- The node has applied its next entry, and is otherwise where it was. -/
structure AppliesNext (r r' : Raft) : Prop where
  votes : SameVotes r r'
  log : SameLog r r'
  commit : r'.commitIndex = r.commitIndex
  applied : r'.lastApplied = r.lastApplied + 1

end Raft

namespace Cluster

variable {M : Members} {s s' : Cluster} {n c : NodeID} {B K N : Int}

/-- The applier takes the next committed entry. -/
theorem Calm.takes (hc : Calm M B K s) (hcp : c ∈ s.procs) (hlt : (s.raft c).lastApplied < (s.raft c).commitIndex)
    (happ : (s.app c).applier = .loop ∨ (s.app c).applier = .delivered) :
    ∃ s' e, Onward M s s' ∧ Calm M B K s' ∧ (s.raft c).entryAt ((s.raft c).lastApplied + 1) = some e ∧
      AppliesNext (s.raft c) (s'.raft c) ∧ s'.procs = s.procs ∧ s'.answers = s.answers ∧ s'.tasks = s.tasks ∧
      (s'.app c).applier = .deliver e ∧ (s'.app c).sent = (s.app c).sent := by
  have hi := hc.indexed c
  have hbase : (s.raft c).logBaseIndex ≤ (s.raft c).lastApplied := by
    obtain ⟨L, full, hinv⟩ := hc.inv
    exact hinv.base c
  obtain ⟨e, he⟩ := hi.entryAt_isSome (i := (s.raft c).lastApplied + 1) (by omega) (by have := hc.commit_le c; omega)
  have hcfg : e.data.isConfig = false := by
    refine hc.fixed.log c e ?_
    rw [hi.entryAt (by omega)] at he
    exact List.mem_of_getElem? he
  -- either way the applier looks for the next entry of a node that differs at most in its waiters
  obtain ⟨a, r, ha, hs, hv, hl, hcom, hla⟩ : ∃ a r, Orderly s a ∧ s.step a = some (s.applierNext c r { snapshot := none }) ∧
      SameVotes (s.raft c) r ∧ SameLog (s.raft c) r ∧ r.commitIndex = (s.raft c).commitIndex ∧
      r.lastApplied = (s.raft c).lastApplied := by
    rcases happ with happ | happ
    · refine ⟨_, _, .take c { snapshot := none }, ?_, .refl _, .refl _, rfl, rfl⟩
      simp only [step]
      rw [if_pos ⟨hcp, happ⟩]
    · refine ⟨_, _, .done c { snapshot := none }, ?_, (closeWaiter_rest _).toSameVotes, (closeWaiter_files _).toSameLog,
        (closeWaiter_indices _).1, (closeWaiter_indices _).2⟩
      simp only [step]
      rw [if_pos ⟨hcp, happ⟩, afterApply_failed (show (s.envOf c { snapshot := none }).snapshot = none from rfl)]
  have htake : r.takeNext (s.envOf c { snapshot := none }) = ({ r with lastApplied := r.lastApplied + 1 }, some e) :=
    takeNext_takes (by rw [hl.entryAt, hla]; exact he) (by omega) hcfg
  have hnext : s.applierNext c r { snapshot := none } =
      (s.setRaft c { r with lastApplied := r.lastApplied + 1 }).setApp c { s.app c with applier := .deliver e } := by
    unfold applierNext
    rw [htake]
    rfl
  rw [hnext] at hs
  have hraft : ((s.setRaft c { r with lastApplied := r.lastApplied + 1 }).setApp c
      { s.app c with applier := .deliver e }).raft c = { r with lastApplied := r.lastApplied + 1 } := Function.update_self ..
  obtain ⟨ho, hc'⟩ := ha.moves hc hs rfl (fun m hm => Function.update_of_ne hm _ _)
    (by rw [hraft]; exact hv.term.le.trans (hc.terms c hcp))
    (by rw [hraft]; exact hl.lastLogIndex.le.trans (hc.indices c hcp))
  refine ⟨_, e, ho, hc', he, ?_, rfl, rfl, rfl, ?_, ?_⟩
  · rw [hraft]
    exact ⟨⟨hv.id, hv.peers, hv.state, hv.term, hv.votes, hv.votedFor, hv.removed⟩, ⟨hl.log, hl.base, hl.snapshot, hl.file⟩,
      hcom, congrArg (· + 1) hla⟩
  · rw [setApp_app, if_pos rfl]
  · rw [setApp_app, if_pos rfl]

/-- A node applies everything up to its commit index; what it sent last is the entry there, which is still to be received. -/
theorem Calm.applies (d : Nat) (hc : Calm M B K s) (hq : Queued s) (hcp : c ∈ s.procs)
    (hlt : (s.raft c).lastApplied < (s.raft c).commitIndex)
    (hd : (s.raft c).commitIndex ≤ (s.raft c).lastApplied + d) :
    ∃ s' e, Onward M s s' ∧ Calm M B K s' ∧ (s.raft c).entryAt (s.raft c).commitIndex = some e ∧
      SameVotes (s.raft c) (s'.raft c) ∧ (s'.raft c).lastApplied = (s.raft c).commitIndex ∧ s'.procs = s.procs ∧
      s'.answers = s.answers ∧ s'.tasks = s.tasks ∧ ∃ l, (s'.app c).sent = l ++ [e] ∧ (s'.app c).received ≤ l.length := by
  induction d generalizing s with
  | zero => omega
  | succ d ih =>
    -- an entry taken before is sent first
    obtain ⟨s₀, ho₀, hc₀, hst, happ⟩ : ∃ s₀, Onward M s s₀ ∧ Calm M B K s₀ ∧ Still s s₀ ∧
        ((s₀.app c).applier = .loop ∨ (s₀.app c).applier = .delivered) := by
      cases happ : (s.app c).applier with
      | loop => exact ⟨s, .refl s, hc, ⟨rfl, rfl, rfl, rfl⟩, .inl happ⟩
      | delivered => exact ⟨s, .refl s, hc, ⟨rfl, rfl, rfl, rfl⟩, .inr happ⟩
      | deliver e =>
        obtain ⟨s₀, ho, hc', hst, hdel, _⟩ := hc.sends hq hcp happ
        exact ⟨s₀, ho, hc', hst, .inr hdel⟩
    obtain ⟨s₁, e, ho₁, hc₁, he, hnext, hp₁, ha₁, ht₁, hdel, hsent⟩ :=
      hc₀.takes (hst.procs ▸ hcp) (by rw [hst.raft]; exact hlt) happ
    rw [hst.raft] at he hnext
    obtain ⟨s₂, ho₂, hc₂, hst₂, hdel₂, hsent₂⟩ :=
      hc₁.sends (hq.onward (ho₀.trans ho₁)) (by rw [hp₁, hst.procs]; exact hcp) hdel
    have ho : Onward M s s₂ := (ho₀.trans ho₁).trans ho₂
    have hprocs : s₂.procs = s.procs := by rw [hst₂.procs, hp₁, hst.procs]
    have hans : s₂.answers = s.answers := by rw [hst₂.answers, ha₁, hst.answers]
    have htasks : s₂.tasks = s.tasks := by rw [hst₂.tasks, ht₁, hst.tasks]
    have hcom := hnext.commit
    have happl := hnext.applied
    rcases lt_or_eq_of_le (show (s.raft c).lastApplied + 1 ≤ (s.raft c).commitIndex by omega) with hmore | hlast
    · obtain ⟨s', e', ho', hc', he', hv', hl', hp', ha', ht', hl⟩ := ih hc₂ (hq.onward ho) (hprocs ▸ hcp)
        (by rw [hst₂.raft]; omega) (by rw [hst₂.raft]; push_cast at hd; omega)
      rw [hst₂.raft] at he' hv' hl'
      rw [hcom, hnext.log.entryAt] at he'
      exact ⟨s', e', ho.trans ho', hc', he', hnext.votes.trans hv', hl'.trans hcom, hp'.trans hprocs, ha'.trans hans,
        ht'.trans htasks, hl⟩
    · refine ⟨s₂, e, ho, hc₂, hlast ▸ he, by rw [hst₂.raft]; exact hnext.votes, by rw [hst₂.raft]; omega, hprocs, hans,
        htasks, _, hsent₂⟩

/-- The entry that was sent last is executed. -/
theorem Calm.executes {l : List LogEntry} {e : LogEntry} (d : Nat) (hc : Calm M B K s) (hcp : c ∈ s.procs)
    (hsent : (s.app c).sent = l ++ [e]) (hle : (s.app c).received ≤ l.length) (hd : l.length ≤ (s.app c).received + d) :
    ∃ s', Onward M s s' ∧ Calm M B K s' ∧ Still s s' ∧ ∃ kv : Store, (s'.app c).store = kv.apply e.data := by
  induction d generalizing s with
  | zero =>
    obtain ⟨s', hs, ho, hc', hst⟩ := hc.consumesNext hcp (e := e) (by
      rw [hsent, show (s.app c).received = l.length by omega, List.getElem?_concat_length])
    exact ⟨s', ho, hc', hst, (s.app c).store, by rw [hs]⟩
  | succ d ih =>
    obtain ⟨x, hx⟩ : ∃ x, (s.app c).sent[(s.app c).received]? = some x := by
      rw [hsent]
      exact ⟨_, List.getElem?_eq_getElem (by rw [List.length_append, List.length_singleton]; omega)⟩
    obtain ⟨s₁, hs₁, ho₁, hc₁, hst₁⟩ := hc.consumesNext hcp hx
    rcases Nat.lt_or_ge (s.app c).received l.length with hlt | hge
    · obtain ⟨s', ho, hc', hst, hkv⟩ := ih hc₁ (hst₁.procs ▸ hcp) (by rw [hs₁]; exact hsent) (by rw [hs₁]; exact hlt)
        (by rw [hs₁]; simp only; omega)
      exact ⟨s', ho₁.trans ho, hc', hst₁.trans hst, hkv⟩
    · rw [hsent, show (s.app c).received = l.length by omega, List.getElem?_concat_length] at hx
      cases hx
      exact ⟨s₁, ho₁, hc₁, hst₁, (s.app c).store, by rw [hs₁]⟩

end Cluster

end Mimori
