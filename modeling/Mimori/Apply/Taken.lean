/-
The applier of a node: the entries it has taken from the log, in order. A step takes none, takes the
entry after `lastApplied`, or is an installed snapshot that moves `lastApplied` without taking anything.
-/
import Mimori.Log.Placed

namespace Mimori

open Raft

/-- The entries the applier has taken: those sent on `applyCh`, and the one it is about to send. -/
def App.taken (a : App) : List LogEntry :=
  a.sent ++ match a.applier with
    | .deliver e => [e]
    | _ => []

namespace Raft

/-- Compaction does not touch what lies beyond the snapshot. -/
theorem Indexed.compact_entryAt {r r' : Raft} (h : Indexed r) {snap : Snapshot} (hc : Compacts r r' snap)
    (hb : r.logBaseIndex ≤ snap.lastIncludedIndex) {i : Int} (hi : snap.lastIncludedIndex < i) :
    r'.entryAt i = r.entryAt i := by
  have h' := h.compact hc hb
  rw [h'.entryAt (by rw [hc.base]; omega), h.entryAt (by omega), hc.log, hc.base, h.compact_eq]
  have hk : (i - snap.lastIncludedIndex).toNat = (i - snap.lastIncludedIndex - 1).toNat + 1 := by omega
  rw [hk, List.getElem?_cons_succ, List.getElem?_drop]
  congr 1
  omega

/-- The entry after `lastApplied` is the same before and after the snapshot a leader may take there. -/
theorem Indexed.afterApply_entryAt {r : Raft} (h : Indexed r) (io : Io) {i : Int} (hi : r.lastApplied < i) :
    (r.afterApply io).entryAt i = r.entryAt i := by
  rcases afterApply_compacts r io with ⟨_, hs⟩ | ⟨_, snap, hs⟩
  · exact hs.entryAt i
  · exact h.compact_entryAt hs.compacts (h.own_within hs.own).1 (by rw [hs.own.index]; exact hi)

end Raft

namespace Cluster

variable {s s' : Cluster} {a : Action} {n : NodeID} {r : Raft}

/-! ## The application -/

/-- What action `a` makes of the application of the node it runs on. -/
inductive AppStep (s : Cluster) : Action → NodeID → App → Prop
  | take (n : NodeID) (io : Io) (h : (s.app n).applier = .loop) :
      AppStep s (.applierTake n io) n { s.app n with
        applier := (((s.raft n).takeNext (s.envOf n io)).2.map Applier.deliver).getD .loop }
  | send (n : NodeID) (e : LogEntry) (h : (s.app n).applier = .deliver e) :
      AppStep s (.applierSend n) n { s.app n with sent := (s.app n).sent ++ [e], applier := .delivered }
  | done (n : NodeID) (io : Io) (h : (s.app n).applier = .delivered) :
      AppStep s (.applierDone n io) n { s.app n with
        applier := ((((s.raft n).afterApply (s.envOf n io)).takeNext (s.envOf n io)).2.map Applier.deliver).getD .loop }
  | consume (n : NodeID) (stored : Bool) (e : LogEntry) (h : (s.app n).sent[(s.app n).received]? = some e) :
      AppStep s (.consume n stored) n { s.app n with
        received := (s.app n).received + 1
        store := if stored then (s.app n).store.apply e.data else (s.app n).store }
  | restore (call : Nat) (io : Io) (src n : NodeID) (req : InstallSnapshotRequest)
      (hp : s.requests[call]? = some ⟨src, n, .installSnapshot req⟩) :
      AppStep s (.deliver call io) n
        ((s.app n).restore ((s.raft n).installSnapshot req (s.envOf n io)).2.1 io.restore)

theorem step_app (h : s.step a = some s') :
    s'.app = s.app ∨ ∃ n ∈ s.procs, AppStep s a n (s'.app n) ∧ ∀ m, m ≠ n → s'.app m = s.app m := by
  have hset : ∀ {n : NodeID} {x : App}, n ∈ s.procs → s'.app = (s.setApp n x).app → AppStep s a n x →
      s'.app = s.app ∨ ∃ n ∈ s.procs, AppStep s a n (s'.app n) ∧ ∀ m, m ≠ n → s'.app m = s.app m := by
    intro n x hn he hx
    refine .inr ⟨n, hn, ?_, fun m hm => ?_⟩
    · rw [he, setApp_app, if_pos rfl]; exact hx
    · rw [he, setApp_app, if_neg hm]
  cases step_cases h with
  | deliver call io p hp hn =>
    obtain ⟨src, n, req⟩ := p
    cases req with
    | installSnapshot req => exact hset hn rfl (.restore _ _ _ _ _ hp)
    | _ => exact .inl rfl
  | run i c io n t _ hx hn ht => cases ht <;> exact .inl rfl
  | applierTake n io hn hl => exact hset hn rfl (.take _ _ hl)
  | applierSend n e hn he => exact hset hn rfl (.send _ _ he)
  | applierDone n io hn hd => exact hset hn rfl (.done _ _ hd)
  | consume n stored x hn hx =>
    unfold App.receive at hx
    split at hx
    · cases hx
    · rename_i e he; cases hx; exact hset hn rfl (.consume _ _ _ he)
  | _ => exact .inl rfl

theorem App.taken_loop {a : App} (h : a.applier = .loop) : a.taken = a.sent := by
  unfold App.taken; rw [h, List.append_nil]

theorem App.taken_delivered {a : App} (h : a.applier = .delivered) : a.taken = a.sent := by
  unfold App.taken; rw [h, List.append_nil]

theorem App.taken_next (a : App) (e : Option LogEntry) :
    ({ a with applier := (e.map Applier.deliver).getD .loop } : App).taken = a.sent ++ e.toList := by
  cases e <;> rfl

/-! ## Steps of the applier -/

/-- The entry the applier takes in this step, and the node. -/
def applying (s : Cluster) : Action → Option (NodeID × LogEntry)
  | .applierTake n io => ((s.raft n).takeNext (s.envOf n io)).2.map (Prod.mk n)
  | .applierDone n io => (((s.raft n).afterApply (s.envOf n io)).takeNext (s.envOf n io)).2.map (Prod.mk n)
  | _ => none

/-- What a step means for the entries node `n` has taken, for its `lastApplied` and for its
configuration. When it takes an entry, `r` is the node just before. -/
inductive Applies (s : Cluster) (a : Action) (s' : Cluster) (n : NodeID) : Prop
  | idle (ht : (s'.app n).taken = (s.app n).taken) (hl : (s'.raft n).lastApplied = (s.raft n).lastApplied)
      (hm : SameMembers (s.raft n) (s'.raft n)) (ha : ∀ e, s.applying a ≠ some (n, e))
  | take (e : LogEntry) (r : Raft) (io : Io) (ht : (s'.app n).taken = (s.app n).taken ++ [e])
      (ha : s.applying a = some (n, e)) (hfrom : r = s.raft n ∨ r = (s.raft n).afterApply io)
      (he : r.pendingEntry = some e) (hr : s'.raft n = (r.takeNext io).1)
  | install (call : Nat) (io : Io) (src : NodeID) (req : InstallSnapshotRequest) (ha : a = .deliver call io)
      (hp : s.requests[call]? = some ⟨src, n, .installSnapshot req⟩) (hterm : (s.raft n).term ≤ req.term)
      (ht : (s'.app n).taken = (s.app n).taken) (hl : (s'.raft n).lastApplied = req.lastIncludedIndex)
      (hb : (s'.raft n).logBaseIndex = req.lastIncludedIndex) (hm : SameMembers (s.raft n) (s'.raft n))

/-- Outside the applier only an installed snapshot moves `lastApplied`. -/
theorem ProgressStep.applied (h : ProgressStep s n r a) :
    r.lastApplied = (s.raft n).lastApplied ∨
      (∃ call io src req, a = .deliver call io ∧ s.requests[call]? = some ⟨src, n, .installSnapshot req⟩ ∧
        (s.raft n).term ≤ req.term ∧ r.lastApplied = req.lastIncludedIndex ∧
        r.logBaseIndex = req.lastIncludedIndex) ∨
      ∃ io, a = .applierTake n io ∨ a = .applierDone n io := by
  have hup : ∀ r₁ : Raft, r₁.updateCommitIndexLocked.lastApplied = r₁.lastApplied := by
    intro r₁
    unfold updateCommitIndexLocked
    split
    · rfl
    · split <;> rfl
  cases h with
  | same _ h => exact .inl h.applied
  | office _ h => exact .inl h.applied
  | follow _ _ _ _ _ _ _ h => exact .inl h.applied
  | install call io src req hp ht _ ha _ _ hb => exact .inr (.inl ⟨call, io, src, req, rfl, hp, ht, ha, hb⟩)
  | refused _ _ _ _ _ _ h => exact .inl h.applied
  | acked _ _ _ _ _ _ _ _ _ _ h =>
    left
    rw [h, hup]
    unfold recordProgress; split <;> rfl
  | alone _ _ _ _ h => left; rw [h, hup]
  | sent _ _ _ _ _ _ _ h => left; rw [h]; rfl
  | take io h => exact .inr (.inr ⟨io, .inl rfl⟩)
  | done io h => exact .inr (.inr ⟨io, .inr rfl⟩)

/-- Outside the applier's search for the next entry nothing is taken. -/
theorem AppStep.taken {x : App} (h : AppStep s a n x) :
    x.taken = (s.app n).taken ∨ ∃ io, a = .applierTake n io ∨ a = .applierDone n io := by
  cases h with
  | take _ io => exact .inr ⟨io, .inl rfl⟩
  | done _ io => exact .inr ⟨io, .inr rfl⟩
  | send _ e he =>
    left
    unfold App.taken
    rw [he, List.append_nil]
  | consume => exact .inl rfl
  | restore call io src _ req =>
    left
    unfold App.restore
    split <;> rfl

theorem App.restore_applier (y : App) (p : Option Payload) (ok : Bool) : (y.restore p ok).applier = y.applier := by
  unfold App.restore
  split <;> rfl

/-- Outside its search for the next entry the applier only sends the entry it has taken. -/
theorem AppStep.applier {y : App} (h : AppStep s a n y) (ha : ∀ io, a ≠ .applierTake n io ∧ a ≠ .applierDone n io) :
    y.applier = (s.app n).applier ∨
      (a = .applierSend n ∧ (s.app n).applier ≠ .loop ∧ y.applier = .delivered) := by
  cases h with
  | take _ io => exact absurd rfl (ha io).1
  | done _ io => exact absurd rfl (ha io).2
  | send _ e he => exact .inr ⟨rfl, he ▸ Applier.noConfusion, rfl⟩
  | consume => exact .inl rfl
  | restore => exact .inl (App.restore_applier ..)

theorem step_applier (hs : s.step a = some s') (ha : ∀ io, a ≠ .applierTake n io ∧ a ≠ .applierDone n io) :
    (s'.app n).applier = (s.app n).applier ∨
      (a = .applierSend n ∧ (s.app n).applier ≠ .loop ∧ (s'.app n).applier = .delivered) := by
  rcases step_app hs with heq | ⟨m, _, hm, hother⟩
  · exact .inl (by rw [heq])
  · by_cases hn : n = m
    · subst hn
      exact hm.applier ha
    · exact .inl (by rw [hother n hn])

theorem applying_self {e : LogEntry} (h : s.applying a = some (n, e)) :
    ∃ io, a = .applierTake n io ∨ a = .applierDone n io := by
  cases a with
  | applierTake m io =>
    obtain ⟨x, _, hx⟩ := Option.map_eq_some_iff.1 h
    cases hx; exact ⟨io, .inl rfl⟩
  | applierDone m io =>
    obtain ⟨x, _, hx⟩ := Option.map_eq_some_iff.1 h
    cases hx; exact ⟨io, .inr rfl⟩
  | _ => cases h

theorem applies_other (hs : s.step a = some s') (n : NodeID)
    (ha : ∀ io, a ≠ .applierTake n io ∧ a ≠ .applierDone n io) : Applies s a s' n := by
  have hq : ∀ e, s.applying a ≠ some (n, e) := by
    intro e he
    obtain ⟨io, h | h⟩ := applying_self he
    · exact (ha io).1 h
    · exact (ha io).2 h
  have happ : (s'.app n).taken = (s.app n).taken := by
    rcases step_app hs with heq | ⟨m, _, hm, hother⟩
    · rw [heq]
    · by_cases hn : n = m
      · subst hn
        rcases hm.taken with h | ⟨io, h | h⟩
        · exact h
        · exact absurd h (ha io).1
        · exact absurd h (ha io).2
      · rw [hother n hn]
  rcases step_at hs n with heq | ⟨_, hm⟩
  · exact .idle happ (by rw [heq]) (by rw [heq]; exact (SameVotes.refl _).members) hq
  · have hmem := hm.members_other ha
    rcases hm.progress.applied with h | ⟨call, io, src, req, h1, h2, h3, h4, h5⟩ | ⟨io, h | h⟩
    · exact .idle happ h hmem hq
    · exact .install call io src req h1 h2 h3 happ h4 h5 hmem
    · exact absurd h (ha io).1
    · exact absurd h (ha io).2

/-- The applier's search, in the state `r` that the node has when it looks for the next entry. -/
theorem applies_next {io : Io} (hsent : (s.app n).taken = (s.app n).sent)
    (happ : (s'.app n).taken = (s.app n).sent ++ (r.takeNext io).2.toList) (hraft : s'.raft n = (r.takeNext io).1)
    (hfrom : r = s.raft n ∨ r = (s.raft n).afterApply io) (ha : s.applying a = (r.takeNext io).2.map (Prod.mk n)) :
    Applies s a s' n := by
  rcases takeNext_progress r io with ⟨_, he⟩ | ⟨e, hp, he, _, _⟩
  · have hkept : (s'.raft n).lastApplied = (s.raft n).lastApplied ∧ SameMembers (s.raft n) (s'.raft n) := by
      rw [hraft, he]
      rcases hfrom with rfl | rfl
      · exact ⟨rfl, (SameVotes.refl _).members⟩
      · exact ⟨(afterApply_rest ..).applied, (afterApply_rest ..).members⟩
    refine .idle (by rw [happ, he, hsent]; exact List.append_nil _) hkept.1 hkept.2 fun e hc => ?_
    rw [ha, he] at hc; cases hc
  · exact .take e r io (by rw [happ, he, hsent]; rfl) (by rw [ha, he]; rfl) hfrom hp hraft

/-- The search for the next entry: the applier of node `n` starts a round, or has delivered an entry and closes its
waiter first, and finds the node in state `r`. -/
inductive SearchFrom (s : Cluster) (n : NodeID) (io : Io) : Action → Raft → Prop
  | loop (h : (s.app n).applier = .loop) : SearchFrom s n io (.applierTake n io) (s.raft n)
  | delivered (h : (s.app n).applier = .delivered) :
      SearchFrom s n io (.applierDone n io) ((s.raft n).afterApply (s.envOf n io))

/-- A step is such a search, or nothing of the kind. -/
theorem step_search (hs : s.step a = some s') (n : NodeID) :
    (∀ io, a ≠ .applierTake n io ∧ a ≠ .applierDone n io) ∨
      ∃ io r, SearchFrom s n io a r ∧ s'.raft n = (r.takeNext (s.envOf n io)).1 ∧
        s'.app n = { s.app n with applier := ((r.takeNext (s.envOf n io)).2.map Applier.deliver).getD .loop } := by
  have hnext : ∀ (r : Raft) (io : Io), (s.applierNext n r io).raft n = (r.takeNext (s.envOf n io)).1 ∧
      (s.applierNext n r io).app n =
        { s.app n with applier := ((r.takeNext (s.envOf n io)).2.map Applier.deliver).getD .loop } := by
    intro r io
    refine ⟨setRaft_raft_self .., ?_⟩
    rw [applierNext, setApp_app, if_pos rfl]
  by_cases htake : ∃ io, a = .applierTake n io
  · obtain ⟨io, rfl⟩ := htake
    cases step_cases hs with
    | applierTake _ _ hn hl => exact .inr ⟨io, _, .loop hl, hnext ..⟩
  · by_cases hdone : ∃ io, a = .applierDone n io
    · obtain ⟨io, rfl⟩ := hdone
      cases step_cases hs with
      | applierDone _ _ hn hd => exact .inr ⟨io, _, .delivered hd, hnext ..⟩
    · exact .inl fun io => ⟨fun h => htake ⟨io, h⟩, fun h => hdone ⟨io, h⟩⟩

theorem step_applies (hs : s.step a = some s') (n : NodeID) : Applies s a s' n := by
  rcases step_search hs n with ha | ⟨io, r, hfrom, hraft, happ⟩
  · exact applies_other hs n ha
  · have htaken : (s'.app n).taken = (s.app n).sent ++ (r.takeNext (s.envOf n io)).2.toList := by
      rw [happ]; exact App.taken_next _ _
    cases hfrom with
    | loop h => exact applies_next (App.taken_loop h) htaken hraft (.inl rfl) rfl
    | delivered h => exact applies_next (App.taken_delivered h) htaken hraft (.inr rfl) rfl

/-! ## Steps of the applier on logs in place -/

/-- What a step means for the entries node `n` has taken and for its `lastApplied`. -/
inductive Takes (s : Cluster) (a : Action) (s' : Cluster) (n : NodeID) : Prop
  | idle (ht : (s'.app n).taken = (s.app n).taken) (hl : (s'.raft n).lastApplied = (s.raft n).lastApplied)
  | take (e : LogEntry) (ht : (s'.app n).taken = (s.app n).taken ++ [e])
      (hl : (s'.raft n).lastApplied = (s.raft n).lastApplied + 1)
      (he : (s.raft n).entryAt ((s.raft n).lastApplied + 1) = some e)
      (hc : (s.raft n).lastApplied < (s.raft n).commitIndex)
      (hlog : ∀ i, (s.raft n).lastApplied < i → (s'.raft n).entryAt i = (s.raft n).entryAt i)
  | install (call : Nat) (io : Io) (src : NodeID) (req : InstallSnapshotRequest) (ha : a = .deliver call io)
      (hp : s.requests[call]? = some ⟨src, n, .installSnapshot req⟩) (hterm : (s.raft n).term ≤ req.term)
      (ht : (s'.app n).taken = (s.app n).taken) (hl : (s'.raft n).lastApplied = req.lastIncludedIndex)
      (hb : (s'.raft n).logBaseIndex = req.lastIncludedIndex)

theorem takeNext_applied {e : LogEntry} (io : Io) (h : r.pendingEntry = some e) :
    (r.takeNext io).1.lastApplied = r.lastApplied + 1 := by
  rcases takeNext_progress r io with ⟨hn, _⟩ | ⟨_, _, _, _, hl⟩
  · rw [hn] at h; cases h
  · exact hl

theorem step_takes (hi : IndexInv s) (hs : s.step a = some s') (n : NodeID) : Takes s a s' n := by
  cases step_applies hs n with
  | idle ht hl => exact .idle ht hl
  | install call io src req ha hp hterm ht hl hb => exact .install call io src req ha hp hterm ht hl hb
  | take e r io ht _ hfrom he hr =>
    have hsame : SameProgress (s.raft n) r ∧ ∀ i, (s.raft n).lastApplied < i → r.entryAt i = (s.raft n).entryAt i := by
      rcases hfrom with rfl | rfl
      · exact ⟨.refl _, fun _ _ => rfl⟩
      · exact ⟨(afterApply_rest ..).toSameProgress, fun i hlt => (hi.node n).afterApply_entryAt _ hlt⟩
    obtain ⟨hp, hlog⟩ := hsame
    obtain ⟨h1, h2⟩ := pendingEntry_some he
    rw [hp.applied] at h1 h2
    rw [hp.commit] at h2
    refine .take e ht ?_ (by rw [← hlog _ (by omega)]; exact h1) h2 fun i hlt => ?_
    · rw [hr, takeNext_applied io he, hp.applied]
    · rw [hr, (takeNext_data r io).entryAt]; exact hlog i hlt

end Cluster

end Mimori
