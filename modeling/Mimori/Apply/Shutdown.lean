/-
Shutdown. `Stop` closes `shutdownCh` and then `applyCh`; it takes no lock and waits for nobody. The applier looks
at `shutdownCh` at the start of a round only. Inside a round it takes and sends one committed entry after the other,
so an applier that is inside when `applyCh` is closed sends on a closed channel as soon as it has an entry, which
takes the process down. A channel closed between two rounds is never sent on, and inside a round only the entry the
applier holds and those it still finds decide.
-/
import Mimori.Apply.Taken
import Mimori.Storage.Roster

namespace Mimori

open Raft Cluster

/-! ## Stopping nodes -/

/-- How far `Stop` has come. `stopOnce` lets it come to each place once. -/
inductive StopPhase
  | running
  /-- `shutdownCh` is closed. -/
  | signalled
  /-- `applyCh` is closed too. -/
  | closed
  deriving DecidableEq

/-- Where the outer loop of `runApplier` stands. -/
inductive Round
  /-- Before the `select`. -/
  | select
  /-- Past it, in the loop over the committed entries. -/
  | inside
  | returned
  deriving DecidableEq

structure Shutdown where
  cluster : Cluster
  stop : NodeID → StopPhase := fun _ => .running
  round : NodeID → Round := fun _ => .select

inductive ShutdownAction
  /-- A step of the cluster, or a restart. -/
  | life (l : RestartAction)
  /-- `Stop` closes `shutdownCh`. -/
  | signal (n : NodeID)
  /-- `Stop` closes `applyCh`. -/
  | close (n : NodeID)
  /-- The applier goes through its `select`. -/
  | select (n : NodeID)

/-- The node whose applier looks for the next entry in this step, as the applier finds it. -/
def Cluster.searching (s : Cluster) : Action → Option (NodeID × Raft)
  | .applierTake n _ => some (n, s.raft n)
  | .applierDone n io => some (n, (s.raft n).afterApply (s.envOf n io))
  | _ => none

namespace Shutdown

def setStop (s : Shutdown) (n : NodeID) (p : StopPhase) : Shutdown := { s with stop := Function.update s.stop n p }

def setRound (s : Shutdown) (n : NodeID) (r : Round) : Shutdown := { s with round := Function.update s.round n r }

/-- A round starts with the `select`. -/
def possible (s : Shutdown) : Action → Bool
  | .applierTake n _ => s.round n == .inside
  | _ => true

/-- The node whose applier sends on `applyCh` after `Stop` has closed it. -/
def sendsOnClosed (s : Shutdown) : ShutdownAction → Option NodeID
  | .life (.life (.step (.applierSend n))) => if s.stop n = .closed then some n else none
  | _ => none

/-- A node that is started again has channels of its own. -/
def stopAfter (s : Shutdown) (l : RestartAction) : NodeID → StopPhase :=
  match s.cluster.restartDisk l with
  | some (n, _) => Function.update s.stop n .running
  | none => s.stop

/-- The round is over when nothing is committed that is not applied. An applier that misses the entry sleeps and looks
again, without a `select`. -/
def roundAfter (s : Shutdown) (l : RestartAction) : NodeID → Round :=
  match s.cluster.restartDisk l, (performed l).bind s.cluster.searching with
  | some (n, _), _ => Function.update s.round n .select
  | none, some (n, r) => Function.update s.round n (if r.commitIndex > r.lastApplied then .inside else .select)
  | none, none => s.round

/-- One step. The goroutines that wait for a ticker and for `shutdownCh` at once may see the ticker first, so a stopped
node keeps its other steps. -/
def step (s : Shutdown) : ShutdownAction → Option Shutdown
  | .signal n =>
    if n ∈ s.cluster.procs ∧ s.stop n = .running then some (s.setStop n .signalled) else none
  | .close n =>
    if n ∈ s.cluster.procs ∧ s.stop n = .signalled then some (s.setStop n .closed) else none
  | .select n =>
    if n ∈ s.cluster.procs ∧ s.round n = .select then
      some (s.setRound n (if s.stop n = .running then .inside else .returned))
    else none
  | .life l =>
    match s.sendsOnClosed (.life l) with
    | some n =>
      -- the send panics, also one that was blocked on the full channel
      match (s.cluster.app n).applier with
      | .deliver _ => if n ∈ s.cluster.procs then some { s with cluster := s.cluster.crash n } else none
      | _ => none
    | none =>
      if (performed l).all s.possible then
        (s.cluster.restartStep l).map fun c => { cluster := c, stop := s.stopAfter l, round := s.roundAfter l }
      else none

/-- Clusters whose nodes are stopped and started again. -/
def machine : Machine Shutdown ShutdownAction where
  init s := ∃ c, Cluster.machine.init c ∧ s = { cluster := c }
  step := step

/-! ## Conditions -/

/-- The applier of node `n` has taken an entry and not sent it. -/
def holdsEntry (s : Shutdown) (n : NodeID) : Bool :=
  match (s.cluster.app n).applier with
  | .deliver _ => true
  | _ => false

/-- The node whose applier looks for the next entry in this step, as the applier finds it. -/
def search (s : Shutdown) : ShutdownAction → Option (NodeID × Raft)
  | .life (.life (.step a)) => s.cluster.searching a
  | _ => none

/-- `Stop` closes `applyCh` while the applier holds no entry. -/
def closesEmpty (s : Shutdown) : ShutdownAction → Bool
  | .close n => !s.holdsEntry n
  | _ => true

/-- An applier whose channel is closed finds no entry. -/
def findsNothing (s : Shutdown) (l : ShutdownAction) : Bool :=
  match s.search l with
  | some (n, r) => s.stop n != .closed || r.pendingEntry.isNone
  | none => true

def stopsDrained (s : Shutdown) (l : ShutdownAction) : Bool := s.closesEmpty l && s.findsNothing l

/-- `Stop` closes `applyCh` between two rounds of the applier, or when it has returned. -/
def closesOutside (s : Shutdown) : ShutdownAction → Bool
  | .close n => s.round n != .inside
  | _ => true

/-! ## Steps -/

variable {s s' : Shutdown} {l : ShutdownAction} {n : NodeID}

/-- What one step can do. -/
inductive Moves (s : Shutdown) : ShutdownAction → Shutdown → Prop
  | signal (n : NodeID) : Moves s (.signal n) (s.setStop n .signalled)
  | close (n : NodeID) (h : s.stop n = .signalled) : Moves s (.close n) (s.setStop n .closed)
  | select (n : NodeID) (h : s.round n = .select) :
      Moves s (.select n) (s.setRound n (if s.stop n = .running then .inside else .returned))
  | panic (n : NodeID) (h : s.stop n = .closed) (e : LogEntry) (he : (s.cluster.app n).applier = .deliver e) :
      Moves s (.life (.life (.step (.applierSend n)))) { s with cluster := s.cluster.crash n }
  | step (a : Action) (c : Cluster) (hs : s.cluster.step a = some c) (hp : s.possible a = true)
      (hopen : s.sendsOnClosed (.life (.life (.step a))) = none) :
      Moves s (.life (.life (.step a))) { s with cluster := c, round := s.roundAfter (.life (.step a)) }
  | restart (l : RestartAction) (n : NodeID) (d : Disk) (start : Io) (hd : s.cluster.restartDisk l = some (n, d)) :
      Moves s (.life l) {
        cluster := s.cluster.restart n (peersGiven l) d start
        stop := Function.update s.stop n .running
        round := Function.update s.round n .select }

theorem sendsOnClosed_some {l : ShutdownAction} (h : s.sendsOnClosed l = some n) :
    l = .life (.life (.step (.applierSend n))) ∧ s.stop n = .closed := by
  unfold sendsOnClosed at h
  split at h
  · split at h
    · rename_i hc
      cases h
      exact ⟨rfl, hc⟩
    · cases h
  · cases h

theorem step_moves (h : s.step l = some s') : Moves s l s' := by
  cases l with
  | signal n =>
    simp only [step] at h
    split at h
    · cases h; exact .signal n
    · cases h
  | close n =>
    simp only [step] at h
    split at h
    · rename_i hn; cases h; exact .close n hn.2
    · cases h
  | select n =>
    simp only [step] at h
    split at h
    · rename_i hn; cases h; exact .select n hn.2
    · cases h
  | life l =>
    simp only [step] at h
    split at h
    · rename_i n hsend
      obtain ⟨hl, hc⟩ := sendsOnClosed_some hsend
      cases hl
      split at h
      · rename_i e he
        split at h
        · cases h; exact .panic n hc e he
        · cases h
      · cases h
    · rename_i hopen
      split at h
      · rename_i hp
        obtain ⟨c, hs, rfl⟩ := Option.map_eq_some_iff.1 h
        rcases restartStep_cases hs with ⟨a, rfl, hs⟩ | ⟨m, d, start, hd, rfl⟩
        · exact .step a c hs (by simpa [performed] using hp) hopen
        · rw [stopAfter, roundAfter, hd]
          exact .restart l m d start hd
      · cases h

end Shutdown

/-- An entry that the applier holds after a step was held before, or found by the search of this step. -/
theorem Cluster.step_holds {s s' : Cluster} {a : Action} {n : NodeID} {e : LogEntry} (hs : s.step a = some s')
    (he : (s'.app n).applier = .deliver e) :
    (s.app n).applier = .deliver e ∨ ∃ r, s.searching a = some (n, r) ∧ r.pendingEntry = some e := by
  rcases step_search hs n with ha | ⟨io, r, hfrom, _, happ⟩
  · rcases step_applier hs ha with hsame | ⟨_, _, hsent⟩
    · exact .inl (hsame ▸ he)
    · rw [hsent] at he
      cases he
  · have hfound : s.searching a = some (n, r) := by cases hfrom <;> rfl
    rw [happ] at he
    rcases takeNext_progress r (s.envOf n io) with ⟨_, hnone⟩ | ⟨x, hx, htake, _, _⟩
    · rw [hnone] at he
      cases he
    · rw [htake] at he
      cases he
      exact .inr ⟨r, hfound, hx⟩

namespace Shutdown

variable {s s' : Shutdown} {l : ShutdownAction} {n : NodeID}

/-! ## The entry held -/

theorem holdsEntry_iff : s.holdsEntry n = true ↔ ∃ e, (s.cluster.app n).applier = .deliver e := by
  unfold holdsEntry
  split
  · rename_i e he
    exact ⟨fun _ => ⟨e, he⟩, fun _ => rfl⟩
  · rename_i hne
    exact ⟨(nomatch ·), fun ⟨e, he⟩ => absurd he (hne e)⟩

theorem step_closed (hs : s.step l = some s') (hn : s'.stop n = .closed) : s.stop n = .closed ∨ l = .close n := by
  have hupdate : ∀ {m : NodeID} {p : StopPhase}, p ≠ .closed → Function.update s.stop m p n = .closed →
      s.stop n = .closed := by
    intro m p hp h
    by_cases hm : n = m
    · subst hm
      rw [Function.update_self] at h
      exact absurd h hp
    · rwa [Function.update_of_ne hm] at h
  cases step_moves hs with
  | signal m => exact .inl (hupdate (fun h => by cases h) hn)
  | close m =>
    by_cases hm : n = m
    · subst hm
      exact .inr rfl
    · simp only [setStop, Function.update_of_ne hm] at hn
      exact .inl hn
  | select => exact .inl hn
  | panic => exact .inl hn
  | step => exact .inl hn
  | restart l m => exact .inl (hupdate (fun h => by cases h) hn)

theorem step_holdsEntry (hs : s.step l = some s') (hn : s'.holdsEntry n = true) :
    s.holdsEntry n = true ∨
      ∃ a r, l = .life (.life (.step a)) ∧ s.cluster.searching a = some (n, r) ∧ r.pendingEntry ≠ none := by
  obtain ⟨e, he⟩ := holdsEntry_iff.1 hn
  cases step_moves hs with
  | signal => exact .inl hn
  | close => exact .inl hn
  | select => exact .inl hn
  | panic => exact .inl hn
  | step a c hstep =>
    rcases step_holds hstep he with he | ⟨r, hr, hx⟩
    · exact .inl (holdsEntry_iff.2 ⟨e, he⟩)
    · exact .inr ⟨a, r, rfl, hr, by rw [hx]; exact fun h => by cases h⟩
  | restart l m d start =>
    by_cases hm : n = m
    · subst hm
      simp only [restart, Function.update_self] at he
      cases he
    · simp only [restart, Function.update_of_ne hm] at he
      exact .inl (holdsEntry_iff.2 ⟨e, he⟩)

/-- No applier holds an entry for a closed channel. -/
def Drained (s : Shutdown) : Prop := ∀ n, s.stop n = .closed → s.holdsEntry n = false

theorem Drained.step (h : Drained s) (hok : s.stopsDrained l = true) (hs : s.step l = some s') : Drained s' := by
  rw [stopsDrained, Bool.and_eq_true] at hok
  intro n hn
  rw [Bool.eq_false_iff]
  intro hholds
  rcases step_holdsEntry hs hholds with hheld | ⟨a, r, rfl, hr, hx⟩
  · rcases step_closed hs hn with hclosed | rfl
    · rw [h n hclosed] at hheld
      cases hheld
    · have hempty := hok.1
      rw [closesEmpty, hheld] at hempty
      cases hempty
  · have hnothing := hok.2
    rcases step_closed hs hn with hclosed | hl
    · simp only [findsNothing, search, hr, hclosed, bne_self_eq_false, Bool.false_or,
        Option.isNone_iff_eq_none] at hnothing
      exact hx hnothing
    · cases hl

theorem Drained.init (h : machine.init s) : Drained s := by
  obtain ⟨c, _, rfl⟩ := h
  intro n hn
  cases hn

/-- A send on a closed channel is the send of an entry that is held. -/
theorem Drained.sendsOnClosed (h : Drained s) (hs : s.step l = some s') : s.sendsOnClosed l = none := by
  rw [Option.eq_none_iff_forall_not_mem]
  intro n hn
  obtain ⟨rfl, hclosed⟩ := sendsOnClosed_some hn
  have hheld := h n hclosed
  cases step_moves hs with
  | panic _ _ e he => exact Bool.eq_false_iff.1 hheld (holdsEntry_iff.2 ⟨e, he⟩)
  | step _ _ _ _ hopen =>
    rw [hn] at hopen
    cases hopen
  | restart _ _ _ _ hd => cases hd

/-! ## Stopped between two rounds -/

theorem roundAfter_self {a : Action} {r : Raft} (h : s.cluster.searching a = some (n, r)) :
    s.roundAfter (.life (.step a)) n = if r.commitIndex > r.lastApplied then .inside else .select := by
  simp only [roundAfter, restartDisk, performed, Option.bind_some, h, Function.update_self]

theorem roundAfter_other {a : Action} (h : ∀ r, s.cluster.searching a ≠ some (n, r)) :
    s.roundAfter (.life (.step a)) n = s.round n := by
  simp only [roundAfter, restartDisk, performed, Option.bind_some]
  cases hx : s.cluster.searching a with
  | none => rfl
  | some x =>
    obtain ⟨m, r⟩ := x
    have hm : n ≠ m := by
      rintro rfl
      exact h r hx
    exact Function.update_of_ne hm ..

/-- The applier is out of its loop only inside a round, and inside no round once its channel is closed. -/
structure Outside (s : Shutdown) : Prop where
  busy : ∀ n, (s.cluster.app n).applier ≠ .loop → s.round n = .inside
  closed : ∀ n, s.stop n = .closed → s.round n ≠ .inside

theorem Outside.searching (h : Outside s) {a : Action} {c : Cluster} {r : Raft} (hs : s.cluster.step a = some c)
    (hp : s.possible a = true) (hr : s.cluster.searching a = some (n, r)) : s.round n = .inside := by
  cases a with
  | applierTake m io =>
    cases hr
    exact of_decide_eq_true hp
  | applierDone m io =>
    cases hr
    cases Cluster.step_cases hs with
    | applierDone _ _ hm hd =>
      refine h.busy n ?_
      rw [hd]
      intro hc
      cases hc
  | _ => cases hr

theorem Outside.step_busy (h : Outside s) (hs : s.step l = some s') (hn : (s'.cluster.app n).applier ≠ .loop) :
    s'.round n = .inside := by
  cases step_moves hs with
  | signal => exact h.busy n hn
  | close => exact h.busy n hn
  | select m hm =>
    have hne : n ≠ m := by
      rintro rfl
      rw [h.busy n hn] at hm
      cases hm
    simp only [setRound, Function.update_of_ne hne]
    exact h.busy n hn
  | panic => exact h.busy n hn
  | step a c hstep =>
    show s.roundAfter (.life (.step a)) n = .inside
    rcases step_search hstep n with ha | ⟨io, r, hfrom, _, happ⟩
    · have hother : ∀ r, s.cluster.searching a ≠ some (n, r) := by
        intro r hr
        cases a with
        | applierTake m io => cases hr; exact (ha io).1 rfl
        | applierDone m io => cases hr; exact (ha io).2 rfl
        | _ => cases hr
      rw [roundAfter_other hother]
      rcases step_applier hstep ha with hsame | ⟨_, hbusy, _⟩
      · exact h.busy n (hsame ▸ hn)
      · exact h.busy n hbusy
    · have hr : s.cluster.searching a = some (n, r) := by cases hfrom <;> rfl
      rw [roundAfter_self hr, if_pos]
      by_contra hle
      have hnone : (r.takeNext (s.cluster.envOf n io)).2 = none := by rw [takeNext, if_neg hle]
      rw [happ, hnone] at hn
      exact hn rfl
  | restart l m d start =>
    by_cases hm : n = m
    · subst hm
      simp only [restart, Function.update_self] at hn
      exact absurd rfl hn
    · simp only [restart, Function.update_of_ne hm] at hn ⊢
      exact h.busy n hn

/-- A stopped applier does not come past its `select`. -/
theorem Outside.step_closed (h : Outside s) (hok : s.closesOutside l = true) (hs : s.step l = some s')
    (hn : s'.stop n = .closed) : s'.round n ≠ .inside := by
  rcases Shutdown.step_closed hs hn with hclosed | rfl
  · have hround := h.closed n hclosed
    cases step_moves hs with
    | signal => exact hround
    | close => exact hround
    | select m =>
      by_cases hm : n = m
      · subst hm
        simp only [setRound, Function.update_self, hclosed]
        intro hc
        cases hc
      · simpa only [setRound, Function.update_of_ne hm] using hround
    | panic => exact hround
    | step a c hstep hp =>
      show s.roundAfter (.life (.step a)) n ≠ .inside
      rw [roundAfter_other fun r hr => hround (h.searching hstep hp hr)]
      exact hround
    | restart l m =>
      by_cases hm : n = m
      · subst hm
        simp only [Function.update_self] at hn
        cases hn
      · simpa only [Function.update_of_ne hm] using hround
  · cases step_moves hs with
    | close => exact bne_iff_ne.1 hok

theorem Outside.step (h : Outside s) (hok : s.closesOutside l = true) (hs : s.step l = some s') : Outside s' :=
  ⟨fun _ hn => h.step_busy hs hn, fun _ hn => h.step_closed hok hs hn⟩

theorem Outside.init (h : machine.init s) : Outside s := by
  obtain ⟨c, ⟨procs, peersOf, _, _, _, rfl⟩, rfl⟩ := h
  exact ⟨fun n hn => absurd rfl hn, fun n hn => by cases hn⟩

theorem Outside.closesEmpty (h : Outside s) (hok : s.closesOutside l = true) : s.closesEmpty l = true := by
  cases l with
  | close n =>
    rw [Shutdown.closesEmpty, Bool.not_eq_true', Bool.eq_false_iff]
    intro hheld
    obtain ⟨e, he⟩ := holdsEntry_iff.1 hheld
    exact bne_iff_ne.1 hok (h.busy n (he ▸ Applier.noConfusion))
  | _ => rfl

theorem search_some {r : Raft} (h : s.search l = some (n, r)) :
    ∃ a, l = .life (.life (.step a)) ∧ s.cluster.searching a = some (n, r) := by
  unfold search at h
  split at h
  · rename_i a
    exact ⟨a, rfl, h⟩
  · cases h

theorem Outside.findsNothing (h : Outside s) (hs : s.step l = some s') : s.findsNothing l = true := by
  unfold Shutdown.findsNothing
  split
  · rename_i n r hr
    obtain ⟨a, rfl, hr⟩ := search_some hr
    have hinside : s.round n = .inside := by
      cases step_moves hs with
      | panic => cases hr
      | step _ _ hstep hp => exact h.searching hstep hp hr
      | restart _ _ _ _ hd => cases hd
    have hopen : s.stop n ≠ .closed := fun hc => h.closed n hc hinside
    rw [Bool.or_eq_true, bne_iff_ne]
    exact .inl hopen
  · rfl

/-- To close `applyCh` between two rounds is enough. -/
theorem drained_of_outside {h : List (Shutdown × ShutdownAction)} {s : Shutdown}
    (hr : machine.Run (fun s l => s.closesOutside l = true) h s) :
    machine.Run (fun s l => s.stopsDrained l = true) h s := by
  have hrun := hr.history (I := fun h s => machine.Run (fun s l => s.stopsDrained l = true) h s ∧ Outside s)
    (fun s h0 => ⟨.start h0, .init h0⟩)
    (fun h s l s' _ ih hok hs => ⟨ih.1.next (Bool.and_eq_true_iff.2 ⟨ih.2.closesEmpty hok, ih.2.findsNothing hs⟩) hs,
      ih.2.step hok hs⟩)
  exact hrun.1

/-! ## The result -/

/-- The applier never sends on a closed channel, in any run in which `Stop` closes `applyCh` while the applier holds no
entry and the applier, if it is still inside a round then, finds no further one. -/
theorem no_send_on_closed {h : List (Shutdown × ShutdownAction)} {s : Shutdown}
    (hr : machine.Run (fun s l => s.stopsDrained l = true) h s) : ∀ x ∈ h, x.1.sendsOnClosed x.2 = none := by
  intro x hx
  obtain ⟨⟨h₀, hr₀⟩, _, s₁, hs₁⟩ := hr.past hx
  have hdrained : Drained x.1 := hr₀.invariant (fun _ h0 => .init h0) fun _ _ _ hd hok hs => hd.step hok hs
  exact hdrained.sendsOnClosed hs₁

/-- The cluster of three, with nothing stopped. -/
def threeRunning : Shutdown := { cluster := Cluster.start threeNodes.ids threeNodes.peersOf true true }

theorem threeRunning_init : machine.init threeRunning := ⟨_, machine_init threeNodes true true, rfl⟩

def steps (as : List Action) : List ShutdownAction := as.map fun a => .life (.life (.step a))

/-- A applies its first entry and is stopped between two rounds. B is stopped inside a round in which it finds
nothing. -/
def stoppedDrained : List ShutdownAction :=
  [.select "A"] ++ steps (firstApplied ++ [.applierSend "A", .applierDone "A" {}]) ++
    [.signal "A", .close "A", .select "A", .select "B", .signal "B", .close "B"] ++ steps [.applierTake "B" {}] ++
    [.select "B"]

theorem no_send_on_closed_drained :
    ∃ h s, machine.Run (fun s l => s.stopsDrained l = true) h s ∧ (∀ n ∈ ["A", "B"], s.stop n = .closed) ∧
      (∀ n ∈ ["A", "B"], s.round n = .returned) ∧ (s.cluster.app "A").sent = [⟨1, 1, .put [1] [2]⟩] ∧
      ∀ x ∈ h, x.1.sendsOnClosed x.2 = none := by
  obtain ⟨h, s, hr, hstop, hround, hsent⟩ := Machine.exists_run (S := machine) (fun s l => s.stopsDrained l = true)
    (fun _ s => (∀ n ∈ ["A", "B"], s.stop n = .closed) ∧ (∀ n ∈ ["A", "B"], s.round n = .returned) ∧
      (s.cluster.app "A").sent = [⟨1, 1, .put [1] [2]⟩])
    threeRunning_init stoppedDrained (by decide +kernel)
  exact ⟨h, s, hr, hstop, hround, hsent, no_send_on_closed hr⟩

/-- The last step was a send on a closed channel and took the process of A down. -/
def diesOnClosed : List (Shutdown × ShutdownAction) → Shutdown → Bool
  | x :: _, s => x.1.sendsOnClosed x.2 == some "A" && !s.cluster.procs.contains "A"
  | [], _ => false

/-- `Stop` of A comes to its end when A has taken its first entry, and just before. -/
def stoppedHolding : List ShutdownAction :=
  [.select "A"] ++ steps firstApplied ++ [.signal "A", .close "A"] ++ steps [.applierSend "A"]

def stoppedSearching : List ShutdownAction :=
  [.select "A"] ++ steps firstApplied.dropLast ++ [.signal "A", .close "A"] ++
    steps [.applierTake "A" {}, .applierSend "A"]

theorem stop_panics :
    (∃ h s, machine.Run (fun s l => s.findsNothing l = true) h s ∧ diesOnClosed h s = true) ∧
      ∃ h s, machine.Run (fun s l => s.closesEmpty l = true) h s ∧ diesOnClosed h s = true :=
  ⟨Machine.exists_run (fun s l => findsNothing s l = true) (fun h s => diesOnClosed h s = true) threeRunning_init
      stoppedHolding (by decide +kernel),
    Machine.exists_run (fun s l => closesEmpty s l = true) (fun h s => diesOnClosed h s = true) threeRunning_init
      stoppedSearching (by decide +kernel)⟩

end Shutdown

end Mimori
