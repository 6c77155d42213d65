/-
Many clients at once. Every request that reaches a node is a call with a number; its handler is a goroutine of the
cluster, which is followed from section to section until it answers or ends. The history records when a request
arrives and when it is answered. A client sees its call begin earlier and end later, and one whose call fails has no
answer, so what holds of this history holds of what the clients see.
-/
import Mimori.Base.Linearizable
import Mimori.Client.Session
import Mimori.Storage.Removed
import Mathlib.Data.List.Perm.Basic

namespace Mimori

open Raft Linear

/-- The command that a write becomes. -/
def ClientRequest.command : ClientRequest → Option Command
  | .put key value => some (.put key value)
  | .delete key => some (.delete key)
  | .get _ _ => none

/-- A request that may not be answered from a follower. -/
def ClientRequest.strong : ClientRequest → Bool
  | .get _ allowStale => !allowStale
  | _ => true

/-- What a call returns. -/
inductive CallResult
  | done
  | value (val : Option Bytes)
  deriving DecidableEq

/-- What the cluster is to look like to its clients: one map. -/
def keyValueMap : SeqObject (Bytes → Option Bytes) ClientRequest CallResult where
  init := fun _ => none
  apply m
    | .put key value => Function.update m key (some value)
    | .delete key => Function.update m key none
    | .get _ _ => m
  answer m
    | .get key _ => .value (m key)
    | _ => .done

/-- A cluster with its clients. -/
structure Calls where
  cluster : Cluster
  /-- The call that each goroutine of the cluster handles, if it handles one. -/
  owners : List (Option Nat) := []
  /-- The requests of the calls, by number. -/
  requests : List ClientRequest := []
  /-- The history of all calls but the reads that may be stale. -/
  history : List (Event ClientRequest CallResult) := []
  /-- The entries proposed on behalf of calls. -/
  proposals : List Proposal := []

inductive CallsAction
  /-- A step of the cluster alone. -/
  | cluster (a : Action)
  /-- A request reaches node `n`. -/
  | call (n : NodeID) (req : ClientRequest)
  /-- A process dies and is started again. -/
  | restart (l : Cluster.RestartAction)

/-- Commands come from clients, through a request. -/
def Cluster.internal : Action → Bool
  | .propose _ _ _ => false
  | .client _ _ => false
  | _ => true

namespace Calls

/-- Goroutines are followed as in the session of one call; the call of that session plays no part. -/
def session (s : Calls) : Session where
  cluster := s.cluster
  call := { client := { seeds := [], maxRetries := 0 }, write := .delete [] }
  owners := s.owners

/-- The answer that step `a` gives to a call. -/
def responds (s : Calls) (a : Action) : Option (Event ClientRequest CallResult) :=
  match a with
  | .run i .go _ =>
    match s.cluster.tasks[i]?, s.session.ownerOf i with
    | some (_, .waiting _ _ _), some k => some (.respond k .done)
    | some (n, .reading key), some k =>
      if (s.requests[k]?.any ClientRequest.strong) then
        some (.respond k (.value ((s.cluster.app n).store.get key)))
      else none
    | _, _ => none
  | _ => none

/-- The state after step `a` of the cluster to `c`. -/
def after (s : Calls) (a : Action) (c : Cluster) : Calls where
  cluster := c
  owners := s.session.ownersAfter a c
  requests := s.requests
  history := s.history ++ (s.responds a).toList
  proposals := s.proposals ++ (s.session.proposes a).toList

/-- The state after request `req` has arrived, with the cluster `c`. -/
def arrived (s : Calls) (req : ClientRequest) (c : Cluster) : Calls where
  cluster := c
  owners := s.owners ++ [some s.requests.length]
  requests := s.requests ++ [req]
  history := s.history ++ if req.strong then [.invoke s.requests.length req] else []
  proposals := s.proposals

/-- The state after node `n` has been started again, with the cluster `c`: the handlers on `n` are gone, and their calls
will not be answered. -/
def restarted (s : Calls) (n : NodeID) (c : Cluster) : Calls where
  cluster := c
  owners := (s.session.labelled.filter fun x => x.1.1 ≠ n).map Prod.snd
  requests := s.requests
  history := s.history
  proposals := s.proposals

/-- The step of the cluster that a step of the whole takes. -/
def onCluster : CallsAction → Cluster.RestartAction
  | .cluster a => .life (.step a)
  | .call n req => .life (.step (.client n req))
  | .restart l => l

def step (s : Calls) : CallsAction → Option Calls
  | .cluster a => if Cluster.internal a then (s.cluster.step a).map (s.after a) else none
  | .call n req => (s.cluster.step (.client n req)).map (s.arrived req)
  | .restart l =>
    match s.cluster.restartDisk l, s.cluster.restartStep l with
    | some (n, _), some c => some (s.restarted n c)
    | _, _ => none

end Calls

/-- A cluster of these members, to which no call has been made. -/
def Members.calls (M : Members) : Machine Calls CallsAction where
  init s := ∃ cluster, M.machine.init cluster ∧ s = { cluster }
  step := Calls.step

/-! ## Handlers -/

/-- Goroutine `t` handles request `req`. -/
inductive Handles : ClientRequest → Task → Prop
  | serve (req : ClientRequest) : Handles req (.serve req)
  | propose (req : ClientRequest) (cmd : Command) (h : req.command = some cmd) : Handles req (.propose cmd)
  | proposed (req : ClientRequest) (index : Int) (cmd : Command) (h : req.command = some cmd) :
      Handles req (.proposed index cmd)
  | waiting (req : ClientRequest) (index : Int) (cmd : Command) (ch : Nat) (h : req.command = some cmd) :
      Handles req (.waiting index cmd ch)
  | lease (key : Bytes) : Handles (.get key true) (.leaseCheck key)
  | reading (key : Bytes) (allowStale : Bool) : Handles (.get key allowStale) (.reading key)

/-- The handler has not proposed anything yet. -/
def Unproposed : Task → Prop
  | .serve _ | .propose _ => True
  | _ => False

namespace Cluster

/-- How a handler `t` on node `n` goes on, if it does. -/
inductive Continues (s : Cluster) (n : NodeID) : Task → Option Task → Prop
  | ends (t : Task) : Continues s n t none
  | accepted (req : ClientRequest) (cmd : Command) (h : req.command = some cmd) :
      Continues s n (.serve req) (some (.propose cmd))
  | reads (key : Bytes) (allowStale : Bool) (h : (s.raft n).isLeader = true) :
      Continues s n (.serve (.get key allowStale)) (some (.reading key))
  | checks (key : Bytes) : Continues s n (.serve (.get key true)) (some (.leaseCheck key))
  | leased (key : Bytes) : Continues s n (.leaseCheck key) (some (.reading key))
  | proposed (cmd : Command) (h : (s.raft n).state = .leader) :
      Continues s n (.propose cmd) (some (.proposed ((s.raft n).lastLogIndex + 1) cmd))
  | waits (index : Int) (cmd : Command) :
      Continues s n (.proposed index cmd) (some (.waiting index cmd ((s.raft n).appliedWait index).2))

variable {s s' : Cluster} {n : NodeID} {t : Task}

theorem Continues.handles {req : ClientRequest} {u : Task} (hc : Continues s n t (some u)) (h : Handles req t) :
    Handles req u := by
  cases hc with
  | accepted req cmd hcmd => cases h; exact .propose _ _ hcmd
  | reads key allowStale => cases h; exact .reading key allowStale
  | checks key => cases h; exact .lease key
  | leased key => cases h; exact .reading key true
  | proposed cmd => cases h with | propose _ _ hcmd => exact .proposed _ _ _ hcmd
  | waits index cmd => cases h with | proposed _ _ _ hcmd => exact .waiting _ _ _ _ hcmd

/-- A section of a handler leaves at most its next section, and the process alive. -/
theorem step_handler {i : Nat} {c : Choice} {io : Io} (hs : s.step (.run i c io) = some s')
    (hx : s.tasks[i]? = some (n, t)) {req : ClientRequest} (ht : Handles req t) :
    s'.procs = s.procs ∧ ∃ u, s'.tasks = s.tasks.eraseIdx i ++ u.toList.map (Prod.mk n) ∧ Continues s n t u := by
  obtain ⟨_, hrun⟩ := step_runTask hs hx
  have hend : s'.tasks = s.tasks.eraseIdx i → s'.procs = s.procs →
      s'.procs = s.procs ∧ ∃ u, s'.tasks = s.tasks.eraseIdx i ++ u.toList.map (Prod.mk n) ∧ Continues s n t u :=
    fun htasks hprocs => ⟨hprocs, none, by simpa using htasks, .ends t⟩
  cases ht with
  | serve =>
    cases c with
    | go =>
      cases req with
      | put key value =>
        simp only [runTask] at hrun
        split at hrun
        · cases hrun; exact ⟨rfl, _, rfl, .accepted _ _ rfl⟩
        · cases hrun; exact hend rfl rfl
      | delete key =>
        simp only [runTask] at hrun
        split at hrun
        · cases hrun; exact ⟨rfl, _, rfl, .accepted _ _ rfl⟩
        · cases hrun; exact hend rfl rfl
      | get key allowStale =>
        simp only [runTask] at hrun
        split at hrun
        · rename_i hl; cases hrun; exact ⟨rfl, _, rfl, .reads key allowStale hl⟩
        · split at hrun
          · rename_i hstale; subst hstale; cases hrun; exact ⟨rfl, _, rfl, .checks key⟩
          · cases hrun; exact hend rfl rfl
    | fail => cases req <;> cases hrun
    | reply j => cases req <;> cases hrun
  | propose _ cmd hcmd =>
    cases c with
    | go =>
      simp only [runTask, Raft.propose] at hrun
      split at hrun
      · rename_i hp
        split at hp
        · cases hp
        · rename_i hl; cases hp; cases hrun; exact ⟨rfl, _, rfl, .proposed cmd (not_not.1 hl)⟩
      · cases hrun; exact hend rfl rfl
    | fail => cases hrun
    | reply j => cases hrun
  | proposed _ index cmd hcmd =>
    cases c with
    | go => cases hrun; exact ⟨rfl, _, rfl, .waits index cmd⟩
    | fail => cases hrun
    | reply j => cases hrun
  | waiting _ index cmd ch hcmd =>
    cases c with
    | go =>
      simp only [runTask] at hrun
      split at hrun
      · cases hrun; exact hend rfl rfl
      · cases hrun
    | fail => cases hrun
    | reply j => cases hrun
  | lease key =>
    cases c with
    | go =>
      simp only [runTask] at hrun
      split at hrun
      · cases hrun; exact ⟨rfl, _, rfl, .leased key⟩
      · cases hrun; exact hend rfl rfl
    | fail => cases hrun
    | reply j => cases hrun
  | reading key =>
    cases c with
    | go => cases hrun; exact hend rfl rfl
    | fail => cases hrun
    | reply j => cases hrun

end Cluster

namespace Calls

open Cluster

variable {s : Calls} {a : Action} {c : Cluster} {n : NodeID} {t : Task} {k i : Nat}
  {ev : Event ClientRequest CallResult} {req : ClientRequest}

/-! ## Calls and their goroutines -/

/-- The calls that some goroutine handles. -/
def handled (s : Calls) : List Nat := s.owners.filterMap id

theorem mem_handled : k ∈ s.handled ↔ some k ∈ s.owners := by simp [handled]

/-- What the clients' books say at any time: every goroutine that handles a call is at a section of its request, no
call has two of them, and one that was answered has none; who is to propose does so for a call, with its command, and
a call proposes at most once; and a call that was made after the answer to another has the greater number. -/
structure Booked (s : Calls) : Prop where
  owners : s.owners.length = s.cluster.tasks.length
  nodup : s.handled.Nodup
  handles : ∀ x k, (x, some k) ∈ s.session.labelled → ∃ req, s.requests[k]? = some req ∧ Handles req x.2
  unowned : ∀ x, (x, none) ∈ s.session.labelled → ¬ Unproposed x.2
  invoked : ∀ k req, .invoke k req ∈ s.history ↔ s.requests[k]? = some req ∧ req.strong = true
  responded : ∀ k ans, .respond k ans ∈ s.history → k < s.requests.length ∧ k ∉ s.handled
  realTime : ∀ i j, Precedes s.history i j → i < j
  fresh : ∀ x k, (x, some k) ∈ s.session.labelled → Unproposed x.2 → ∀ p ∈ s.proposals, p.attempt ≠ k
  command : ∀ p ∈ s.proposals, ∃ req, s.requests[p.attempt]? = some req ∧ req.command = some p.entry.data
  attempts : s.proposals.Pairwise fun p q => p.attempt ≠ q.attempt

/-- What a step of the cluster does with the calls: it runs the handler of one of them, or none. -/
inductive Attends (s : Calls) (a : Action) (c : Cluster) : Prop
  | handler (i : Nat) (ch : Choice) (io : Io) (n : NodeID) (t : Task) (u : Option Task) (k : Nat) (rest : List Nat)
      (ha : a = .run i ch io) (hx : s.cluster.tasks[i]? = some (n, t)) (ho : s.session.ownerOf i = some k)
      (hc : Continues s.cluster n t u) (hperm : s.handled.Perm (k :: rest))
      (hhandled : (s.after a c).handled = rest ++ u.toList.map fun _ => k)
      (hlabelled : ∀ x l, (x, some l) ∈ (s.after a c).session.labelled →
        (l ≠ k ∧ (x, some l) ∈ s.session.labelled) ∨ (l = k ∧ ∃ v, u = some v ∧ x = (n, v)))
  | other (hproposes : s.session.proposes a = none) (hresponds : s.responds a = none)
      (hhandled : (s.after a c).handled.Sublist s.handled)
      (hlabelled : ∀ x l, (x, some l) ∈ (s.after a c).session.labelled → (x, some l) ∈ s.session.labelled)

/-- The calls handled after a step that runs none of their goroutines. -/
theorem Booked.handled_other (hb : Booked s) (h : s.session.heir a = none) :
    (s.after a c).handled.Sublist s.handled := by
  have hleft : (s.session.ownersLeft a).Sublist s.owners := by
    cases a with
    | run i _ _ => exact List.eraseIdx_sublist ..
    | _ => exact List.Sublist.refl _
  show ((s.session.ownersAfter a c).filterMap id).Sublist (s.owners.filterMap id)
  unfold Session.ownersAfter
  split
  · have hnone : ∀ m : Nat, (List.replicate m (none : Option Nat)).filterMap id = [] := by
      intro m
      simp
    rw [h, List.filterMap_append, hnone, List.append_nil]
    exact hleft.filterMap _
  · refine List.Sublist.filterMap _ (List.Sublist.trans ?_ hleft)
    refine (List.filter_sublist.map _).trans ?_
    rw [List.map_snd_zip (Session.ownersLeft_length hb.owners a).ge]

theorem Booked.attends (h : Booked s) (hs : s.cluster.step a = some c) : Attends s a c := by
  have hspec := Session.ownersAfter_spec (s := s.session) h.owners hs
  cases hheir : s.session.heir a with
  | none =>
    refine .other ?_ ?_ (h.handled_other hheir) fun x l hx => ?_
    · cases hp : s.session.proposes a with
      | none => rfl
      | some p =>
        unfold Session.proposes at hp
        split at hp
        · split at hp
          · rename_i ho
            simp only [Session.heir, ho] at hheir
            cases hheir
          · cases hp
        · cases hp
    · cases hp : s.responds a with
      | none => rfl
      | some ev =>
        unfold responds at hp
        split at hp
        · split at hp
          · rename_i ho; simp only [Session.heir, ho] at hheir; cases hheir
          · rename_i ho; simp only [Session.heir, ho] at hheir; cases hheir
          · cases hp
        · cases hp
    · rcases hspec.2 x.1 x.2 (some l) hx with hx | ⟨_, ho⟩
      · exact hx
      · rw [hheir] at ho; cases ho
  | some k =>
    cases a with
    | run i ch io =>
      have ho : s.session.ownerOf i = some k := hheir
      obtain ⟨n, t, hx, _, _⟩ := step_run hs
      obtain ⟨req, _, ht⟩ := h.handles _ k (Session.mem_labelled hx ho)
      obtain ⟨hprocs, u, htasks, hc⟩ := step_handler hs hx ht
      obtain ⟨hi, hget⟩ := List.getElem?_eq_some_iff.1 (Option.join_eq_some_iff.1 ho)
      have hafter : s.session.ownersAfter (.run i ch io) c = s.owners.eraseIdx i ++ u.toList.map fun _ => some k := by
        unfold Session.ownersAfter
        have hlen : c.tasks.length - (s.owners.eraseIdx i).length = u.toList.length := by
          rw [htasks, List.length_append, List.length_map, List.length_eraseIdx, List.length_eraseIdx, h.owners]
          omega
        refine (if_pos hprocs).trans ?_
        show s.owners.eraseIdx i ++ List.replicate (c.tasks.length - (s.owners.eraseIdx i).length)
          (s.session.ownerOf i) = _
        rw [hlen, ho, List.map_const']
      have hperm : s.handled.Perm (k :: (s.owners.eraseIdx i).filterMap id) := by
        have := (List.getElem_cons_eraseIdx_perm hi).symm.filterMap id
        rwa [hget, List.filterMap_cons] at this
      refine .handler i ch io n t u k _ rfl hx ho hc hperm ?_ fun x l hl => ?_
      · show (s.session.ownersAfter _ c).filterMap id = _
        rw [hafter, List.filterMap_append]
        congr 1
        cases u <;> rfl
      · have hl : (x, some l) ∈ c.tasks.zip (s.session.ownersAfter (.run i ch io) c) := hl
        rw [hafter, htasks, List.zip_append (by rw [List.length_eraseIdx, List.length_eraseIdx, h.owners]),
          List.mem_append] at hl
        rcases hl with hl | hl
        · refine .inl ⟨?_, Session.ownersLeft_mem (s := s.session) (a := .run i ch io) hl⟩
          rintro rfl
          have hmem : l ∈ (s.owners.eraseIdx i).filterMap id := by simpa using (List.of_mem_zip hl).2
          exact (List.nodup_cons.1 (hperm.nodup_iff.1 h.nodup)).1 hmem
        · obtain ⟨h1, h2⟩ := List.of_mem_zip hl
          obtain ⟨v, hv, rfl⟩ := List.mem_map.1 h1
          obtain ⟨_, _, he⟩ := List.mem_map.1 h2
          cases he
          exact .inr ⟨rfl, v, Option.mem_toList.1 hv, rfl⟩
    | _ => cases hheir

/-! ## Answers and proposals -/

/-- Step `a` answers call `k`. -/
inductive Responds (s : Calls) : Action → Nat → CallResult → Prop
  | written (i : Nat) (io : Io) (n : NodeID) (index : Int) (cmd : Command) (ch k : Nat)
      (hx : s.cluster.tasks[i]? = some (n, .waiting index cmd ch)) (ho : s.session.ownerOf i = some k) :
      Responds s (.run i .go io) k .done
  | read (i : Nat) (io : Io) (n : NodeID) (key : Bytes) (k : Nat) (hx : s.cluster.tasks[i]? = some (n, .reading key))
      (ho : s.session.ownerOf i = some k) (hstrong : s.requests[k]?.any ClientRequest.strong = true) :
      Responds s (.run i .go io) k (.value ((s.cluster.app n).store.get key))

theorem responds_some (h : s.responds a = some ev) : ∃ k ans, ev = .respond k ans ∧ Responds s a k ans := by
  unfold responds at h
  split at h
  · split at h
    · rename_i hx ho; cases h; exact ⟨_, _, rfl, .written _ _ _ _ _ _ _ hx ho⟩
    · rename_i hx ho
      split at h
      · rename_i hstrong; cases h; exact ⟨_, _, rfl, .read _ _ _ _ _ hx ho hstrong⟩
      · cases h
    · cases h
  · cases h

theorem mem_history_after : ev ∈ (s.after a c).history ↔ ev ∈ s.history ∨ s.responds a = some ev := by
  show ev ∈ s.history ++ (s.responds a).toList ↔ _
  rw [List.mem_append, Option.mem_toList]

theorem precedes_after {j : Nat} : Precedes (s.after a c).history i j ↔ Precedes s.history i j := by
  show Precedes (s.history ++ (s.responds a).toList) i j ↔ _
  cases hr : s.responds a with
  | none => rw [Option.toList_none, List.append_nil]
  | some ev =>
    obtain ⟨k, ans, rfl, _⟩ := responds_some hr
    exact precedes_respond

theorem proposes_some {p : Proposal} (h : s.session.proposes a = some p) :
    ∃ i io cmd, a = .run i .go io ∧ s.cluster.tasks[i]? = some (p.node, .propose cmd) ∧
      s.session.ownerOf i = some p.attempt ∧ (s.cluster.raft p.node).state = .leader ∧
      p.entry = ⟨(s.cluster.raft p.node).lastLogIndex + 1, (s.cluster.raft p.node).term, cmd⟩ := by
  unfold Session.proposes at h
  split at h
  · rename_i i io
    split at h
    · rename_i n cmd k hx ho
      dsimp only at h
      split at h
      · rename_i hl
        cases h
        exact ⟨i, io, cmd, rfl, hx, ho, hl, rfl⟩
      · cases h
    · cases h
  · cases h

theorem mem_proposals_after {p : Proposal} :
    p ∈ (s.after a c).proposals ↔ p ∈ s.proposals ∨ s.session.proposes a = some p := by
  show p ∈ s.proposals ++ (s.session.proposes a).toList ↔ _
  rw [List.mem_append, Option.mem_toList]

/-! ## The books are kept -/

theorem Attends.responded (h : Attends s a c) (hn : s.handled.Nodup) {ans : CallResult} (hr : Responds s a k ans) :
    k ∈ s.handled ∧ k ∉ (s.after a c).handled := by
  cases h with
  | other _ hnone =>
    cases hr with
    | written i io n index cmd ch k hx ho => simp [responds, hx, ho] at hnone
    | read i io n key k hx ho hstrong => simp [responds, hx, ho, hstrong] at hnone
  | handler i ch io n t u l rest ha hx ho hc hperm hhandled =>
    have hmem := hperm.mem_iff.2 (List.mem_cons_self (a := l) (l := rest))
    have hnot := (List.nodup_cons.1 (hperm.nodup_iff.1 hn)).1
    cases hr with
    | written i' io' n' index cmd ch' k hx' ho' =>
      cases ha
      rw [hx] at hx'; cases hx'
      rw [ho] at ho'; cases ho'
      cases hc
      refine ⟨hmem, ?_⟩
      rw [hhandled]; simpa using hnot
    | read i' io' n' key k hx' ho' =>
      cases ha
      rw [hx] at hx'; cases hx'
      rw [ho] at ho'; cases ho'
      cases hc
      refine ⟨hmem, ?_⟩
      rw [hhandled]; simpa using hnot

theorem Attends.handled_subset (h : Attends s a c) : (s.after a c).handled ⊆ s.handled := by
  cases h with
  | other _ _ hsub => exact hsub.subset
  | handler _ _ _ _ _ u l rest _ _ _ _ hperm hhandled =>
    intro x hx
    rw [hhandled, List.mem_append] at hx
    rw [hperm.mem_iff, List.mem_cons]
    rcases hx with hx | hx
    · exact .inr hx
    · obtain ⟨_, _, rfl⟩ := List.mem_map.1 hx
      exact .inl rfl

theorem Attends.nodup (h : Attends s a c) (hn : s.handled.Nodup) : (s.after a c).handled.Nodup := by
  cases h with
  | other _ _ hsub => exact hsub.nodup hn
  | handler _ _ _ _ _ u l rest _ _ _ _ hperm hhandled =>
    have hcons := hperm.nodup_iff.1 hn
    rw [hhandled]
    cases u with
    | none => simpa using (List.nodup_cons.1 hcons).2
    | some v => exact (List.perm_append_singleton l rest).nodup_iff.2 hcons

/-- What a call proposes is proposed by its handler, which had not proposed before. -/
theorem Booked.proposer (h : Booked s) {p : Proposal} (hp : s.session.proposes a = some p) :
    (∃ req, s.requests[p.attempt]? = some req ∧ req.command = some p.entry.data) ∧
      ∀ q ∈ s.proposals, q.attempt ≠ p.attempt := by
  obtain ⟨i, io, cmd, rfl, hx, ho, _, he⟩ := proposes_some hp
  have hmem := Session.mem_labelled hx ho
  refine ⟨?_, fun q hq => h.fresh _ _ hmem trivial q hq⟩
  obtain ⟨req, hreq, ht⟩ := h.handles _ _ hmem
  cases ht with
  | propose _ _ hcmd => exact ⟨req, hreq, by rw [he]; exact hcmd⟩

/-- A goroutine that serves no client is never about to propose. -/
theorem Booked.unowned_step (h : Booked s) (hi : internal a = true) (hs : s.cluster.step a = some c)
    {x : NodeID × Task} (hx : (x, none) ∈ (s.after a c).session.labelled) : ¬ Unproposed x.2 := by
  obtain ⟨n, t⟩ := x
  rcases (Session.ownersAfter_spec (s := s.session) h.owners hs).2 n t none hx with hx | ⟨hnew, ho⟩
  · exact h.unowned _ hx
  · intro hu
    cases hnew with
    | next i ch io _ t₀ _ hxt hsp =>
      cases hsp with
      | accepted req cmd =>
        have ho : s.session.ownerOf i = none := ho.symm
        have hlt : i < s.owners.length := h.owners ▸ (List.getElem?_eq_some_iff.1 hxt).1
        refine h.unowned (n, .serve req) (List.mem_of_getElem? (i := i) (List.getElem?_zip_eq_some.2 ⟨hxt, ?_⟩)) trivial
        rw [Session.ownerOf, show s.session.owners = s.owners from rfl, List.getElem?_eq_getElem hlt] at ho
        show s.owners[i]? = some none
        rw [List.getElem?_eq_getElem hlt]; exact congrArg some ho
      | _ => cases hu
    | client => cases hi
    | _ => cases hu

theorem Booked.after (h : Booked s) (hi : internal a = true) (hs : s.cluster.step a = some c) :
    Booked (s.after a c) := by
  have hat := h.attends hs
  refine ⟨(Session.ownersAfter_spec (s := s.session) h.owners hs).1, hat.nodup h.nodup, fun x l hx => ?_,
    fun x hx => h.unowned_step hi hs hx, fun l req => ?_, fun l ans hans => ?_,
    fun i j hij => h.realTime i j (precedes_after.1 hij), fun x l hx hu p hp => ?_, fun p hp => ?_, ?_⟩
  · cases hat with
    | other _ _ _ hlab => exact h.handles x l (hlab x l hx)
    | handler i ch io n t u k rest ha hxt ho hc hperm hhandled hlab =>
      rcases hlab x l hx with ⟨_, hx⟩ | ⟨rfl, v, rfl, rfl⟩
      · exact h.handles x l hx
      · obtain ⟨req, hreq, ht⟩ := h.handles _ l (Session.mem_labelled hxt ho)
        exact ⟨req, hreq, hc.handles ht⟩
  · rw [mem_history_after, show (s.after a c).requests = s.requests from rfl, ← h.invoked]
    constructor
    · rintro (hm | hm)
      · exact hm
      · obtain ⟨_, _, he, _⟩ := responds_some hm
        cases he
    · exact .inl
  · rcases mem_history_after.1 hans with hans | hans
    · obtain ⟨hlt, hnot⟩ := h.responded l ans hans
      exact ⟨hlt, fun hm => hnot (hat.handled_subset hm)⟩
    · obtain ⟨_, _, he, hr⟩ := responds_some hans
      cases he
      obtain ⟨hmem, hnot⟩ := hat.responded h.nodup hr
      refine ⟨?_, hnot⟩
      have hlab : ∃ x, (x, some l) ∈ s.session.labelled := by
        cases hr with
        | written _ _ _ _ _ _ _ hx ho => exact ⟨_, Session.mem_labelled hx ho⟩
        | read _ _ _ _ _ hx ho => exact ⟨_, Session.mem_labelled hx ho⟩
      obtain ⟨x, hx⟩ := hlab
      obtain ⟨req, hreq, _⟩ := h.handles x l hx
      exact (List.getElem?_eq_some_iff.1 hreq).1
  · cases hat with
    | other hnone _ _ hlab =>
      rcases mem_proposals_after.1 hp with hp | hp
      · exact h.fresh x l (hlab x l hx) hu p hp
      · rw [hnone] at hp; cases hp
    | handler i ch io n t u k rest ha hxt ho hc hperm hhandled hlab =>
      have hprop : ∀ {q : Proposal}, s.session.proposes a = some q → q.attempt = k ∧ ∃ cmd, t = .propose cmd := by
        intro q hq
        obtain ⟨_, _, cmd, he, hx', ho', _⟩ := proposes_some hq
        rw [ha] at he; cases he
        rw [hxt] at hx'; cases hx'
        rw [ho] at ho'
        exact ⟨(Option.some.inj ho').symm, cmd, rfl⟩
      rcases hlab x l hx with ⟨hne, hx⟩ | ⟨rfl, v, rfl, rfl⟩
      · rcases mem_proposals_after.1 hp with hp | hp
        · exact h.fresh x l hx hu p hp
        · rw [(hprop hp).1]; exact hne.symm
      · -- only a request that was just accepted has still to propose
        have ht : ∃ req, t = .serve req := by
          cases hc with
          | accepted req => exact ⟨req, rfl⟩
          | _ => cases hu
        obtain ⟨req, rfl⟩ := ht
        rcases mem_proposals_after.1 hp with hp | hp
        · exact h.fresh _ l (Session.mem_labelled hxt ho) trivial p hp
        · obtain ⟨_, cmd, he⟩ := hprop hp
          cases he
  · rcases mem_proposals_after.1 hp with hp | hp
    · exact h.command p hp
    · exact (h.proposer hp).1
  · show (s.proposals ++ (s.session.proposes a).toList).Pairwise _
    rw [List.pairwise_append]
    refine ⟨h.attempts, ?_, fun p hp q hq => (h.proposer (Option.mem_toList.1 hq)).2 p hp⟩
    cases s.session.proposes a with
    | none => exact List.Pairwise.nil
    | some p => exact List.pairwise_singleton ..

theorem step_client_tasks {s s' : Cluster} (hs : s.step (.client n req) = some s') :
    s'.tasks = s.tasks ++ [(n, .serve req)] := by
  cases step_cases hs
  rfl

theorem Booked.not_handled (h : Booked s) : s.requests.length ∉ s.handled := by
  intro hm
  obtain ⟨i, hi⟩ := List.mem_iff_getElem?.1 (mem_handled.1 hm)
  have hlt : i < s.cluster.tasks.length := h.owners ▸ (List.getElem?_eq_some_iff.1 hi).1
  obtain ⟨req, hreq, _⟩ := h.handles _ _ (List.mem_of_getElem?
    (List.getElem?_zip_eq_some.2 ⟨List.getElem?_eq_getElem hlt, hi⟩))
  exact absurd (List.getElem?_eq_some_iff.1 hreq).1 (lt_irrefl _)

theorem mem_history_arrived :
    ev ∈ (s.arrived req c).history ↔ ev ∈ s.history ∨ req.strong = true ∧ ev = .invoke s.requests.length req := by
  show ev ∈ s.history ++ (if req.strong = true then [.invoke s.requests.length req] else []) ↔ _
  rw [List.mem_append]
  split <;> simp [*]

theorem precedes_arrived {j : Nat} (h : Precedes (s.arrived req c).history i j) :
    Precedes s.history i j ∨ j = s.requests.length ∧ ∃ ans, .respond i ans ∈ s.history := by
  have h : Precedes (s.history ++ if req.strong = true then [.invoke s.requests.length req] else []) i j := h
  split at h
  · exact precedes_invoke.1 h
  · rw [List.append_nil] at h; exact .inl h

/-- The goroutines that were there keep their calls. -/
theorem Booked.labelled_arrived (h : Booked s) (hs : s.cluster.step (.client n req) = some c) {x : NodeID × Task}
    {o : Option Nat} (hx : (x, o) ∈ (s.arrived req c).session.labelled) :
    (x, o) ∈ s.session.labelled ∨ (x = (n, .serve req) ∧ o = some s.requests.length) := by
  have hx : (x, o) ∈ c.tasks.zip (s.owners ++ [some s.requests.length]) := hx
  rw [step_client_tasks hs, List.zip_append h.owners.symm, List.mem_append] at hx
  rcases hx with hx | hx
  · exact .inl hx
  · cases List.mem_singleton.1 hx
    exact .inr ⟨rfl, rfl⟩

theorem Booked.arrived (h : Booked s) (hs : s.cluster.step (.client n req) = some c) : Booked (s.arrived req c) := by
  have hkeep : ∀ {l : Nat} {r : ClientRequest}, s.requests[l]? = some r → (s.requests ++ [req])[l]? = some r := by
    intro l r hl
    rw [List.getElem?_append_left (List.getElem?_eq_some_iff.1 hl).1]; exact hl
  have hhandled : (s.arrived req c).handled = s.handled ++ [s.requests.length] := List.filterMap_append ..
  refine ⟨?_, ?_, fun x l hx => ?_, fun x hx => ?_, fun l r => ?_, fun l ans hans => ?_, fun i j hij => ?_,
    fun x l hx hu p hp => ?_, fun p hp => ?_, h.attempts⟩
  · show (s.owners ++ [some s.requests.length]).length = c.tasks.length
    rw [step_client_tasks hs, List.length_append, List.length_append, h.owners]; rfl
  · rw [hhandled, (List.perm_append_singleton _ _).nodup_iff, List.nodup_cons]
    exact ⟨h.not_handled, h.nodup⟩
  · rcases h.labelled_arrived hs hx with hx | ⟨rfl, hl⟩
    · obtain ⟨r, hr, ht⟩ := h.handles x l hx
      exact ⟨r, hkeep hr, ht⟩
    · cases hl
      exact ⟨req, List.getElem?_concat_length .., .serve req⟩
  · rcases h.labelled_arrived hs hx with hx | ⟨_, ho⟩
    · exact h.unowned x hx
    · cases ho
  · rw [mem_history_arrived, h.invoked]
    show _ ↔ (s.requests ++ [req])[l]? = some r ∧ _
    constructor
    · rintro (⟨hl, hstrong⟩ | ⟨hstrong, he⟩)
      · exact ⟨hkeep hl, hstrong⟩
      · cases he
        exact ⟨List.getElem?_concat_length .., hstrong⟩
    · rintro ⟨hl, hstrong⟩
      rw [List.getElem?_append] at hl
      split at hl
      · exact .inl ⟨hl, hstrong⟩
      · rename_i hge
        obtain ⟨hlt, rfl⟩ := List.getElem?_eq_some_iff.1 hl
        rw [List.length_singleton] at hlt
        obtain rfl : l = s.requests.length := by omega
        rw [List.getElem_singleton] at hstrong ⊢
        exact .inr ⟨hstrong, rfl⟩
  · show l < (s.requests ++ [req]).length ∧ l ∉ (s.arrived req c).handled
    rw [hhandled, List.length_append, List.mem_append, List.mem_singleton, List.length_singleton]
    rcases mem_history_arrived.1 hans with hans | ⟨_, he⟩
    · obtain ⟨hlt, hnot⟩ := h.responded l ans hans
      refine ⟨by omega, ?_⟩
      rintro (hm | rfl)
      · exact hnot hm
      · exact absurd hlt (lt_irrefl _)
    · cases he
  · rcases precedes_arrived hij with hij | ⟨rfl, ans, hans⟩
    · exact h.realTime i j hij
    · exact (h.responded i ans hans).1
  · rcases h.labelled_arrived hs hx with hx | ⟨rfl, hl⟩
    · exact h.fresh x l hx hu p hp
    · cases hl
      obtain ⟨r, hr, _⟩ := h.command p hp
      exact (List.getElem?_eq_some_iff.1 hr).1.ne
  · obtain ⟨r, hr, hcmd⟩ := h.command p hp
    exact ⟨r, hkeep hr, hcmd⟩

theorem Booked.labelled_restarted (h : Booked s) (ht : c.tasks = s.cluster.tasks.filter fun x => x.1 ≠ n) :
    (s.restarted n c).session.labelled = s.session.labelled.filter fun x => x.1.1 ≠ n := by
  have hfst : s.session.labelled.map Prod.fst = s.cluster.tasks := List.map_fst_zip h.owners.ge
  refine (List.zip_of_prod ?_ rfl).symm
  show _ = c.tasks
  rw [ht, ← hfst, List.filter_map]
  rfl

theorem Booked.restarted (h : Booked s) (ht : c.tasks = s.cluster.tasks.filter fun x => x.1 ≠ n) :
    Booked (s.restarted n c) := by
  have hlab := h.labelled_restarted ht
  have hsnd : s.session.labelled.map Prod.snd = s.owners := List.map_snd_zip h.owners.le
  have hsub : (s.restarted n c).handled.Sublist s.handled := by
    refine List.Sublist.filterMap _ ?_
    rw [← hsnd]
    exact List.filter_sublist.map _
  have hold : ∀ {x o}, (x, o) ∈ (s.restarted n c).session.labelled → (x, o) ∈ s.session.labelled := by
    intro x o hx
    rw [hlab] at hx
    exact (List.mem_filter.1 hx).1
  refine ⟨?_, hsub.nodup h.nodup, fun x k hx => h.handles x k (hold hx), fun x hx => h.unowned x (hold hx), h.invoked,
    fun k ans hans => ?_, h.realTime, fun x k hx => h.fresh x k (hold hx), h.command, h.attempts⟩
  · have hfst : s.session.labelled.map Prod.fst = s.cluster.tasks := List.map_fst_zip h.owners.ge
    show (List.map _ _).length = c.tasks.length
    rw [ht, ← hfst, List.filter_map, List.length_map, List.length_map]
    rfl
  · obtain ⟨hlt, hnot⟩ := h.responded k ans hans
    exact ⟨hlt, fun hm => hnot (hsub.subset hm)⟩

theorem Booked.start {cluster : Cluster} (ht : cluster.tasks = []) : Booked { cluster } := by
  have hno : ∀ x o, (x, o) ∈ Session.labelled (session { cluster }) → False := by
    intro x o hx
    have := (List.of_mem_zip hx).2
    cases this
  refine ⟨by rw [ht]; rfl, List.nodup_nil, fun x k hx => (hno x _ hx).elim, fun x hx => (hno x _ hx).elim,
    fun k req => ?_, fun k ans h => ?_, fun i j h => (not_precedes_nil h).elim, fun x k hx => (hno x _ hx).elim,
    fun p hp => ?_, List.Pairwise.nil⟩
  · constructor
    · intro h; cases h
    · rintro ⟨h, _⟩; cases h
  · cases h
  · cases hp

theorem step_cases {b : CallsAction} {s' : Calls} (h : s.step b = some s') :
    (∃ a c, b = .cluster a ∧ internal a = true ∧ s.cluster.step a = some c ∧ s' = s.after a c) ∨
      (∃ n req c, b = .call n req ∧ s.cluster.step (.client n req) = some c ∧ s' = s.arrived req c) ∨
      ∃ l n d c, b = .restart l ∧ s.cluster.restartDisk l = some (n, d) ∧ s.cluster.restartStep l = some c ∧
        s' = s.restarted n c := by
  cases b with
  | cluster a =>
    simp only [step] at h
    split at h
    · rename_i hi
      obtain ⟨c, hc, rfl⟩ := Option.map_eq_some_iff.1 h
      exact .inl ⟨a, c, rfl, hi, hc, rfl⟩
    · cases h
  | call n req =>
    obtain ⟨c, hc, rfl⟩ := Option.map_eq_some_iff.1 h
    exact .inr (.inl ⟨n, req, c, rfl, hc, rfl⟩)
  | restart l =>
    simp only [step] at h
    split at h
    · rename_i n d c hd hc
      cases h
      exact .inr (.inr ⟨l, n, d, c, rfl, hd, hc, rfl⟩)
    · cases h

end Calls

end Mimori
