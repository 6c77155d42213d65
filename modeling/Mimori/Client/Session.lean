/-
A client and one of its writes. `executeWithRetry` looks for the leader, calls it, and after any error looks and
calls again, up to `maxRetries` times. The server does not watch the context of a call: a handler whose client
has given up goes on. The session of one call is the cluster, the call, and for each goroutine of the cluster the
attempt it serves, if any; from this it records the entries proposed on behalf of the call.
-/
import Mimori.Cluster.Runs
import Mimori.Apply.Acknowledged

namespace Mimori

/-! ## The client -/

structure Client where
  seeds : List String
  /-- The cached leader, empty if unknown. -/
  leaderAddr : String := ""
  maxRetries : Int

/-- What an attempt can fail with. -/
inductive CallError
  /-- No leader was discovered and there is no further seed to try. -/
  | noLeader
  /-- The server refused (`isLeaderError`), with the address its hint leads to, if it gives one. -/
  | leader (hint : Option String)
  /-- Anything else: no connection, a deadline that passed, a connection that broke. -/
  | other
  deriving DecidableEq

/-- What the status requests of `getLeader` bring: whether the cached leader still leads, and for each seed the
address of the leader it names. -/
structure Lookup where
  verified : Bool := false
  found : List (Option String) := []

namespace Client

/-- The first seed that names a leader decides. -/
def discoverLeader (c : Client) (l : Lookup) : Client × Option String :=
  match (l.found.take c.seeds.length).findSome? fun answer => answer.filter (· ≠ "") with
  | some leader => ({ c with leaderAddr := leader }, some leader)
  | none => (c, none)

def getLeader (c : Client) (l : Lookup) : Client × Option String :=
  if c.leaderAddr ≠ "" ∧ l.verified then (c, some c.leaderAddr)
  else discoverLeader { c with leaderAddr := "" } l

/-- What a failed attempt makes of the cached leader. -/
def afterError (c : Client) : CallError → Client
  | .leader hint => { c with leaderAddr := hint.getD "" }
  | _ => c

end Client

/-! ## One call -/

/-- A write: `Client.Put` or `Client.Delete`. -/
inductive ClientWrite
  | put (key value : Bytes)
  | delete (key : Bytes)
  deriving DecidableEq

def ClientWrite.request : ClientWrite → ClientRequest
  | .put key value => .put key value
  | .delete key => .delete key

/-- `operation failed after %d retries: %w`. -/
structure CallFailure where
  retries : Int
  last : Option CallError
  deriving DecidableEq

/-- Where `executeWithRetry` stands. -/
inductive CallPhase
  /-- At the top of the loop. -/
  | loop
  /-- In `fn`, before the request has reached a server. -/
  | dialing (addr : String)
  /-- In `fn`, waiting for the answer. -/
  | awaiting (addr : String)
  /-- Returned, with the error if there is one. -/
  | returned (err : Option CallFailure)
  deriving DecidableEq

structure Call where
  client : Client
  write : ClientWrite
  attempt : Nat := 0
  lastErr : Option CallError := none
  phase : CallPhase := .loop

namespace Call

/-- The attempt has failed; sleep and go on. -/
def fail (c : Call) (e : CallError) : Call :=
  { c with client := c.client.afterError e, lastErr := some e, attempt := c.attempt + 1, phase := .loop }

/-- The loop up to the call of `fn`: the leader, or else the seed whose turn it is. -/
def executeWithRetry (c : Call) (l : Lookup) : Call :=
  if (c.attempt : Int) < c.client.maxRetries then
    let (client, leader) := c.client.getLeader l
    match leader <|> client.seeds[c.attempt]? with
    | some addr => { c with client := client, phase := .dialing addr }
    | none => fail { c with client := client } .noLeader
  else { c with phase := .returned (some ⟨c.client.maxRetries, c.lastErr⟩) }

end Call

/-! ## Sessions -/

/-- An entry that was proposed on behalf of the call. -/
structure Proposal where
  attempt : Nat
  node : NodeID
  entry : LogEntry
  deriving DecidableEq

structure Session where
  cluster : Cluster
  call : Call
  /-- The attempt that each goroutine of the cluster serves, if it serves one. -/
  owners : List (Option Nat) := []
  proposals : List Proposal := []
  /-- The attempts whose handler has returned without error. -/
  answered : List Nat := []

inductive SessionAction
  /-- A step of the cluster, or of another client. -/
  | cluster (a : Action)
  /-- The call goes through the top of the loop. -/
  | look (l : Lookup)
  /-- The request reaches node `n`, which any address may lead to. -/
  | send (n : NodeID)
  /-- The attempt returns with an error, whatever has become of the request. -/
  | fail (e : CallError)
  /-- The answer of the handler reaches the client. -/
  | ok

namespace Session

def start (cluster : Cluster) (client : Client) (write : ClientWrite) : Session :=
  { cluster := cluster, call := { client := client, write := write } }

/-- The attempt that goroutine `i` serves. -/
def ownerOf (s : Session) (i : Nat) : Option Nat := s.owners[i]?.join

/-- The owners of the goroutines that wait on while `a` is taken. -/
def ownersLeft (s : Session) : Action → List (Option Nat)
  | .run i _ _ => s.owners.eraseIdx i
  | _ => s.owners

/-- The attempt that the goroutines which `a` starts serve. -/
def heir (s : Session) : Action → Option Nat
  | .run i _ _ => s.ownerOf i
  | _ => none

/-- The owners of the goroutines after step `a` of the cluster to `c`. A panic takes the goroutines of its node. -/
def ownersAfter (s : Session) (a : Action) (c : Cluster) : List (Option Nat) :=
  if c.procs = s.cluster.procs then
    s.ownersLeft a ++ List.replicate (c.tasks.length - (s.ownersLeft a).length) (s.heir a)
  else
    (((s.cluster.bystanders a).zip (s.ownersLeft a)).filter fun x =>
      decide (x.1.1 ∈ c.procs ∨ x.1.1 ∉ s.cluster.procs)).map Prod.snd

/-- The entry that step `a` proposes on behalf of the call. -/
def proposes (s : Session) (a : Action) : Option Proposal :=
  match a with
  | .run i .go _ =>
    match s.cluster.tasks[i]?, s.ownerOf i with
    | some (n, .propose cmd), some k =>
      let r := s.cluster.raft n
      if r.state = .leader then some ⟨k, n, ⟨r.lastLogIndex + 1, r.term, cmd⟩⟩ else none
    | _, _ => none
  | _ => none

/-- The attempt whose handler returns in step `a`. -/
def answers (s : Session) (a : Action) : Option Nat :=
  match a with
  | .run i .go _ =>
    match s.cluster.tasks[i]? with
    | some (_, .waiting _ _ _) => s.ownerOf i
    | _ => none
  | _ => none

def step (s : Session) : SessionAction → Option Session
  | .cluster a =>
    match s.cluster.step a with
    | some c => some { s with
        cluster := c
        owners := s.ownersAfter a c
        proposals := s.proposals ++ (s.proposes a).toList
        answered := s.answered ++ (s.answers a).toList }
    | none => none
  | .look l =>
    match s.call.phase with
    | .loop => some { s with call := s.call.executeWithRetry l }
    | _ => none
  | .send n =>
    match s.call.phase, s.cluster.step (.client n s.call.write.request) with
    | .dialing addr, some c => some { s with
        cluster := c
        owners := s.owners ++ [some s.call.attempt]
        call := { s.call with phase := .awaiting addr } }
    | _, _ => none
  | .fail e =>
    match s.call.phase with
    | .dialing _ | .awaiting _ => some { s with call := s.call.fail e }
    | _ => none
  | .ok =>
    match s.call.phase with
    | .awaiting _ =>
      if s.call.attempt ∈ s.answered then some { s with call := { s.call with phase := .returned none } } else none
    | _ => none

/-! ## Whom a goroutine serves -/

theorem filter_zip_fst {α β : Type} {xs : List α} {ys : List β} (h : xs.length = ys.length) (p : α → Bool) :
    ((xs.zip ys).filter fun z => p z.1).map Prod.fst = xs.filter p :=
  calc ((xs.zip ys).filter fun z => p z.1).map Prod.fst
      = ((xs.zip ys).map Prod.fst).filter p := List.filter_map.symm
    _ = xs.filter p := by rw [List.map_fst_zip (Nat.le_of_eq h)]

/-- The goroutines with their owners. -/
def labelled (s : Session) : List ((NodeID × Task) × Option Nat) := s.cluster.tasks.zip s.owners

variable {s s' : Session} {a : Action} {c : Cluster}

theorem mem_labelled {i k : Nat} {x : NodeID × Task} (hx : s.cluster.tasks[i]? = some x) (hk : s.ownerOf i = some k) :
    (x, some k) ∈ s.labelled := by
  refine List.mem_of_getElem? (i := i) (List.getElem?_zip_eq_some.2 ⟨hx, ?_⟩)
  unfold ownerOf at hk
  cases ho : s.owners[i]? with
  | none => rw [ho] at hk; cases hk
  | some o => rw [ho] at hk; exact congrArg some hk

theorem ownersLeft_length (h : s.owners.length = s.cluster.tasks.length) (a : Action) :
    (s.cluster.bystanders a).length = (s.ownersLeft a).length := by
  cases a with
  | run i _ _ =>
    show (s.cluster.tasks.eraseIdx i).length = (s.owners.eraseIdx i).length
    rw [List.length_eraseIdx, List.length_eraseIdx, h]
  | _ => exact h.symm

/-- A goroutine that waits on keeps its owner. -/
theorem ownersLeft_mem {y : (NodeID × Task) × Option Nat} (h : y ∈ (s.cluster.bystanders a).zip (s.ownersLeft a)) :
    y ∈ s.labelled := by
  cases a with
  | run i _ _ =>
    obtain ⟨j, hj⟩ := List.mem_iff_getElem?.1 h
    obtain ⟨hx, ho⟩ := List.getElem?_zip_eq_some.1 hj
    simp only [Cluster.bystanders, ownersLeft, List.getElem?_eraseIdx] at hx ho
    split at hx
    · rename_i hlt
      rw [if_pos hlt] at ho
      exact List.mem_of_getElem? (List.getElem?_zip_eq_some.2 ⟨hx, ho⟩)
    · rename_i hlt
      rw [if_neg hlt] at ho
      exact List.mem_of_getElem? (List.getElem?_zip_eq_some.2 ⟨hx, ho⟩)
  | _ => exact h

/-- Every goroutine after a step waited on, or serves whom the one that started it served. -/
theorem ownersAfter_spec (h : s.owners.length = s.cluster.tasks.length) (hs : s.cluster.step a = some c) :
    (s.ownersAfter a c).length = c.tasks.length ∧
      ∀ n t o, ((n, t), o) ∈ c.tasks.zip (s.ownersAfter a c) →
        ((n, t), o) ∈ s.labelled ∨ (Cluster.NewTask s.cluster a n t ∧ o = s.heir a) := by
  have hlen := ownersLeft_length h a
  cases Cluster.step_tasksLeft hs with
  | spawn m new htasks hprocs hnew =>
    have hcount : c.tasks.length - (s.ownersLeft a).length = new.length := by
      rw [htasks, List.length_append, List.length_map, hlen]
      omega
    have hafter : s.ownersAfter a c = s.ownersLeft a ++ List.replicate new.length (s.heir a) := by
      unfold ownersAfter
      rw [if_pos hprocs, hcount]
    rw [hafter, htasks]
    refine ⟨by simp [hlen], fun n t o hx => ?_⟩
    rw [List.zip_append hlen, List.mem_append] at hx
    rcases hx with hx | hx
    · exact .inl (ownersLeft_mem hx)
    · obtain ⟨ht, ho⟩ := List.of_mem_zip hx
      obtain ⟨u, hu, he⟩ := List.mem_map.1 ht
      cases he
      exact .inr ⟨(hnew t hu).2, (List.mem_replicate.1 ho).2⟩
  | panic i ch io m t ha hx hm hc =>
    subst ha hc
    have hne : ((s.cluster.dropTask i).crash m).procs ≠ s.cluster.procs := by
      intro he
      have := he ▸ hm
      simp at this
    have hgone : ∀ y : (NodeID × Task) × Option Nat,
        decide (y.1.1 ∈ ((s.cluster.dropTask i).crash m).procs ∨ y.1.1 ∉ s.cluster.procs) = decide (y.1.1 ≠ m) := by
      intro y
      rw [decide_eq_decide, Cluster.crash_procs, Cluster.dropTask_procs, List.mem_filter, decide_eq_true_eq]
      constructor
      · rintro (⟨_, hy⟩ | hy) rfl
        · exact hy rfl
        · exact hy hm
      · intro hy
        by_cases hp : y.1.1 ∈ s.cluster.procs
        · exact .inl ⟨hp, hy⟩
        · exact .inr hp
    have hfst : (((s.cluster.bystanders (.run i ch io)).zip (s.ownersLeft (.run i ch io))).filter fun x =>
        decide (x.1.1 ≠ m)).map Prod.fst = ((s.cluster.dropTask i).crash m).tasks :=
      filter_zip_fst hlen fun x => decide (x.1 ≠ m)
    have hafter : s.ownersAfter (.run i ch io) ((s.cluster.dropTask i).crash m) =
        (((s.cluster.bystanders (.run i ch io)).zip (s.ownersLeft (.run i ch io))).filter fun x =>
          decide (x.1.1 ≠ m)).map Prod.snd := by
      unfold ownersAfter
      rw [if_neg hne]
      simp only [hgone]
    rw [hafter, ← hfst]
    refine ⟨by simp only [List.length_map], fun n t o hy => ?_⟩
    rw [← List.zip_of_prod rfl rfl, List.mem_filter] at hy
    exact .inl (ownersLeft_mem hy.1)

theorem proposes_of {i k : Nat} {io : Io} {n : NodeID} {cmd : Command}
    (hx : s.cluster.tasks[i]? = some (n, .propose cmd)) (ho : s.ownerOf i = some k)
    (hl : (s.cluster.raft n).state = .leader) :
    s.proposes (.run i .go io) =
      some ⟨k, n, ⟨(s.cluster.raft n).lastLogIndex + 1, (s.cluster.raft n).term, cmd⟩⟩ := by
  simp only [proposes, hx, ho]
  exact if_pos hl

/-- Every goroutine that waits for a write has an entry of its attempt among `ps`, which its node holds or has taken. -/
def Holds (s : Session) (ps : List Proposal) : Prop :=
  ∀ n t k i cmd, ((n, t), some k) ∈ s.labelled → Cluster.pendingOf t = some (i, cmd) →
    ∃ p ∈ ps, p.attempt = k ∧ p.node = n ∧ p.entry.index = i ∧ s.cluster.Retains n p.entry

/-- The entry of an attempt that waits stays with its node. -/
theorem Holds.kept {ps : List Proposal} {n : NodeID} {t : Task} {k : Nat} {i : Int} {cmd : Command} (h : s.Holds ps)
    (hw : Cluster.PendingInv s.cluster) (hok : s.cluster.writesKept a = true) (hs : s.cluster.step a = some c)
    (ht : ((n, t), some k) ∈ s.labelled) (hp : Cluster.pendingOf t = some (i, cmd)) :
    ∃ p ∈ ps, p.attempt = k ∧ p.node = n ∧ p.entry.index = i ∧ c.Retains n p.entry := by
  obtain ⟨p, hmem, hk, hn, rfl, hr⟩ := h n t k i cmd ht hp
  exact ⟨p, hmem, hk, hn, rfl, hw.retainsKept hok hs (List.of_mem_zip ht).1 hp hr⟩

/-- After a step of the cluster a goroutine still has its entry, or has just proposed it. -/
theorem Holds.step {ps : List Proposal} (h : s.Holds ps) (hown : s.owners.length = s.cluster.tasks.length)
    (hw : Cluster.PendingInv s.cluster) (hok : s.cluster.writesKept a = true) (hs : s.cluster.step a = some c) :
    Holds { s with cluster := c, owners := s.ownersAfter a c } (ps ++ (s.proposes a).toList) := by
  intro n t k i cmd ht hp
  rcases (ownersAfter_spec hown hs).2 n t _ ht with ht | ⟨hnew, ho⟩
  · obtain ⟨p, hmem, hrest⟩ := h.kept hw hok hs ht hp
    exact ⟨p, List.mem_append_left _ hmem, hrest⟩
  · rcases hnew.pending hp with ⟨j, io, rfl, hx, hl, rfl, _⟩ | ⟨j, io, rfl, hx, _⟩
    · rw [proposes_of hx ho.symm hl]
      exact ⟨_, List.mem_append_right _ (List.mem_singleton_self _), rfl, rfl, rfl, hw.proposedRetained hs hx hl⟩
    · obtain ⟨p, hmem, hrest⟩ := h.kept hw hok hs (mem_labelled hx ho.symm) rfl
      exact ⟨p, List.mem_append_left _ hmem, hrest⟩

/-! ## Steps -/

/-- What one step of a session can do: a step of the cluster, a request that arrives, or a step of the call alone,
which returns without error only when the attempt was answered. -/
inductive Moves (s : Session) : SessionAction → Session → Prop
  | cluster (a : Action) (c : Cluster) (h : s.cluster.step a = some c) :
      Moves s (.cluster a) { s with
        cluster := c
        owners := s.ownersAfter a c
        proposals := s.proposals ++ (s.proposes a).toList
        answered := s.answered ++ (s.answers a).toList }
  | send (n : NodeID) (addr : String) (c : Cluster) (h : s.cluster.step (.client n s.call.write.request) = some c) :
      Moves s (.send n) { s with
        cluster := c
        owners := s.owners ++ [some s.call.attempt]
        call := { s.call with phase := .awaiting addr } }
  | call (b : SessionAction) (c : Call) (h : c.phase = .returned none → c.attempt ∈ s.answered) :
      Moves s b { s with call := c }

end Session

theorem Call.executeWithRetry_phase (c : Call) (l : Lookup) : (c.executeWithRetry l).phase ≠ .returned none := by
  unfold Call.executeWithRetry
  split
  · dsimp only
    split
    · intro h; cases h
    · intro h; cases h
  · intro h; cases h

namespace Session

variable {s s' : Session}

theorem step_moves {b : SessionAction} (h : s.step b = some s') : Moves s b s' := by
  cases b with
  | cluster a =>
    simp only [step] at h
    split at h
    · rename_i c hc; cases h; exact .cluster a c hc
    · cases h
  | look l =>
    simp only [step] at h
    split at h
    · cases h
      exact .call _ _ fun hp => absurd hp (Call.executeWithRetry_phase _ l)
    · cases h
  | send n =>
    simp only [step] at h
    split at h
    · rename_i addr c _ hc; cases h; exact .send n addr c hc
    · cases h
  | fail e =>
    simp only [step] at h
    split at h
    · cases h; exact .call _ _ fun hp => by cases hp
    · cases h; exact .call _ _ fun hp => by cases hp
    · cases h
  | ok =>
    simp only [step] at h
    split at h
    · split at h
      · rename_i hm; cases h; exact .call _ _ fun _ => hm
      · cases h
    · cases h

end Session

/-- The sessions of a call on a cluster with one membership: any client, any write. -/
def Members.sessions (M : Members) : Machine Session SessionAction where
  init s := ∃ cluster client write, M.machine.init cluster ∧ s = .start cluster client write
  step := Session.step

end Mimori
