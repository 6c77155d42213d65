/-
`executeWithRetry` of the client library (`client/client.go`) and of `mimorictl` (`cmd/mimorictl/client.go`). It is one
loop over two clients, which differ in whom they ask for the leader and in the address they make of a leader's id. An
attempt looks for the leader or else takes the initial address whose turn it is, calls, and sleeps after an error:
longer from attempt to attempt, in steps when the leader is not known or has moved, exponentially otherwise.
-/
import Mimori.Api.Refusals
import Mimori.Api.Addresses
import Mimori.Client.Session
import Mimori.Base.Word

namespace Mimori

open Strings Utf8

/-! ## Delays -/

/-- `time.Duration`, in nanoseconds. -/
abbrev Duration := Int64

namespace Duration

def millisecond : Duration := 1000000

def second : Duration := 1000000000

end Duration

/-- Why the loop sleeps. -/
inductive Pause
  /-- No leader was found and there is no further initial address. -/
  | noLeader
  /-- The server refused for lack of leadership. -/
  | leaderError
  | otherError
  deriving DecidableEq

/-- `time.Duration(1<<uint(attempt)) * 100 * time.Millisecond`. -/
def uncapped (attempt : Nat) : Duration := Int64.shl 1 attempt * 100 * Duration.millisecond

def backoff (attempt : Nat) : Duration :=
  if uncapped attempt > 2 * Duration.second then 2 * Duration.second else uncapped attempt

/-- How long the loop sleeps after attempt number `attempt`. -/
def delayAfter (attempt : Nat) : Pause → Duration
  | .noLeader => Int64.ofNat (attempt + 1) * 100 * Duration.millisecond
  | .leaderError => Int64.ofNat (attempt + 1) * 50 * Duration.millisecond
  | .otherError => backoff attempt

/-! ## The loop -/

/-- What the network answers in one attempt: whether the cached leader still leads, what each address that is asked
for the leader says, and what `fn` returns if it is called. -/
structure Attempt where
  verified : Bool := false
  found : List (Option Bytes) := []
  err : Option GoError := none

/-- The first answer that names a leader. -/
def firstLeader (found : List (Option Bytes)) : Option Bytes := found.findSome? fun answer => answer.filter (· ≠ [])

inductive RetryEvent
  /-- `fn` is called. -/
  | call (addr : Bytes)
  | sleep (attempt : Nat) (why : Pause) (delay : Duration)
  deriving DecidableEq

/-- `operation failed after %d retries: %w`. -/
structure GaveUp where
  retries : Int64
  last : Option GoError
  deriving DecidableEq

/-- What the two clients have of their own: the clients themselves and the functions that the loop calls. -/
structure Retrier (γ : Type) where
  getLeader : γ → Attempt → γ × Except GoError Bytes
  /-- The initial addresses. -/
  addrs : γ → List Bytes
  setLeaderAddr : γ → Bytes → γ
  isLeaderError : Option GoError → Bool
  extractLeaderHint : Option GoError → Bytes × Bool
  normalizeLeaderAddr : Bytes → Bytes → Bytes

/-- One pass of the loop: the client after it, the address that was called, and the error with which it goes on. -/
structure Turn (γ : Type) where
  client : γ
  called : Option Bytes
  failed : Option (GoError × Pause)

def Turn.events {γ : Type} (t : Turn γ) (attempt : Nat) : List RetryEvent :=
  t.called.toList.map .call ++ t.failed.toList.map fun e => .sleep attempt e.2 (delayAfter attempt e.2)

/-- How far a call of `executeWithRetry` has come. -/
structure Execution (γ : Type) where
  client : γ
  events : List RetryEvent
  /-- What it has returned, if it has. -/
  returned : Option (Option GaveUp)

namespace Retrier

variable {γ : Type} (R : Retrier γ)

/-- The leader, or else the initial address whose turn it is. -/
def target (attempt : Nat) (c : γ) : Except GoError Bytes → Except GoError Bytes
  | .ok leaderAddr => .ok leaderAddr
  | .error err =>
    match (R.addrs c)[attempt]? with
    | some addr => .ok addr
    | none => .error err

/-- What a leader error makes of the cached leader. -/
def redirect (c : γ) (leaderAddr : Bytes) (err : GoError) : γ :=
  match R.extractLeaderHint (some err) with
  | (hinted, true) =>
    -- the first initial address is the base, so that the names of the Docker network are mapped
    let baseAddr := (R.addrs c).head?.getD leaderAddr
    R.setLeaderAddr c (R.normalizeLeaderAddr baseAddr hinted)
  | (_, false) => R.setLeaderAddr c []

def turn (attempt : Nat) (c : γ) (a : Attempt) : Turn γ :=
  let (c, leader) := R.getLeader c a
  match R.target attempt c leader with
  | .error err => ⟨c, none, some (err, .noLeader)⟩
  | .ok addr =>
    match a.err with
    | none => ⟨c, some addr, none⟩
    | some err =>
      if R.isLeaderError (some err) then ⟨R.redirect c addr err, some addr, some (err, .leaderError)⟩
      else ⟨c, some addr, some (err, .otherError)⟩

/-- The loop from attempt number `attempt` on, as far as the network has answered. -/
def loop (maxRetries : Int64) (answers : List Attempt) (attempt : Nat) (c : γ) (lastErr : Option GoError) :
    Execution γ :=
  if (attempt : Int) < maxRetries.toInt then
    match answers with
    | [] => ⟨c, [], none⟩
    | a :: answers =>
      let t := R.turn attempt c a
      match t.failed with
      | none => ⟨t.client, t.events attempt, some none⟩
      | some (err, _) =>
        let rest := loop maxRetries answers (attempt + 1) t.client (some err)
        { rest with events := t.events attempt ++ rest.events }
  else ⟨c, [], some (some ⟨maxRetries, lastErr⟩)⟩

end Retrier

/-! ## The client library -/

namespace Library

structure Client where
  seeds : List Bytes
  /-- The cached leader, empty if unknown. -/
  leaderAddr : Bytes := []
  connTimeout : Duration
  reqTimeout : Duration
  maxRetries : Int64

structure Config where
  seeds : List Bytes
  connTimeout : Duration := 0
  reqTimeout : Duration := 0
  maxRetries : Int64 := 0

def newWithConfig (cfg : Config) : Except Bytes Client :=
  if cfg.seeds.length = 0 then .error (utf8 "at least one seed address is required")
  else .ok {
    seeds := cfg.seeds
    connTimeout := if cfg.connTimeout = 0 then 3 * Duration.second else cfg.connTimeout
    reqTimeout := if cfg.reqTimeout = 0 then 5 * Duration.second else cfg.reqTimeout
    maxRetries := if cfg.maxRetries = 0 then 3 else cfg.maxRetries }

/-- The seeds are asked one after the other. -/
def discoverLeader (c : Client) (a : Attempt) : Client × Except GoError Bytes :=
  match firstLeader (a.found.take c.seeds.length) with
  | some leader => ({ c with leaderAddr := leader }, .ok leader)
  | none => (c, .error (.other (utf8 "could not discover leader from any seed")))

def getLeader (c : Client) (a : Attempt) : Client × Except GoError Bytes :=
  if c.leaderAddr ≠ [] ∧ a.verified then (c, .ok c.leaderAddr)
  else discoverLeader { c with leaderAddr := [] } a

def retrier (lower : Bytes → Bytes) : Retrier Client where
  getLeader := getLeader
  addrs := Client.seeds
  setLeaderAddr c addr := { c with leaderAddr := addr }
  isLeaderError := isLeaderError lower
  extractLeaderHint := extractLeaderHint
  normalizeLeaderAddr := normalizeLeaderAddr

def executeWithRetry (lower : Bytes → Bytes) (c : Client) (answers : List Attempt) : Execution Client :=
  (retrier lower).loop c.maxRetries answers 0 c none

end Library

/-! ## mimorictl -/

namespace Mimorictl

structure ClientManager where
  initialAddrs : List Bytes
  /-- The cached leader, empty if unknown. -/
  leaderAddr : Bytes := []
  connTimeout : Duration := 3 * Duration.second
  reqTimeout : Duration := 3 * Duration.second

def splitAddrList (addrList : Bytes) : List Bytes := ((addrList.splitOn 44).map trimSpace).filter (· ≠ [])

def newClientManager (initialAddr : Bytes) : ClientManager :=
  let initialAddrs := splitAddrList initialAddr
  { initialAddrs := if initialAddrs.length = 0 then [initialAddr] else initialAddrs }

/-- The initial addresses are asked, and then those of the connections in the pool. -/
def discoverLeader (cm : ClientManager) (a : Attempt) : ClientManager × Except GoError Bytes :=
  if cm.leaderAddr ≠ [] ∧ a.verified then (cm, .ok cm.leaderAddr)
  else
    let cm := { cm with leaderAddr := [] }
    match firstLeader a.found with
    | some leader => ({ cm with leaderAddr := leader }, .ok leader)
    | none => (cm, .error (.other (utf8 "could not discover leader from any node")))

def getLeader (cm : ClientManager) (a : Attempt) : ClientManager × Except GoError Bytes :=
  if cm.leaderAddr ≠ [] ∧ a.verified then (cm, .ok cm.leaderAddr)
  else discoverLeader { cm with leaderAddr := [] } a

def retrier (lower : Bytes → Bytes) : Retrier ClientManager where
  getLeader := getLeader
  addrs := ClientManager.initialAddrs
  setLeaderAddr cm addr := { cm with leaderAddr := addr }
  isLeaderError := isLeaderError lower
  extractLeaderHint := extractLeaderHint
  normalizeLeaderAddr := normalizeLeaderAddr

def executeWithRetry (lower : Bytes → Bytes) (cm : ClientManager) (maxRetries : Int64) (answers : List Attempt) :
    Execution ClientManager :=
  (retrier lower).loop maxRetries answers 0 cm none

end Mimorictl

/-! ## Runs of the loop -/

namespace Retrier

variable {γ : Type} {R : Retrier γ} {maxRetries : Int64} {n k : Nat} {why : Pause} {d : Duration}

/-- The ways a turn goes. -/
inductive TurnOutcome (R : Retrier γ) (attempt : Nat) (c : γ) (a : Attempt) : Turn γ → Prop
  | noLeader (err : GoError) (ht : R.target attempt (R.getLeader c a).1 (R.getLeader c a).2 = .error err) :
      TurnOutcome R attempt c a ⟨(R.getLeader c a).1, none, some (err, .noLeader)⟩
  | done (addr : Bytes) (ht : R.target attempt (R.getLeader c a).1 (R.getLeader c a).2 = .ok addr)
      (he : a.err = none) : TurnOutcome R attempt c a ⟨(R.getLeader c a).1, some addr, none⟩
  | leaderError (addr : Bytes) (err : GoError)
      (ht : R.target attempt (R.getLeader c a).1 (R.getLeader c a).2 = .ok addr) (he : a.err = some err)
      (hl : R.isLeaderError (some err) = true) :
      TurnOutcome R attempt c a ⟨R.redirect (R.getLeader c a).1 addr err, some addr, some (err, .leaderError)⟩
  | otherError (addr : Bytes) (err : GoError)
      (ht : R.target attempt (R.getLeader c a).1 (R.getLeader c a).2 = .ok addr) (he : a.err = some err)
      (hl : R.isLeaderError (some err) = false) :
      TurnOutcome R attempt c a ⟨(R.getLeader c a).1, some addr, some (err, .otherError)⟩

theorem turn_outcome (R : Retrier γ) (attempt : Nat) (c : γ) (a : Attempt) :
    TurnOutcome R attempt c a (R.turn attempt c a) := by
  unfold turn
  dsimp only
  split
  · rename_i err ht
    exact .noLeader err ht
  · rename_i addr ht
    split
    · rename_i he
      exact .done addr ht he
    · rename_i err he
      split
      · rename_i hl
        exact .leaderError addr err ht he hl
      · rename_i hl
        exact .otherError addr err ht he (by simpa using hl)

theorem mem_events {t : Turn γ} (h : RetryEvent.sleep n why d ∈ t.events k) : n = k ∧ d = delayAfter n why := by
  unfold Turn.events at h
  rcases List.mem_append.1 h with h | h
  · obtain ⟨_, _, hc⟩ := List.mem_map.1 h
    cases hc
  · obtain ⟨_, _, hc⟩ := List.mem_map.1 h
    cases hc
    exact ⟨rfl, rfl⟩

/-- Every sleep of the loop belongs to one of its attempts and has the length of that attempt. -/
theorem loop_sleep {answers : List Attempt} {c : γ} {lastErr : Option GoError}
    (h : RetryEvent.sleep n why d ∈ (R.loop maxRetries answers k c lastErr).events) :
    k ≤ n ∧ (n : Int) < maxRetries.toInt ∧ d = delayAfter n why := by
  induction answers generalizing k c lastErr with
  | nil =>
    unfold loop at h
    split at h <;> cases h
  | cons a answers ih =>
    unfold loop at h
    split at h
    · rename_i hk
      dsimp only at h
      split at h
      · obtain ⟨rfl, rfl⟩ := mem_events h
        exact ⟨le_rfl, hk, rfl⟩
      · rcases List.mem_append.1 h with h | h
        · obtain ⟨rfl, rfl⟩ := mem_events h
          exact ⟨le_rfl, hk, rfl⟩
        · obtain ⟨hle, hlt, hd⟩ := ih h
          exact ⟨by omega, hlt, hd⟩
    · cases h

/-- A network that makes every attempt fail the same way takes the loop to each of its attempts. -/
theorem loop_reaches {P : γ → Prop} {a : Attempt}
    (ha : ∀ k c, P c → P (R.turn k c a).client ∧ ∃ err, (R.turn k c a).failed = some (err, why)) :
    ∀ (j k : Nat) (c : γ) (lastErr : Option GoError), P c → ((k + j : Nat) : Int) < maxRetries.toInt →
      RetryEvent.sleep (k + j) why (delayAfter (k + j) why) ∈
        (R.loop maxRetries (List.replicate (j + 1) a) k c lastErr).events
  | 0, k, c, lastErr, hc, hk => by
    obtain ⟨_, err, hf⟩ := ha k c hc
    rw [Nat.add_zero] at hk
    rw [List.replicate_succ, loop, if_pos hk]
    simp [hf, Turn.events]
  | j + 1, k, c, lastErr, hc, hk => by
    obtain ⟨hP, err, hf⟩ := ha k c hc
    have hnext := loop_reaches ha j (k + 1) _ (some err) hP (by push_cast at hk ⊢; omega)
    rw [List.replicate_succ, loop, if_pos (by push_cast at hk; omega)]
    simp only [hf]
    rw [show k + (j + 1) = k + 1 + j by omega]
    exact List.mem_append_right _ hnext

theorem loop_exhausted (R : Retrier γ) (h : ¬ (k : Int) < maxRetries.toInt) (answers : List Attempt) (c : γ)
    (lastErr : Option GoError) :
    R.loop maxRetries answers k c lastErr = ⟨c, [], some (some ⟨maxRetries, lastErr⟩)⟩ := by
  rw [loop.eq_def, if_neg h]

end Retrier

/-! ## The call of a session -/

section View

variable (name : Bytes → String)
variable {c : Library.Client} {M : Members} {s : Session}

/-- A client of the library as a session sees it, with the names of its addresses. -/
def Library.Client.view (c : Library.Client) : Mimori.Client where
  seeds := c.seeds.map name
  leaderAddr := name c.leaderAddr
  maxRetries := c.maxRetries.toInt

def Attempt.view (a : Attempt) : Lookup where
  verified := a.verified
  found := a.found.map (Option.map name)

/-- The error of a turn as a session sees it. -/
def Turn.callError (t : Turn Library.Client) : Pause → CallError
  | .noLeader => .noLeader
  | .leaderError => .leader (some (name t.client.leaderAddr))
  | .otherError => .other

/-- The call of a session has come as far as the loop; a call that succeeds is left where its request is sent. -/
def Execution.Matches (e : Execution Library.Client) (call : Call) : Prop :=
  call.client = e.client.view name ∧
    match e.returned with
    | none => call.phase = .loop
    | some none => ∃ addr, call.phase = .dialing addr
    | some (some g) => ∃ err, call.phase = .returned (some ⟨g.retries.toInt, err⟩)

/-- A pass of the loop as a session takes it: the top of the loop, and the error if `fn` is called and fails. -/
def Call.pass (call : Call) (l : Lookup) (err : CallError) : Call :=
  match (call.executeWithRetry l).phase with
  | .dialing _ => (call.executeWithRetry l).fail err
  | _ => call.executeWithRetry l

theorem target_view (lower : Bytes → Bytes) (attempt : Nat) (c : Library.Client) (leader : Except GoError Bytes) :
    (leader.toOption.map name <|> (c.view name).seeds[attempt]?) =
      ((Library.retrier lower).target attempt c leader).toOption.map name := by
  cases leader with
  | ok addr => rfl
  | error err =>
    have hseed : (c.view name).seeds[attempt]? = c.seeds[attempt]?.map name := List.getElem?_map
    have htarget : (Library.retrier lower).target attempt c (.error err) =
        match c.seeds[attempt]? with
        | some addr => .ok addr
        | none => .error err := rfl
    rw [hseed, htarget]
    cases c.seeds[attempt]? <;> rfl

variable {name} (hname : ∀ b, name b = "" ↔ b = [])
include hname

theorem firstLeader_view (found : List (Option Bytes)) :
    ((found.map (Option.map name)).findSome? fun answer => answer.filter (· ≠ "")) =
      (firstLeader found).map name := by
  rw [List.findSome?_map, firstLeader, List.map_findSome?]
  congr 1
  funext answer
  cases answer with
  | none => rfl
  | some b =>
    by_cases hb : b = []
    · simp [Option.filter, hb, (hname []).2 rfl]
    · have hne : name b ≠ "" := mt (hname b).1 hb
      simp [Option.filter, hb, hne]

theorem discoverLeader_view (c : Library.Client) (a : Attempt) :
    (c.view name).discoverLeader (a.view name) =
      ((Library.discoverLeader c a).1.view name, (Library.discoverLeader c a).2.toOption.map name) := by
  have hfound : (((a.view name).found.take (c.view name).seeds.length).findSome? fun answer =>
      answer.filter (· ≠ "")) = (firstLeader (a.found.take c.seeds.length)).map name := by
    rw [← firstLeader_view hname, List.map_take]
    simp only [Attempt.view, Library.Client.view, List.length_map]
  unfold Mimori.Client.discoverLeader Library.discoverLeader
  rw [hfound]
  cases firstLeader (a.found.take c.seeds.length) <;> rfl

theorem getLeader_view (c : Library.Client) (a : Attempt) :
    (c.view name).getLeader (a.view name) =
      ((Library.getLeader c a).1.view name, (Library.getLeader c a).2.toOption.map name) := by
  have hcached : ((c.view name).leaderAddr ≠ "" ∧ (a.view name).verified) ↔ (c.leaderAddr ≠ [] ∧ a.verified) :=
    and_congr_left' (not_congr (hname c.leaderAddr))
  have hcleared : { c.view name with leaderAddr := "" } = ({ c with leaderAddr := [] } : Library.Client).view name := by
    simp only [Library.Client.view, (hname []).2 rfl]
  unfold Mimori.Client.getLeader Library.getLeader
  by_cases h : c.leaderAddr ≠ [] ∧ a.verified
  · rw [if_pos (hcached.2 h), if_pos h]
    rfl
  · rw [if_neg (mt hcached.1 h), if_neg h, hcleared, discoverLeader_view hname]

/-- The top of the loop, where an address is called and where none is left. -/
theorem executeWithRetry_view (lower : Bytes → Bytes) {call : Call} (a : Attempt) (hc : call.client = c.view name)
    (hn : (call.attempt : Int) < c.maxRetries.toInt) : let R := Library.retrier lower
    call.executeWithRetry (a.view name) =
      match R.target call.attempt (R.getLeader c a).1 (R.getLeader c a).2 with
      | .ok addr => { call with client := (R.getLeader c a).1.view name, phase := .dialing (name addr) }
      | .error _ => Call.fail { call with client := (R.getLeader c a).1.view name } .noLeader := by
  intro R
  have hlt : (call.attempt : Int) < call.client.maxRetries := by rw [hc]; exact hn
  have hleader : (c.view name).getLeader (a.view name) =
      ((R.getLeader c a).1.view name, (R.getLeader c a).2.toOption.map name) := getLeader_view hname c a
  rw [Call.executeWithRetry, if_pos hlt, hc, hleader]
  simp only
  rw [target_view name lower]
  cases R.target call.attempt (R.getLeader c a).1 (R.getLeader c a).2 <;> rfl

/-- The call of a session is the loop: a turn that fails is a pass of the session's call, and one that does not leaves
the session's call with the address that was called. -/
theorem turn_view (lower : Bytes → Bytes) {call : Call} {a : Attempt} {t : Turn Library.Client}
    (hc : call.client = c.view name) (hn : (call.attempt : Int) < c.maxRetries.toInt)
    (ht : (Library.retrier lower).turn call.attempt c a = t) :
    (∀ err why, t.failed = some (err, why) →
      call.pass (a.view name) (t.callError name why) = { call with
        client := t.client.view name
        lastErr := some (t.callError name why)
        attempt := call.attempt + 1
        phase := .loop }) ∧
      (t.failed = none → ∃ addr, t.called = some addr ∧
        call.executeWithRetry (a.view name) = { call with
          client := t.client.view name
          phase := .dialing (name addr) }) := by
  have htop := executeWithRetry_view hname lower a hc hn
  dsimp only at htop
  have ho := Retrier.turn_outcome (Library.retrier lower) call.attempt c a
  rw [ht] at ho
  cases ho with
  | noLeader err htarget =>
    rw [htarget] at htop
    refine ⟨fun _ _ hf => ?_, fun hf => by cases hf⟩
    cases hf
    rw [Call.pass, htop]
    rfl
  | done addr htarget =>
    rw [htarget] at htop
    exact ⟨fun _ _ hf => (nomatch hf), fun _ => ⟨addr, rfl, htop⟩⟩
  | leaderError addr err htarget =>
    rw [htarget] at htop
    refine ⟨fun _ _ hf => ?_, fun hf => by cases hf⟩
    cases hf
    rw [Call.pass, htop]
    -- a redirect sets the cached leader and nothing else
    simp only [Call.fail, Client.afterError, Turn.callError, Option.getD_some, Retrier.redirect]
    split <;> rfl
  | otherError addr err htarget =>
    rw [htarget] at htop
    refine ⟨fun _ _ hf => ?_, fun hf => by cases hf⟩
    cases hf
    rw [Call.pass, htop]
    rfl

omit hname in
theorem run_look {h : List (Session × SessionAction)} (hr : M.sessions.Run (fun _ _ => True) h s)
    (hs : s.call.phase = .loop) (l : Lookup) :
    M.sessions.Run (fun _ _ => True) ((s, .look l) :: h) { s with call := s.call.executeWithRetry l } := by
  refine hr.next trivial ?_
  simp only [Members.sessions, Session.step, hs]

omit hname in
theorem run_pass {h : List (Session × SessionAction)} (hr : M.sessions.Run (fun _ _ => True) h s)
    (hs : s.call.phase = .loop) (l : Lookup) (err : CallError) :
    ∃ h', M.sessions.Run (fun _ _ => True) (h' ++ h) { s with call := s.call.pass l err } := by
  have hlook := run_look hr hs l
  unfold Call.pass
  split
  · rename_i addr hdial
    have hfail : M.sessions.step { s with call := s.call.executeWithRetry l } (.fail err) =
        some { s with call := (s.call.executeWithRetry l).fail err } := by
      simp only [Members.sessions, Session.step, hdial]
    exact ⟨[(_, .fail err), (_, .look l)], hlook.next trivial hfail⟩
  · exact ⟨[(_, .look l)], hlook⟩

omit hname in
theorem turn_maxRetries (lower : Bytes → Bytes) (attempt : Nat) (c : Library.Client) (a : Attempt) :
    ((Library.retrier lower).turn attempt c a).client.maxRetries = c.maxRetries := by
  have hleader : ((Library.retrier lower).getLeader c a).1.maxRetries = c.maxRetries := by
    show (Library.getLeader c a).1.maxRetries = c.maxRetries
    unfold Library.getLeader Library.discoverLeader
    split
    · rfl
    · split <;> rfl
  have ho := Retrier.turn_outcome (Library.retrier lower) attempt c a
  generalize (Library.retrier lower).turn attempt c a = t at ho ⊢
  cases ho with
  | leaderError addr err =>
    rw [← hleader]
    simp only [Retrier.redirect]
    split <;> rfl
  | _ => exact hleader

omit hname in
theorem exhausted_view (lower : Bytes → Bytes) {h : List (Session × SessionAction)} {lastErr : Option GoError}
    (hr : M.sessions.Run (fun _ _ => True) h s) (hs : s.call.phase = .loop) (hc : s.call.client = c.view name)
    (hn : ¬ (s.call.attempt : Int) < c.maxRetries.toInt) (answers : List Attempt) :
    ∃ h' s', M.sessions.Run (fun _ _ => True) (h' ++ h) s' ∧
      ((Library.retrier lower).loop c.maxRetries answers s.call.attempt c lastErr).Matches name s'.call := by
  have hgives : s.call.executeWithRetry {} =
      { s.call with phase := .returned (some ⟨s.call.client.maxRetries, s.call.lastErr⟩) } := by
    rw [Call.executeWithRetry, if_neg (by rw [hc]; exact hn)]
  refine ⟨[_], _, run_look hr hs {}, ?_⟩
  rw [Retrier.loop_exhausted _ hn, hgives, hc]
  exact ⟨hc, _, rfl⟩

/-- What the loop does a session can do. -/
theorem loop_view (lower : Bytes → Bytes) {maxRetries : Int64} {answers : List Attempt} :
    ∀ {h : List (Session × SessionAction)} {s : Session} {c : Library.Client} {lastErr : Option GoError},
      M.sessions.Run (fun _ _ => True) h s → s.call.phase = .loop → s.call.client = c.view name →
      c.maxRetries = maxRetries →
      ∃ h' s', M.sessions.Run (fun _ _ => True) (h' ++ h) s' ∧
        ((Library.retrier lower).loop maxRetries answers s.call.attempt c lastErr).Matches name s'.call := by
  induction answers with
  | nil =>
    rintro h s c lastErr hr hs hc rfl
    by_cases hn : (s.call.attempt : Int) < c.maxRetries.toInt
    · refine ⟨[], s, hr, ?_⟩
      rw [Retrier.loop, if_pos hn]
      exact ⟨hc, hs⟩
    · exact exhausted_view lower hr hs hc hn []
  | cons a answers ih =>
    rintro h s c lastErr hr hs hc rfl
    by_cases hn : (s.call.attempt : Int) < c.maxRetries.toInt
    · obtain ⟨hfailed, hdone⟩ := turn_view hname lower hc hn (a := a) rfl
      have hkept := turn_maxRetries lower s.call.attempt c a
      rw [Retrier.loop, if_pos hn]
      dsimp only
      generalize (Library.retrier lower).turn s.call.attempt c a = t at hfailed hdone hkept ⊢
      split
      · rename_i hf
        obtain ⟨addr, _, htop⟩ := hdone hf
        refine ⟨[_], _, run_look hr hs (a.view name), ?_⟩
        rw [htop]
        exact ⟨rfl, name addr, rfl⟩
      · rename_i err why hf
        obtain ⟨h₁, hpass⟩ := run_pass hr hs (a.view name) (t.callError name why)
        rw [hfailed err why hf] at hpass
        obtain ⟨h₂, s', hr', hmatch⟩ := @ih _ _ _ (some err) hpass rfl rfl hkept
        exact ⟨h₂ ++ h₁, s', by rw [List.append_assoc]; exact hr', hmatch⟩
    · exact exhausted_view lower hr hs hc hn _

end View

end Mimori
