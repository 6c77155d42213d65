/-
How a server refuses a call for lack of leadership (`internal/api/server.go`), and what the two clients make of
the refusal: `isLeaderError` and `extractLeaderHint` of `client/client.go` and of `cmd/mimorictl/client.go`. The
id of the leader travels inside the message and is cut out of it again; only the message of a strong Get, which
goes on after the id, spoils it, when there is no id. A refusal that `Propose` makes after the leadership is lost is
no status and is not recognised.
-/
import Mimori.Base.Strings
import Mimori.Cluster.Cases
import Mimori.Cluster.Runs

namespace Mimori

open Strings Utf8

/-! ## Errors -/

/-- The gRPC codes that the server and the clients tell apart. -/
inductive Code
  | failedPrecondition
  | unknown
  deriving DecidableEq

/-- A Go `error`: a gRPC status, or any other. -/
inductive GoError
  | status (code : Code) (message : Bytes)
  | other (text : Bytes)
  deriving DecidableEq

/-- What gRPC hands the client of a call whose handler returns this error. -/
def GoError.received : GoError → GoError
  | .status code message => .status code message
  | .other text => .status .unknown text

/-- The calls that the server refuses: Put, Delete, Get without AllowStale, and Get with AllowStale on a
follower whose lease has expired. -/
inductive Refusal
  | put
  | delete
  | get
  | expiredLease
  deriving DecidableEq

/-- What the message says before and after the leader's id. -/
def Refusal.format : Refusal → Bytes × Bytes
  | .put => (utf8 "not leader, leader=", [])
  | .delete => (utf8 "not leader, leader=", [])
  | .get => (utf8 "not leader, leader=", utf8 " (use allow_stale=true for follower reads)")
  | .expiredLease => (utf8 "follower read lease expired, leader=", [])

def Refusal.message (r : Refusal) (leader : Bytes) : Bytes := r.format.1 ++ leader ++ r.format.2

def Refusal.error (r : Refusal) (leader : Bytes) : GoError := .status .failedPrecondition (r.message leader)

/-! ## The clients -/

/-- The body of both `isLeaderError`; `lower` is Unicode's lower case of the characters that are not ASCII. -/
def leaderError (lower : Bytes → Bytes) : Option GoError → Bool
  | some (.status .failedPrecondition message) =>
    let msg := toLower lower message
    contains (utf8 "not leader") msg || contains (utf8 "leader=") msg
  | _ => false

/-- The delimiters at which a hint ends: `' ', '\t', '\n', ')', ',', ';'`. -/
def endsHint (p : Piece) : Bool := [32, 9, 10, 41, 44, 59].any fun b => p == .char [b]

/-- The body of both `extractLeaderHint`, for the message of a status. -/
def leaderHint (msg : Bytes) : Bytes × Bool :=
  match index (utf8 "leader=") msg with
  | none => ([], false)
  | some idx =>
    let leader := trimSpace (msg.drop (idx + (utf8 "leader=").length))
    if leader = [] then ([], false)
    else
      let leader := trimSpace (((split leader).takeWhile fun p => !endsHint p).flatMap Piece.bytes)
      if leader = [] then ([], false) else (leader, true)

def hintOf : Option GoError → Bytes × Bool
  | some (.status _ message) => leaderHint message
  | _ => ([], false)

namespace Library

def isLeaderError (lower : Bytes → Bytes) (err : Option GoError) : Bool := leaderError lower err

def extractLeaderHint (err : Option GoError) : Bytes × Bool := hintOf err

end Library

namespace Mimorictl

def isLeaderError (lower : Bytes → Bytes) (err : Option GoError) : Bool := leaderError lower err

def extractLeaderHint (err : Option GoError) : Bytes × Bool := hintOf err

end Mimorictl

/-! ## Hints -/

/-- An id without white space, `)`, `,` and `;`. -/
def unmarked (id : Bytes) : Bool := (split id).all fun p => !isSpace p && !([41, 44, 59].any fun b => p == .char [b])

theorem unmarked_spec {id : Bytes} (h : unmarked id = true) :
    ∀ p ∈ split id, isSpace p = false ∧ endsHint p = false := by
  intro p hp
  have := List.all_eq_true.1 h p hp
  rw [Bool.and_eq_true, Bool.not_eq_true', Bool.not_eq_true'] at this
  obtain ⟨hspace, hmark⟩ := this
  refine ⟨hspace, ?_⟩
  -- the three white space delimiters are white space
  have hblank : ∀ b ∈ [32, 9, 10], (p == Piece.char [b]) = false := by
    intro b hb
    have := List.any_eq_false.1 hspace [b] (by
      simp only [List.mem_cons, List.not_mem_nil, or_false] at hb
      rcases hb with rfl | rfl | rfl <;> decide)
    rwa [Bool.not_eq_true] at this
  rw [endsHint, List.any_eq_false]
  intro b hb
  rw [Bool.not_eq_true]
  rcases List.mem_append.1 (show b ∈ [32, 9, 10] ++ [41, 44, 59] from hb) with hb | hb
  · exact hblank b hb
  · have := List.any_eq_false.1 hmark b hb
    rwa [Bool.not_eq_true] at this

/-- The first `leader=` of a message stands right before the id. -/
theorem Refusal.index_message (r : Refusal) (leader : Bytes) :
    ∃ idx, index (utf8 "leader=") (r.message leader) = some idx ∧
      (r.message leader).drop (idx + (utf8 "leader=").length) = leader ++ r.format.2 := by
  cases r with
  | put => exact ⟨12, rfl, rfl⟩
  | delete => exact ⟨12, rfl, rfl⟩
  | get => exact ⟨12, rfl, rfl⟩
  | expiredLease => exact ⟨29, rfl, rfl⟩

/-- What follows the id is cut apart from it, ends it and does not end in white space. -/
structure Trails (suffix : Bytes) : Prop where
  apart : ∀ id : Bytes, split (id ++ suffix) = split id ++ split suffix
  ends : (split suffix).takeWhile (fun p => !endsHint p) = []
  last : ∀ p ∈ (split suffix).getLast?, isSpace p = false

theorem Trails.nothing : Trails [] where
  apart id := by rw [List.append_nil]; exact (List.append_nil _).symm
  ends := rfl
  last p hp := by cases hp

theorem Trails.advice : Trails Refusal.get.format.2 where
  apart id := split_append_ascii id _ (by decide)
  ends := by decide +kernel
  last := by decide +kernel

theorem Refusal.trails (r : Refusal) : Trails r.format.2 := by
  cases r with
  | get => exact .advice
  | _ => exact .nothing

theorem hint_found {id suffix : Bytes} (hid : unmarked id = true) (hne : id ≠ []) (h : Trails suffix) :
    trimSpace (id ++ suffix) = id ++ suffix ∧
      ((split (id ++ suffix)).takeWhile fun p => !endsHint p).flatMap Piece.bytes = id := by
  have hclean := unmarked_spec hid
  constructor
  · refine trimSpace_eq_self ?_ ?_
    · intro p hp
      rw [h.apart, List.head?_append_of_ne_nil _ (split_ne_nil hne)] at hp
      exact (hclean p (List.mem_of_mem_head? hp)).1
    · intro p hp
      rw [h.apart, List.getLast?_append, Option.mem_def, Option.or_eq_some_iff] at hp
      rcases hp with hp | ⟨-, hp⟩
      · exact h.last p hp
      · exact (hclean p (List.mem_of_mem_getLast? hp)).1
  · rw [h.apart, List.takeWhile_append_of_pos fun p hp => by rw [(hclean p hp).2]; rfl, h.ends, List.append_nil, split_bytes]

theorem leaderHint_message (r : Refusal) {id : Bytes} (hid : unmarked id = true) (hne : id ≠ []) :
    leaderHint (r.message id) = (id, true) := by
  obtain ⟨idx, hidx, hrest⟩ := r.index_message id
  obtain ⟨htrim, hscan⟩ := hint_found hid hne r.trails
  have hagain : trimSpace id = id := trimSpace_of_no_space fun p hp => (unmarked_spec hid p hp).1
  have hrest_ne : id ++ r.format.2 ≠ [] := fun h => hne (List.append_eq_nil_iff.1 h).1
  simp only [leaderHint, hidx, hrest, htrim, hscan, hagain, if_neg hrest_ne, if_neg hne]

/-- Without an id, a message that ends where the id would be gives no hint. -/
theorem leaderHint_message_nil {r : Refusal} (h : r.format.2 = []) : leaderHint (r.message []) = ([], false) := by
  obtain ⟨idx, hidx, hrest⟩ := r.index_message []
  rw [h] at hrest
  have htrim : trimSpace [] = [] := rfl
  simp only [leaderHint, hidx, hrest, List.append_nil, htrim, if_true]

/-- Both clients get the leader's id back out of each refusal, and no id where there is none, except from the
refusal of a strong Get that names no leader. -/
theorem leader_hint_survives (r : Refusal) {id : Bytes} (hid : unmarked id = true) (h : id ≠ [] ∨ r ≠ .get) :
    (id ≠ [] → Library.extractLeaderHint (some (r.error id).received) = (id, true) ∧
      Mimorictl.extractLeaderHint (some (r.error id).received) = (id, true)) ∧
    (id = [] → Library.extractLeaderHint (some (r.error id).received) = ([], false) ∧
      Mimorictl.extractLeaderHint (some (r.error id).received) = ([], false)) := by
  constructor
  · intro hne
    exact ⟨leaderHint_message r hid hne, leaderHint_message r hid hne⟩
  · rintro rfl
    have hr : r ≠ .get := h.resolve_left fun hne => hne rfl
    have hnil : r.format.2 = [] := by
      cases r with
      | get => exact absurd rfl hr
      | _ => rfl
    exact ⟨leaderHint_message_nil hnil, leaderHint_message_nil hnil⟩

theorem leader_hint_survives_get :
    Library.extractLeaderHint (some (Refusal.get.error (utf8 "mimori-node2:4000")).received) =
        (utf8 "mimori-node2:4000", true) ∧
      Mimorictl.extractLeaderHint (some (Refusal.put.error []).received) = ([], false) :=
  ⟨((leader_hint_survives .get (by decide +kernel) (.inl (by decide))).1 (by decide)).1,
    ((leader_hint_survives .put (by decide +kernel) (.inr (by decide))).2 rfl).2⟩

/-- Where a strong Get is refused and no leader is known, both clients take the first word of the advice for
the leader. -/
theorem advice_taken_for_leader :
    unmarked [] = true ∧
      Library.extractLeaderHint (some (Refusal.get.error []).received) = (utf8 "(use", true) ∧
      Mimorictl.extractLeaderHint (some (Refusal.get.error []).received) = (utf8 "(use", true) := by
  decide +kernel

/-! ## Recognition -/

/-- Every refusal says so at its start, where lower case leaves it alone. -/
theorem leaderError_error (lower : Bytes → Bytes) (r : Refusal) (leader : Bytes) :
    leaderError lower (some (r.error leader).received) = true := by
  have hlow : ∀ b ∈ r.format.1, b < 0x80 ∧ ¬ (65 ≤ b ∧ b ≤ 90) := by cases r <;> decide +kernel
  have hmsg : toLower lower (r.message leader) = r.format.1 ++ toLower lower (leader ++ r.format.2) := by
    rw [Refusal.message, List.append_assoc, toLower_append lower _ hlow]
  show (contains _ (toLower lower (r.message leader)) || contains _ (toLower lower (r.message leader))) = true
  rw [hmsg, Bool.or_eq_true]
  generalize toLower lower (leader ++ r.format.2) = rest
  cases r with
  | expiredLease => exact .inr rfl
  | _ => exact .inl rfl

/-- The error with which a section of a client call ends the call, if it does; `leader` is what `LeaderID()`
returns where the message is made. -/
def Raft.callError (r : Raft) (now : Int) (leader : Bytes) (io : Io) : Task → Option GoError
  | .serve (.put _ _) => if r.isLeader then none else some (Refusal.put.error leader)
  | .serve (.delete _) => if r.isLeader then none else some (Refusal.delete.error leader)
  | .serve (.get _ allowStale) =>
    if r.isLeader then none else if allowStale then none else some (Refusal.get.error leader)
  | .leaseCheck _ => if r.hasReadLease now then none else some (Refusal.expiredLease.error leader)
  | .propose cmd =>
    match r.propose cmd io with
    | (_, .ok _) => none
    | (_, .error text) => some (.other (utf8 text))
  | _ => none

namespace Cluster

/-- The error of the client call whose next section runs in this step. -/
def callError (s : Cluster) (leader : Bytes) : Action → Option GoError
  | .run i .go io =>
    match s.tasks[i]? with
    | some (n, t) => (s.raft n).callError s.clock leader (s.envOf n io) t
    | none => none
  | _ => none

/-- The goroutine is in a section that may refuse a call. -/
def mayRefuse : Task → Bool
  | .serve _ => true
  | .leaseCheck _ => true
  | .propose _ => true
  | _ => false

theorem runTask_callError {s s' : Cluster} {n : NodeID} {t : Task} {io : Io} (hcall : mayRefuse t = true)
    (hrun : s.runTask n t .go io = some s') (leader : Bytes) :
    (((s.raft n).callError s.clock leader (s.envOf n io) t).isSome = true ∧ s'.tasks = s.tasks) ∨
      ((s.raft n).callError s.clock leader (s.envOf n io) t = none ∧ ∃ t', s'.tasks = s.tasks ++ [(n, t')]) := by
  cases t <;> simp only [mayRefuse, Bool.false_eq_true] at hcall
  case serve req =>
    by_cases hlead : (s.raft n).isLeader = true
    · cases req <;> simp only [runTask, if_pos hlead, Option.some.injEq] at hrun <;> subst hrun <;>
        exact .inr ⟨if_pos hlead, _, rfl⟩
    · cases req <;> simp only [runTask, if_neg hlead] at hrun <;> simp only [Raft.callError, if_neg hlead]
      case get key allowStale =>
        cases allowStale <;> cases hrun
        · exact .inl ⟨rfl, rfl⟩
        · exact .inr ⟨rfl, _, rfl⟩
      all_goals
        cases hrun
        exact .inl ⟨rfl, rfl⟩
  case leaseCheck key =>
    simp only [runTask] at hrun
    simp only [Raft.callError]
    by_cases hlease : (s.raft n).hasReadLease s.clock = true
    · rw [if_pos hlease] at hrun ⊢
      cases hrun
      exact .inr ⟨rfl, _, rfl⟩
    · rw [if_neg hlease] at hrun ⊢
      cases hrun
      exact .inl ⟨rfl, rfl⟩
  case propose cmd =>
    simp only [runTask] at hrun
    simp only [Raft.callError]
    rcases hp : (s.raft n).propose cmd (s.envOf n io) with ⟨r, text | index⟩ <;> rw [hp] at hrun <;> cases hrun
    · exact .inl ⟨rfl, rfl⟩
    · exact .inr ⟨rfl, _, rfl⟩

/-- A call that gets an error is over, one that gets none goes on. -/
theorem step_callError {s s' : Cluster} {i : Nat} {io : Io} {n : NodeID} {t : Task} (ht : s.tasks[i]? = some (n, t))
    (hcall : mayRefuse t = true) (hs : s.step (.run i .go io) = some s') (leader : Bytes) :
    ((s.callError leader (.run i .go io)).isSome = true ∧ s'.tasks = s.tasks.eraseIdx i) ∨
      (s.callError leader (.run i .go io) = none ∧ ∃ t', s'.tasks = s.tasks.eraseIdx i ++ [(n, t')]) := by
  obtain ⟨_, hrun⟩ := step_runTask hs ht
  simp only [callError, ht]
  exact runTask_callError hcall hrun leader

/-- `Propose` is called only while the node leads. -/
def proposesInOffice (s : Cluster) : Action → Bool
  | .run i .go _ =>
    match s.tasks[i]? with
    | some (n, .propose _) => (s.raft n).state == .leader
    | _ => true
  | _ => true

/-- A call fails with one of the four refusals, or in `Propose` on a node that does not lead. -/
theorem callError_cases {s : Cluster} {a : Action} {leader : Bytes} {e : GoError} (h : s.callError leader a = some e) :
    (∃ r : Refusal, e = r.error leader) ∨ s.proposesInOffice a = false := by
  cases a with
  | run i c io =>
    cases c with
    | go =>
      simp only [callError] at h
      rcases ht : s.tasks[i]? with _ | ⟨n, t⟩ <;> rw [ht] at h
      · cases h
      · cases t with
        | serve req =>
          cases req <;> simp only [Raft.callError, Option.ite_none_left_eq_some, Option.some.injEq] at h
          · exact .inl ⟨.put, h.2.symm⟩
          · exact .inl ⟨.delete, h.2.symm⟩
          · exact .inl ⟨.get, h.2.2.symm⟩
        | leaseCheck key =>
          simp only [Raft.callError, Option.ite_none_left_eq_some, Option.some.injEq] at h
          exact .inl ⟨.expiredLease, h.2.symm⟩
        | propose cmd =>
          refine .inr ?_
          simp only [proposesInOffice, ht]
          by_cases hlead : (s.raft n).state = .leader
          · simp [Raft.callError, Raft.propose, hlead] at h
          · exact beq_eq_false_iff_ne.2 hlead
        | _ => cases h
    | _ => cases h
  | _ => cases h

/-- In every run in which `Propose` is called only while the node leads, both clients recognise the error of
every Put, Get and Delete that fails for lack of leadership, whoever is named as the leader. -/
theorem refusals_recognised (lower : Bytes → Bytes) {h : List (Cluster × Action)} {s : Cluster}
    (hr : machine.Run (fun s a => s.proposesInOffice a = true) h s) {x : Cluster} {a : Action} (hm : (x, a) ∈ h)
    {leader : Bytes} {e : GoError} (he : x.callError leader a = some e) :
    Library.isLeaderError lower (some e.received) = true ∧ Mimorictl.isLeaderError lower (some e.received) = true := by
  obtain ⟨-, hok, -⟩ := hr.past hm
  rcases callError_cases he with ⟨r, rfl⟩ | hout
  · exact ⟨leaderError_error lower r leader, leaderError_error lower r leader⟩
  · rw [hout] at hok
    cases hok

/-- A Put on the follower B. -/
def putOnB : List Action := [.client "B" (.put [1] [2]), .run 0 .go {}]

theorem refusals_recognised_putOnB :
    ∃ h s, machine.Run (fun s a => s.proposesInOffice a = true) h s ∧ ∃ x a e, (x, a) ∈ h ∧
      x.callError (utf8 "A") a = some e ∧ Library.isLeaderError id (some e.received) = true := by
  obtain ⟨h, s, hr, hx⟩ := Machine.exists_run (S := machine) (fun s a => s.proposesInOffice a = true)
    (fun h _ => h.any (fun x => x.1.callError (utf8 "A") x.2 == some (Refusal.put.error (utf8 "A"))) = true)
    (machine_init threeNodes true true) putOnB (by decide +kernel)
  obtain ⟨⟨x, a⟩, hm, he⟩ := List.any_eq_true.1 hx
  exact ⟨h, s, hr, x, a, _, hm, beq_iff_eq.1 he, (refusals_recognised id hr hm (beq_iff_eq.1 he)).1⟩

/-- A takes a Put as the leader of term 1 and learns of term 2 before it proposes. -/
def deposedBeforePropose : List Action :=
  electA ++ [.client "A" (.put [1] [2]), .run 2 .go {}, .tick 2000, .electionTimeout "B" 1500 {}, .run 3 .go {},
    .run 3 .go {}, .deliver 1 {}, .run 2 .go {}]

/-- The call fails since the node no longer leads, and neither client recognises the error. -/
theorem deposed_put_unrecognised :
    ∃ h s, machine.Run (fun _ _ => True) h s ∧ ∃ x a e, (x, a) ∈ h ∧ x.callError [] a = some e ∧
      (x.raft "A").state = .follower ∧ Library.isLeaderError id (some e.received) = false ∧
      Mimorictl.isLeaderError id (some e.received) = false := by
  obtain ⟨h, s, hr, hx⟩ := Machine.exists_run (S := machine) (fun _ _ => True)
    (fun h _ => h.any (fun x => x.1.callError [] x.2 == some (.other (utf8 "not leader")) &&
      (x.1.raft "A").state == .follower) = true)
    (machine_init threeNodes true true) deposedBeforePropose (by decide +kernel)
  obtain ⟨⟨x, a⟩, hm, he⟩ := List.any_eq_true.1 hx
  rw [Bool.and_eq_true] at he
  exact ⟨h, s, hr, x, a, _, hm, beq_iff_eq.1 he.1, beq_iff_eq.1 he.2, rfl, rfl⟩

end Cluster

end Mimori
