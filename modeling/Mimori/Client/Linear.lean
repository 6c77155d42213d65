/-
The strong operations are linearizable. The writes in the order of the committed log, each strong read behind the
entries it saw: this order has every call that was answered, keeps real time, and explains the answers by one map.
-/
import Mimori.Client.Places

namespace Mimori

open Raft TermLog Linear

namespace Calls

open Cluster

variable {M : Members} {L L' : Ledger} {full full' : NodeID → List LogEntry} {pos : Nat → Nat} {s : Calls} {k : Nat}
  {ans : CallResult}

/-! ## The order -/

/-- What the entries of a log make of a store is what their requests make of the map. -/
theorem after_writes {log : List LogEntry} {ws : List (Nat × ClientRequest)}
    (h : List.Forall₂ (fun e w => w.2.command = some e.data) log ws) (kv : Store) :
    Linear.after keyValueMap kv.get ws = (kv.replay log).get := by
  induction h generalizing kv with
  | nil => rfl
  | @cons e w log ws hcmd _ ih =>
    have hone : keyValueMap.apply kv.get w.2 = (kv.apply e.data).get := by
      obtain ⟨l, req⟩ := w
      cases req with
      | put key value =>
        cases hcmd' : e.data <;> rw [hcmd'] at hcmd <;> cases hcmd
        funext key'
        simp only [keyValueMap, Store.apply, Store.get_put, Function.update_apply, eq_comm]
      | delete key =>
        cases hcmd' : e.data <;> rw [hcmd'] at hcmd <;> cases hcmd
        funext key'
        simp only [keyValueMap, Store.apply, Store.get_delete, Function.update_apply, eq_comm]
      | get => cases hcmd
    exact (congrArg (Linear.after keyValueMap · ws) hone).trans (ih _)

/-- The call that has proposed an entry, with its request. -/
def callOf (s : Calls) (e : LogEntry) : Nat × ClientRequest :=
  match s.proposals.find? fun p => decide (p.entry = e) with
  | some p => (p.attempt, (s.requests[p.attempt]?).getD (.delete []))
  | none => (0, .delete [])

theorem Booked.proposal_eq (h : Booked s) {p q : Proposal} (hp : p ∈ s.proposals) (hq : q ∈ s.proposals)
    (he : p.attempt = q.attempt) : p = q :=
  List.inj_on_of_nodup_map (List.pairwise_map.2 h.attempts) hp hq he

theorem Filed.proposal_eq (h : Filed L s) {p q : Proposal} (hp : p ∈ s.proposals) (hq : q ∈ s.proposals)
    (he : p.entry = q.entry) : p = q :=
  List.inj_on_of_nodup_map (List.pairwise_map.2 h.entries) hp hq he

theorem Filed.callOf_entry (h : Filed L s) (hb : Booked s) {p : Proposal} (hp : p ∈ s.proposals) :
    ∃ req, s.callOf p.entry = (p.attempt, req) ∧ s.requests[p.attempt]? = some req ∧
      req.command = some p.entry.data := by
  obtain ⟨req, hreq, hcmd⟩ := hb.command p hp
  refine ⟨req, ?_, hreq, hcmd⟩
  cases hf : s.proposals.find? fun x => decide (x.entry = p.entry) with
  | none =>
    have := List.find?_eq_none.1 hf p hp
    simp at this
  | some q =>
    have hq : q.entry = p.entry := by simpa using List.find?_some hf
    obtain rfl := h.proposal_eq (List.mem_of_find?_eq_some hf) hp hq
    simp only [callOf, hf, hreq, Option.getD_some]

/-- Call `i`, if it is a strong read that was answered at place `k`. -/
def readAt (s : Calls) (pos : Nat → Nat) (k i : Nat) : Option (Nat × ClientRequest) :=
  match s.requests[i]? with
  | some (.get key false) => if Linear.answered s.history i ∧ pos i = k then some (i, .get key false) else none
  | _ => none

theorem readAt_some {i : Nat} {x : Nat × ClientRequest} : s.readAt pos k i = some x ↔
    x.1 = i ∧ ∃ key, s.requests[i]? = some (.get key false) ∧ x.2 = .get key false ∧
      (∃ ans, .respond i ans ∈ s.history) ∧ pos i = k := by
  unfold readAt
  constructor
  · intro hi
    split at hi
    · rename_i key hreq
      split at hi
      · rename_i hcond
        cases hi
        exact ⟨rfl, key, hreq, rfl, answered_iff.1 hcond.1, hcond.2⟩
      · cases hi
    · cases hi
  · rintro ⟨rfl, key, hreq, hx, hans, hpos⟩
    simp only [hreq]
    rw [if_pos ⟨answered_iff.2 hans, hpos⟩, ← hx]

/-- The strong reads that were answered at place `k`, in the order of their numbers. -/
def readsAt (s : Calls) (pos : Nat → Nat) (k : Nat) : List (Nat × ClientRequest) :=
  (List.range s.requests.length).filterMap (s.readAt pos k)

theorem mem_readsAt {x : Nat × ClientRequest} : x ∈ s.readsAt pos k ↔
    ∃ key, s.requests[x.1]? = some (.get key false) ∧ x.2 = .get key false ∧ (∃ ans, .respond x.1 ans ∈ s.history) ∧
      pos x.1 = k := by
  rw [readsAt, List.mem_filterMap]
  constructor
  · rintro ⟨i, _, hi⟩
    obtain ⟨rfl, hx⟩ := readAt_some.1 hi
    exact hx
  · rintro ⟨key, hreq, hx⟩
    exact ⟨x.1, List.mem_range.2 (List.getElem?_eq_some_iff.1 hreq).1, readAt_some.2 ⟨rfl, key, hreq, hx⟩⟩

theorem readsAt_sorted : (s.readsAt pos k).Pairwise fun x y => x.1 < y.1 := by
  rw [readsAt, List.pairwise_filterMap]
  refine List.pairwise_lt_range.imp fun hlt x hx y hy => ?_
  rw [(readAt_some.1 hx).1, (readAt_some.1 hy).1]; exact hlt

/-- A committed prefix that has every place at which a call was answered. -/
theorem Traced.committed_prefix (h : Traced M L full pos s) :
    ∃ T m q, Committed M L s.cluster T m q ∧ ∀ k ans, .respond k ans ∈ s.history → pos k ≤ m := by
  have hall : ∀ H : List (Event ClientRequest CallResult), H ⊆ s.history →
      ∃ T m q, Committed M L s.cluster T m q ∧ ∀ k ans, .respond k ans ∈ H → pos k ≤ m := by
    intro H
    induction H with
    | nil =>
      intro _
      refine ⟨0, 0, [], .inl rfl, fun k ans hm => ?_⟩
      cases hm
    | cons ev H ih =>
      intro hsub
      obtain ⟨T, m, q, hc, hm⟩ := ih fun x hx => hsub (List.mem_cons_of_mem _ hx)
      cases ev with
      | invoke i op =>
        refine ⟨T, m, q, hc, fun k ans hk => ?_⟩
        rcases List.mem_cons.1 hk with he | hk
        · cases he
        · exact hm k ans hk
      | respond i ans =>
        obtain ⟨T', q', hc'⟩ := (h.answered i ans (hsub List.mem_cons_self)).committed
        rcases Nat.le_total (pos i) m with hle | hle
        · refine ⟨T, m, q, hc, fun k ans' hk => ?_⟩
          rcases List.mem_cons.1 hk with he | hk
          · cases he; exact hle
          · exact hm k ans' hk
        · refine ⟨T', pos i, q', hc', fun k ans' hk => ?_⟩
          rcases List.mem_cons.1 hk with he | hk
          · cases he; exact le_refl _
          · exact le_trans (hm k ans' hk) hle
  exact hall s.history (List.Subset.refl _)

/-- A call that has proposed an entry was answered at the place of this entry, if at all. -/
theorem Traced.answered_pos (h : Traced M L full pos s) {p : Proposal} (hp : p ∈ s.proposals)
    (hans : ∃ ans, .respond p.attempt ans ∈ s.history) : p.entry.index = pos p.attempt := by
  obtain ⟨ans, hans⟩ := hans
  cases h.answered _ ans hans with
  | written q hq hk hi _ => rw [← h.booked.proposal_eq hq hp hk]; rw [hk]; exact hi
  | read key T q hreq =>
    obtain ⟨req, hreq', hcmd⟩ := h.booked.command p hp
    rw [hreq] at hreq'
    cases hreq'
    cases hcmd

/-- The entry of a call is committed, so calls that were answered before this one was made have lower places. -/
theorem Traced.proposed_lt (h : Traced M L full pos s) {p : Proposal} (hp : p ∈ s.proposals)
    (hc : CommittedEntry M L s.cluster p.entry) {i : Nat} (hi : Precedes s.history i p.attempt) :
    (pos i : Int) < p.entry.index := by
  rcases h.proposed p hp with hall | ⟨x, hx, hidx, hne⟩
  · exact hall i hi
  · exact absurd (h.serve.stores.inv.entry_eq hx hc hidx) hne

/-- The writes whose entries are the first `m` of `q`. -/
def writesIn (s : Calls) (q : List LogEntry) (m : Nat) : List (Nat × ClientRequest) := (q.take m).map s.callOf

/-- Write `w` has proposed the entry of `p`, which is committed at place `a + 1`. -/
structure WriteAt (M : Members) (L : Ledger) (s : Calls) (a : Nat) (w : Nat × ClientRequest) (p : Proposal) : Prop where
  mem : p ∈ s.proposals
  call : w.1 = p.attempt
  index : p.entry.index = a + 1
  committed : CommittedEntry M L s.cluster p.entry
  request : s.requests[w.1]? = some w.2
  command : w.2.command = some p.entry.data

variable {T : Int} {m : Nat} {q : List LogEntry} {i j : Nat} {w v x y : Nat × ClientRequest} {p r : Proposal}

/-- Every place of the committed prefix has its write. -/
theorem Traced.entry_call (h : Traced M L full pos s) (hc : Committed M L s.cluster T m q) (hj : j < m) :
    ∃ e p, q[j]? = some e ∧ p.entry = e ∧ WriteAt M L s j (s.callOf e) p := by
  obtain ⟨x, hqx, hidx, hxc, t, hxt⟩ := hc.entry hj
  obtain ⟨p, hp, rfl⟩ := h.filed.sourced t x hxt
  obtain ⟨req, hcall, hreq, hcmd⟩ := h.filed.callOf_entry h.booked hp
  refine ⟨p.entry, p, hqx, rfl, ?_⟩
  rw [hcall]; exact ⟨hp, rfl, hidx, hxc, hreq, hcmd⟩

theorem Traced.writeAt (h : Traced M L full pos s) (hc : Committed M L s.cluster T m q)
    (hw : (s.writesIn q m)[j]? = some w) : ∃ p, WriteAt M L s j w p := by
  have hj : j < m := by
    have := (List.getElem?_eq_some_iff.1 hw).1
    rw [writesIn, List.length_map, List.length_take] at this
    omega
  obtain ⟨e, p, hqe, _, hp⟩ := h.entry_call hc hj
  rw [writesIn, List.getElem?_map, List.getElem?_take, if_pos hj, hqe] at hw
  cases hw
  exact ⟨p, hp⟩

theorem WriteAt.not_read (hw : WriteAt M L s i w p) {key : Bytes} (hr : s.requests[j]? = some (.get key false)) :
    j ≠ w.1 := by
  rintro rfl
  have hreq := hw.request
  rw [hr] at hreq
  have hcmd := hw.command
  rw [← Option.some.inj hreq] at hcmd
  cases hcmd

/-! Real time: a write before another, a read before another, and writes and reads between them. -/

theorem Traced.write_write (h : Traced M L full pos s) (hw : WriteAt M L s i w p) (hv : WriteAt M L s j v r)
    (hij : i < j) : MayPrecede s.history w v := by
  have hwi := hw.index
  have hvi := hv.index
  refine ⟨?_, fun hpre => ?_⟩
  · rw [hw.call, hv.call]
    intro he
    rw [h.booked.proposal_eq hw.mem hv.mem he] at hwi
    omega
  · rw [hw.call, hv.call] at hpre
    have h1 := h.answered_pos hv.mem hpre.responded
    have h2 := h.proposed_lt hw.mem hw.committed hpre
    omega

theorem Traced.read_read (h : Traced M L full pos s) (hx : x ∈ s.readsAt pos i) (hy : y ∈ s.readsAt pos j)
    (hij : i < j) : MayPrecede s.history x y := by
  obtain ⟨key, hreq, _, ⟨ans, hans⟩, hxi⟩ := mem_readsAt.1 hx
  obtain ⟨_, _, _, _, hyj⟩ := mem_readsAt.1 hy
  refine ⟨fun he => ?_, fun hpre => ?_⟩
  · rw [he] at hxi; omega
  · have := h.read x.1 key ans hreq hans y.1 hpre
    omega

theorem Traced.read_together (h : Traced M L full pos s) (k : Nat) :
    (s.readsAt pos k).Pairwise (MayPrecede s.history) := by
  refine readsAt_sorted.imp fun hlt => ⟨hlt.ne, fun hpre => ?_⟩
  have := h.booked.realTime _ _ hpre
  omega

theorem Traced.read_write (h : Traced M L full pos s) (hw : WriteAt M L s i w p) (hx : x ∈ s.readsAt pos k) :
    if k ≤ i then MayPrecede s.history x w else MayPrecede s.history w x := by
  obtain ⟨key, hreq, _, ⟨ans, hans⟩, hxk⟩ := mem_readsAt.1 hx
  have hne := hw.not_read hreq
  have hidx := hw.index
  split
  · refine ⟨hne, fun hpre => ?_⟩
    have h1 := h.read x.1 key ans hreq hans w.1 hpre
    rw [hw.call] at hpre h1
    have h2 := h.answered_pos hw.mem hpre.responded
    omega
  · refine ⟨hne.symm, fun hpre => ?_⟩
    rw [hw.call] at hpre
    have := h.proposed_lt hw.mem hw.committed hpre
    omega

/-- Whatever was answered is in the order. -/
theorem Traced.answered_mem (h : Traced M L full pos s) (hc : Committed M L s.cluster T m q)
    (hans : .respond k ans ∈ s.history) (hle : pos k ≤ m) :
    ∃ op, (k, op) ∈ s.writesIn q m ∨ ∃ j ≤ (s.writesIn q m).length, (k, op) ∈ s.readsAt pos j := by
  have hlen := hc.le_length
  cases h.answered k ans hans with
  | written p hp hk hi hcp =>
    subst hk
    obtain ⟨_, _, j, hj, _⟩ := id hcp
    obtain ⟨e, r, hqe, rfl, hr⟩ := h.entry_call hc (j := j) (by omega)
    have hri := hr.index
    -- the place belongs to the entry of this call
    have heq := h.serve.stores.inv.entry_eq hr.committed hcp (by omega)
    obtain rfl := h.filed.proposal_eq hr.mem hp heq
    refine ⟨(s.callOf r.entry).2, .inl (List.mem_map.2 ⟨r.entry, List.mem_of_getElem? (i := j) ?_, ?_⟩)⟩
    · rw [List.getElem?_take, if_pos (by omega)]; exact hqe
    · rw [← hr.call]
  | read key T' q' hreq _ =>
    refine ⟨.get key false, .inr ⟨pos k, ?_, mem_readsAt.2 ⟨key, hreq, rfl, ⟨_, hans⟩, rfl⟩⟩⟩
    rw [writesIn, List.length_map, List.length_take]
    omega

theorem Traced.write_answer (h : Traced M L full pos s) (hw : WriteAt M L s i w p)
    (hans : .respond w.1 ans ∈ s.history) (f : Bytes → Option Bytes) : ans = keyValueMap.answer f w.2 := by
  have hcmd := hw.command
  cases h.answered _ ans hans with
  | written =>
    cases hw2 : w.2 with
    | get => rw [hw2] at hcmd; cases hcmd
    | _ => rfl
  | read key T' q' hreq => exact absurd rfl (hw.not_read hreq)

/-- A read is answered with what the map has after the writes before it. -/
theorem Traced.read_answer (h : Traced M L full pos s) (hc : Committed M L s.cluster T m q)
    (hx : x ∈ s.readsAt pos k) (hle : pos x.1 ≤ m) (hans : .respond x.1 ans ∈ s.history) :
    ans = keyValueMap.answer (Linear.after keyValueMap keyValueMap.init ((s.writesIn q m).take k)) x.2 := by
  obtain ⟨key, hreq, hx2, _, rfl⟩ := mem_readsAt.1 hx
  cases h.answered x.1 ans hans with
  | written p hp hk =>
    obtain ⟨req, hreq', hcmd⟩ := h.booked.command p hp
    rw [hk, hreq] at hreq'
    cases hreq'
    cases hcmd
  | read key' T' q' hreq' hc' =>
    rw [hreq] at hreq'
    cases hreq'
    have hagree := h.serve.stores.inv.inv.complete.agree (fun T => L.led_of_ne_nil) hc.chosen hc'.chosen hle (le_refl _)
    have hforall : List.Forall₂ (fun e w => w.2.command = some e.data) (q.take (pos x.1))
        ((s.writesIn q m).take (pos x.1)) := by
      rw [writesIn, ← List.map_take, List.take_take, Nat.min_eq_left hle, List.forall₂_map_right_iff, List.forall₂_same]
      intro e he
      obtain ⟨a, hlt, rfl⟩ := List.getElem_of_mem he
      rw [List.length_take] at hlt
      obtain ⟨e, p, hqe, rfl, hp⟩ := h.entry_call hc (j := a) (by omega)
      rw [List.getElem_take, (List.getElem?_eq_some_iff.1 hqe).2]
      exact hp.command
    rw [hx2, ← hagree]
    show _ = CallResult.value (Linear.after keyValueMap (Store.get []) _ key)
    rw [after_writes hforall]

theorem Traced.logOrder (h : Traced M L full pos s) :
    ∃ ws, LogOrder keyValueMap s.history ws (s.readsAt pos) := by
  obtain ⟨T, m, q, hc, hmax⟩ := h.committed_prefix
  have hplace : ∀ w ∈ s.writesIn q m, ∃ a p, WriteAt M L s a w p := by
    intro w hw
    obtain ⟨a, ha⟩ := List.mem_iff_getElem?.1 hw
    exact ⟨a, h.writeAt hc ha⟩
  refine ⟨s.writesIn q m, fun w hw => ?_, fun k x hx => ?_, fun i ans hans => h.answered_mem hc hans (hmax i ans hans),
    ?_, h.read_together, fun i j hij x hx y hy => h.read_read hx hy hij, fun a w hw k x hx => ?_, fun k x hx f => ?_,
    fun w hw ans hans f => ?_, fun k x hx ans hans => h.read_answer hc hx (hmax _ ans hans) hans⟩
  · obtain ⟨a, p, hp⟩ := hplace w hw
    refine (h.booked.invoked _ _).2 ⟨hp.request, ?_⟩
    have hcmd := hp.command
    cases hw2 : w.2 with
    | get => rw [hw2] at hcmd; cases hcmd
    | _ => rfl
  · obtain ⟨key, hreq, hx2, _⟩ := mem_readsAt.1 hx
    rw [hx2]
    exact (h.booked.invoked _ _).2 ⟨hreq, rfl⟩
  · rw [List.pairwise_iff_getElem]
    intro a b ha hb hab
    obtain ⟨p, hp⟩ := h.writeAt hc (List.getElem?_eq_getElem ha)
    obtain ⟨r, hr⟩ := h.writeAt hc (List.getElem?_eq_getElem hb)
    exact h.write_write hp hr hab
  · obtain ⟨p, hp⟩ := h.writeAt hc hw
    exact h.read_write hp hx
  · obtain ⟨key, _, hx2, _⟩ := mem_readsAt.1 hx
    rw [hx2]; rfl
  · obtain ⟨a, p, hp⟩ := hplace w hw
    exact h.write_answer hp hans f

/-- The strong operations are linearizable: in every run of a cluster with fixed membership that keeps the conditions
`readsKept`, whatever clients call which nodes at the same time, and with processes that die and come back on their files
and their stores, the writes and strong reads can be put in one order that keeps real time and in which one map, taking
them one after the other, gives every answer that was given. -/
theorem strong_operations_linearizable (M : Members) {h : List (Calls × CallsAction)} {s : Calls}
    (hr : M.calls.Run (fun s b => s.readsKept M b = true) h s) : Linearizable keyValueMap s.history := by
  obtain ⟨L, full, pos, ht⟩ := Traced.run hr
  obtain ⟨ws, hws⟩ := ht.logOrder
  exact hws.linearizable

/-- A client writes through the leader A. While the write is on its way another client asks for the key; it is answered
after the write is executed. Then the key is deleted, and A dies before it can tell whether that succeeds. -/
def overlappingCalls : List CallsAction :=
  electA.map .cluster ++ [.call "A" (.put [1] [2])] ++
    ([.run 2 .go {}, .run 2 .go {}, .run 2 .go {}] : List Action).map .cluster ++ [.call "A" (.get [1] false)] ++
    ([.run 1 .go {}, .run 3 .go {}, .run 3 .go {}, .run 4 .go {}, .run 4 .go {}, .deliver 1 {}, .run 5 (.reply 1) {},
      .applierTake "A" {}, .applierSend "A", .consume "A" true, .applierDone "A" {}, .run 1 .go {}, .run 1 .go {},
      .run 3 .go {}] : List Action).map .cluster ++
    [.call "A" (.delete [1]), .cluster (.run 3 .go {}), .cluster (.run 3 .go {}),
      .restart (.life (.crash "A" (.tick 0) .beforeSnapshot false ["B", "C"] {}))]

/-- A comes back, is elected again and takes another write. It is committed together with the one nobody heard of, A
executes all of them once more, and the key is gone. -/
def recoveredCalls : List CallsAction :=
  overlappingCalls ++ ([.tick 2000, .electionTimeout "A" 1500 {}, .run 0 .go {}, .run 0 .go {}, .deliver 2 {},
      .run 1 (.reply 2) {}] : List Action).map .cluster ++ [.call "A" (.put [3] [4])] ++
    ([.run 2 .go {}, .run 2 .go {}, .run 2 .go {}, .run 1 .go {}, .run 2 .go {}, .run 2 .go {}, .run 3 .go {}, .run 3 .go {},
      .deliver 3 {}, .run 4 (.reply 3) {}, .run 3 .go {}, .run 2 .go {}, .run 2 .go {}, .run 3 .go {}, .run 3 .go {},
      .run 3 .go {}, .run 4 .go {}, .run 4 .go {}, .deliver 4 {}, .run 5 (.reply 4) {}, .applierTake "A" {},
      .applierSend "A", .consume "A" true, .applierDone "A" {}, .applierSend "A", .consume "A" true, .applierDone "A" {},
      .applierSend "A", .consume "A" true, .applierDone "A" {}, .run 1 .go {}] : List Action).map .cluster ++
    [.call "A" (.get [1] false), .cluster (.run 4 .go {}), .cluster (.run 4 .go {})]

theorem strong_operations_linearizable_recovered :
    ∃ h s, threeNodes.calls.Run (fun s b => s.readsKept threeNodes b = true) h s ∧
      s.history = [.invoke 0 (.put [1] [2]), .invoke 1 (.get [1] false), .respond 0 .done, .respond 1 (.value (some [2])),
        .invoke 2 (.delete [1]), .invoke 3 (.put [3] [4]), .respond 3 .done, .invoke 4 (.get [1] false),
        .respond 4 (.value none)] ∧
      Linearizable keyValueMap s.history := by
  obtain ⟨h, s, hr, hh⟩ := Machine.exists_run (fun s b => Calls.readsKept threeNodes s b = true)
    (fun _ s => s.history = [.invoke 0 (.put [1] [2]), .invoke 1 (.get [1] false), .respond 0 .done,
      .respond 1 (.value (some [2])), .invoke 2 (.delete [1]), .invoke 3 (.put [3] [4]), .respond 3 .done,
      .invoke 4 (.get [1] false), .respond 4 (.value none)])
    (show threeNodes.calls.init _ from ⟨_, threeNodes.machine_init false false, rfl⟩) recoveredCalls (by decide +kernel)
  exact ⟨h, s, hr, hh, strong_operations_linearizable threeNodes hr⟩

end Calls

end Mimori
