/-
The loop "append or overwrite entries" of `AppendEntries`. It passes over the entries the log has already and over
those below the base; from the first other entry on, everything is written: the log is cut off there, or ends
there, and the rest of the request follows. So a request leaves what lies before it, is in the log afterwards, and
changes nothing when it comes again.
-/
import Mimori.Log.Index
import Mimori.Log.Progress

namespace Mimori

namespace Raft

variable {b i : Int} {log es : List LogEntry} {e x : LogEntry}

/-! ## The loop -/

/-- Entries from beyond the end of the log on are appended. -/
theorem mergeEntries_beyond {b : Int} :
    ∀ {es log : List LogEntry} {i : Int}, Numbered i es → b ≤ i → (log.length : Int) ≤ i - b →
      mergeEntries b log es = log ++ es
  | [], log, _, _, _, _ => (List.append_nil log).symm
  | e :: es, log, i, hn, hb, hlen => by
    obtain ⟨h1, h2⟩ := Numbered.cons_iff.1 hn
    have hnone : log[(e.index - b).toNat]? = none := List.getElem?_eq_none_iff.2 (by omega)
    have hmerge : mergeEntry b log e = log ++ [e] := by
      unfold mergeEntry
      simp only [hnone]
      rw [if_neg (by omega)]
    rw [mergeEntries_cons, hmerge, mergeEntries_beyond h2 (by omega) (by simp; omega), List.append_assoc]
    rfl

/-- The log has an entry of the term of `e` in the place of `e`, unless that is compacted. -/
def Holds (b : Int) (log : List LogEntry) (e : LogEntry) : Prop :=
  b ≤ e.index → ∃ old, log[(e.index - b).toNat]? = some old ∧ old.term = e.term

/-- One turn of the loop leaves a log that holds the entry, or cuts the log off in its place and writes it. -/
theorem mergeEntry_cases (b : Int) (log : List LogEntry) (e : LogEntry) :
    (mergeEntry b log e = log ∧ Holds b log e) ∨
      (b ≤ e.index ∧ ¬ Holds b log e ∧ mergeEntry b log e = log.take (e.index - b).toNat ++ [e]) := by
  unfold mergeEntry
  simp only
  split
  · exact .inl ⟨rfl, fun hb => by omega⟩
  · cases hold : log[(e.index - b).toNat]? with
    | none =>
      have hlen := List.getElem?_eq_none_iff.1 hold
      refine .inr ⟨by omega, fun hh => ?_, by rw [List.take_of_length_le hlen]⟩
      obtain ⟨old, ho, _⟩ := hh (by omega)
      rw [hold] at ho; cases ho
    | some old =>
      simp only
      split
      · rename_i ht
        refine .inr ⟨by omega, fun hh => ?_, rfl⟩
        obtain ⟨old', ho, ht'⟩ := hh (by omega)
        rw [hold] at ho
        cases ho
        exact ht ht'
      · rename_i ht
        exact .inl ⟨rfl, fun _ => ⟨old, hold, not_not.1 ht⟩⟩

/-- The loop leaves a log that holds every entry, or cuts the log off before the first entry it lacks and writes
this one and the rest. -/
theorem mergeEntries_cases (b : Int) (log : List LogEntry) :
    ∀ {es : List LogEntry} {i : Int}, Numbered i es →
      (mergeEntries b log es = log ∧ ∀ e ∈ es, Holds b log e) ∨
        ∃ front e rest, es = front ++ e :: rest ∧ (∀ x ∈ front, Holds b log x) ∧ b ≤ e.index ∧ ¬ Holds b log e ∧
          mergeEntries b log es = log.take (e.index - b).toNat ++ e :: rest
  | [], _, _ => .inl ⟨rfl, fun e he => by cases he⟩
  | e :: es, i, hn => by
    obtain ⟨h1, h2⟩ := Numbered.cons_iff.1 hn
    rw [mergeEntries_cons]
    rcases mergeEntry_cases b log e with ⟨hsame, he⟩ | ⟨hb, hnot, hcut⟩
    · rw [hsame]
      rcases mergeEntries_cases b log h2 with ⟨h3, h4⟩ | ⟨front, x, rest, h3, h4, h5, h6, h7⟩
      · exact .inl ⟨h3, List.forall_mem_cons.2 ⟨he, h4⟩⟩
      · exact .inr ⟨e :: front, x, rest, by rw [h3]; rfl, List.forall_mem_cons.2 ⟨he, h4⟩, h5, h6, h7⟩
    · -- from the first entry that is written on, all are
      refine .inr ⟨[], e, es, rfl, fun x hx => absurd hx (List.not_mem_nil), hb, hnot, ?_⟩
      have hlen : ((log.take (e.index - b).toNat ++ [e]).length : Int) ≤ i + 1 - b := by
        rw [List.length_append, List.length_take, List.length_singleton]; omega
      rw [hcut, mergeEntries_beyond h2 (by omega) hlen, List.append_assoc]
      rfl

theorem mergeEntries_of_holds (h : ∀ e ∈ es, Holds b log e) : mergeEntries b log es = log := by
  induction es with
  | nil => rfl
  | cons e es ih =>
    rw [mergeEntries_cons]
    rcases mergeEntry_cases b log e with ⟨hsame, _⟩ | ⟨_, hnot, _⟩
    · rw [hsame]; exact ih fun x hx => h x (List.mem_cons_of_mem e hx)
    · exact absurd (h e List.mem_cons_self) hnot

theorem holds_of_mem (hn : Numbered b log) (he : e ∈ log) : Holds b log e := by
  intro _
  obtain ⟨k, hk⟩ := List.mem_iff_getElem?.1 he
  have hidx := hn k e hk
  exact ⟨e, by rw [show (e.index - b).toNat = k by omega]; exact hk, rfl⟩

/-- The entries of a list of consecutive ones, counted from the one at a split. -/
theorem Numbered.split {front rest : List LogEntry} (h : Numbered i (front ++ e :: rest)) :
    e.index = i + front.length ∧ ∀ x ∈ front, x.index < e.index := by
  have he := h front.length e (by rw [List.getElem?_append_right (le_refl _), Nat.sub_self]; rfl)
  refine ⟨he, fun x hx => ?_⟩
  obtain ⟨k, hk⟩ := List.mem_iff_getElem?.1 hx
  have hlen := (List.getElem?_eq_some_iff.1 hk).1
  have hidx := h k x (by rw [List.getElem?_append_left hlen]; exact hk)
  omega

theorem mergeEntries_holds (hlog : Numbered b log) (hne : log ≠ []) (hes : Numbered (i + 1) es)
    (hi : i + 1 ≤ b + log.length) : ∀ e ∈ es, Holds b (mergeEntries b log es) e := by
  have hnum := (mergeEntries_numbered hlog hne hes hi).1
  rcases mergeEntries_cases b log hes with ⟨hsame, hall⟩ | ⟨front, e, rest, rfl, hfront, hb, _, hcut⟩
  · rw [hsame]; exact hall
  · intro x hx
    rcases List.mem_append.1 hx with hx | hx
    · -- what was passed over lies below the cut
      intro hbx
      have hlt := (Numbered.split hes).2 x hx
      obtain ⟨old, hold, ht⟩ := hfront x hx hbx
      have hlen := (List.getElem?_eq_some_iff.1 hold).1
      refine ⟨old, ?_, ht⟩
      rw [hcut, List.getElem?_append_left (by rw [List.length_take]; omega), List.getElem?_take, if_pos (by omega)]
      exact hold
    · rw [hcut] at hnum ⊢
      exact holds_of_mem hnum (List.mem_append_right _ hx)

theorem mergeEntries_below (hes : Numbered (i + 1) es) (hi : i + 1 ≤ b + log.length) {k : Nat} (hk : (k : Int) ≤ i - b) :
    (mergeEntries b log es)[k]? = log[k]? := by
  rcases mergeEntries_cases b log hes with ⟨hsame, _⟩ | ⟨front, e, rest, rfl, _, hb, _, hcut⟩
  · rw [hsame]
  · have he := (Numbered.split hes).1
    rw [hcut, List.getElem?_append_left (by rw [List.length_take]; omega), List.getElem?_take, if_pos (by omega)]

/-- Beyond the last entry the loop leaves the log as it is, or leaves nothing. -/
theorem mergeEntries_above (hes : Numbered (i + 1) es) {k : Nat} (hk : i + es.length - b < k) :
    (mergeEntries b log es = log ∧ ∀ e ∈ es, Holds b log e) ∨
      ((mergeEntries b log es)[k]? = none ∧ ∃ e ∈ es, b ≤ e.index ∧ e.index - b < k ∧ ¬ Holds b log e) := by
  rcases mergeEntries_cases b log hes with hsame | ⟨front, e, rest, rfl, _, hb, hnot, hcut⟩
  · exact .inl hsame
  · right
    have he := (Numbered.split hes).1
    rw [List.length_append, List.length_cons] at hk
    push_cast at hk
    refine ⟨?_, e, by simp, hb, by omega, hnot⟩
    rw [hcut, List.getElem?_eq_none_iff, List.length_append, List.length_take, List.length_cons]
    omega

end Raft

/-- The last index a request reaches. -/
def AppendEntriesRequest.lastIndex (req : AppendEntriesRequest) : Int := req.prevLogIndex + req.entries.length

namespace Raft

variable {r r' : Raft} {req : AppendEntriesRequest} {i : Int} {io io' : Io}

/-- The request brings another term for one of the entries of the log. -/
def contradicts (r : Raft) (req : AppendEntriesRequest) : Bool :=
  req.entries.any fun e => (r.entryAt e.index).any fun old => old.term != e.term

theorem contradicts_eq_false (h : ∀ e ∈ req.entries, Holds r.logBaseIndex r.log e) : r.contradicts req = false := by
  rw [contradicts, List.any_eq_false]
  intro e he hany
  obtain ⟨old, hold, hne⟩ := (Option.any_eq_true _ _).1 hany
  have hb := base_le_of_entryAt hold
  obtain ⟨old', hold', ht⟩ := h e he hb
  rw [entryAt_getElem? hb, hold'] at hold
  cases hold
  simp [ht] at hne

/-- An entry the log lacks and that contradicts nothing lies beyond the end of the log. -/
theorem length_le_of_not_contradicts (hc : r.contradicts req = false) {e : LogEntry} (he : e ∈ req.entries)
    (hb : r.logBaseIndex ≤ e.index) (hnot : ¬ Holds r.logBaseIndex r.log e) :
    (r.log.length : Int) ≤ e.index - r.logBaseIndex := by
  by_contra hlt
  refine hnot fun _ => ?_
  have hget := List.getElem?_eq_getElem (show (e.index - r.logBaseIndex).toNat < r.log.length by omega)
  refine ⟨_, hget, ?_⟩
  rw [contradicts, List.any_eq_false] at hc
  have hno := hc e he
  rw [entryAt_getElem? hb, hget] at hno
  simpa using hno

/-! ## AppendEntries -/

/-- The check finds the previous index in the log, or lets a request pass that starts at the beginning. -/
theorem Merges.prev_le (hm : Merges r r' req) (hbase : 0 ≤ r.logBaseIndex) (hne : r.log ≠ []) :
    req.prevLogIndex + 1 ≤ r.logBaseIndex + r.log.length := by
  have hpos := List.length_pos_iff.2 hne
  rcases logConsistent_cases hm.consistent with hz | ⟨e, he, _⟩
  · omega
  · have hb := base_le_of_entryAt he
    rw [entryAt_getElem? hb] at he
    have := (List.getElem?_eq_some_iff.1 he).1
    omega

theorem Merges.entryAt_below (hm : Merges r r' req) (hbase : 0 ≤ r.logBaseIndex) (hne : r.log ≠ [])
    (hn : Numbered (req.prevLogIndex + 1) req.entries) (hi : i ≤ req.prevLogIndex) : r'.entryAt i = r.entryAt i := by
  by_cases hb : r.logBaseIndex ≤ i
  · rw [entryAt_getElem? (by rw [hm.base]; exact hb), entryAt_getElem? hb, hm.base, hm.log]
    exact mergeEntries_below hn (hm.prev_le hbase hne) (by omega)
  · rw [entryAt_eq_none (by rw [hm.base]; omega), entryAt_eq_none (by omega)]

/-- An entry sent was there already, or was put there. -/
theorem Merges.entryAt_sent (hm : Merges r r' req) (hbase : 0 ≤ r.logBaseIndex) (hne : r.log ≠ [])
    (hlog : Numbered r.logBaseIndex r.log) (hn : Numbered (req.prevLogIndex + 1) req.entries) {e : LogEntry}
    (he : e ∈ req.entries) (hb : r.logBaseIndex ≤ e.index) :
    ∃ old, r'.entryAt e.index = some old ∧ old.term = e.term := by
  obtain ⟨old, hold, ht⟩ := mergeEntries_holds hlog hne hn (hm.prev_le hbase hne) e he hb
  refine ⟨old, ?_, ht⟩
  rw [entryAt_getElem? (by rw [hm.base]; exact hb), hm.base, hm.log]; exact hold

/-- Handling an accepted request once more changes neither the log nor the commit index. -/
theorem appendEntries_again (hbase : 0 ≤ r.logBaseIndex) (hne : r.log ≠ []) (hlog : Numbered r.logBaseIndex r.log)
    (hn : Numbered (req.prevLogIndex + 1) req.entries) (hm : Merges r r' req) (hf : Follows r r' req.leaderCommit) :
    (r'.appendEntries req io').1.log = r'.log ∧ (r'.appendEntries req io').1.commitIndex = r'.commitIndex := by
  have hholds : ∀ e ∈ req.entries, Holds r'.logBaseIndex r'.log e := by
    rw [hm.base, hm.log]
    exact mergeEntries_holds hlog hne hn (hm.prev_le hbase hne)
  have hlog' : (r'.appendEntries req io').1.log = r'.log ∧
      (r'.appendEntries req io').1.logBaseIndex = r'.logBaseIndex := by
    rcases appendEntries_merges r' req io' with ⟨_, h⟩ | ⟨_, h⟩
    · exact ⟨h.log, h.base⟩
    · exact ⟨h.log.trans (mergeEntries_of_holds hholds), h.base⟩
  refine ⟨hlog'.1, ?_⟩
  rcases appendEntries_follows r' req io' with ⟨_, h⟩ | ⟨_, h⟩
  · exact h.commit
  · have hlast : (r'.appendEntries req io').1.lastLogIndex = r'.lastLogIndex := by
      unfold lastLogIndex
      rw [hlog'.1, hlog'.2]
    -- both times the commit index goes to the lesser of the leader's and the last index, which is the same
    have h1 := hf.commit
    have h2 := h.commit
    rw [hlast] at h2
    split at h1 <;> split at h2
    · split at h1 <;> split at h2 <;> omega
    · omega
    · omega
    · omega

/-- `AppendEntries` merges correctly: for a node with a well-indexed log and a base that is not negative, and a
request with consecutive entries. If it is accepted, the log is well-indexed again, has the term of every entry
sent, is as before up to the previous index, and has beyond the last entry sent what it had before, or nothing if an
entry sent contradicted the log; and the same request changes nothing when it is handled again. If it is not
accepted, the log and the commit index are as before. -/
theorem appendEntries_merges_correctly (hbase : 0 ≤ r.logBaseIndex) (hne : r.log ≠ [])
    (hlog : Numbered r.logBaseIndex r.log) (hn : Numbered (req.prevLogIndex + 1) req.entries) :
    ((r.appendEntries req io).2.success = true →
      (Numbered (r.appendEntries req io).1.logBaseIndex (r.appendEntries req io).1.log ∧
        (r.appendEntries req io).1.log ≠ [] ∧ (r.appendEntries req io).1.logBaseIndex = r.logBaseIndex) ∧
      (∀ e ∈ req.entries, r.logBaseIndex ≤ e.index →
        ∃ old, (r.appendEntries req io).1.entryAt e.index = some old ∧ old.term = e.term) ∧
      (∀ i ≤ req.prevLogIndex, (r.appendEntries req io).1.entryAt i = r.entryAt i) ∧
      (∀ i, req.lastIndex < i →
        (r.appendEntries req io).1.entryAt i = if r.contradicts req then none else r.entryAt i) ∧
      ((r.appendEntries req io).1.appendEntries req io').1.log = (r.appendEntries req io).1.log ∧
      ((r.appendEntries req io).1.appendEntries req io').1.commitIndex = (r.appendEntries req io).1.commitIndex) ∧
    ((r.appendEntries req io).2.success = false →
      (r.appendEntries req io).1.log = r.log ∧ (r.appendEntries req io).1.commitIndex = r.commitIndex) := by
  constructor
  · intro hs
    rcases appendEntries_merges r req io with ⟨hf, _⟩ | ⟨_, hm⟩
    · rw [hf] at hs; cases hs
    rcases appendEntries_follows r req io with ⟨hf, _⟩ | ⟨_, hfol⟩
    · rw [hf] at hs; cases hs
    have hprev := hm.prev_le hbase hne
    generalize (r.appendEntries req io).1 = r' at hm hfol ⊢
    obtain ⟨hnum, hne'⟩ := mergeEntries_numbered hlog hne hn hprev
    refine ⟨⟨by rw [hm.base, hm.log]; exact hnum, by rw [hm.log]; exact hne', hm.base⟩,
      fun e he hb => hm.entryAt_sent hbase hne hlog hn he hb, fun i hi => hm.entryAt_below hbase hne hn hi,
      fun i hi => ?_, appendEntries_again hbase hne hlog hn hm hfol⟩
    · by_cases hb : r.logBaseIndex ≤ i
      · rw [entryAt_getElem? (by rw [hm.base]; exact hb), entryAt_getElem? hb, hm.base, hm.log]
        unfold AppendEntriesRequest.lastIndex at hi
        have hk : req.prevLogIndex + req.entries.length - r.logBaseIndex < (i - r.logBaseIndex).toNat := by omega
        rcases @mergeEntries_above _ _ r.log _ hn _ hk with ⟨hsame, hall⟩ | ⟨hnone, e, he, hbe, hlt, hnot⟩
        · rw [hsame, contradicts_eq_false hall]; rfl
        · -- the log was cut; without a contradiction it ended before the entry that was appended
          rw [hnone]
          split
          · rfl
          · rename_i hc
            have hlen := length_le_of_not_contradicts (Bool.eq_false_iff.2 hc) he hbe hnot
            exact (List.getElem?_eq_none_iff.2 (by omega)).symm
      · rw [entryAt_eq_none (by rw [hm.base]; omega), entryAt_eq_none (by omega), ite_self]
  · intro hs
    rcases appendEntries_merges r req io with ⟨_, h⟩ | ⟨ht, _⟩
    · rcases appendEntries_follows r req io with ⟨_, h'⟩ | ⟨ht, _⟩
      · exact ⟨h.log, h'.commit⟩
      · rw [ht] at hs; cases hs
    · rw [ht] at hs; cases hs

/-- A follower with a compacted log, and a request that contradicts its entry 4. -/
def compactedFollower : Raft where
  id := "B"
  peers := ["A", "C"]
  term := 1
  log := [boundary 2 1, ⟨3, 1, .put [1] [1]⟩, ⟨4, 1, .put [1] [2]⟩, ⟨5, 1, .put [1] [3]⟩]
  logBaseIndex := 2
  commitIndex := 2

@[inherit_doc compactedFollower]
def contradictingRequest : AppendEntriesRequest := ⟨2, "A", 3, 1, [⟨4, 2, .delete [1]⟩], 3⟩

theorem appendEntries_merges_correctly_compacted :
    (compactedFollower.appendEntries contradictingRequest {}).2.success = true ∧
      (compactedFollower.appendEntries contradictingRequest {}).1.entryAt 3 = some ⟨3, 1, .put [1] [1]⟩ ∧
      (compactedFollower.appendEntries contradictingRequest {}).1.entryAt 5 = none := by
  have hs : (compactedFollower.appendEntries contradictingRequest {}).2.success = true := by decide
  obtain ⟨_, _, hbelow, habove, _⟩ := (@appendEntries_merges_correctly compactedFollower contradictingRequest {} {}
    (by decide) (by decide) (by decide) (by decide)).1 hs
  exact ⟨hs, hbelow 3 (by decide), habove 5 (by decide)⟩

/-- With a base below 0 a request from the beginning leaves a gap: index 0 is not checked, and the entry is
appended where the log ends. -/
theorem negativeBase_leaves_gap :
    let r : Raft := { id := "B", peers := ["A"], log := [boundary (-3) 0], logBaseIndex := -3 }
    let req : AppendEntriesRequest := ⟨1, "A", 0, 0, [⟨1, 1, .put [1] [1]⟩], 0⟩
    (r.log ≠ [] ∧ Numbered r.logBaseIndex r.log ∧ r.isKnownNode req.leaderId = true ∧ r.term ≤ req.term ∧
        Numbered (req.prevLogIndex + 1) req.entries) ∧
      (r.appendEntries req {}).2.success = true ∧
      ¬ Numbered (r.appendEntries req {}).1.logBaseIndex (r.appendEntries req {}).1.log := by
  decide

end Raft

end Mimori
