/-
Leader completeness. What a majority of the members has accepted in the term of its leader is in the log of
every later leader: a voter that accepted it has it still, because what was written over its log since came
from leaders that have it, and it votes only for a log at least as up to date as its own. A snapshot replaces
only what is committed, so that compaction and InstallSnapshot do not change this.
-/
import Mimori.Commit.Acks

namespace Mimori

open Raft TermLog

theorem Ledger.led_of_ne_nil (L : Ledger) {T : Int} (h : L.log T ≠ []) : ∃ n, L.lead T = some n := by
  cases hl : L.lead T with
  | none => exact absurd (L.vacant T hl) h
  | some n => exact ⟨n, rfl⟩

namespace Cluster

variable {M : Members} {s s' : Cluster} {a : Action} {n p : NodeID} {T : Int} {m : Nat} {L L' : Ledger}
  {full full' : NodeID → List LogEntry}

/-! ## What the members hold -/

/-- A leader holds its log, and who accepted a request holds the log of its term up to the end of it. -/
def view (L : Ledger) (s : Cluster) : View NodeID LogEntry Int where
  now n := (s.raft n).term
  led T := ∃ n, L.lead T = some n
  log := L.log
  holds p T m := m ≤ (L.log T).length ∧ (L.lead T = some p ∨ ∃ n, s.Acked n p T m)

/-- The first `m` entries of the log of term `T` may be chosen by the members. -/
abbrev MayChoose (M : Members) (L : Ledger) (s : Cluster) (T : Int) (m : Nat) : Prop :=
  Choosable LogEntry.term (view L s) M.ids.toFinset T m

/-- The first `c` entries of `p` are chosen by the members, in a term up to `T`. -/
abbrev ChosenUpTo (M : Members) (L : Ledger) (s : Cluster) (T : Int) (c : Nat) (p : List LogEntry) : Prop :=
  Settled LogEntry.term (view L s) M.ids.toFinset T c p

structure CompleteInv (M : Members) (L : Ledger) (full : NodeID → List LogEntry) (s : Cluster) : Prop where
  inv : CountInv M L full s
  acked : ∀ n p T m, s.Acked n p T m → T ≤ (s.raft p).term
  complete : Complete LogEntry.term (view L s) M.ids.toFinset
  kept : ∀ p T m, MayChoose M L s T m → (view L s).holds p T m → (full p).take m = (L.log T).take m
  asked : ∀ q ∈ s.requests, ∀ req, q.req = .requestVote req → (s.raft q.src).term = req.term →
    L.lead req.term = none → req.lastLogIndex = (full q.src).length ∧
      req.lastLogTerm = termAt LogEntry.term 0 (full q.src) (full q.src).length
  voted : ∀ p n T, s.Granted p n T → (s.raft n).term = T → L.lead T = none →
    ∀ t m, t < T → MayChoose M L s t m → (view L s).holds p t m → (full n).take m = (L.log t).take m

/-- What is compacted and what snapshots bring is chosen. -/
structure Settles (M : Members) (L : Ledger) (full : NodeID → List LogEntry) (s : Cluster) : Prop where
  base : ∀ n, ChosenUpTo M L s (s.raft n).term (s.raft n).logBaseIndex.toNat (full n)
  install : ∀ q ∈ s.requests, ∀ req, q.req = .installSnapshot req →
    ChosenUpTo M L s req.term req.lastIncludedIndex.toNat (L.log req.lastIncludedTerm)

/-! ## A step and what the members hold -/

theorem LogInv.acked_length (h : LogInv M L full s) (hack : s.Acked n p T m) : m ≤ (L.log T).length := by
  obtain ⟨call, req, resp, hp, _, _, rfl, hm⟩ := hack
  have hseg := h.carried.append _ (List.mem_of_getElem? hp) req rfl
  have hlen := hseg.entries_length
  have hnn := hseg.nonneg
  omega

/-- A leader whose log has grown by an entry of its term still leads it. -/
theorem LogInv.appended_term (h : LogInv M L full s) (hL : Ledger.Extends L L') (h' : LogInv M L' full' s')
    (hok : s.logsKept a = true) (hs : s.step a = some s') (ha : s.accepts a = none)
    (hl : (s.raft n).state = .leader) {e : LogEntry} (he : full' n = full n ++ [e]) (ht : e.term = (s.raft n).term) :
    (s'.raft n).term = (s.raft n).term := by
  have hlen : (full' n).length = (full n).length + 1 := by rw [he, List.length_append, List.length_singleton]
  have hm := h.moves hL h' hok hs n
  generalize hf : full' n = p' at hm
  cases hm with
  | same => rw [hf] at hlen; omega
  | append _ _ ht => exact ht
  | merge _ _ _ ha' => rw [ha] at ha'; cases ha'
  | install call io src req _ _ _ _ htake hdrop =>
    -- a snapshot that brings the entry would come from the log of its leader, which does not have it
    have hdl := congrArg List.length hdrop
    rw [← hf, List.length_drop, List.length_drop] at hdl
    rw [← hf, List.take_of_length_le (by omega), he] at htake
    have hget : (L.log req.lastIncludedTerm)[(full n).length]? = some e := by
      have := congrArg (fun l => l[(full n).length]?) htake
      simp only [List.getElem?_concat_length] at this
      rw [List.getElem?_take] at this
      split at this
      · exact this.symm
      · cases this
    have hpath := congrArg List.length (L.path req.lastIncludedTerm _ e hget)
    rw [ht, h.nodes.current n hl, List.length_take, List.length_take] at hpath
    have := (List.getElem?_eq_some_iff.1 hget).1
    omega

/-- Who holds something after a step held it before, accepts it now, or leads its term. -/
theorem Stepped.holds_cases (h : Stepped M s a s' L full L' full') (hh : (view L' s').holds p T m) :
    (view L s).holds p T m ∨
      (∃ src req, s.accepts a = some (src, p, req) ∧ req.term = T ∧
        (m : Int) ≤ req.prevLogIndex + req.entries.length) ∨
      ((s'.raft p).state = .leader ∧ (s'.raft p).term = T) := by
  obtain ⟨hlen, hlead | ⟨n, hack⟩⟩ := hh
  · by_cases hin : (s'.raft p).state = .leader ∧ (s'.raft p).term = T
    · exact .inr (.inr hin)
    · -- it does not lead the term any more, whose log is what it was
      left
      have hgrown := fun n e => h.before.logs.appended_term (n := n) (e := e) h.extends h.after.logs h.logsKept h.step
      have hmove := h.before.logs.stable.elect.fixed.termMove h.step p
      cases h.evolves with
      | same => exact ⟨hlen, .inl hlead⟩
      | merge => exact ⟨hlen, .inl hlead⟩
      | install => exact ⟨hlen, .inl hlead⟩
      | elect k hl =>
        rw [Ledger.grow_lead, Function.update_apply] at hlead
        split at hlead
        · rename_i hT
          cases hlead
          exact absurd ⟨hl, hT.symm⟩ hin
        · rename_i hT
          rw [Ledger.grow_log, Function.update_of_ne hT] at hlen
          exact ⟨hlen, .inl hlead⟩
      | append k e hl ht ha =>
        rw [Ledger.grow_lead, Function.update_apply] at hlead
        split at hlead
        · rename_i hT
          cases hlead
          have hterm := hgrown p e ha hl (Function.update_self ..) ht
          refine absurd ⟨hmove.leader hl hterm, hterm.trans hT.symm⟩ hin
        · rename_i hT
          rw [Ledger.grow_log, Function.update_of_ne hT] at hlen
          exact ⟨hlen, .inl hlead⟩
  · rcases acked_of_step h.before.logs.stable.elect.votes.replied h.step hack with hack | ⟨req, ha, ht, hm⟩
    · exact .inl ⟨h.before.logs.acked_length hack, .inr ⟨n, hack⟩⟩
    · exact .inr (.inl ⟨n, req, ha, ht, hm⟩)

theorem Stepped.advances (h : Stepped M s a s' L full L' full') : Advances (view L s) (view L' s') := by
  have hext := h.extends
  have hle := h.le_term
  refine ⟨hle, hext.log, ?_, fun p T m hh => ?_⟩
  · rintro p T m ⟨hlen, hlead | ⟨n, hack⟩⟩
    · exact ⟨le_trans hlen (hext.log T).length_le, .inl (hext.lead T p hlead)⟩
    · exact ⟨le_trans hlen (hext.log T).length_le, .inr ⟨n, hack.step h.step⟩⟩
  · rcases h.holds_cases hh with hh | ⟨src, req, ha, rfl, _⟩ | ⟨_, rfl⟩
    · exact .inl hh
    · right
      rw [← step_accepts_term h.step ha]; exact hle p
    · exact .inr (hle p)

theorem CompleteInv.holds_term (h : CompleteInv M L full s) (hh : (view L s).holds p T m) : T ≤ (s.raft p).term := by
  obtain ⟨_, hlead | ⟨n, hack⟩⟩ := hh
  · exact (h.inv.logs.lead.office T p hlead).1
  · exact h.acked n p T m hack

/-- The request a node accepts is a segment of the log of its term's leader. -/
theorem LogInv.accepts_segment (h : LogInv M L full s) (hs : s.step a = some s') {src : NodeID}
    {req : AppendEntriesRequest} (ha : s.accepts a = some (src, p, req)) :
    L.Segment src req.term req.prevLogIndex req.prevLogTerm req.entries := by
  obtain ⟨_, _, _, hp, _⟩ := step_accepts hs ha
  exact h.carried.append _ (List.mem_of_getElem? hp) req rfl

/-- A node that accepts a request has the log of its term up to the end of the request. -/
theorem CompleteInv.accepted (h : CompleteInv M L full s) (hset : Settles M L full s)
    (hst : Stepped M s a s' L full L' full') {src : NodeID} {req : AppendEntriesRequest}
    (ha : s.accepts a = some (src, p, req)) :
    Overwritten (full p) (L.log req.term) (req.prevLogIndex.toNat + req.entries.length) (full' p) := by
  refine hst.before.logs.accepted hst.extends hst.after.logs hst.step ha (Eq.symm ?_)
  refine h.complete.settled (hset.base p) ?_ ⟨src, (h.inv.logs.accepts_segment hst.step ha).lead⟩
  rw [← step_accepts_term hst.step ha]; exact hst.le_term p

/-- What a snapshot on its way stands for is in the log of its sender. -/
theorem CompleteInv.install_take (h : CompleteInv M L full s) (hset : Settles M L full s) {src : NodeID}
    {req : InstallSnapshotRequest} (hq : ⟨src, p, .installSnapshot req⟩ ∈ s.requests) :
    (L.log req.term).take req.lastIncludedIndex.toNat = (L.log req.lastIncludedTerm).take req.lastIncludedIndex.toNat :=
  h.complete.settled (hset.install _ hq req rfl) (le_refl _) ⟨src, (h.inv.logs.carried.install _ hq req rfl).2⟩

/-- What a node has in common with the log of every leader it may hear from, it keeps. -/
theorem CompleteInv.keeps (h : CompleteInv M L full s) (hset : Settles M L full s)
    (hst : Stepped M s a s' L full L' full') {l : List LogEntry} (hl : (full p).take m = l.take m) (hlen : m ≤ l.length)
    (hlead : ∀ T, (s.raft p).term ≤ T → (∃ n, L.lead T = some n) → (L.log T).take m = l.take m) :
    (full' p).take m = l.take m := by
  have hle := hst.le_term p
  have hm := hst.moves p
  generalize hf : full' p = p' at hm
  cases hm with
  | same => exact hl
  | append e => rw [List.take_append_of_le_length (le_length_of_take_eq hl hlen)]; exact hl
  | merge src req _ ha =>
    have heq := hlead req.term (by rw [← step_accepts_term hst.step ha]; exact hle)
      ⟨src, (h.inv.logs.accepts_segment hst.step ha).lead⟩
    rw [← hf, (h.accepted hset hst ha).keeps (hl.trans heq.symm), heq]
  | install call io src req _ ha hp hterm htake hdrop =>
    -- the snapshot is in the log of its sender, which agrees with `l`
    have hmem := List.mem_of_getElem? hp
    have hsnap := h.install_take hset hmem
    have heq := hlead req.term hterm ⟨src, (h.inv.logs.carried.install _ hmem req rfl).2⟩
    generalize req.lastIncludedIndex.toNat = i at htake hdrop hsnap
    have hcommon : ∀ j, j ≤ i → j ≤ m → p'.take j = l.take j := by
      intro j hji hjm
      rw [take_eq_of_le htake hji, ← take_eq_of_le hsnap hji, take_eq_of_le heq hjm]
    rcases Nat.le_total m i with hmi | hmi
    · exact hcommon m hmi (le_refl _)
    · have hsplit : p' = (full p).take i ++ (full p).drop i := by
        rw [← hdrop, take_eq_of_le hl hmi, ← hcommon i (le_refl _) hmi, List.take_append_drop]
      rw [hsplit, List.take_append_drop]; exact hl

theorem CompleteInv.kept_step (h : CompleteInv M L full s) (hset : Settles M L full s)
    (hst : Stepped M s a s' L full L' full') (hc : MayChoose M L' s' T m) (hh : (view L' s').holds p T m) :
    (full' p).take m = (L'.log T).take m := by
  have hadv := hst.advances
  rcases hst.holds_cases hh with hh | ⟨src, req, ha, rfl, hm⟩ | ⟨hl, rfl⟩
  · have hc := hc.back hadv (hc.tip.of_le (hadv.log T) hh.1)
    have hlog : (L'.log T).take m = (L.log T).take m := take_of_isPrefix (hadv.log T) hh.1
    rw [hlog]
    refine h.keeps hset hst (h.kept p T m hc hh) hh.1 fun T' hT' hled => ?_
    rcases lt_or_eq_of_le (le_trans (h.holds_term hh) hT') with hlt | rfl
    · exact h.complete T T' m hlt hled hc
    · rfl
  · have hseg := h.inv.logs.accepts_segment hst.step ha
    have hnn := hseg.nonneg
    have hlen := hseg.entries_length
    have hlog : (L'.log req.term).take m = (L.log req.term).take m := take_of_isPrefix (hadv.log _) (by
      show m ≤ (L.log req.term).length
      omega)
    rw [hlog]
    exact take_eq_of_le (h.accepted hset hst ha).take (by omega)
  · rw [hst.after.logs.nodes.current p hl]

/-! ## Votes -/

theorem ElectionInv.granted_le (h : ElectionInv M s) (hs : s.step a = some s') (hg : s'.Granted p n T) :
    T ≤ (s.raft n).term := by
  rcases granted_of_step h.votes.replied hs hg with ⟨call, _, ⟨req, hp, rfl, _⟩, _⟩ | ⟨call, _, req, _, hp, rfl, _⟩
  · exact (h.votes.request call n p req hp).2.2
  · exact (h.votes.request call n p req hp).2.2

/-- A vote carries over to the candidate's log what the voter has. -/
theorem CompleteInv.granting (h : CompleteInv M L full s) {call : Nat} {req : RequestVoteRequest} {io : Io}
    (hp : s.requests[call]? = some ⟨n, p, .requestVote req⟩)
    (hg : ((s.raft p).requestVote req io).2.voteGranted = true) (hT : (s.raft n).term = req.term)
    (hnone : L.lead req.term = none) {t : Int} (hc : MayChoose M L s t m) (hh : (view L s).holds p t m) :
    (full n).take m = (L.log t).take m := by
  obtain ⟨_, _, r₁, rfl, hup, _, _⟩ := requestVote_granted hg
  obtain ⟨hidx, hterm⟩ := h.asked _ (List.mem_of_getElem? hp) req rfl hT hnone
  have hkept := h.kept p t m hc hh
  obtain ⟨k, x, rfl, hx, hxt⟩ := id hc.tip
  have hw := (h.inv.logs.nodes.whole p).of_same (adoptTerm_data (s.raft p) req.term io).toSameLog
  have hlast : ((s.raft p).adoptTerm req.term io).lastLogIndex = (full p).length := by
    rw [← (h.inv.logs.nodes.whole p).lastLogIndex (h.inv.logs.stable.index.node p)]
    unfold Raft.lastLogIndex
    rw [(adoptTerm_data (s.raft p) req.term io).log, (adoptTerm_data (s.raft p) req.term io).base]
  have hxb := L.terms t x (List.mem_of_getElem? hx)
  refine Path.carries (d := 0) (fun t x hx => (L.terms t x hx).2) (h.inv.logs.nodes.sound p).path
    (h.inv.logs.nodes.sound n).path (L.path t) hx hxb.1 hkept ?_ fun z hz hlt => ?_
  · simp only [upToDate, hidx, hterm, hw.lastLogTerm, hlast, Bool.or_eq_true, Bool.and_eq_true, decide_eq_true_eq,
      beq_iff_eq, gt_iff_lt, ge_iff_le, Nat.cast_le] at hup
    rcases hup with hup | ⟨h1, h2⟩
    · exact .inl hup
    · exact .inr ⟨h1.symm, h2⟩
  · exact h.complete t z.term _ (hxt ▸ hlt) (L.led_of_ne_nil ((h.inv.logs.nodes.sound n).path.ne_nil hz)) hc

theorem CompleteInv.granted (h : CompleteInv M L full s) (hs : s.step a = some s') (hg : s'.Granted p n T)
    (hT : (s'.raft n).term = T) (hnone : L.lead T = none) {t : Int} (ht : t < T) (hc : MayChoose M L s t m)
    (hh : (view L s).holds p t m) : (full n).take m = (L.log t).take m := by
  have hterm : (s.raft n).term = T :=
    le_antisymm (hT ▸ step_le_term hs n) (h.inv.logs.stable.elect.granted_le hs hg)
  rcases granted_of_step h.inv.logs.stable.elect.votes.replied hs hg with hg | ⟨call, io, req, _, hp, rfl, _, hg⟩
  · exact h.voted p n T hg hterm hnone t m ht hc hh
  · exact h.granting hp hg hterm hnone hc hh

/-- While nobody leads its term, the log of a node stays what it is. -/
theorem Stepped.full_same (h : Stepped M s a s' L full L' full') (hT : (s.raft n).term = T)
    (hT' : (s'.raft n).term = T) (hnone : L.lead T = none) : full' n = full n := by
  have hlogs := h.before.logs
  have hm := h.moves n
  generalize full' n = p' at hm
  cases hm with
  | same => rfl
  | append _ hl => rw [← hT, hlogs.lead.leader n hl] at hnone; cases hnone
  | merge src req _ ha =>
    rw [← hT', step_accepts_term h.step ha, (hlogs.accepts_segment h.step ha).lead] at hnone; cases hnone
  | install call io src req _ ha hp hterm =>
    rw [← hT', (step_installs h.step ha hp hterm).term,
      (hlogs.carried.install _ (List.mem_of_getElem? hp) req rfl).2] at hnone
    cases hnone

theorem Stepped.vacant (h : Stepped M s a s' L full L' full') (hnone : L'.lead T = none) : L.lead T = none := by
  cases hl : L.lead T with
  | none => rfl
  | some k => rw [h.extends.lead T k hl] at hnone; cases hnone

theorem CompleteInv.voted_step (h : CompleteInv M L full s) (hst : Stepped M s a s' L full L' full')
    (hg : s'.Granted p n T) (hT : (s'.raft n).term = T) (hnone : L'.lead T = none) {t : Int} (ht : t < T)
    (hc : MayChoose M L' s' t m) (hh : (view L' s').holds p t m) : (full' n).take m = (L'.log t).take m := by
  have hadv := hst.advances
  have hvoter : T ≤ (s'.raft p).term := (hst.after.logs.stable.elect.votes.voted p n T hg).2.1
  have hold : (view L s).holds p t m := by
    rcases hst.holds_cases hh with hh | ⟨src, req, ha, rfl, _⟩ | ⟨_, rfl⟩
    · exact hh
    · rw [step_accepts_term hst.step ha] at hvoter; omega
    · omega
  have hterm : (s.raft n).term = T :=
    le_antisymm (hT ▸ hst.le_term n) (h.inv.logs.stable.elect.granted_le hst.step hg)
  have hlog : (L'.log t).take m = (L.log t).take m := take_of_isPrefix (hadv.log t) hold.1
  rw [hst.full_same hterm hT (hst.vacant hnone), hlog]
  exact h.granted hst.step hg hT (hst.vacant hnone) ht (hc.back hadv (hc.tip.of_le (hadv.log t) hold.1)) hold

/-- A vote request names the last entry of the candidate's log, as long as nobody leads its term. -/
theorem CompleteInv.asked_step (h : CompleteInv M L full s) (hst : Stepped M s a s' L full L' full') {q : Packet}
    (hq : q ∈ s'.requests) {req : RequestVoteRequest} (hreq : q.req = .requestVote req)
    (hT : (s'.raft q.src).term = req.term) (hnone : L'.lead req.term = none) :
    req.lastLogIndex = (full' q.src).length ∧
      req.lastLogTerm = termAt LogEntry.term 0 (full' q.src) (full' q.src).length := by
  have hbefore := hst.vacant hnone
  -- a candidate that stays in a term without a leader does not touch its log
  have hsame : req.term ≤ (s.raft q.src).term → full' q.src = full q.src ∧ (s.raft q.src).term = req.term := by
    intro hle
    have hterm := le_antisymm (hT ▸ hst.le_term q.src) hle
    exact ⟨hst.full_same hterm hT hbefore, hterm⟩
  have hvotes := h.inv.logs.stable.elect.votes
  have hold : q ∈ s.requests → req.lastLogIndex = (full' q.src).length ∧
      req.lastLogTerm = termAt LogEntry.term 0 (full' q.src) (full' q.src).length := by
    intro hq
    obtain ⟨call, hcall⟩ := List.getElem?_of_mem hq
    obtain ⟨hfull, hterm⟩ := hsame ((hvotes.request call q.src q.dst req (by rw [hcall, ← hreq])).2.2)
    rw [hfull]
    exact h.asked q hq req hreq hterm hbefore
  rcases step_packets hst.step hq with hq | ⟨hsrc, hnew⟩
  · exact hold hq
  · cases hnew with
    | requestVote i io n p T hx =>
      cases hreq
      have hparts := logsKept_parts hst.logsKept
      have hfit := fits_term hparts.terms hsrc
      obtain ⟨_, hT0, hTn⟩ := hvotes.askTerm n T p (List.mem_filterMap.2 ⟨_, List.mem_of_getElem? hx, rfl⟩)
      obtain ⟨hfull, _⟩ := hsame (by
        simp only [requestVoteRequest]
        rw [int32_of_fits (fits_of_le hT0 hTn hfit)]; exact hTn)
      have hw := h.inv.logs.nodes.whole n
      have hi := h.inv.logs.stable.index.node n
      obtain ⟨h1, h2⟩ := (h.inv.logs.nodes.sound n).termAt_bounds (hvotes.nonneg n) (full n).length
      simp only [requestVoteRequest]
      rw [hfull, int32_of_fits (fits_index hparts.indices hsrc), hw.lastLogIndex hi, hw.lastLogTerm,
        int32_of_fits (fits_of_le h1 h2 hfit)]
      exact ⟨rfl, rfl⟩
    | _ => cases hreq

/-! ## Leaders -/

/-- A leader was elected by a majority that has reached its term. -/
theorem LogInv.electors (h : LogInv M L full s) (hl : L.lead T = some n) :
    ∃ Q, IsMajority M.ids.toFinset Q ∧ ∀ v ∈ Q, T ≤ (s.raft v).term ∧ (v = n ∨ s.Granted v n T) := by
  obtain ⟨hn, hwon⟩ := h.lead.won T n hl
  obtain ⟨Q, hQ, hq⟩ := hwon.majority
  rw [voters_eq hn] at hQ
  refine ⟨Q, hQ, fun v hv => ⟨?_, hq v hv⟩⟩
  rcases hq v hv with rfl | hg
  · exact (h.lead.office T v hl).1
  · exact (h.stable.elect.votes.voted v n T hg).2.1

/-- What may be chosen below the term of a leader, one of its electors holds from before the step. -/
theorem Stepped.elector_holds (h : Stepped M s a s' L full L' full') (ha : s.accepts a = none)
    (hl : L'.lead T = some n) {t : Int} (ht : t < T) (hc : MayChoose M L' s' t m) :
    ∃ v, (v = n ∨ s'.Granted v n T) ∧ (view L s).holds v t m := by
  obtain ⟨Q, hQ, hq⟩ := h.after.logs.electors hl
  obtain ⟨v, hv, hh⟩ := hc.voter hQ fun v hv => lt_of_lt_of_le ht (hq v hv).1
  obtain ⟨hterm, hvote⟩ := hq v hv
  refine ⟨v, hvote, ?_⟩
  rcases h.holds_cases hh with hh | ⟨src, req, ha', _⟩ | ⟨_, rfl⟩
  · exact hh
  · rw [ha] at ha'; cases ha'
  · omega

theorem CompleteInv.complete_step (h : CompleteInv M L full s) (hst : Stepped M s a s' L full L' full') :
    Complete LogEntry.term (view L' s') M.ids.toFinset := by
  have hadv := hst.advances
  refine h.complete.step hadv fun t t' m htt hled hc hnew => ?_
  -- an elector that holds the prefix shows that it was there before
  have helector := fun (ha : s.accepts a = none) n (hl : L'.lead t' = some n) => hst.elector_holds ha hl htt hc
  have htip := hc.tip
  have hs := hst.step
  obtain ⟨n', hn'⟩ := hled
  cases hst.evolves with
  | same => exact absurd ⟨⟨n', hn'⟩, htip⟩ hnew
  | merge => exact absurd ⟨⟨n', hn'⟩, htip⟩ hnew
  | install => exact absurd ⟨⟨n', hn'⟩, htip⟩ hnew
  | elect n hl hnone ha hg =>
    obtain ⟨v, hvote, hh⟩ := helector ha n' hn'
    have hctip := htip.of_le (hadv.log t) hh.1
    have hlog : ((L.grow (s'.raft n).term n (full n) hg).log t).take m = (L.log t).take m :=
      take_of_isPrefix (hadv.log t) hh.1
    by_cases ht' : t' = (s'.raft n).term
    · subst ht'
      obtain rfl : n = n' := by
        rw [Ledger.grow_lead, Function.update_self] at hn'
        exact Option.some.inj hn'
      -- the new leader is the elector itself, or got the vote of one that holds the prefix
      have hgoal : (full n).take m = (L.log t).take m := by
        rcases hvote with rfl | hvote
        · exact h.kept v t m (hc.back hadv hctip) hh
        · exact h.granted hs hvote rfl hnone htt (hc.back hadv hctip) hh
      rw [← hgoal] at hlog
      refine Eq.trans ?_ hlog.symm
      simp only [view, Ledger.grow_log, Function.update_self]
    · rw [Ledger.grow_lead, Function.update_of_ne ht'] at hn'
      exact absurd ⟨⟨n', hn'⟩, hctip⟩ hnew
  | append n e hl ht ha hg =>
    -- nobody takes office, so it was there before
    obtain ⟨v, _, hh⟩ := helector ha n' hn'
    refine absurd ⟨?_, htip.of_le (hadv.log t) hh.1⟩ hnew
    by_cases ht' : t' = (s.raft n).term
    · exact ⟨n, ht' ▸ h.inv.logs.lead.leader n hl⟩
    · rw [Ledger.grow_lead, Function.update_of_ne ht'] at hn'
      exact ⟨n', hn'⟩

theorem CompleteInv.step (h : CompleteInv M L full s) (hset : Settles M L full s)
    (hst : Stepped M s a s' L full L' full') : CompleteInv M L' full' s' := by
  refine ⟨hst.after, fun n p T m hack => ?_, h.complete_step hst, fun p T m hc hh => h.kept_step hset hst hc hh,
    fun q hq req hreq hT hnone => h.asked_step hst hq hreq hT hnone,
    fun p n T hg hT hnone t m ht hc hh => h.voted_step hst hg hT hnone ht hc hh⟩
  rcases acked_of_step h.inv.logs.stable.elect.votes.replied hst.step hack with hack | ⟨req, ha, rfl, _⟩
  · exact le_trans (h.acked n p T m hack) (hst.le_term p)
  · exact le_of_eq (step_accepts_term hst.step ha).symm

theorem CompleteInv.start (M : Members) (snapshotter restorer : Bool) :
    CompleteInv M Ledger.blank (fun _ => []) (Cluster.start M.ids M.peersOf snapshotter restorer) := by
  have hacked : ∀ n p T m, ¬ (Cluster.start M.ids M.peersOf snapshotter restorer).Acked n p T m := by
    rintro n p T m ⟨call, req, resp, hp, _⟩
    cases hp
  refine ⟨.start M snapshotter restorer, fun n p T m hack => absurd hack (hacked n p T m), ?_, ?_, ?_, ?_⟩
  · rintro t t' m _ ⟨n, hn⟩
    cases hn
  · rintro p T m _ ⟨_, hl | ⟨n, hack⟩⟩
    · cases hl
    · exact absurd hack (hacked n p T m)
  · intro q hq; cases hq
  · rintro p n T ⟨call, resp, ⟨req, hp, _⟩, _⟩
    cases hp

end Cluster

end Mimori
