/-
The cluster stays available. From every state of a run, as long as a majority of the members is up and none of them lacks
what another has compacted, the run can go on so that a write is acknowledged and a read after it returns the value: a
leader of a new term is elected, takes the write, brings the majority up to the end of its log, commits, applies and answers.
-/
import Mimori.Apply.Acknowledged
import Mimori.Apply.Store
import Mimori.Commit.Completeness
import Mimori.Commit.Deposed
import Mimori.Commit.Execution

namespace Mimori

open Raft TermLog

namespace Raft

variable {r r' q : Raft} {cmd : Command}

/-- What `r` has compacted, `q` has: it has compacted as much, or has the entry up to which `r` did. -/
def covers (q r : Raft) : Bool :=
  decide (r.logBaseIndex ≤ q.logBaseIndex) || q.entryTerm r.logBaseIndex == r.entryTerm r.logBaseIndex

theorem covers_sameLog {q' : Raft} (hq : SameLog q q') (hr : SameLog r r') : q'.covers r' = q.covers r := by
  unfold covers
  rw [hq.base, hr.base, entryTerm_sameLog hq, entryTerm_sameLog hr]

theorem propose_leader (hl : r.state = .leader) (cmd : Command) (io : Io) :
    r.propose cmd io = ((r.propose cmd io).1, .ok (r.lastLogIndex + 1)) ∧ Appends r (r.propose cmd io).1 cmd := by
  unfold propose
  rw [if_neg (not_not.2 hl)]
  refine ⟨rfl, Appends.trans_same ?_ (saveLog_sameLog _ _)⟩
  exact ⟨hl, rfl, rfl, rfl, rfl⟩

theorem Inaugurated.presides (h : Inaugurated r) (hi : Indexed r) (ha : Appends r r' cmd) (hv : SameVotes r r')
    (hp : SameProgress r r') (hmaj : 1 < r.majority) : Presides r' (r.lastLogIndex + 1) := by
  obtain ⟨hlast, hentry⟩ := hi.append_last ha
  have hb := hi.base_le_last
  refine ⟨hv.state.trans h.state, hlast, ?_, fun p hpr => ?_, fun hcount => ?_⟩
  · rw [entryTerm, hentry, hv.term]; rfl
  · rw [hp.next, ha.base]
    exact ⟨_, h.next p (hv.peers ▸ hpr), by omega, by omega⟩
  · -- no peer counts for the new entry
    obtain ⟨h1, h2⟩ := replicas_congr hv.peers hp.matched (r.lastLogIndex + 1)
    have hnone : (r.peers.filter fun p => decide (r.lastLogIndex + 1 ≤ r.matchIndex.get p)) = [] := by
      refine List.filter_eq_nil_iff.2 fun p hp hle => ?_
      have := of_decide_eq_true hle
      rw [IndexMap.get, h.counts p hp, Option.getD_some] at this
      omega
    rw [h1, h2, replicas, hnone, List.length_nil] at hcount
    omega

end Raft

namespace Cluster

variable {M : Members} {s s' : Cluster} {n c q : NodeID} {B K N : Int} {Q : Finset NodeID} {key value : Bytes}

/-! ## Clients -/

theorem Calm.asks (hc : Calm M B K s) (hn : n ∈ s.procs) (req : ClientRequest) :
    ∃ s', Onward M s s' ∧ Calm M B K s' ∧ s'.raft = s.raft ∧ s'.procs = s.procs ∧ s'.answers = s.answers ∧
      s'.app = s.app ∧ (∀ x ∈ s.tasks, x ∈ s'.tasks) ∧ (n, .serve req) ∈ s'.tasks := by
  have hs : s.step (.client n req) = some (s.spawn n [.serve req]) := by
    simp only [step, if_pos hn]
  obtain ⟨ho, hc'⟩ := (Orderly.client n req).rests hc hs rfl rfl
  exact ⟨_, ho, hc', rfl, rfl, rfl, rfl, fun x hx => List.mem_append_left _ hx,
    List.mem_append_right _ (List.mem_singleton_self _)⟩

theorem Calm.tells {t : Task} {x : Answer} (hc : Calm M B K s) (hn : n ∈ s.procs) (hx : (n, t) ∈ s.tasks)
    (hspeak : ∀ i, s.tasks[i]? = some (n, t) → s.speaksInOffice (.run i .go {}) = true)
    (hrun : ∀ i, (s.dropTask i).runTask n t .go {} = some ((s.dropTask i).answer x)) :
    ∃ s', Onward M s s' ∧ Calm M B K s' ∧ s'.raft = s.raft ∧ s'.procs = s.procs ∧ s'.app = s.app ∧
      s'.answers = s.answers ++ [x] := by
  obtain ⟨i, hi⟩ := List.getElem?_of_mem hx
  have hs : s.step (.run i .go {}) = some ((s.dropTask i).answer x) := by
    simp only [step, hi, if_pos hn]
    exact hrun i
  obtain ⟨ho, hc'⟩ := (Orderly.go {} (hspeak i hi)).rests hc hs rfl rfl
  exact ⟨_, ho, hc', rfl, rfl, rfl, rfl⟩

theorem Calm.isLeader (hc : Calm M B K s) (hl : (s.raft n).state = .leader) : (s.raft n).isLeader = true := by
  rw [Raft.isLeader, hl, hc.fixed.removed n]
  rfl

/-! ## A write -/

/-- A leader takes a write to the end of its log. -/
theorem Calm.proposes (hc : Calm M B K s) (hcp : c ∈ s.procs) (hl : (s.raft c).state = .leader)
    (hroom : (s.raft c).lastLogIndex + 1 ≤ K) (key value : Bytes) :
    ∃ s', Onward M s s' ∧ Calm M B K s' ∧ Appends (s.raft c) (s'.raft c) (.put key value) ∧
      SameVotes (s.raft c) (s'.raft c) ∧ SameProgress (s.raft c) (s'.raft c) ∧ (∀ m, m ≠ c → s'.raft m = s.raft m) ∧
      s'.procs = s.procs ∧ s'.answers = s.answers ∧ ((c, .heartbeatLoop) ∈ s.tasks → (c, .heartbeatLoop) ∈ s'.tasks) ∧
      (c, .proposed ((s.raft c).lastLogIndex + 1) (.put key value)) ∈ s'.tasks := by
  obtain ⟨s₁, ho₁, hc₁, hr₁, hp₁, ha₁, _, ht₁, hserve⟩ := hc.asks hcp (.put key value)
  obtain ⟨s₂, ho₂, hc₂, hsp⟩ := hc₁.spawns [.propose (.put key value)] (hp₁ ▸ hcp) hserve
    (fun i hi => by simp only [speaksInOffice, hi]) fun i => by
      simp only [runTask, dropTask_raft, hr₁, hc.isLeader hl, if_true]
  have hraft : s₂.raft = s.raft := hsp.raft.trans hr₁
  obtain ⟨hok, happ⟩ := propose_leader hl (.put key value) (s₂.envOf c {})
  have hv := propose_rest (s.raft c) (.put key value) (s₂.envOf c {})
  have hrun : ∀ i, (s₂.dropTask i).runTask c (.propose (.put key value)) .go {} =
      some (((s₂.dropTask i).setRaft c ((s.raft c).propose (.put key value) (s₂.envOf c {})).1).spawn c
        [.proposed ((s.raft c).lastLogIndex + 1) (.put key value)]) := by
    intro i
    have henv : (s₂.dropTask i).envOf c {} = s₂.envOf c {} := rfl
    simp only [runTask, dropTask_raft, hraft, henv]
    rw [hok]
  obtain ⟨s', ho, hc', hgo⟩ := hc₂.goes _ (by rw [hsp.procs, hp₁]; exact hcp) (hsp.new _ List.mem_cons_self)
    (fun i hi => by simp only [speaksInOffice, hi]) hrun (by rw [hv.term]; exact hc.terms c hcp)
    (by rw [((hc.indexed c).append_last happ).1]; exact hroom)
  refine ⟨s', (ho₁.trans ho₂).trans ho, hc', ?_, ?_, ?_, fun m hm => ?_, ?_, ?_, fun hb => ?_, hgo.new _ List.mem_cons_self⟩
  · rw [hgo.node]; exact happ
  · rw [hgo.node]; exact hv.toSameVotes
  · rw [hgo.node]; exact hv.toSameProgress
  · rw [hgo.other m hm, hraft]
  · rw [hgo.procs, hsp.procs, hp₁]
  · rw [hgo.answers, hsp.answers, ha₁]
  · exact hgo.kept _ (hsp.kept _ (ht₁ _ hb) (by rintro ⟨⟩)) (by rintro ⟨⟩)

/-- A leader without peers commits its log at its ticker. -/
theorem Calm.commitsAlone (hc : Calm M B K s) (hcp : c ∈ s.procs) (hl : (s.raft c).state = .leader)
    (hx : (c, .heartbeatLoop) ∈ s.tasks) (hp : M.peersOf c = [])
    (hown : (s.raft c).entryTerm (s.raft c).lastLogIndex = some (s.raft c).term) :
    ∃ s', Onward M s s' ∧ Calm M B K s' ∧ SameVotes (s.raft c) (s'.raft c) ∧ SameLog (s.raft c) (s'.raft c) ∧
      (s'.raft c).lastApplied = (s.raft c).lastApplied ∧ (s'.raft c).commitIndex = (s.raft c).lastLogIndex ∧
      s'.procs = s.procs ∧ s'.answers = s.answers ∧
      ∀ n t, (n, t) ∈ s.tasks → (∀ T, t.beats T = false) → (n, t) ∈ s'.tasks := by
  obtain ⟨s₁, ho₁, hc₁, hsp₁⟩ := hc.spawns [.sendHeartbeats .heartbeatLoop] hcp hx
    (fun i hi => by simp only [speaksInOffice, hi]) fun i => by
      simp only [runTask, dropTask_raft, hl, ne_eq, not_true_eq_false, if_false]
  obtain ⟨s₂, ho₂, hc₂, hsp₂⟩ := hc₁.spawns [.heartbeatAlone .heartbeatLoop] (hsp₁.procs ▸ hcp)
    (hsp₁.new _ List.mem_cons_self) (fun i hi => by simp only [speaksInOffice, hi]) fun i => by
      simp only [runTask, dropTask_raft, hsp₁.raft, hc.fixed.peers, if_pos hp]
  have hrest := (hsp₁.rests (T := (s.raft c).term) rfl).trans (hsp₂.rests (T := (s.raft c).term) rfl)
  have hv := updateCommitIndexLocked_same (s.raft c)
  have hlog := (updateCommitIndexLocked_data (s.raft c)).toSameLog
  obtain ⟨s', ho, hc', hgo⟩ := hc₂.goes (r := (s.raft c).updateCommitIndexLocked) [.heartbeatLoop] (hrest.procs ▸ hcp)
    (hsp₂.new _ List.mem_cons_self) (fun i hi => by simp only [speaksInOffice, hi])
    (fun i => by simp only [runTask, dropTask_raft, hrest.raft, resume]) (by rw [hv.term]; exact hc.terms c hcp)
    (by rw [hlog.lastLogIndex]; exact hc.indices c hcp)
  have hmaj : (s.raft c).majority ≤ (s.raft c).replicas (s.raft c).lastLogIndex := by
    rw [majority, replicas, hc.fixed.peers, hp, List.filter_nil]
    decide
  refine ⟨s', (ho₁.trans ho₂).trans ho, hc', by rw [hgo.node]; exact hv, by rw [hgo.node]; exact hlog, ?_, ?_, ?_, ?_,
    fun n t ht hb => hgo.kept _ (hrest.tasks n t ht hb) ?_⟩
  · rw [hgo.node, (updateCommitIndexLocked_next _).2.2]
  · rw [hgo.node, updateCommitIndexLocked_last hl hown (hc.commit_le c) hmaj]
  · rw [hgo.procs, hrest.procs]
  · rw [hgo.answers, hrest.answers]
  · rintro ⟨⟩
    cases hb (s.raft c).term

/-- A leader has what another node of its term or an older one has compacted. -/
theorem Calm.shares_base (hc : Calm M B K s) (hl : (s.raft c).state = .leader) (hT : (s.raft q).term ≤ (s.raft c).term)
    (hb : (s.raft c).logBaseIndex ≤ (s.raft q).logBaseIndex) : Shares (s.raft c) (s.raft q) (s.raft q).logBaseIndex := by
  obtain ⟨L, full, h⟩ := hc.inv
  have hlogs := h.inv.inv.logs
  have hic := hc.indexed c
  have hiq := hc.indexed q
  have hb0 := hiq.base
  -- the base is committed, so the logs up to it are one
  have hle : (s.raft q).logBaseIndex.toNat ≤ (s.raft q).commitIndex.toNat := by
    have := h.base q
    have := h.applied q
    omega
  have hcom := (h.commit q).le hle
  have htake : (full c).take (s.raft q).logBaseIndex.toNat = (full q).take (s.raft q).logBaseIndex.toNat := by
    rw [← hlogs.nodes.current c hl]
    exact h.inv.complete.settled hcom.chosen hT ⟨c, hlogs.lead.leader c hl⟩
  have hlen := le_length_of_take_eq htake hcom.le_length
  obtain ⟨e, he⟩ := hiq.entryAt_isSome (le_refl _) hiq.base_le_last
  obtain ⟨e', he'⟩ := hic.entryAt_isSome hb (by rw [(hlogs.nodes.whole c).lastLogIndex hic]; omega)
  have hterm := ((hlogs.nodes.whole q).entryAt_term hiq he).2
  have hterm' := ((hlogs.nodes.whole c).entryAt_term hic he').2
  refine ⟨e.term, ?_, by rw [entryTerm, he]; rfl⟩
  rw [entryTerm, he', ← hterm, ← termAt_take (le_refl _), ← htake, termAt_take (le_refl _), hterm']
  rfl

theorem Calm.shares_max (hc : Calm M B K s) (hl : (s.raft c).state = .leader) (hT : (s.raft q).term ≤ (s.raft c).term)
    (hcov : (s.raft q).covers (s.raft c) = true) :
    Shares (s.raft c) (s.raft q) (max (s.raft c).logBaseIndex (s.raft q).logBaseIndex) := by
  rcases le_or_gt (s.raft c).logBaseIndex (s.raft q).logBaseIndex with hle | hgt
  · rw [max_eq_right hle]
    exact hc.shares_base hl hT hle
  · rw [max_eq_left hgt.le]
    rw [covers, decide_eq_false (not_le.2 hgt), Bool.false_or, beq_iff_eq] at hcov
    have hi := hc.indexed c
    obtain ⟨e, he⟩ := hi.entryAt_isSome (le_refl _) hi.base_le_last
    have hterm : (s.raft c).entryTerm (s.raft c).logBaseIndex = some e.term := by rw [entryTerm, he]; rfl
    exact ⟨e.term, hterm, hcov.trans hterm⟩

/-- The other nodes lack what a new leader has appended. -/
theorem Prevails.lags {s₀ : Cluster} {r : Raft} {cmd : Command} (h : Prevails Q s₀ s c) (hc₀ : Calm M B K s₀)
    (hc : Calm M B K s) (hqQ : q ∈ Q) (hne : q ≠ c) (hq : q ∈ M.ids) (hcov : (s.raft q).covers (s.raft c) = true)
    (ha : Appends (s.raft c) r cmd) (hp : SameProgress (s.raft c) r) :
    Lags r (s.raft q) q ((s.raft c).lastLogIndex + 1) := by
  have hi := hc.indexed c
  have hb := hi.base_le_last
  obtain ⟨hlast, hentry⟩ := hi.append_last ha
  have hshare := hc.shares_max h.elected.state (h.newest q hqQ) hcov
  have hwithin : max (s.raft c).logBaseIndex (s.raft q).logBaseIndex ≤ (s.raft c).lastLogIndex := by
    obtain ⟨t, ht, _⟩ := hshare
    obtain ⟨e, he, _⟩ := Option.map_eq_some_iff.1 ht
    exact (hi.entryAt_some he).2.2
  refine ⟨?_, ?_, hlast.ge, ?_, ?_⟩
  · rw [hp.next]
    refine h.elected.next q ?_
    rw [hc.fixed.peers]
    exact List.mem_filter.2 ⟨hq, decide_eq_true hne⟩
  · rw [ha.base]
    omega
  · -- the entries of `q` are older than the office of `c`
    rintro ⟨t, ht, ht'⟩
    rw [entryTerm, hentry] at ht
    have hT : (s.raft c).term = t := Option.some.inj ht
    rw [entryTerm_sameLog (h.log q)] at ht'
    obtain ⟨e, he, hterm⟩ := Option.map_eq_some_iff.1 ht'
    have := (hc₀.entryTerm_le he).2
    have := h.newer q hqQ hne
    omega
  · rw [ha.base]
    obtain ⟨t, ht, ht'⟩ := hshare
    obtain ⟨e, he, hterm⟩ := Option.map_eq_some_iff.1 ht
    exact ⟨t, by rw [entryTerm, hi.append_entryAt ha he, ← hterm]; rfl, ht'⟩

/-- `c` leads and has committed the write at the end of its log, which is still to be applied and answered. -/
structure Unanswered (c : NodeID) (N : Int) (cmd : Command) (s : Cluster) : Prop where
  up : c ∈ s.procs
  lead : (s.raft c).state = .leader
  commit : (s.raft c).commitIndex = N
  applied : (s.raft c).lastApplied < N
  entry : ∃ T, (s.raft c).entryAt N = some ⟨N, T, cmd⟩
  waits : (c, .proposed N cmd) ∈ s.tasks

/-- A new leader commits a write. -/
theorem Prevails.commits {s₀ : Cluster} (h : Prevails Q s₀ s c) (hc₀ : Calm M B K s₀) (hc : Calm M B K s)
    (hQ : IsMajority M.ids.toFinset Q) (hup : ∀ n ∈ Q, n ∈ s.procs) (hname : "" ∉ Q) (hcQ : c ∈ Q)
    (hroom : (s.raft c).lastLogIndex + 1 ≤ K) (hcov : ∀ n ∈ Q, (s.raft n).covers (s.raft c) = true) (key value : Bytes) :
    ∃ s' N, Onward M s s' ∧ Calm M B K s' ∧ Unanswered c N (.put key value) s' ∧ s'.answers = s.answers := by
  have hi := hc.indexed c
  have hcp := hup c hcQ
  have hbehind : (s.raft c).lastApplied < (s.raft c).lastLogIndex + 1 := by
    obtain ⟨L, full, hinv⟩ := hc.inv
    have := hinv.applied c
    have := hc.commit_le c
    omega
  obtain ⟨s₁, ho₁, hc₁, happ, hv, hprog, hother, hp₁, ha₁, hloop, hwait⟩ :=
    hc.proposes hcp h.elected.state hroom key value
  obtain ⟨hlast, hentry⟩ := hi.append_last happ
  have hloop := hloop h.beats
  by_cases hpeers : M.peersOf c = []
  · obtain ⟨s', ho, hc', hv', hlog, happl, hcom, hp', ha', htasks⟩ := hc₁.commitsAlone (hp₁ ▸ hcp)
      (hv.state.trans h.elected.state) hloop hpeers (by rw [hlast, entryTerm, hentry, hv.term]; rfl)
    refine ⟨s', _, ho₁.trans ho, hc', ⟨?_, ?_, hcom.trans hlast, ?_, ?_, htasks _ _ hwait fun _ => rfl⟩, ha'.trans ha₁⟩
    · rw [hp', hp₁]; exact hcp
    · rw [hv'.state, hv.state]; exact h.elected.state
    · rw [happl, hprog.applied]; exact hbehind
    · exact ⟨_, by rw [hlog.entryAt]; exact hentry⟩
  · obtain ⟨p, hp⟩ := List.exists_mem_of_ne_nil _ hpeers
    obtain ⟨hpM, hpc⟩ := List.mem_filter.1 hp
    have hmaj := hc.fixed.one_lt_majority hpM (of_decide_eq_true hpc)
    have hoff : Office c ((s.raft c).lastLogIndex + 1) s₁ := ⟨hp₁ ▸ hcp, h.elected.presides hi happ hv hprog hmaj, hloop⟩
    obtain ⟨s', ho, hc', hoff', hp', ha', hlog, happl, htasks, hall, _⟩ :=
      hoff.replicates (fun hn => hname (hn ▸ hcQ)) (Q.erase c).toList hc₁ (Finset.nodup_toList _) fun q hq => by
        obtain ⟨hqc, hqQ⟩ := Finset.mem_erase.1 (Finset.mem_toList.1 hq)
        refine ⟨hp₁ ▸ hup q hqQ, hqc, fun hn => hname (hn ▸ hqQ), ?_, (s.raft c).lastLogIndex + 1, ?_⟩
        · rw [hother q hqc, hv.term]; exact h.newest q hqQ
        · rw [hother q hqc]
          exact h.lags hc₀ hc hqQ hqc (List.mem_toFinset.1 (hQ.sub hqQ)) (hcov q hqQ) happ hprog
    have hcom := hoff'.commits hc' hQ hcQ fun q hqQ hqc => hall q (Finset.mem_toList.2 (Finset.mem_erase.2 ⟨hqc, hqQ⟩))
    refine ⟨s', _, ho₁.trans ho, hc', ⟨?_, hoff'.presides.lead, hcom, ?_, ?_, htasks _ _ hwait rfl fun _ => rfl⟩,
      ha'.trans ha₁⟩
    · rw [hp', hp₁]; exact hcp
    · rw [happl, hprog.applied]; exact hbehind
    · exact ⟨_, by rw [hlog.entryAt]; exact hentry⟩

/-! ## The answers -/

/-- A leader that has applied a write acknowledges it. -/
theorem Calm.acknowledges {cmd : Command} (hc : Calm M B K s) (hcp : c ∈ s.procs) (hx : (c, .proposed N cmd) ∈ s.tasks)
    (hle : N ≤ (s.raft c).lastApplied) :
    ∃ s', Onward M s s' ∧ Calm M B K s' ∧ SameVotes (s.raft c) (s'.raft c) ∧ s'.procs = s.procs ∧ s'.app = s.app ∧
      s'.answers = s.answers ++ [.written c N cmd] := by
  have hwait : (s.raft c).appliedWait N =
      ({ s.raft c with chans := (s.raft c).chans ++ [true] }, (s.raft c).chans.length) := if_pos hle
  obtain ⟨s₁, ho₁, hc₁, hgo⟩ := hc.goes (r := { s.raft c with chans := (s.raft c).chans ++ [true] })
    [.waiting N cmd (s.raft c).chans.length] hcp hx
    (fun i hi => by simp only [speaksInOffice, hi])
    (fun i => by simp only [runTask, dropTask_raft, hwait]) (hc.terms c hcp) (hc.indices c hcp)
  have hchan : (s₁.raft c).chans[(s.raft c).chans.length]? = some true := by
    rw [hgo.node]
    exact List.getElem?_concat_length
  obtain ⟨s', ho, hc', hr', hp', happ, ha'⟩ := hc₁.tells (x := .written c N cmd) (hgo.procs ▸ hcp)
    (hgo.new _ List.mem_cons_self)
    (fun i hi => by simp only [speaksInOffice, hi]) fun i => by simp only [runTask, dropTask_raft, hchan, if_true]
  refine ⟨s', ho₁.trans ho, hc', ?_, hp'.trans hgo.procs, happ.trans hgo.app, by rw [ha', hgo.answers]⟩
  rw [hr', hgo.node]
  exact ⟨rfl, rfl, rfl, rfl, rfl, rfl, rfl⟩

theorem Calm.reads (hc : Calm M B K s) (hcp : c ∈ s.procs) (hl : (s.raft c).state = .leader) (key : Bytes) :
    ∃ s', Onward M s s' ∧ s'.answers = s.answers ++ [.value c key ((s.app c).store.get key)] := by
  obtain ⟨s₁, ho₁, hc₁, hr₁, hp₁, ha₁, happ₁, _, hserve⟩ := hc.asks hcp (.get key false)
  obtain ⟨s₂, ho₂, hc₂, hsp⟩ := hc₁.spawns [.reading key] (hp₁ ▸ hcp) hserve
    (fun i hi => by simp only [speaksInOffice, hi]) fun i => by
      simp only [runTask, dropTask_raft, hr₁, hc.isLeader hl, if_true]
  obtain ⟨s', ho, _, _, _, _, ha'⟩ := hc₂.tells (x := .value c key ((s.app c).store.get key))
    (by rw [hsp.procs, hp₁]; exact hcp) (hsp.new _ List.mem_cons_self) (fun i hi => by simp only [speaksInOffice, hi])
    fun i => by
      have happ : (s₂.dropTask i).app = s.app := hsp.app.trans happ₁
      simp only [runTask, happ]
  exact ⟨s', (ho₁.trans ho₂).trans ho, by rw [ha', hsp.answers, ha₁]⟩

/-- A committed write is applied and acknowledged, and a read after it returns the value. -/
theorem Unanswered.answered (h : Unanswered c N (.put key value) s) (hc : Calm M B K s) (hq : Queued s) :
    ∃ s', Onward M s s' ∧ s'.answers = s.answers ++ [.written c N (.put key value), .value c key (some value)] := by
  obtain ⟨T, hentry⟩ := h.entry
  obtain ⟨s₁, e, ho₁, hc₁, he, hv₁, hl₁, hp₁, ha₁, ht₁, l, hsent, hrec⟩ :=
    hc.applies ((s.raft c).commitIndex - (s.raft c).lastApplied).toNat hq h.up (by rw [h.commit]; exact h.applied) (by omega)
  rw [h.commit, hentry] at he
  cases he
  obtain ⟨s₂, ho₂, hc₂, hst, kv, hkv⟩ := hc₁.executes l.length (hp₁ ▸ h.up) hsent hrec (by omega)
  have hwaits : (c, .proposed N (.put key value)) ∈ s₂.tasks := by rw [hst.tasks, ht₁]; exact h.waits
  obtain ⟨s₃, ho₃, hc₃, hv₃, hp₃, happ, ha₃⟩ := hc₂.acknowledges (by rw [hst.procs, hp₁]; exact h.up) hwaits
    (by rw [hst.raft, hl₁, h.commit])
  obtain ⟨s', ho, ha⟩ := hc₃.reads (c := c) (by rw [hp₃, hst.procs, hp₁]; exact h.up)
    (by rw [hv₃.state, hst.raft, hv₁.state]; exact h.lead) key
  have hget : (s₃.app c).store.get key = some value := by
    rw [happ, hkv, Store.apply, Store.get_put, if_pos rfl]
  refine ⟨s', ((ho₁.trans ho₂).trans ho₃).trans ho, ?_⟩
  rw [ha, hget, ha₃, hst.answers, ha₁, List.append_assoc]
  rfl

/-! ## A leader -/

/-- A majority that is up comes to a leader that has just been elected, or to its only member. -/
theorem Calm.prevails (hc : Calm M B K s) (hp : Poised M s) (hQ : IsMajority M.ids.toFinset Q) (hup : ∀ n ∈ Q, n ∈ s.procs)
    (hname : "" ∉ Q) (hroom : ∀ n ∈ Q, (s.raft n).term + 2 ≤ B) :
    ∃ s' c, c ∈ Q ∧ Onward M s s' ∧ Calm M B K s' ∧ Prevails Q s s' c := by
  by_cases hex : ∃ e ∈ Q, (s.raft e).state ≠ .leader
  · obtain ⟨e, he, hl⟩ := hex
    exact hc.reelects hQ hup hname hroom he hl
  · -- all of them lead, each a term of its own
    have hlead : ∀ n ∈ Q, (s.raft n).state = .leader := by
      intro n hn
      by_contra hl
      exact hex ⟨n, hn, hl⟩
    have hne : Q.Nonempty := Finset.card_pos.1 (by have := hQ.card; omega)
    obtain ⟨d, hdQ, hmax⟩ := Finset.exists_max_image Q (fun n => (s.raft n).term) hne
    by_cases hone : ∃ b ∈ Q, b ≠ d
    · obtain ⟨b, hbQ, hbd⟩ := hone
      have hlt : (s.raft b).term < (s.raft d).term := by
        refine lt_of_le_of_ne (hmax b hbQ) fun ht => hbd ?_
        obtain ⟨L, full, hi⟩ := hc.inv
        exact hi.inv.inv.logs.stable.elect.leader_unique (hlead b hbQ) (hlead d hdQ) ht
      obtain ⟨s₁, ho₁, hc₁, hm, hstate, hterm⟩ := hc.deposes hp (hup b hbQ) (hup d hdQ) (fun h => hname (h ▸ hdQ))
        (hlead b hbQ) hlt
      obtain ⟨s', c, hcQ, ho, hc', hwon⟩ := hc₁.reelects hQ (fun n hn => hm.procs ▸ hup n hn) hname (fun n hn => by
        by_cases hnb : n = b
        · rw [hnb, hterm]; exact hroom d hdQ
        · rw [hm.other n hnb]; exact hroom n hn) hbQ (by rw [hstate]; exact nofun)
      exact ⟨s', c, hcQ, ho₁.trans ho, hc', hwon.after hm.toDrift⟩
    · have hall : ∀ m ∈ Q, m = d := by
        intro m hm
        by_contra hmd
        exact hone ⟨m, hm, hmd⟩
      have hpeers : M.peersOf d = [] := by
        have hQd : Q = {d} := Finset.eq_singleton_iff_unique_mem.2 ⟨hdQ, hall⟩
        have hcard := hQ.card
        rw [hQd, Finset.card_singleton] at hcard
        refine List.filter_eq_nil_iff.2 fun m hm hmd => of_decide_eq_true hmd ?_
        exact Finset.card_le_one.1 (by omega) m (List.mem_toFinset.2 hm) d (hQ.sub hdQ)
      obtain ⟨s', ho, hc', hm, hv, hloop⟩ := hc.returns hp (hup d hdQ) (hlead d hdQ)
      have hnone : ∀ p, p ∉ (s'.raft d).peers := by
        intro p hp
        rw [hc'.fixed.peers, hpeers] at hp
        cases hp
      refine ⟨s', d, hdQ, ho, hc', hm.toDrift, ⟨hv.state.trans (hlead d hdQ), fun p hp => absurd hp (hnone p),
        fun p hp => absurd hp (hnone p)⟩, hloop, fun m hmQ hmd => absurd (hall m hmQ) hmd, fun m hmQ => ?_⟩
      rw [hall m hmQ]

/-- The cluster stays available: in every state of a run with fixed membership that keeps the conditions `recoversKept`,
whatever was lost, delayed, split, crashed or restarted before and whoever leads, if a majority of the members is up, none
of them has the empty name or lacks the entry up to which another one has compacted its log, the run can go on under the
same conditions so that a write is acknowledged and a read of its key then returns the value, as long as terms and indices
fit the messages. -/
theorem writes_available (M : Members) {h : List (Cluster × RestartAction)} {s : Cluster} {Q : Finset NodeID}
    (hr : M.restarts.Run (fun s l => s.recoversKept M l = true) h s) (hQ : IsMajority M.ids.toFinset Q)
    (hup : ∀ n ∈ Q, n ∈ s.procs) (hname : "" ∉ Q)
    (hfit : ∀ n ∈ s.procs, Fits ((s.raft n).term + 2) ∧ Fits ((s.raft n).lastLogIndex + 1))
    (hcov : ∀ n ∈ Q, ∀ m ∈ Q, (s.raft n).covers (s.raft m) = true) (key value : Bytes) :
    ∃ h' s' n i, n ∈ Q ∧ M.restarts.Run (fun s l => s.recoversKept M l = true) (h' ++ h) s' ∧
      s'.answers = s.answers ++ [.written n i (.put key value), .value n key (some value)] := by
  have hp := Poised.run hr
  have hq : Queued s := by
    refine hr.invariant ?_ fun s l s' hi _ hs => hi.restartStep hs
    rintro s ⟨snapshotter, restorer, rfl⟩ n
    exact Nat.zero_le _
  have hc : Calm M (2 ^ 31 - 1) (2 ^ 31 - 1) s := by
    refine ⟨⟨by omega, by omega⟩, hp.saved, hp.inv, fun n hn => ?_, fun n hn => ?_⟩
    · have := (hfit n hn).1.2
      omega
    · have := (hfit n hn).2.2
      omega
  obtain ⟨s₁, c, hcQ, ho₁, hc₁, hwon⟩ := hc.prevails hp hQ hup hname fun n hn => by
    have := (hfit n (hup n hn)).1.2
    omega
  obtain ⟨s₂, N, ho₂, hc₂, hwrite, ha₂⟩ := hwon.commits hc hc₁ hQ (fun n hn => hwon.procs ▸ hup n hn) hname hcQ
    (by
      rw [(hwon.log c).lastLogIndex]
      have := (hfit c (hup c hcQ)).2.2
      omega)
    (fun n hn => by rw [covers_sameLog (hwon.log n) (hwon.log c)]; exact hcov n hn c hcQ) key value
  obtain ⟨s', ho, ha⟩ := hwrite.answered hc₂ (hq.onward (ho₁.trans ho₂))
  obtain ⟨h', hr'⟩ := hr.leads ((ho₁.trans ho₂).trans ho)
  exact ⟨h', s', c, N, hcQ, hr', by rw [ha, ha₂, hwon.answers]⟩

/-- A leads term 1 and B, with the vote of C, term 2: the majority of these two has two leaders. -/
theorem writes_available_twoLeaders :
    ∃ h s, threeNodes.restarts.Run (fun s l => s.recoversKept threeNodes l = true) h s ∧
      (s.raft "A").state = .leader ∧ (s.raft "B").state = .leader ∧
      ∃ h' s' n i, n ∈ ({"A", "B"} : Finset NodeID) ∧
        threeNodes.restarts.Run (fun s l => s.recoversKept threeNodes l = true) (h' ++ h) s' ∧
        s'.answers = s.answers ++ [.written n i (.put [7] [8]), .value n [7] (some [8])] := by
  obtain ⟨h, s, hr, hA, hB, hup, hfit, hcov⟩ := Machine.exists_run (S := threeNodes.restarts)
    (fun s l => Cluster.recoversKept threeNodes s l = true)
    (fun _ s => (s.raft "A").state = .leader ∧ (s.raft "B").state = .leader ∧
      (∀ n ∈ ({"A", "B"} : Finset NodeID), n ∈ s.procs) ∧
      (∀ n ∈ s.procs, Fits ((s.raft n).term + 2) ∧ Fits ((s.raft n).lastLogIndex + 1)) ∧
      ∀ n ∈ ({"A", "B"} : Finset NodeID), ∀ m ∈ ({"A", "B"} : Finset NodeID), (s.raft n).covers (s.raft m) = true)
    (threeNodes.machine_init false false) takeover.dropLast (by decide +kernel)
  obtain ⟨h', s', n, i, hn, hr', ha⟩ := writes_available threeNodes hr ⟨by decide, by decide⟩ hup (by decide) hfit hcov
    [7] [8]
  exact ⟨h, s, hr, hA, hB, h', s', n, i, hn, hr', ha⟩

end Cluster

end Mimori
