/-
What reads see. A stale read is served from the store of whatever node holds a lease, a strong one from the store of a
node that believes it leads: neither waits for the apply loop. So a read may be behind. But what it sees is always
what the first entries of one log make, the log all nodes commit, and on one node it never goes back as long as its
process lives: one that comes back executes old entries again.
-/
import Mimori.Commit.Reads

namespace Mimori

open Raft TermLog

namespace Cluster

variable {M : Members} {s s' : Cluster} {a : Action} {n : NodeID} {L L' : Ledger}
  {full full' : NodeID → List LogEntry} {exec : NodeID → Nat} {cut : Nat → Nat}

/-- As long as no process comes back, a store holds just the entries of the log that its apply loop has executed. -/
theorem Executing.holds {p : List LogEntry} {j k : Nat} (hk : Executing True M L full s n p j k)
    (h : CommitInv M L full s) : (s.app n).store.Holds ((full n).take j) := by
  obtain ⟨T, hc⟩ := hk.committed
  have hstore := hk.store
  obtain rfl := hk.same trivial
  rw [← h.committed_agree hc (h.commit n) (le_refl j) (hk.le_commit h)]
  exact Store.between_iff.1 hstore

/-- Node `n` has executed the first `exec n` entries of its whole log, and the read with answer `i` saw the first
`cut i` entries of it. -/
structure ReadsInv (M : Members) (L : Ledger) (full : NodeID → List LogEntry) (exec : NodeID → Nat) (cut : Nat → Nat)
    (s : Cluster) : Prop where
  stores : StoresInv True M L full s
  executing : ∀ n, ∃ p k, Executing True M L full s n p (exec n) k
  read : ∀ i n key v, s.answers[i]? = some (.value n key v) →
    cut i ≤ exec n ∧ v = (Store.replay [] ((full n).take (cut i))).get key
  order : ∀ i j n key v key' v', i ≤ j → s.answers[i]? = some (.value n key v) →
    s.answers[j]? = some (.value n key' v') → cut i ≤ cut j

theorem ReadsInv.executed_le (h : ReadsInv M L full exec cut s) (n : NodeID) :
    exec n ≤ (s.raft n).commitIndex.toNat := by
  obtain ⟨p, k, hk⟩ := h.executing n
  exact hk.le_commit h.stores.inv

/-- The answers of before, after a step. -/
theorem ReadsInv.kept (h : ReadsInv M L full exec cut s) (hst : Stepped M s a s' L full L' full') {exec' : NodeID → Nat}
    (hle : ∀ n, exec n ≤ exec' n) {i : Nat} {key : Bytes} {v : Option Bytes}
    (hi : s.answers[i]? = some (.value n key v)) :
    cut i ≤ exec' n ∧ v = (Store.replay [] ((full' n).take (cut i))).get key := by
  obtain ⟨hcut, hv⟩ := h.read i n key v hi
  refine ⟨hcut.trans (hle n), ?_⟩
  rw [h.stores.inv.take_kept hst (hcut.trans (h.executed_le n))]
  exact hv

theorem ReadsInv.step (h : ReadsInv M L full exec cut s) (hok : s.storesKept a = true) (hs : s.step a = some s') :
    ∃ L' full' exec' cut', ReadsInv M L' full' exec' cut' s' := by
  obtain ⟨L', full', hst, hstores⟩ := h.stores.step hok hs
  have hnext : ∀ n, ∃ j', exec n ≤ j' ∧ ∃ p' k', Executing True M L' full' s' n p' j' k' := by
    intro n
    obtain ⟨p, k, hk⟩ := h.executing n
    obtain ⟨p', j', k', hle, hk'⟩ := h.stores.node_step hst hstores.inv (storesKept_parts hok) hk
    exact ⟨j', hle, p', k', hk'⟩
  choose exec' hle hex using hnext
  rcases step_answers hs with he | ⟨ans, he, hnew⟩
  · refine ⟨L', full', exec', cut, hstores, hex, ?_, ?_⟩ <;> rw [he]
    · intro i n key v hi
      exact h.kept hst hle hi
    · exact h.order
  · -- the new answer is the last one; only a read sees anything
    have hget : ∀ {i : Nat} {b : Answer}, s'.answers[i]? = some b → i < s.answers.length ∧ s.answers[i]? = some b ∨
        i = s.answers.length ∧ b = ans := by
      intro i b hi
      rcases Nat.lt_or_ge i s.answers.length with hlt | hge
      · rw [he, List.getElem?_append_left hlt] at hi
        exact .inl ⟨hlt, hi⟩
      · rw [he, List.getElem?_append_right hge] at hi
        obtain ⟨hlt, hb⟩ := List.getElem?_eq_some_iff.1 hi
        rw [List.length_singleton] at hlt
        exact .inr ⟨by omega, by simpa using hb.symm⟩
    cases hnew with
    | written i io n index cmd ch hx hc =>
      refine ⟨L', full', exec', cut, hstores, hex, ?_, ?_⟩
      · intro i n key v hi
        rcases hget hi with ⟨_, hi⟩ | ⟨_, hb⟩
        · exact h.kept hst hle hi
        · cases hb
      · intro i j n key v key' v' hij hi hj
        rcases hget hi with ⟨_, hi⟩ | ⟨_, hb⟩
        · rcases hget hj with ⟨_, hj⟩ | ⟨_, hb⟩
          · exact h.order i j n key v key' v' hij hi hj
          · cases hb
        · cases hb
    | value i io m key hx =>
      refine ⟨L', full', exec', Function.update cut s.answers.length (exec m), hstores, hex, ?_, ?_⟩
      · intro i n key' v hi
        rcases hget hi with ⟨hlt, hi⟩ | ⟨rfl, hb⟩
        · rw [Function.update_of_ne (by omega)]
          exact h.kept hst hle hi
        · cases hb
          rw [Function.update_self, h.stores.inv.take_kept hst (h.executed_le m)]
          obtain ⟨p, k, hk⟩ := h.executing m
          exact ⟨hle m, (hk.holds h.stores.inv).value key⟩
      · intro i j n key₁ v key₂ v' hij hi hj
        rcases hget hj with ⟨hlt, hj⟩ | ⟨rfl, hb⟩
        · rcases hget hi with ⟨_, hi⟩ | ⟨rfl, _⟩
          · rw [Function.update_of_ne (by omega), Function.update_of_ne (by omega)]
            exact h.order i j n key₁ v key₂ v' hij hi hj
          · omega
        · cases hb
          rw [Function.update_self]
          rcases hget hi with ⟨hlt, hi⟩ | ⟨rfl, _⟩
          · rw [Function.update_of_ne (by omega)]
            exact (h.read i m key₁ v hi).1
          · rw [Function.update_self]

theorem ReadsInv.start (M : Members) (snapshotter restorer : Bool) :
    ReadsInv M Ledger.blank (fun _ => []) (fun _ => 0) (fun _ => 0)
      (Cluster.start M.ids M.peersOf snapshotter restorer) := by
  refine ⟨.start True M snapshotter restorer, fun n => ?_, ?_, ?_⟩
  · obtain ⟨p, j, k, hk⟩ := (StoresInv.start True M snapshotter restorer).node n
    obtain rfl : j = 0 := by
      have hle := hk.le
      rw [start_raft] at hle
      exact Nat.le_zero.1 hle
    exact ⟨p, k, hk⟩
  · intro i n key v hi
    cases hi
  · intro i j n key v key' v' _ hi
    cases hi

theorem ReadsInv.run {h : List (Cluster × Action)} (hr : M.machine.Run (fun s a => s.storesKept a = true) h s) :
    ∃ L full exec cut, ReadsInv M L full exec cut s := by
  refine Machine.Run.invariant (I := fun s => ∃ L full exec cut, ReadsInv M L full exec cut s) ?_ ?_ hr
  · rintro s ⟨snapshotter, restorer, rfl⟩
    exact ⟨_, _, _, _, .start M snapshotter restorer⟩
  · rintro s a s' ⟨L, full, exec, cut, hi⟩ hok hs
    exact hi.step hok hs

end Cluster

end Mimori
