/-
Exponential backoff. The delay after an error other than a leader error is computed as a product of words of 64 bits
and capped afterwards. Up to attempt 36 the product is exact. From attempt 37 on it wraps around: where it comes out
positive the cap still holds it to two seconds, where it comes out negative the cap does not see it and the loop does
not sleep at all, and from attempt 56 on it is zero.
-/
import Mimori.Client.Retry

namespace Mimori

/-! ## The product -/

variable {n m : Nat}

theorem toInt_uncapped (n : Nat) : (uncapped n).toInt = (2 ^ n * 100000000 : Int).bmod (2 ^ 64) := by
  have hproduct : uncapped n = Int64.shl 1 n * (100 * Duration.millisecond) :=
    Int64.mul_assoc ..
  have hone : (1 : Int64).toInt = 1 := by decide
  have hunit : (100 * Duration.millisecond).toInt = 100000000 := by decide
  rw [hproduct, Int64.toInt_shl_mul, hone, hunit, one_mul]

theorem toInt_uncapped_of_le (h : n ≤ 36) : (uncapped n).toInt = 2 ^ n * 100000000 := by
  have hpow : (2 : Int) ^ n ≤ 2 ^ 36 := pow_le_pow_right₀ (by decide) h
  have hpos : (0 : Int) < 2 ^ n := by positivity
  rw [toInt_uncapped]
  exact Int.bmod_eq_of_le (by omega) (by omega)

/-- From attempt 37 on a product that is still positive is beyond the cap: a high power of two divides it. -/
theorem le_toInt_uncapped (h : 37 ≤ n) (hpos : 0 < uncapped n) : 2 ^ 37 ≤ (uncapped n).toInt := by
  have hdvd : (2 ^ 37 : Int) ∣ (uncapped n).toInt := by
    rw [toInt_uncapped]
    exact Int64.dvd_bmod (by decide) (Dvd.dvd.mul_right (pow_dvd_pow 2 h) _)
  exact Int.le_of_dvd (Int64.lt_iff_toInt_lt.1 hpos) hdvd

theorem uncapped_of_ge (h : 56 ≤ n) : uncapped n = 0 := by
  have hdvd : (((2 ^ 64 : Nat) : Int)) ∣ 2 ^ n * 100000000 := by
    have hsplit : (2 ^ n * 100000000 : Int) = ((2 ^ 64 : Nat) : Int) * (2 ^ (n - 56) * 390625) := by
      have hpow : (2 : Int) ^ n = 2 ^ (n - 56) * 2 ^ 56 := by rw [← pow_add, Nat.sub_add_cancel h]
      rw [hpow]
      push_cast
      ring
    exact ⟨_, hsplit⟩
  rw [← Int64.toInt_inj, toInt_uncapped, Int.dvd_iff_bmod_eq_zero.1 hdvd]
  rfl

/-- The attempts at which the product is positive. -/
theorem uncapped_pos_iff : 0 < uncapped n ↔ n ≤ 36 ∨ n ∈ [38, 44, 46, 51, 52, 53, 54] := by
  by_cases h : 56 ≤ n
  · rw [uncapped_of_ge h]
    simp only [List.mem_cons, List.not_mem_nil, or_false]
    constructor
    · intro hc
      exact absurd hc (by decide)
    · omega
  · have hsmall : ∀ k < 56, 0 < uncapped k ↔ k ≤ 36 ∨ k ∈ [38, 44, 46, 51, 52, 53, 54] := by decide +kernel
    exact hsmall n (by omega)

/-! ## The delay -/

theorem toInt_backoff (n : Nat) : (backoff n).toInt = min (uncapped n).toInt 2000000000 := by
  have hcap : (2 * Duration.second).toInt = 2000000000 := by decide
  unfold backoff
  split
  · rename_i h
    rw [gt_iff_lt, Int64.lt_iff_toInt_lt, hcap] at h
    rw [hcap, min_eq_right h.le]
  · rename_i h
    rw [gt_iff_lt, Int64.lt_iff_toInt_lt, hcap, not_lt] at h
    rw [min_eq_left h]

/-- The delay is that of capped exponential backoff at exactly the attempts at which the product is positive. -/
theorem toInt_backoff_eq_iff : (backoff n).toInt = min (2 ^ n * 100000000) 2000000000 ↔ 0 < uncapped n := by
  have hpow : (0 : Int) < 2 ^ n := by positivity
  rw [toInt_backoff]
  constructor
  · intro h
    have hmin : 0 < min (2 ^ n * 100000000) (2000000000 : Int) := lt_min (by omega) (by omega)
    rw [← h] at hmin
    exact Int64.lt_iff_toInt_lt.2 (lt_of_lt_of_le hmin (min_le_left _ _))
  · intro hpos
    by_cases hn : n ≤ 36
    · rw [toInt_uncapped_of_le hn]
    · have hproduct := le_toInt_uncapped (by omega) hpos
      have hexact : (2 : Int) ^ 37 ≤ 2 ^ n := pow_le_pow_right₀ (by decide) (by omega)
      rw [min_eq_right (by omega), min_eq_right (by omega)]

theorem backoff_mono (hle : m ≤ n) (hm : 0 < uncapped m) (hn : 0 < uncapped n) : backoff m ≤ backoff n := by
  have hpow : (2 : Int) ^ m ≤ 2 ^ n := pow_le_pow_right₀ (by decide) hle
  rw [Int64.le_iff_toInt_le, toInt_backoff_eq_iff.2 hm, toInt_backoff_eq_iff.2 hn]
  exact min_le_min_right _ (by omega)

/-! ## The calls -/

/-- The calls of `executeWithRetry` that a program can make, with whatever leader is cached: `maxRetries` and what the
call does, by what the network answers. -/
inductive Retries : Int64 → (List Attempt → List RetryEvent) → Prop
  | library (lower : Bytes → Bytes) (cfg : Library.Config) (c : Library.Client)
      (hc : Library.newWithConfig cfg = .ok c) (leaderAddr : Bytes) :
      Retries c.maxRetries fun answers =>
        (Library.executeWithRetry lower { c with leaderAddr := leaderAddr } answers).events
  | mimorictl (lower : Bytes → Bytes) (initialAddr leaderAddr : Bytes) (maxRetries : Int64) :
      Retries maxRetries fun answers =>
        (Mimorictl.executeWithRetry lower { Mimorictl.newClientManager initialAddr with leaderAddr := leaderAddr }
          maxRetries answers).events

variable {maxRetries : Int64} {run : List Attempt → List RetryEvent}

theorem Retries.sleep (hr : Retries maxRetries run) {answers : List Attempt} {why : Pause} {d : Duration}
    (hd : .sleep n why d ∈ run answers) : (n : Int) < maxRetries.toInt ∧ d = delayAfter n why := by
  cases hr with
  | library => exact (Retrier.loop_sleep hd).2
  | mimorictl => exact (Retrier.loop_sleep hd).2

/-- A network in which a leader is found and every call of it breaks. -/
def broken : Attempt := { found := [some [58]], err := some (.other []) }

theorem Library.broken_turn (lower : Bytes → Bytes) (k : Nat) {c : Client} (hc : c.seeds ≠ []) :
    (retrier lower).turn k c broken = ⟨{ c with leaderAddr := [58] }, some [58], some (.other [], .otherError)⟩ := by
  have hleader : getLeader c broken = ({ c with leaderAddr := [58] }, .ok [58]) := by
    have hasked : broken.found.take c.seeds.length = [some [58]] :=
      List.take_of_length_le (List.length_pos_iff.2 hc)
    have hfound : firstLeader [some [58]] = some [58] := rfl
    rw [getLeader, if_neg (by simp [broken]), discoverLeader, hasked, hfound]
  show Retrier.turn _ _ _ _ = _
  rw [Retrier.turn, show (retrier lower).getLeader c broken = _ from hleader]
  rfl

theorem Mimorictl.broken_turn (lower : Bytes → Bytes) (k : Nat) (cm : ClientManager) :
    (retrier lower).turn k cm broken =
      ⟨{ cm with leaderAddr := [58] }, some [58], some (.other [], .otherError)⟩ := by
  have hleader : getLeader cm broken = ({ cm with leaderAddr := [58] }, .ok [58]) := by
    rw [getLeader, if_neg (by simp [broken]), discoverLeader, if_neg (by simp [broken])]
    rfl
  rw [Retrier.turn, show (retrier lower).getLeader cm broken = _ from hleader]
  rfl

theorem Library.newWithConfig_seeds {cfg : Config} {c : Client} (h : newWithConfig cfg = .ok c) : c.seeds ≠ [] := by
  unfold newWithConfig at h
  split at h
  · cases h
  · rename_i hlen
    cases h
    exact fun hnil => hlen (List.length_eq_zero_iff.2 hnil)

/-- Every attempt is reached and ends in a backoff. -/
theorem Retries.reaches (hr : Retries maxRetries run) (hn : (n : Int) < maxRetries.toInt) :
    .sleep n .otherError (backoff n) ∈ run (List.replicate (n + 1) broken) := by
  cases hr with
  | library lower cfg c hc leaderAddr =>
    have hturn : ∀ (k : Nat) (c : Library.Client), c.seeds ≠ [] →
        ((Library.retrier lower).turn k c broken).client.seeds ≠ [] ∧
          ∃ err, ((Library.retrier lower).turn k c broken).failed = some (err, .otherError) := by
      intro k c hc
      rw [Library.broken_turn lower k hc]
      exact ⟨hc, _, rfl⟩
    have hseeds : c.seeds ≠ [] := Library.newWithConfig_seeds hc
    have h := Retrier.loop_reaches hturn n 0 { c with leaderAddr := leaderAddr } none hseeds (by simpa using hn)
    rwa [Nat.zero_add] at h
  | mimorictl lower initialAddr leaderAddr =>
    have hturn : ∀ (k : Nat) (cm : Mimorictl.ClientManager), True →
        True ∧ ∃ err, ((Mimorictl.retrier lower).turn k cm broken).failed = some (err, .otherError) := by
      intro k cm _
      rw [Mimorictl.broken_turn]
      exact ⟨trivial, _, rfl⟩
    have h := Retrier.loop_reaches (P := fun _ => True) hturn n 0
      { Mimorictl.newClientManager initialAddr with leaderAddr := leaderAddr } none trivial (by simpa using hn)
    rwa [Nat.zero_add] at h

/-! ## The result -/

/-- Backoff, at every attempt of every call of either client up to number 36, and at the seven later ones at which the
product is positive again: the attempt is reached, and whenever it ends in an error that is no leader error, the call
sleeps `min (2^n * 100ms) 2s`, which is positive, at most two seconds and not less than after an earlier such attempt. -/
theorem backoff_capped (hr : Retries maxRetries run) (hn : (n : Int) < maxRetries.toInt)
    (hattempt : n ≤ 36 ∨ n ∈ [38, 44, 46, 51, 52, 53, 54]) :
    (∃ answers d, .sleep n .otherError d ∈ run answers) ∧
      ∀ answers d, .sleep n .otherError d ∈ run answers →
        d.toInt = min (2 ^ n * 100000000) 2000000000 ∧ 0 < d ∧ d ≤ 2 * Duration.second ∧
          ∀ m ≤ n, (m ≤ 36 ∨ m ∈ [38, 44, 46, 51, 52, 53, 54]) →
            ∀ answers' e, .sleep m .otherError e ∈ run answers' → e ≤ d := by
  have hpos := uncapped_pos_iff.2 hattempt
  refine ⟨⟨_, _, hr.reaches hn⟩, ?_⟩
  intro answers d hd
  obtain ⟨_, rfl⟩ := hr.sleep hd
  have heq : (backoff n).toInt = min (2 ^ n * 100000000) 2000000000 := toInt_backoff_eq_iff.2 hpos
  have hpow : (0 : Int) < 2 ^ n := by positivity
  refine ⟨heq, ?_, ?_, ?_⟩
  · rw [Int64.lt_iff_toInt_lt]
    show (0 : Int) < (backoff n).toInt
    rw [heq]
    exact lt_min (by omega) (by omega)
  · rw [Int64.le_iff_toInt_le]
    show (backoff n).toInt ≤ 2000000000
    rw [heq]
    exact min_le_right _ _
  · intro m hm hattempt' answers' e he
    obtain ⟨_, rfl⟩ := hr.sleep he
    exact backoff_mono hm (uncapped_pos_iff.2 hattempt') hpos

/-- A client with one seed, and what its calls do. -/
def oneSeed (maxRetries : Int64) : Library.Client where
  seeds := [[58]]
  connTimeout := 3 * Duration.second
  reqTimeout := 5 * Duration.second
  maxRetries := maxRetries

def oneSeedRun (maxRetries : Int64) (answers : List Attempt) : List RetryEvent :=
  (Library.executeWithRetry id (oneSeed maxRetries) answers).events

theorem oneSeed_retries (h : maxRetries ≠ 0) : Retries maxRetries (oneSeedRun maxRetries) := by
  have hnew : Library.newWithConfig { seeds := [[58]], maxRetries := maxRetries } = .ok (oneSeed maxRetries) := by
    simp [Library.newWithConfig, oneSeed, h]
  exact .library id _ _ hnew []

theorem backoff_capped_three :
    Retries 3 (oneSeedRun 3) ∧
      (∃ answers d, .sleep 2 .otherError d ∈ oneSeedRun 3 answers) ∧
      ∀ answers d, .sleep 2 .otherError d ∈ oneSeedRun 3 answers →
        d.toInt = min (2 ^ 2 * 100000000) 2000000000 ∧ 0 < d ∧ d ≤ 2 * Duration.second ∧
          ∀ m ≤ 2, (m ≤ 36 ∨ m ∈ [38, 44, 46, 51, 52, 53, 54]) →
            ∀ answers' e, .sleep m .otherError e ∈ oneSeedRun 3 answers' → e ≤ d :=
  ⟨oneSeed_retries (by decide), backoff_capped (oneSeed_retries (by decide)) (by decide) (by decide)⟩

/-- With 60 retries the call sleeps two seconds after attempt 36, and after attempts 37 and 56 not at all. -/
theorem backoff_collapses :
    Retries 60 (oneSeedRun 60) ∧
      (∀ z ∈ [(36, 2000000000), (37, -4702848726509551616), (56, 0)],
        .sleep z.1 .otherError z.2 ∈ oneSeedRun 60 (List.replicate 60 broken)) :=
  ⟨oneSeed_retries (by decide), by decide +kernel⟩

end Mimori
