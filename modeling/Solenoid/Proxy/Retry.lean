/-
  Solenoid.Proxy.Retry — the back-off of `rpc-proxy/src/retry.rs`.

  An operation is its outcomes, one for each time it is called; time is the list of delays
  that were slept. A delay doubles until it has reached the maximum, which is compared with
  the delay before: the delay that passes the maximum is slept too, and the next one is
  the maximum again.
  - `backoff_bounded`: a run keeps to the maximum, its delays do not decrease and nothing
    overflows if and only if it sleeps no delay past the maximum: it ends early enough, or
    the maximum is the initial delay times a power of two.
-/
import Mathlib.Data.List.Pairwise
import Solenoid.Word

namespace Solenoid.Proxy

/-- `RetryConfig`. -/
structure RetryConfig where
  maxAttempts : UInt32
  initialDelayMs : UInt64
  maxDelayMs : UInt64

def u64Max : Nat := 2 ^ 64 - 1

/-- `2u64.pow(n)`. -/
def twoPowU64 (n : Nat) : Except Fault Nat :=
  if 2 ^ n ≤ u64Max then .ok (2 ^ n) else panic "attempt to multiply with overflow"

def mulU64 (a b : Nat) : Except Fault Nat :=
  if a * b ≤ u64Max then .ok (a * b) else panic "attempt to multiply with overflow"

/-- What a run has done: how often it called the operation, and the delays it slept. -/
structure Calls where
  calls : Nat := 0
  slept : List Nat := []

section

variable {ε α : Type} (config : RetryConfig) (op : Nat → Except ε α) (isRetryable : ε → Bool)

/-- The delay after a failed attempt. -/
def nextDelay (attempt delay : Nat) : Except Fault Nat := do
  if config.maxDelayMs.toNat ≤ delay then return min delay config.maxDelayMs.toNat
  else mulU64 config.initialDelayMs.toNat (← twoPowU64 attempt)

/-- `for attempt in attempt..attempt + n`; after the loop comes `unreachable!`. -/
def retryLoop : (n attempt delay : Nat) → Calls → Except Fault (Except ε α × Calls)
  | 0, _, _, _ => panic "retry loop always returns"
  | n + 1, attempt, delay, c => do
    let c := { c with calls := c.calls + 1 }
    match op attempt with
    | .ok v => return (.ok v, c)
    | .error e =>
      if !isRetryable e then return (.error e, c)
      else if config.maxAttempts.toNat ≤ attempt + 1 then return (.error e, c)
      else
        let delay ← nextDelay config attempt delay
        retryLoop n (attempt + 1) delay { c with slept := c.slept ++ [delay] }

def retry : Except Fault (Except ε α × Calls) :=
  retryLoop config op isRetryable config.maxAttempts.toNat 0 config.initialDelayMs.toNat {}

/-! ## What a run should do -/

/-- The attempt fails, and may be repeated. -/
def Fails (i : Nat) : Prop := ∃ e, op i = .error e ∧ isRetryable e = true

/-- The number of failures in a row from an attempt on, among `n` attempts. -/
def failures : (n attempt : Nat) → Nat
  | 0, _ => 0
  | n + 1, attempt =>
    match op attempt with
    | .ok _ => 0
    | .error e => if isRetryable e then failures n (attempt + 1) + 1 else 0

/-- How often a run tries again: the last attempt is not repeated. -/
def retries : Nat := failures op isRetryable (config.maxAttempts.toNat - 1) 0

/-- The run returns the outcome of its last call, which is the first that it may not repeat
    or the last that it may make, and slept between its calls, never longer than the maximum
    and never shorter than before. -/
structure BacksOff (run : Except Fault (Except ε α × Calls)) (outcome : Except ε α) (c : Calls) : Prop where
  returns : run = .ok (outcome, c)
  called : 1 ≤ c.calls ∧ c.calls ≤ config.maxAttempts.toNat
  answer : outcome = op (c.calls - 1)
  repeated : ∀ i, i + 1 < c.calls → Fails op isRetryable i
  last : c.calls < config.maxAttempts.toNat → ¬Fails op isRetryable (c.calls - 1)
  slept : c.slept.length + 1 = c.calls
  ordered : c.slept.Pairwise (· ≤ ·)
  bounded : ∀ d ∈ c.slept, d ≤ config.maxDelayMs.toNat

/-! ## Delays -/

/-- No delay of a run that tries again so often passes the maximum. -/
def KeepsTo (n : Nat) : Prop :=
  n = 0 ∨ config.initialDelayMs.toNat * 2 ^ (n - 1) ≤ config.maxDelayMs.toNat ∨
    ∃ k, config.initialDelayMs.toNat * 2 ^ k = config.maxDelayMs.toNat

/-- The delay an attempt comes after. -/
def delayBefore : Nat → Nat
  | 0 => config.initialDelayMs.toNat
  | a + 1 => min (config.initialDelayMs.toNat * 2 ^ a) config.maxDelayMs.toNat

variable {config op isRetryable}

theorem KeepsTo.mono {m n : Nat} (h : KeepsTo config n) (hmn : m ≤ n) : KeepsTo config m := by
  rcases h with rfl | h | h
  · exact .inl (Nat.le_zero.1 hmn)
  · refine .inr (.inl (le_trans ?_ h))
    exact Nat.mul_le_mul_left _ (Nat.pow_le_pow_right (by omega) (by omega))
  · exact .inr (.inr h)

theorem delayBefore_le_max (hle : config.initialDelayMs.toNat ≤ config.maxDelayMs.toNat) (a : Nat) :
    delayBefore config a ≤ config.maxDelayMs.toNat := by
  cases a with
  | zero => exact hle
  | succ a => exact min_le_right _ _

theorem delayBefore_mono {a b : Nat} (hab : a ≤ b) : delayBefore config (a + 1) ≤ delayBefore config (b + 1) :=
  min_le_min_right _ (Nat.mul_le_mul_left _ (Nat.pow_le_pow_right (by omega) hab))

theorem mulU64_twoPow (a b : Nat) (h : a * 2 ^ b ≤ u64Max) (ha : 0 < a) :
    (do mulU64 a (← twoPowU64 b)) = .ok (a * 2 ^ b) := by
  have hpow : 2 ^ b ≤ u64Max := (Nat.le_mul_of_pos_left _ ha).trans h
  simp only [twoPowU64, mulU64, hpow, if_true, bind, Except.bind, h]

theorem mulU64_ok {a b d : Nat} (h : (do mulU64 a (← twoPowU64 b)) = .ok d) : d = a * 2 ^ b := by
  unfold twoPowU64 mulU64 at h
  split at h
  · simp only [bind, Except.bind] at h
    split at h <;> cases h
    rfl
  · cases h

/-- The delay after an attempt, as long as none passes the maximum. -/
theorem nextDelay_of_keeps (hpos : 0 < config.initialDelayMs.toNat) {a : Nat} (h : KeepsTo config (a + 1)) :
    nextDelay config a (delayBefore config a) = .ok (delayBefore config (a + 1)) := by
  have hmax : config.maxDelayMs.toNat ≤ u64Max := Nat.le_sub_one_of_lt config.maxDelayMs.toNat_lt
  unfold nextDelay
  split
  · next hreached =>
    -- the delay before has reached the maximum, so the power has too
    have hpow : config.maxDelayMs.toNat ≤ config.initialDelayMs.toNat * 2 ^ a := by
      cases a with
      | zero => simpa [delayBefore] using hreached
      | succ a =>
        have hbefore : config.maxDelayMs.toNat ≤ config.initialDelayMs.toNat * 2 ^ a :=
          hreached.trans (min_le_left _ _)
        exact hbefore.trans (Nat.mul_le_mul_left _ (Nat.pow_le_pow_right (by omega) (by omega)))
    show Except.ok (min (delayBefore config a) config.maxDelayMs.toNat) =
      .ok (min (config.initialDelayMs.toNat * 2 ^ a) config.maxDelayMs.toNat)
    rw [min_eq_right hreached, min_eq_right hpow]
  · next hbelow =>
    have hpow : config.initialDelayMs.toNat * 2 ^ a ≤ config.maxDelayMs.toNat := by
      rcases h with h | h | ⟨k, hk⟩
      · cases h
      · exact h
      · -- the power that is the maximum is not behind
        have hak : a ≤ k := by
          by_contra hlt
          refine hbelow ?_
          cases a with
          | zero => omega
          | succ a =>
            have hpow : config.maxDelayMs.toNat ≤ config.initialDelayMs.toNat * 2 ^ a := by
              rw [← hk]
              exact Nat.mul_le_mul_left _ (Nat.pow_le_pow_right (by omega) (by omega))
            exact le_min hpow le_rfl
        rw [← hk]
        exact Nat.mul_le_mul_left _ (Nat.pow_le_pow_right (by omega) hak)
    rw [mulU64_twoPow _ _ (hpow.trans hmax) hpos, delayBefore, min_eq_left hpow]

/-- A delay within the maximum came from a power within it. -/
theorem keeps_of_nextDelay {a d : Nat} (hle : config.initialDelayMs.toNat ≤ config.maxDelayMs.toNat)
    (h : KeepsTo config a) (hd : nextDelay config a (delayBefore config a) = .ok d)
    (hmax : d ≤ config.maxDelayMs.toNat) : KeepsTo config (a + 1) := by
  unfold nextDelay at hd
  split at hd
  · next hreached =>
    cases a with
    | zero => exact .inr (.inr ⟨0, by rw [pow_zero, mul_one]; exact le_antisymm hle hreached⟩)
    | succ a =>
      rcases h with h | h | h
      · cases h
      · exact .inr (.inr ⟨a, le_antisymm h (hreached.trans (min_le_left _ _))⟩)
      · exact .inr (.inr h)
  · obtain rfl := (mulU64_ok hd).symm
    exact .inr (.inl hmax)

/-! ## Runs -/

theorem failures_of_not {n attempt : Nat} (h : ¬Fails op isRetryable attempt) :
    failures op isRetryable (n + 1) attempt = 0 := by
  unfold failures
  split
  · rfl
  · next e he => exact if_neg fun hretry => h ⟨e, he, hretry⟩

theorem failures_of_fails {n attempt : Nat} (h : Fails op isRetryable attempt) :
    failures op isRetryable (n + 1) attempt = failures op isRetryable n (attempt + 1) + 1 := by
  obtain ⟨e, he, hretry⟩ := h
  simp only [failures, he, hretry, if_true]

theorem failures_le (n attempt : Nat) : failures op isRetryable n attempt ≤ n := by
  induction n generalizing attempt with
  | zero => exact Nat.le_refl 0
  | succ n ih =>
    by_cases h : Fails op isRetryable attempt
    · rw [failures_of_fails h]
      exact Nat.succ_le_succ (ih _)
    · rw [failures_of_not h]
      exact Nat.zero_le _

theorem failures_fail {n attempt i : Nat} (hi : i < failures op isRetryable n attempt) :
    Fails op isRetryable (attempt + i) := by
  induction n generalizing attempt i with
  | zero => exact absurd hi (Nat.not_lt_zero i)
  | succ n ih =>
    by_cases h : Fails op isRetryable attempt
    · cases i with
      | zero => exact h
      | succ i =>
        rw [failures_of_fails h] at hi
        rw [show attempt + (i + 1) = attempt + 1 + i by omega]
        exact ih (Nat.lt_of_succ_lt_succ hi)
    · rw [failures_of_not h] at hi
      exact absurd hi (Nat.not_lt_zero i)

/-- The row of failures ends before the last attempt only where one does not fail. -/
theorem failures_end {n attempt : Nat} (hlt : failures op isRetryable n attempt < n) :
    ¬Fails op isRetryable (attempt + failures op isRetryable n attempt) := by
  induction n generalizing attempt with
  | zero => exact absurd hlt (Nat.not_lt_zero _)
  | succ n ih =>
    by_cases h : Fails op isRetryable attempt
    · rw [failures_of_fails h] at hlt ⊢
      rw [show ∀ k, attempt + (k + 1) = attempt + 1 + k by omega]
      exact ih (Nat.lt_of_succ_lt_succ hlt)
    · rw [failures_of_not h]
      exact h

theorem retryLoop_returns {n attempt delay : Nat} {c : Calls}
    (h : ¬Fails op isRetryable attempt ∨ config.maxAttempts.toNat ≤ attempt + 1) :
    retryLoop config op isRetryable (n + 1) attempt delay c = .ok (op attempt, { c with calls := c.calls + 1 }) := by
  unfold retryLoop
  cases hop : op attempt with
  | ok v => rfl
  | error e =>
    rcases h with h | h
    · have hstop : isRetryable e = false := by
        by_contra hretry
        exact h ⟨e, hop, by simpa using hretry⟩
      simp only [hstop]
      rfl
    · simp only [h, if_true, ite_self]
      rfl

theorem retryLoop_again {n attempt delay : Nat} {c : Calls} (h : Fails op isRetryable attempt)
    (hmore : attempt + 1 < config.maxAttempts.toNat) :
    retryLoop config op isRetryable (n + 1) attempt delay c = (do
      let delay ← nextDelay config attempt delay
      retryLoop config op isRetryable n (attempt + 1) delay ⟨c.calls + 1, c.slept ++ [delay]⟩) := by
  obtain ⟨e, he, hretry⟩ := h
  have hmore : ¬config.maxAttempts.toNat ≤ attempt + 1 := not_le.2 hmore
  simp only [retryLoop, he, hretry, hmore, Bool.not_true, Bool.false_eq_true, if_false]

/-- The delays between the calls of a run that comes to no delay past the maximum. -/
def backOff (config : RetryConfig) (n : Nat) : List Nat := (List.range n).map fun i => delayBefore config (i + 1)

theorem backOff_succ (n : Nat) : backOff config (n + 1) = backOff config n ++ [delayBefore config (n + 1)] := by
  simp only [backOff, List.range_succ, List.map_append, List.map_cons, List.map_nil]

/-- The loop from an attempt on, by induction on the attempts that are left: every failure that
    is repeated sleeps the delay of its attempt. -/
theorem retryLoop_of_keeps (hpos : 0 < config.initialDelayMs.toNat) (n attempt : Nat)
    (hlast : attempt + (n + 1) = config.maxAttempts.toNat)
    (hkeeps : KeepsTo config (attempt + failures op isRetryable n attempt)) :
    retryLoop config op isRetryable (n + 1) attempt (delayBefore config attempt) ⟨attempt, backOff config attempt⟩ =
      .ok (op (attempt + failures op isRetryable n attempt),
        ⟨attempt + failures op isRetryable n attempt + 1,
          backOff config (attempt + failures op isRetryable n attempt)⟩) := by
  induction n generalizing attempt with
  | zero => exact retryLoop_returns (.inr hlast.ge)
  | succ n ih =>
    by_cases h : Fails op isRetryable attempt
    · have hsum : attempt + failures op isRetryable (n + 1) attempt =
          attempt + 1 + failures op isRetryable n (attempt + 1) := by
        rw [failures_of_fails h]
        omega
      rw [hsum] at hkeeps ⊢
      have hnext := nextDelay_of_keeps hpos (hkeeps.mono (Nat.le_add_right _ _))
      rw [retryLoop_again h (by omega), hnext]
      show retryLoop config op isRetryable (n + 1) (attempt + 1) (delayBefore config (attempt + 1))
        ⟨attempt + 1, backOff config attempt ++ [delayBefore config (attempt + 1)]⟩ = _
      rw [← backOff_succ]
      exact ih (attempt + 1) (by omega) hkeeps
    · rw [failures_of_not h]
      exact retryLoop_returns (.inl h)

/-- A run keeps what it has slept. -/
theorem retryLoop_slept {n attempt delay : Nat} {c c' : Calls} {outcome : Except ε α}
    (hrun : retryLoop config op isRetryable n attempt delay c = .ok (outcome, c')) : ∃ more,
      c'.slept = c.slept ++ more := by
  induction n generalizing attempt delay c with
  | zero => cases hrun
  | succ n ih =>
    by_cases h : Fails op isRetryable attempt ∧ attempt + 1 < config.maxAttempts.toNat
    · rw [retryLoop_again h.1 h.2] at hrun
      cases hnext : nextDelay config attempt delay with
      | error f =>
        rw [hnext] at hrun
        cases hrun
      | ok d =>
        rw [hnext] at hrun
        obtain ⟨more, hmore⟩ := ih hrun
        exact ⟨d :: more, by rw [hmore, List.append_assoc]; rfl⟩
    · rw [retryLoop_returns ((not_and_or.1 h).imp_right not_lt.1)] at hrun
      cases hrun
      exact ⟨[], (List.append_nil _).symm⟩

/-- A loop that slept no delay past the maximum came to none. -/
theorem keeps_of_retryLoop (hpos : 0 < config.initialDelayMs.toNat)
    (hle : config.initialDelayMs.toNat ≤ config.maxDelayMs.toNat) (n attempt : Nat)
    (hlast : attempt + (n + 1) = config.maxAttempts.toNat) (hkeeps : KeepsTo config attempt) {c c' : Calls}
    {outcome : Except ε α}
    (hrun : retryLoop config op isRetryable (n + 1) attempt (delayBefore config attempt) c = .ok (outcome, c'))
    (hmax : ∀ d ∈ c'.slept, d ≤ config.maxDelayMs.toNat) :
    KeepsTo config (attempt + failures op isRetryable n attempt) := by
  induction n generalizing attempt c with
  | zero => exact hkeeps
  | succ n ih =>
    by_cases h : Fails op isRetryable attempt
    · rw [retryLoop_again h (by omega)] at hrun
      cases hnext : nextDelay config attempt (delayBefore config attempt) with
      | error f =>
        rw [hnext] at hrun
        cases hrun
      | ok d =>
        rw [hnext] at hrun
        obtain ⟨more, hmore⟩ := retryLoop_slept hrun
        have hd : d ≤ config.maxDelayMs.toNat := hmax d (by simp [hmore])
        have hstep := keeps_of_nextDelay hle hkeeps hnext hd
        rw [nextDelay_of_keeps hpos hstep] at hnext
        cases hnext
        rw [failures_of_fails h, show ∀ k, attempt + (k + 1) = attempt + 1 + k by omega]
        exact ih (attempt + 1) (by omega) hstep hrun
    · rw [failures_of_not h]
      exact hkeeps

theorem retry_of_keeps (hattempts : 1 ≤ config.maxAttempts.toNat) (hpos : 0 < config.initialDelayMs.toNat)
    (h : KeepsTo config (retries config op isRetryable)) :
    retry config op isRetryable = .ok (op (retries config op isRetryable),
      ⟨retries config op isRetryable + 1, backOff config (retries config op isRetryable)⟩) := by
  obtain ⟨n, hn⟩ : ∃ n, config.maxAttempts.toNat = n + 1 := ⟨_, (Nat.sub_add_cancel hattempts).symm⟩
  have hretries : retries config op isRetryable = failures op isRetryable n 0 := by rw [retries, hn, Nat.add_sub_cancel]
  have hrun := retryLoop_of_keeps hpos n 0 (by omega) (by rwa [Nat.zero_add, ← hretries])
  rw [Nat.zero_add, ← hretries] at hrun
  rw [retry, hn]
  exact hrun

/-- A run with these delays backs off as it should. -/
theorem backsOff_of_retries (hattempts : 1 ≤ config.maxAttempts.toNat)
    (hle : config.initialDelayMs.toNat ≤ config.maxDelayMs.toNat) {run : Except Fault (Except ε α × Calls)}
    (hrun : run = .ok (op (retries config op isRetryable),
      ⟨retries config op isRetryable + 1, backOff config (retries config op isRetryable)⟩)) :
    BacksOff config op isRetryable run (op (retries config op isRetryable))
      ⟨retries config op isRetryable + 1, backOff config (retries config op isRetryable)⟩ where
  returns := hrun
  called := by
    have : retries config op isRetryable ≤ config.maxAttempts.toNat - 1 := failures_le _ _
    dsimp only
    omega
  answer := rfl
  repeated i hi := by
    have := failures_fail (Nat.lt_of_succ_lt_succ hi)
    rwa [Nat.zero_add] at this
  last hlt := by
    have : ¬Fails op isRetryable (0 + retries config op isRetryable) := failures_end (Nat.lt_sub_of_add_lt hlt)
    rwa [Nat.zero_add] at this
  slept := by simp [backOff]
  ordered := by
    refine List.Pairwise.map _ ?_ List.pairwise_lt_range
    exact fun i j hij => delayBefore_mono hij.le
  bounded d hd := by
    obtain ⟨i, -, rfl⟩ := List.mem_map.1 hd
    exact delayBefore_le_max hle _

/-- A run of `retry` calls the operation at most `maxAttempts` times, returns the first outcome
    that is not to be repeated or the last, and sleeps ever longer delays within the maximum,
    if and only if the doubled delays do not pass the maximum as often as it tries again, or
    come to it exactly. -/
theorem backoff_bounded (config : RetryConfig) (op : Nat → Except ε α) (isRetryable : ε → Bool)
    (hattempts : 1 ≤ config.maxAttempts.toNat) (hpos : 0 < config.initialDelayMs.toNat)
    (hle : config.initialDelayMs.toNat ≤ config.maxDelayMs.toNat) :
    (∃ outcome c, BacksOff config op isRetryable (retry config op isRetryable) outcome c) ↔
      KeepsTo config (retries config op isRetryable) := by
  refine ⟨fun ⟨outcome, c, h⟩ => ?_, fun h => ⟨_, _, backsOff_of_retries hattempts hle (retry_of_keeps hattempts hpos h)⟩⟩
  obtain ⟨n, hn⟩ : ∃ n, config.maxAttempts.toNat = n + 1 := ⟨_, (Nat.sub_add_cancel hattempts).symm⟩
  have hrun := h.returns
  rw [retry, hn] at hrun
  have hkeeps := keeps_of_retryLoop hpos hle n 0 (by omega) (.inl rfl) hrun h.bounded
  rwa [Nat.zero_add, show failures op isRetryable n 0 = retries config op isRetryable by
    rw [retries, hn, Nat.add_sub_cancel]] at hkeeps

end

/-- The configuration of `forward`. -/
def forwardRetries : RetryConfig := ⟨30, 1000, 20000⟩

/-- Two failures and an answer. -/
theorem backoff_bounded_answer : ∃ outcome c, BacksOff forwardRetries (fun i => if i < 2 then .error () else .ok i)
    (fun _ => true) (retry forwardRetries (fun i => if i < 2 then .error () else .ok i) fun _ => true) outcome c :=
  (backoff_bounded _ _ _ (by decide) (by decide) (by decide)).2 (.inr (.inl (by decide)))

/-- With every attempt a failure the sixth delay is 32 s, over the maximum of 20 s. -/
theorem backoff_unbounded : ¬∃ outcome c, BacksOff forwardRetries (fun _ => (.error () : Except Unit Unit))
    (fun _ => true) (retry forwardRetries (fun _ => .error ()) fun _ => true) outcome c := by
  rintro ⟨outcome, c, h⟩
  have hslept : (retry forwardRetries (fun _ => (.error () : Except Unit Unit)) fun _ => true).toOption.map
      (fun r => decide (32000 ∈ r.2.slept)) = some true := by decide +kernel
  rw [h.returns] at hslept
  have hover := h.bounded 32000 (by simpa [Except.toOption] using hslept)
  exact absurd hover (by decide)

end Solenoid.Proxy
