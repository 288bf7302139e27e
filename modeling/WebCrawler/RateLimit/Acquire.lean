import WebCrawler.RateLimit.Expiry

/-!
# Waiting for a token in Redis

The loop of `RedisRateLimiter.acquire` around the script: a refused call sleeps for the time
that the script tells it, but not longer than `max_wait_seconds`, and tries again; if Redis
cannot be reached it returns without a token.  Time is counted in milliseconds, of which the
script gets the whole ones.

When nobody else asks for the key and it does not expire, the time at which the bucket has its
next token stays the same from one refusal to the next.  So the number of sleeps is bounded by
the first wait, and the token is taken in the very millisecond in which it is there
(`acquire_returns`).
-/

namespace WebCrawler

open Lib Lib.TokenBucket

/-- What happens during a call of `acquire`. -/
structure AcquireEnv where
  /-- The k-th execution of the script raises. -/
  unreachable : ℕ → Bool
  /-- How many milliseconds longer than asked the k-th sleep lasts. -/
  oversleep : ℕ → ℚ

/-- How a call of `acquire` returns. -/
inductive AcquireOutcome
  /-- The rate is not positive. -/
  | unlimited
  /-- The script has raised. -/
  | failedOpen
  | granted
deriving DecidableEq, Repr

/-- The end of a call of `acquire`. -/
structure AcquireEnd where
  outcome : AcquireOutcome
  sleeps : ℕ
  timeMs : ℚ
  hash : Option (Bucket ℚ)
deriving DecidableEq

namespace RedisRateLimiter

variable (C r maxWaitSeconds : ℚ) (env : AcquireEnv)

/-- The loop, from a turn on. -/
def acquireLoop : ℕ → ℕ → ℚ → Option (Bucket ℚ) → Option AcquireEnd
  | 0, _, _, _ => none
  | fuel + 1, turn, t, hash =>
      if env.unreachable turn then some ⟨.failedOpen, turn, t, hash⟩
      else
        let out := tokenBucketScript C r ⌊t⌋ 1 hash
        if out.1.1 = 1 then some ⟨.granted, turn, t, some out.2⟩
        else
          acquireLoop fuel (turn + 1)
            (t + 1000 * min ((out.1.2 : ℚ) / 1000) maxWaitSeconds + env.oversleep turn) (some out.2)

/-- `acquire`, called at a time. -/
def acquire (fuel : ℕ) (t : ℚ) (hash : Option (Bucket ℚ)) : Option AcquireEnd :=
  if r ≤ 0 then some ⟨.unlimited, 0, t, hash⟩ else acquireLoop C r maxWaitSeconds env fuel 0 t hash

variable {C r maxWaitSeconds env} {t : ℚ} {b : Bucket ℚ} {hash : Option (Bucket ℚ)} {turn : ℕ}

/-! ### One turn -/

/-- The poll of the bucket that an execution at a time is. -/
def pollAt (r t : ℚ) : Poll ℚ := ⟨(⌊t⌋ : ℚ), r / 1000⟩

lemma available_eq (C r t : ℚ) (hash : Option (Bucket ℚ)) :
    available C r t hash =
      refill C (TokenBucket.before C hash ⟨t, r / 1000⟩) ⟨t, r / 1000⟩ := by
  rw [available, refill, TokenBucket.before, div_mul_eq_mul_div, mul_div_assoc]

/-- A refused execution tells the caller to wait for the next token. -/
lemma script_of_refused (hg : ¬ Grants C hash (pollAt r t)) :
    (tokenBucketScript C r ⌊t⌋ 1 hash).1 =
      (0, ⌈due (next C hash (pollAt r t)) (r / 1000)⌉ - ⌊t⌋) := by
  have hlt : available C r ⌊t⌋ hash < 1 := by
    rw [available_eq]
    exact not_le.1 hg
  have hdue : due (next C hash (pollAt r t)) (r / 1000) =
      (⌊t⌋ : ℚ) + (1 - available C r ⌊t⌋ hash) / r * 1000 := by
    rw [available_eq, div_mul_eq_mul_div, ← div_div_eq_mul_div]
    exact due_of_refused hg
  rw [script_of_lt hlt, hdue, Int.ceil_intCast_add, add_sub_cancel_left]

lemma script_of_granted (hg : Grants C hash (pollAt r t)) :
    (tokenBucketScript C r ⌊t⌋ 1 hash).1 = (1, 0) := by
  rw [script_of_le]
  rw [available_eq]
  exact hg

/-- The next token is not there yet. -/
lemma lt_ceil_due (hr : 0 < r) (hg : ¬ Grants C hash (pollAt r t)) :
    ⌊t⌋ < ⌈due (next C hash (pollAt r t)) (r / 1000)⌉ := by
  have hshort : refill C (TokenBucket.before C hash (pollAt r t)) (pollAt r t) < 1 := not_le.1 hg
  have hwait : 0 < (1 - refill C (TokenBucket.before C hash (pollAt r t)) (pollAt r t)) /
      (r / 1000) := div_pos (sub_pos.2 hshort) (by positivity)
  have hdue : due (next C hash (pollAt r t)) (r / 1000) = (⌊t⌋ : ℚ) + _ := due_of_refused hg
  rw [Int.lt_ceil, hdue]
  exact lt_add_of_pos_right _ hwait

lemma script_stores (C r t : ℚ) (hash : Option (Bucket ℚ)) :
    (tokenBucketScript C r ⌊t⌋ 1 hash).2 = next C hash (pollAt r t) :=
  (tokenBucketScript_eq _ _).1

/-- The loop after a turn without a token. -/
lemma acquireLoop_of_refused (hreach : ¬ env.unreachable turn = true)
    (hg : ¬ Grants C hash (pollAt r t)) (fuel : ℕ) :
    acquireLoop C r maxWaitSeconds env (fuel + 1) turn t hash =
      acquireLoop C r maxWaitSeconds env fuel (turn + 1)
        (t + min ((⌈due (next C hash (pollAt r t)) (r / 1000)⌉ - ⌊t⌋ : ℤ) : ℚ)
          (1000 * maxWaitSeconds) + env.oversleep turn)
        (some (next C hash (pollAt r t))) := by
  have hmin : ∀ w : ℚ, 1000 * min (w / 1000) maxWaitSeconds = min w (1000 * maxWaitSeconds) := by
    intro w
    rw [mul_min_of_nonneg _ _ (by norm_num), mul_div_cancel₀ _ (by norm_num)]
  rw [acquireLoop, if_neg hreach]
  simp only [script_of_refused hg, hmin, script_stores, zero_ne_one, if_false]

/-! ### The whole loop -/

/-- How a loop ends that waits for a time: after `n` more sleeps at most, with a token not before
that time, and, if Redis is there and no sleep lasts too long, in that very millisecond. -/
structure Ends (env : AcquireEnv) (dueMs : ℤ) (turn n : ℕ) (t : ℚ) (e : AcquireEnd) : Prop where
  sleeps_le : e.sleeps ≤ turn + n
  not_early : e.outcome = .granted → dueMs ≤ ⌊e.timeMs⌋
  granted : (∀ k, env.unreachable k = false) → e.outcome = .granted
  punctual : (∀ k, env.unreachable k = false) → (∀ k, env.oversleep k = 0) → ⌊t⌋ ≤ dueMs →
    ⌊e.timeMs⌋ = dueMs

/-- The next turn comes when the token is there, or a longest sleep later. -/
lemma le_wake {dueMs : ℤ} {n : ℕ} {late : ℚ} (longest : ℚ) (hlongest : 0 ≤ longest)
    (hlate : 0 ≤ late) (hdue : (dueMs : ℚ) ≤ t + (n + 1 : ℕ) * longest) :
    (dueMs : ℚ) ≤ t + min ((dueMs - ⌊t⌋ : ℤ) : ℚ) longest + late + n * longest := by
  have hfloor := Int.floor_le t
  have hn : 0 ≤ n * longest := by positivity
  push_cast at hdue ⊢
  rcases le_total ((dueMs : ℚ) - ⌊t⌋) longest with hle | hle
  · rw [min_eq_left hle]
    linarith
  · rw [min_eq_right hle]
    linarith

/-- Time goes on. -/
lemma floor_le_wake {dueMs : ℤ} {late : ℚ} (longest : ℚ) (hlongest : 0 ≤ longest) (hlate : 0 ≤ late)
    (hlt : ⌊t⌋ < dueMs) : ⌊t⌋ ≤ ⌊t + min ((dueMs - ⌊t⌋ : ℤ) : ℚ) longest + late⌋ := by
  have hwait : (0 : ℚ) ≤ ((dueMs - ⌊t⌋ : ℤ) : ℚ) := by exact_mod_cast (sub_pos.2 hlt).le
  exact Int.floor_le_floor (by linarith [le_min hwait hlongest])

/-- A sleep of the right length does not go beyond the millisecond of the token. -/
lemma floor_wake_le {dueMs : ℤ} (longest : ℚ) :
    ⌊t + min ((dueMs - ⌊t⌋ : ℤ) : ℚ) longest⌋ ≤ dueMs := by
  calc ⌊t + min ((dueMs - ⌊t⌋ : ℤ) : ℚ) longest⌋ ≤ ⌊t + ((dueMs - ⌊t⌋ : ℤ) : ℚ)⌋ :=
        Int.floor_le_floor (by linarith [min_le_left ((dueMs - ⌊t⌋ : ℤ) : ℚ) longest])
    _ = dueMs := by rw [Int.floor_add_intCast]; ring

lemma Ends.of_wake {dueMs : ℤ} {n : ℕ} {t' : ℚ} {e : AcquireEnd}
    (h : Ends env dueMs (turn + 1) n t' e)
    (hwake : (∀ k, env.oversleep k = 0) → ⌊t⌋ ≤ dueMs → ⌊t'⌋ ≤ dueMs) :
    Ends env dueMs turn (n + 1) t e :=
  ⟨by have := h.sleeps_le; omega, h.not_early, h.granted,
    fun hreach hover hle => h.punctual hreach hover (hwake hover hle)⟩

lemma exists_ends_of_unreachable {dueMs : ℤ} (n : ℕ) (h : env.unreachable turn = true) :
    ∃ e, (∀ fuel, n < fuel → acquireLoop C r maxWaitSeconds env fuel turn t hash = some e) ∧
      Ends env dueMs turn n t e := by
  refine ⟨⟨.failedOpen, turn, t, hash⟩, ?_, Nat.le_add_right _ _, nofun, ?_, ?_⟩
  · intro fuel hfuel
    obtain ⟨fuel, rfl⟩ := Nat.exists_eq_succ_of_ne_zero (Nat.ne_zero_of_lt hfuel)
    rw [acquireLoop, if_pos h]
  · intro hreach
    exact absurd (hreach turn) (by simp [h])
  · intro hreach
    exact absurd (hreach turn) (by simp [h])

lemma exists_ends_of_grants {dueMs : ℤ} (n : ℕ) (h : ¬ env.unreachable turn = true)
    (hg : Grants C hash (pollAt r t)) (hle : dueMs ≤ ⌊t⌋) :
    ∃ e, (∀ fuel, n < fuel → acquireLoop C r maxWaitSeconds env fuel turn t hash = some e) ∧
      Ends env dueMs turn n t e := by
  refine ⟨⟨.granted, turn, t, some (next C hash (pollAt r t))⟩, ?_,
    Nat.le_add_right _ _, fun _ => hle, fun _ => rfl, fun _ _ hge => le_antisymm hge hle⟩
  intro fuel hfuel
  obtain ⟨fuel, rfl⟩ := Nat.exists_eq_succ_of_ne_zero (Nat.ne_zero_of_lt hfuel)
  rw [acquireLoop, if_neg h, ← script_stores]
  exact if_pos (congrArg Prod.fst (script_of_granted hg))

/-- **The loop on a bucket.**  The induction is on the number of the longest sleeps after which
the token is there for certain. -/
lemma exists_ends (env : AcquireEnv) (turn : ℕ) (hC : 1 ≤ C) (hr : 0 < r)
    (hmax : 0 < maxWaitSeconds) (hover : ∀ k, 0 ≤ env.oversleep k) (n : ℕ) (hts : b.ts ≤ ⌊t⌋)
    (hdue : (⌈due b (r / 1000)⌉ : ℚ) ≤ t + n * (1000 * maxWaitSeconds)) :
    ∃ e, (∀ fuel, n < fuel → acquireLoop C r maxWaitSeconds env fuel turn t (some b) = some e) ∧
      Ends env ⌈due b (r / 1000)⌉ turn n t e := by
  have hrate : 0 < r / 1000 := by positivity
  induction n generalizing b t turn with
  | zero =>
      have hle : ⌈due b (r / 1000)⌉ ≤ ⌊t⌋ := Int.le_floor.2 (by simpa using hdue)
      by_cases hreach : env.unreachable turn = true
      · exact exists_ends_of_unreachable 0 hreach
      · exact exists_ends_of_grants 0 hreach
          ((grants_iff_due_le (p := pollAt r t) hC hrate hts).2 (Int.ceil_le.1 hle)) hle
  | succ n ih =>
      by_cases hreach : env.unreachable turn = true
      · exact exists_ends_of_unreachable _ hreach
      by_cases hg : Grants C (some b) (pollAt r t)
      · exact exists_ends_of_grants _ hreach hg
          (Int.ceil_le.2 ((grants_iff_due_le (p := pollAt r t) hC hrate hts).1 hg))
      · -- the next turn waits for the same time
        have hsame : due (next C (some b) (pollAt r t)) (r / 1000) = due b (r / 1000) :=
          due_next (p := pollAt r t) hC hrate hts hg
        have hwake := le_wake (1000 * maxWaitSeconds) (by positivity) (hover turn) hdue
        have hfloor := floor_le_wake (1000 * maxWaitSeconds) (by positivity)
          (hover turn) (hsame ▸ lt_ceil_due hr hg)
        obtain ⟨e, he, hends⟩ := ih (turn + 1) (b := next C (some b) (pollAt r t))
          (Int.cast_le.2 hfloor) (by rw [hsame]; exact hwake)
        refine ⟨e, ?_, ?_⟩
        · intro fuel hfuel
          obtain ⟨fuel, rfl⟩ := Nat.exists_eq_succ_of_ne_zero (Nat.ne_zero_of_lt hfuel)
          rw [acquireLoop_of_refused hreach hg, hsame]
          exact he fuel (by omega)
        · rw [hsame] at hends
          refine hends.of_wake ?_
          intro hzero _
          rw [hzero turn, add_zero]
          exact floor_wake_le _

/-- **The loop ends, and in time.**  Nobody else asks for the key.  Then a call returns after at
most as many sleeps as the longest ones that fit into its first wait; it does not take a token
before that wait is over; as long as Redis answers it does take one, and when no sleep lasts too
long, in the very millisecond in which the first wait is over. -/
theorem acquire_returns (C r maxWaitSeconds : ℚ) (hC : 1 ≤ C) (hr : 0 < r)
    (hmax : 0 < maxWaitSeconds) (env : AcquireEnv) (hover : ∀ k, 0 ≤ env.oversleep k) (t : ℚ)
    (hash : Option (Bucket ℚ)) :
    let wait := (tokenBucketScript C r ⌊t⌋ 1 hash).1.2
    let longest := ⌈(wait : ℚ) / (1000 * maxWaitSeconds)⌉₊
    ∃ e, (∀ fuel, longest < fuel → acquire C r maxWaitSeconds env fuel t hash = some e) ∧
      e.sleeps ≤ longest ∧ (e.outcome = .granted → ⌊t⌋ + wait ≤ ⌊e.timeMs⌋) ∧
      ((∀ k, env.unreachable k = false) → e.outcome = .granted ∧
        ((∀ k, env.oversleep k = 0) → ⌊e.timeMs⌋ = ⌊t⌋ + wait)) := by
  intro wait longest
  have hloop : ∀ fuel, acquire C r maxWaitSeconds env fuel t hash =
      acquireLoop C r maxWaitSeconds env fuel 0 t hash := fun _ => if_neg (not_le.2 hr)
  have hwait0 : 0 ≤ wait := by
    by_cases hg : Grants C hash (pollAt r t)
    · exact (congrArg Prod.snd (script_of_granted hg)).ge
    · have hlt := lt_ceil_due hr hg
      have hwait : wait = _ - ⌊t⌋ := congrArg Prod.snd (script_of_refused hg)
      omega
  obtain ⟨e, he, hends⟩ : ∃ e, (∀ fuel, longest < fuel →
      acquireLoop C r maxWaitSeconds env fuel 0 t hash = some e) ∧
      Ends env (⌊t⌋ + wait) 0 longest t e := by
    by_cases hreach : env.unreachable 0 = true
    · exact exists_ends_of_unreachable _ hreach
    by_cases hg : Grants C hash (pollAt r t)
    · have hwait : wait = 0 := congrArg Prod.snd (script_of_granted hg)
      exact exists_ends_of_grants _ hreach hg (by rw [hwait, add_zero])
    · -- from the first refusal on, the loop waits for one time
      have hlt := lt_ceil_due hr hg
      have hwait : wait = ⌈due (next C hash (pollAt r t)) (r / 1000)⌉ - ⌊t⌋ :=
        congrArg Prod.snd (script_of_refused hg)
      have hpos : 0 < longest := by
        refine Nat.ceil_pos.2 (div_pos ?_ (by positivity))
        exact_mod_cast show 0 < wait by omega
      obtain ⟨n, hn⟩ := Nat.exists_eq_succ_of_ne_zero hpos.ne'
      have hdue : (⌈due (next C hash (pollAt r t)) (r / 1000)⌉ : ℚ) ≤
          t + (n + 1 : ℕ) * (1000 * maxWaitSeconds) := by
        have hceil : (wait : ℚ) / (1000 * maxWaitSeconds) ≤ (n + 1 : ℕ) := by
          rw [← Nat.succ_eq_add_one, ← hn]
          exact Nat.le_ceil _
        rw [div_le_iff₀ (by positivity), hwait] at hceil
        have hfloor := Int.floor_le t
        push_cast at hceil ⊢
        linarith
      obtain ⟨e, he, hends⟩ := exists_ends env (0 + 1) hC hr hmax hover n
        (b := next C hash (pollAt r t))
        (Int.cast_le.2 (floor_le_wake (1000 * maxWaitSeconds) (by positivity)
          (hover 0) hlt))
        (le_wake _ (by positivity) (hover 0) hdue)
      rw [hwait, add_sub_cancel, hn]
      refine ⟨e, ?_, hends.of_wake ?_⟩
      · intro fuel hfuel
        obtain ⟨fuel, rfl⟩ := Nat.exists_eq_succ_of_ne_zero (Nat.ne_zero_of_lt hfuel)
        rw [acquireLoop_of_refused hreach hg]
        exact he fuel (by omega)
      · intro hzero _
        rw [hzero 0, add_zero]
        exact floor_wake_le _
  refine ⟨e, fun fuel hfuel => (hloop fuel).trans (he fuel hfuel), ?_, hends.not_early,
    fun hreach => ⟨hends.granted hreach, fun hzero => hends.punctual hreach hzero ?_⟩⟩
  · simpa using hends.sleeps_le
  · omega

/-- Three hundred milliseconds after a request, at one per second: the call sleeps twice for at
most half a second, and takes its token when the second is over. -/
theorem acquire_returns_twoSleeps :
    acquire 1 1 (1 / 2) ⟨fun _ => false, fun _ => 0⟩ 3 300 (some ⟨0, 0⟩) =
        some ⟨.granted, 2, 1000, some ⟨0, 1000⟩⟩ ∧
      ∃ e, (∀ fuel, 2 < fuel →
          acquire 1 1 (1 / 2) ⟨fun _ => false, fun _ => 0⟩ fuel 300 (some ⟨0, 0⟩) = some e) ∧
        e.sleeps ≤ 2 ∧ ⌊e.timeMs⌋ = 1000 := by
  have hwait : (tokenBucketScript 1 1 ⌊(300 : ℚ)⌋ 1 (some ⟨0, 0⟩)).1.2 = 700 := by decide +kernel
  have hlongest : ⌈((700 : ℤ) : ℚ) / (1000 * (1 / 2))⌉₊ = 2 := by
    rw [Nat.ceil_eq_iff (by norm_num)]
    norm_num
  have hfloor : ⌊(300 : ℚ)⌋ = 300 := by norm_num
  obtain ⟨e, he, hsleeps, -, hgranted⟩ := acquire_returns 1 1 (1 / 2) le_rfl one_pos (by norm_num)
    ⟨fun _ => false, fun _ => 0⟩ (fun _ => le_rfl) 300 (some ⟨0, 0⟩)
  rw [hwait, hlongest] at he hsleeps
  rw [hwait, hfloor] at hgranted
  exact ⟨by decide +kernel, e, he, hsleeps, (hgranted fun _ => rfl).2 fun _ => rfl⟩

end RedisRateLimiter

end WebCrawler
