import WebCrawler.Models
import WebCrawler.Lib.TokenBucket

/-!
# The token bucket in Redis

`crawler/ratelimit/token_bucket.lua`, the script that all workers run on the bucket of a
host.  Redis executes it atomically, so that a run is the list of the times that the workers
pass, each from its own clock.  Numbers are exact rationals, and the key does not expire.

The script takes no tokens away when a time lies before the one that is stored, but it
stores it, and the next worker whose clock is ahead refills the same stretch of time again.
For times in order the script is the token bucket of the library, with the bound that it
gives; going back and forth between two times, the grants exceed every bound.

A refused request gets the least number of milliseconds after which the next execution is
allowed (`wait_is_exact`).
-/

namespace WebCrawler

open Lib Lib.TokenBucket

/-- The script: whether the request is allowed, how many milliseconds to wait otherwise, and
the fields of the hash that it writes. -/
def tokenBucketScript (capacity refillPerSec nowMs requested : ℚ) (hash : Option (Bucket ℚ)) :
    (ℕ × ℤ) × Bucket ℚ :=
  let b := hash.getD ⟨capacity, nowMs⟩
  let elapsed := max 0 (nowMs - b.ts) / 1000
  let tokens := min capacity (b.tokens + elapsed * refillPerSec)
  if tokens ≥ requested then ((1, 0), ⟨tokens - requested, nowMs⟩)
  else ((0, ⌈(requested - tokens) / refillPerSec * 1000⌉), ⟨tokens, nowMs⟩)

namespace RedisRateLimiter

variable (C r : ℚ)

/-- One execution for one token: the hash, and the number of executions that were allowed. -/
def execute (st : Option (Bucket ℚ) × ℕ) (nowMs : ℚ) : Option (Bucket ℚ) × ℕ :=
  let answer := tokenBucketScript C r nowMs 1 st.1
  (some answer.2, st.2 + answer.1.1)

/-- A run of executions on one key. -/
def executeAll (times : List ℚ) : Option (Bucket ℚ) × ℕ := times.foldl (execute C r) (none, 0)

/-- The number of executions that were allowed. -/
def allowedCount (times : List ℚ) : ℕ := (executeAll C r times).2

/-- The executions as polls; a millisecond refills a thousandth of the rate. -/
def polls (times : List ℚ) : List (Poll ℚ) := times.map fun nowMs => ⟨nowMs, r / 1000⟩

/-- The executions that are allowed number at most the capacity and the refill between the
first and the last of the times. -/
def RateBound (times : List ℚ) : Prop :=
  ∀ lo ∈ times, ∀ hi ∈ times, (∀ x ∈ times, lo ≤ x ∧ x ≤ hi) →
    (allowedCount C r times : ℚ) ≤ C + r * (hi - lo) / 1000

variable {C r} {times : List ℚ}

/-- The script is a poll of the token bucket. -/
lemma tokenBucketScript_eq (nowMs : ℚ) (hash : Option (Bucket ℚ)) :
    (tokenBucketScript C r nowMs 1 hash).2 = next C hash ⟨nowMs, r / 1000⟩ ∧
      (tokenBucketScript C r nowMs 1 hash).1.1 =
        if Grants C hash ⟨nowMs, r / 1000⟩ then 1 else 0 := by
  have helapsed : min C ((hash.getD ⟨C, nowMs⟩).tokens +
      max 0 (nowMs - (hash.getD ⟨C, nowMs⟩).ts) / 1000 * r) =
      refill C (TokenBucket.before C hash ⟨nowMs, r / 1000⟩) ⟨nowMs, r / 1000⟩ := by
    rw [refill, TokenBucket.before, div_mul_eq_mul_div, mul_div_assoc]
  simp only [tokenBucketScript, next, helapsed]
  by_cases hg : Grants C hash ⟨nowMs, r / 1000⟩
  · rw [if_pos hg, if_pos hg, if_pos (show _ ≥ (1 : ℚ) from hg)]
    exact ⟨rfl, rfl⟩
  · rw [if_neg hg, if_neg hg, if_neg (show ¬ _ ≥ (1 : ℚ) from hg), sub_zero]
    exact ⟨rfl, rfl⟩

lemma executeAll_snoc (times : List ℚ) (nowMs : ℚ) :
    executeAll C r (times ++ [nowMs]) = execute C r (executeAll C r times) nowMs := by
  rw [executeAll, List.foldl_append]
  rfl

lemma polls_snoc (times : List ℚ) (nowMs : ℚ) :
    polls r (times ++ [nowMs]) = polls r times ++ [⟨nowMs, r / 1000⟩] := by
  rw [polls, List.map_append]
  rfl

/-- A run of the script is a run of the token bucket. -/
lemma executeAll_eq (times : List ℚ) :
    executeAll C r times = (bucket C (polls r times), (grants C (polls r times)).length) := by
  induction times using List.reverseRecOn with
  | nil => rfl
  | append_singleton times nowMs ih =>
      obtain ⟨hhash, hallowed⟩ :=
        tokenBucketScript_eq (C := C) (r := r) nowMs (bucket C (polls r times))
      rw [executeAll_snoc, ih, polls_snoc, bucket_snoc, grants_snoc, execute, hhash, hallowed]
      split_ifs
      · rw [List.length_append, List.length_singleton]
      · rw [add_zero]

lemma allowedCount_eq (times : List ℚ) :
    allowedCount C r times = (grants C (polls r times)).length := by
  rw [allowedCount, executeAll_eq]

/-- All grants of a run lie between the first and the last of its times. -/
lemma grantsIn_eq_length {polls : List (Poll ℚ)} {lo hi : ℚ}
    (h : ∀ p ∈ polls, lo ≤ p.time ∧ p.time ≤ hi) :
    grantsIn C polls lo hi = (grants C polls).length := by
  rw [grantsIn, List.countP_eq_length]
  intro p hp
  exact decide_eq_true (h p (mem_of_mem_grants hp))

lemma rateBound_of_pairwise (hC : 1 ≤ C) (hr : 0 < r) (h : times.Pairwise (· ≤ ·)) :
    RateBound C r times := by
  intro lo hlo hi _ hbetween
  have hrate : ∀ p ∈ polls r times, p.rate = r / 1000 := by
    intro p hp
    obtain ⟨nowMs, -, rfl⟩ := List.mem_map.1 hp
    rfl
  have htime : ((polls r times).map (·.time)).Pairwise (· ≤ ·) := by
    rw [polls, List.map_map]
    simpa [Function.comp_def] using h
  have hgrants := grantsIn_le (C := C) (by linarith) (by positivity) hrate htime (hbetween lo hlo).2
  rw [grantsIn_eq_length] at hgrants
  · rw [allowedCount_eq]
    calc ((grants C (polls r times)).length : ℚ) ≤ C + r / 1000 * (hi - lo) := hgrants
      _ = C + r * (hi - lo) / 1000 := by ring
  · intro p hp
    obtain ⟨nowMs, hmem, rfl⟩ := List.mem_map.1 hp
    exact hbetween nowMs hmem

/-- Times that go back and forth between two values. -/
def backAndForthTimes (lo hi : ℚ) (n : ℕ) : List ℚ := (List.replicate n [lo, hi]).flatten

lemma polls_backAndForthTimes (lo hi : ℚ) (n : ℕ) :
    polls r (backAndForthTimes lo hi n) = backAndForth (r / 1000) lo hi n := by
  rw [polls, backAndForthTimes, List.map_flatten, List.map_replicate]
  rfl

/-- **The bound of the script.**  If no time lies before the one that the execution before it
has stored, the script keeps the rate bound.  Once a time does, the run can go on with times
that were passed already and break it. -/
theorem rateBound_of_times_in_order (C r : ℚ) (hC : 1 ≤ C) (hr : 0 < r) :
    (∀ times : List ℚ, times.Pairwise (· ≤ ·) → RateBound C r times) ∧
    ∀ times : List ℚ, ¬ times.Pairwise (· ≤ ·) →
      ∃ more, (∀ x ∈ more, x ∈ times) ∧ ¬ RateBound C r (times ++ more) := by
  refine ⟨fun times h => rateBound_of_pairwise hC hr h, fun times hnot => ?_⟩
  obtain ⟨hi, hhi, lo, hlo, hlt⟩ : ∃ hi ∈ times, ∃ lo ∈ times, lo < hi := by
    by_contra hnone
    push Not at hnone
    exact hnot (List.pairwise_of_forall_mem_list hnone)
  have hne : times.toFinset.Nonempty := ⟨lo, by simpa using hlo⟩
  obtain ⟨first, hfirst, hmin⟩ := times.toFinset.exists_min_image id hne
  obtain ⟨last, hlast, hmax⟩ := times.toFinset.exists_max_image id hne
  rw [List.mem_toFinset] at hfirst hlast
  have hrate : ∀ p ∈ polls r times, 0 ≤ p.rate := by
    intro p hp
    obtain ⟨nowMs, -, rfl⟩ := List.mem_map.1 hp
    show 0 ≤ r / 1000
    positivity
  obtain ⟨n, hn⟩ := exists_lt_grants hC (show 0 < r / 1000 by positivity) hlt hrate
    (C + r * (last - first) / 1000)
  have hmore : ∀ x ∈ backAndForthTimes lo hi n, x ∈ times := by
    intro x hx
    obtain ⟨l, hl, hxl⟩ := List.mem_flatten.1 hx
    rw [List.eq_of_mem_replicate hl] at hxl
    simp only [List.mem_cons, List.not_mem_nil, or_false] at hxl
    rcases hxl with rfl | rfl
    · exact hlo
    · exact hhi
  refine ⟨backAndForthTimes lo hi n, hmore, fun hbound => ?_⟩
  have hle := hbound first (by simp [hfirst]) last (by simp [hlast]) fun x hx => by
    have hx' : x ∈ times.toFinset := by
      rw [List.mem_toFinset]
      exact (List.mem_append.1 hx).elim id (hmore x)
    exact ⟨hmin x hx', hmax x hx'⟩
  rw [allowedCount_eq, polls, List.map_append] at hle
  rw [← polls_backAndForthTimes] at hn
  exact absurd hle (not_le.2 hn)

theorem rateBound_of_times_in_order_second : RateBound 1 1 [0, 1000] :=
  (rateBound_of_times_in_order 1 1 le_rfl one_pos).1 [0, 1000] (by decide)

/-- Two workers, one of them a second behind: within one second three requests are allowed,
at a rate of one per second. -/
theorem skewed_clock_allows_three : ¬ RateBound 1 1 [0, 1000, 0, 1000] := by
  intro hbound
  have hle := hbound 0 (by simp) 1000 (by simp) (by decide)
  have hcount : allowedCount 1 1 [0, 1000, 0, 1000] = 3 := by decide +kernel
  rw [hcount] at hle
  norm_num at hle

/-! ### The wait -/

section Wait

variable {requested t : ℚ} {hash : Option (Bucket ℚ)} {b : Bucket ℚ}

/-- The tokens that an execution finds. -/
def available (C r t : ℚ) (hash : Option (Bucket ℚ)) : ℚ :=
  min C ((hash.getD ⟨C, t⟩).tokens + max 0 (t - (hash.getD ⟨C, t⟩).ts) / 1000 * r)

/-- The tokens of a hash lie between zero and the capacity. -/
def InBounds (C : ℚ) (b : Bucket ℚ) : Prop := 0 ≤ b.tokens ∧ b.tokens ≤ C

lemma script_of_le (h : requested ≤ available C r t hash) :
    tokenBucketScript C r t requested hash = ((1, 0), ⟨available C r t hash - requested, t⟩) :=
  if_pos h

lemma script_of_lt (h : available C r t hash < requested) :
    tokenBucketScript C r t requested hash =
      ((0, ⌈(requested - available C r t hash) / r * 1000⌉), ⟨available C r t hash, t⟩) :=
  if_neg (not_le.2 h)

lemma available_nonneg (hr : 0 < r) (hC : 0 ≤ C) (h : ∀ b ∈ hash, InBounds C b) (t : ℚ) :
    0 ≤ available C r t hash := by
  have htokens : 0 ≤ (hash.getD ⟨C, t⟩).tokens := by
    cases hash with
    | none => exact hC
    | some b => exact (h b rfl).1
  refine le_min hC (add_nonneg htokens ?_)
  have := le_max_left 0 (t - (hash.getD ⟨C, t⟩).ts)
  positivity

/-- What is stored stays within the bounds. -/
lemma inBounds_script (hr : 0 < r) (hrequested : 0 < requested) (hC : requested ≤ C)
    (h : ∀ b ∈ hash, InBounds C b) (t : ℚ) :
    InBounds C (tokenBucketScript C r t requested hash).2 := by
  have hnonneg := available_nonneg hr (hrequested.le.trans hC) h t
  have hle : available C r t hash ≤ C := min_le_left _ _
  rcases le_or_gt requested (available C r t hash) with henough | hshort
  · rw [script_of_le henough]
    exact ⟨sub_nonneg.2 henough, by show _ - requested ≤ C; linarith⟩
  · rw [script_of_lt hshort]
    exact ⟨hnonneg, hle⟩

/-- When the tokens that were stored suffice again. -/
lemma le_available_iff (hr : 0 < r) (hC : requested ≤ C) (ht : b.ts ≤ t) :
    requested ≤ available C r t (some b) ↔ (requested - b.tokens) / r * 1000 ≤ t - b.ts := by
  rw [available, Option.getD_some, max_eq_right (sub_nonneg.2 ht), le_min_iff, and_iff_right hC]
  calc requested ≤ b.tokens + (t - b.ts) / 1000 * r
      ↔ requested - b.tokens ≤ (t - b.ts) / 1000 * r := sub_le_iff_le_add'.symm
    _ ↔ (requested - b.tokens) / r ≤ (t - b.ts) / 1000 := (div_le_iff₀ hr).symm
    _ ↔ (requested - b.tokens) / r * 1000 ≤ t - b.ts := le_div_iff₀ (by norm_num)

/-- **The wait is sufficient and minimal.**  A refused request is told to wait for at least one
millisecond; the next execution is refused until then, and allowed from then on.  All of them
store a number of tokens within the bounds. -/
theorem wait_is_exact (C r requested : ℚ) (hr : 0 < r) (hrequested : 0 < requested)
    (hC : requested ≤ C) (hash : Option (Bucket ℚ)) (hbounds : ∀ b ∈ hash, InBounds C b)
    (nowMs w : ℤ) (hrefused : (tokenBucketScript C r nowMs requested hash).1 = (0, w)) :
    let stored := (tokenBucketScript C r nowMs requested hash).2
    InBounds C stored ∧ 1 ≤ w ∧ ∀ t : ℤ, nowMs ≤ t →
      InBounds C (tokenBucketScript C r t requested (some stored)).2 ∧
      (tokenBucketScript C r t requested (some stored)).1.1 = if t < nowMs + w then 0 else 1 := by
  intro stored
  have hstored : InBounds C stored := inBounds_script hr hrequested hC hbounds nowMs
  have hshort : available C r nowMs hash < requested := by
    by_contra henough
    rw [script_of_le (not_lt.1 henough)] at hrefused
    simp at hrefused
  have hscript := script_of_lt hshort
  have hw : w = ⌈(requested - stored.tokens) / r * 1000⌉ := by
    rw [hscript] at hrefused
    simp only [stored, hscript]
    exact (Prod.mk.inj hrefused).2.symm
  have hts : stored.ts = nowMs := by rw [show stored = _ from congrArg Prod.snd hscript]
  have htokens : stored.tokens < requested := by
    rw [show stored = _ from congrArg Prod.snd hscript]
    exact hshort
  refine ⟨hstored, ?_, fun t ht => ⟨?_, ?_⟩⟩
  · rw [hw, Int.one_le_ceil_iff]
    have := sub_pos.2 htokens
    positivity
  · exact inBounds_script hr hrequested hC (by simpa using hstored) t
  · have hiff : requested ≤ available C r t (some stored) ↔ nowMs + w ≤ t := by
      rw [le_available_iff hr hC (by rw [hts]; exact_mod_cast ht), hts, hw]
      rw [← Int.cast_sub, ← Int.ceil_le, le_sub_iff_add_le']
    by_cases hlate : nowMs + w ≤ t
    · rw [script_of_le (hiff.2 hlate), if_neg (not_lt.2 hlate)]
    · rw [script_of_lt (not_le.1 (mt hiff.1 hlate)), if_pos (not_le.1 hlate)]

/-- At three tokens per second the second of two requests waits for a third of a second. -/
theorem wait_is_exact_third :
    let stored := (tokenBucketScript 1 3 0 1 (some ⟨0, 0⟩)).2
    InBounds 1 stored ∧ (1 : ℤ) ≤ 334 ∧ ∀ t : ℤ, 0 ≤ t →
      InBounds 1 (tokenBucketScript 1 3 t 1 (some stored)).2 ∧
      (tokenBucketScript 1 3 t 1 (some stored)).1.1 = if t < 0 + 334 then 0 else 1 :=
  wait_is_exact 1 3 1 (by norm_num) one_pos le_rfl (some ⟨0, 0⟩) (by simp [InBounds]) 0 334
    (by decide +kernel)

end Wait

end RedisRateLimiter

end WebCrawler
