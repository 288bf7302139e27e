import WebCrawler.RateLimit.Expiry
import WebCrawler.RateLimit.Local

/-!
# The two limiters give the same answers

A single process limits itself with `crawler/ratelimit/local.py`, a fleet with the script in
`crawler/ratelimit/token_bucket.lua`.  The one counts seconds and refills without asking whether
time has gone backwards, the other counts milliseconds and rounds the wait.  On the same polls,
in the order of their times, they grant the same ones, and the waits differ by the rounding
only (`answers_eq_localAnswers`), in exact arithmetic and as long as the bucket in Redis does not
expire.
-/

namespace WebCrawler

open Lib Lib.TokenBucket

namespace LocalRateLimiter

/-- The answers of the loop of `acquire` to polls of one host: nothing if a token was there, the
time to sleep otherwise. -/
def localAnswers (C : ℚ) : Option (Bucket ℚ) → List ScriptCall → List (Option ℚ)
  | _, [] => []
  | entry, c :: calls =>
      let out := pollLocal C (c.nowMs / 1000) c.refillPerSec entry
      out.1 :: localAnswers C (some out.2) calls

/-- The entry of a host with its time in milliseconds. -/
def inMs (b : Bucket ℚ) : Bucket ℚ := ⟨b.tokens, 1000 * b.ts⟩

/-- What the script answers where the loop of a process would sleep for some seconds. -/
def scriptAnswer : Option ℚ → ℕ × ℤ
  | none => (1, 0)
  | some wait => (0, ⌈wait * 1000⌉)

variable {C : ℚ} {nowMs : ℤ} {entry : Option (Bucket ℚ)}
  {calls : List ScriptCall}

/-- The tokens that a poll finds are the same. -/
lemma available_inMs (refillPerSec : ℚ) (h : ∀ b ∈ entry, 1000 * b.ts ≤ nowMs) :
    RedisRateLimiter.available C refillPerSec nowMs (entry.map inMs) =
      min C ((entry.getD ⟨C, nowMs / 1000⟩).tokens +
        ((nowMs : ℚ) / 1000 - (entry.getD ⟨C, nowMs / 1000⟩).ts) * refillPerSec) := by
  cases entry with
  | none =>
      rw [Option.map_none, RedisRateLimiter.available_none, Option.getD_none, sub_self, zero_mul,
        add_zero, min_self]
  | some b =>
      have hts := sub_nonneg.2 (h b rfl)
      rw [Option.map_some, RedisRateLimiter.available, Option.getD_some, Option.getD_some, inMs,
        max_eq_right hts, sub_div, mul_div_cancel_left₀ _ (by norm_num)]

/-- **One poll.**  The answers agree, and so do the entries that are written. -/
lemma script_eq_pollLocal (refillPerSec : ℚ) (h : ∀ b ∈ entry, 1000 * b.ts ≤ nowMs) :
    tokenBucketScript C refillPerSec nowMs 1 (entry.map inMs) =
      (scriptAnswer (pollLocal C (nowMs / 1000) refillPerSec entry).1,
        inMs (pollLocal C (nowMs / 1000) refillPerSec entry).2) := by
  have htokens := available_inMs (C := C) refillPerSec h
  have hnow : 1000 * ((nowMs : ℚ) / 1000) = nowMs := mul_div_cancel₀ _ (by norm_num)
  simp only [pollLocal, ← htokens]
  rcases le_or_gt 1 (RedisRateLimiter.available C refillPerSec nowMs (entry.map inMs)) with
    hle | hlt
  · rw [RedisRateLimiter.script_of_le hle, if_pos hle, inMs, hnow]
    rfl
  · rw [RedisRateLimiter.script_of_lt hlt, if_neg (not_le.2 hlt), inMs, hnow]
    rfl

/-- The entry that a poll writes has the time of the poll. -/
lemma pollLocal_ts (C now refillPerSec : ℚ) (entry : Option (Bucket ℚ)) :
    (pollLocal C now refillPerSec entry).2.ts = now := by
  simp only [pollLocal]
  split_ifs
  · rfl
  · rfl

lemma answersFrom_inMs (entry : Option (Bucket ℚ))
    (hentry : ∀ b ∈ entry, ∀ c ∈ calls, 1000 * b.ts ≤ c.nowMs)
    (htime : (calls.map (·.nowMs)).Pairwise (· ≤ ·)) :
    RedisRateLimiter.answersFrom C (fun _ hash => hash) (entry.map inMs) calls =
      (localAnswers C entry calls).map scriptAnswer := by
  induction calls generalizing entry with
  | nil => rfl
  | cons c calls ih =>
      have hpoll := script_eq_pollLocal (C := C) c.refillPerSec
        fun b hb => hentry b hb c (by simp)
      rw [List.map_cons, List.pairwise_cons] at htime
      have hrest := ih (some (pollLocal C (c.nowMs / 1000) c.refillPerSec entry).2)
        (fun b hb c' hc' => by
          rw [← Option.mem_some_iff.1 hb, pollLocal_ts, mul_div_cancel₀ _ (by norm_num)]
          exact_mod_cast htime.1 c'.nowMs (List.mem_map_of_mem hc')) htime.2
      simp only [RedisRateLimiter.answersFrom, localAnswers, List.map_cons, hpoll]
      rw [← hrest, Option.map_some]

/-- **The two limiters agree.**  On polls of one key in the order of their times, at any rates,
the script grants the polls that find a token inside a process, and tells the others to wait for
as many milliseconds as these sleep, rounded up. -/
theorem answers_eq_localAnswers (C : ℚ) (calls : List ScriptCall)
    (htime : (calls.map (·.nowMs)).Pairwise (· ≤ ·)) :
    RedisRateLimiter.answers C calls = (localAnswers C none calls).map scriptAnswer :=
  answersFrom_inMs none nofun htime

/-- At three requests per second, the second of two goes through a third of a second after the
first. -/
theorem answers_eq_localAnswers_third :
    localAnswers 1 none [⟨0, 3⟩, ⟨0, 3⟩, ⟨334, 3⟩] = [none, some (1 / 3), none] ∧
      RedisRateLimiter.answers 1 [⟨0, 3⟩, ⟨0, 3⟩, ⟨334, 3⟩] = [(1, 0), (0, 334), (1, 0)] := by
  have hlocal : localAnswers 1 none [⟨0, 3⟩, ⟨0, 3⟩, ⟨334, 3⟩] = [none, some (1 / 3), none] := by
    decide +kernel
  refine ⟨hlocal, ?_⟩
  rw [answers_eq_localAnswers 1 _ (by decide), hlocal]
  decide +kernel

end LocalRateLimiter

end WebCrawler
