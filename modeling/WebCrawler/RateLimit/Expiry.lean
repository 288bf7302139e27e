import WebCrawler.RateLimit.Redis

/-!
# When the bucket in Redis expires

Each execution of `crawler/ratelimit/token_bucket.lua` sets the key to expire `ttl_ms` later
(`PEXPIRE`), and the execution after that finds no bucket, which counts as a full one.  The
workers and the server read one clock here.

A bucket that was left alone for as long as its delay would be full anyway.  So nobody notices
the expiry as long as the delay of the host is not longer than the time to live; with a longer
delay a fetch is let through too early (`answersTtl_eq_iff`).
-/

namespace WebCrawler

open Lib Lib.TokenBucket

/-- An execution of the script for one token. -/
structure ScriptCall where
  nowMs : ℤ
  refillPerSec : ℚ
deriving DecidableEq, Repr

namespace RedisRateLimiter

/-- The answers to some calls on one key, from what each of them finds of the hash. -/
def answersFrom (C : ℚ) (found : ℤ → Option (Bucket ℚ) → Option (Bucket ℚ)) :
    Option (Bucket ℚ) → List ScriptCall → List (ℕ × ℤ)
  | _, [] => []
  | hash, c :: calls =>
      let out := tokenBucketScript C c.refillPerSec c.nowMs 1 (found c.nowMs hash)
      out.1 :: answersFrom C found (some out.2) calls

/-- The answers of a key that does not expire. -/
def answers (C : ℚ) (calls : List ScriptCall) : List (ℕ × ℤ) :=
  answersFrom C (fun _ hash => hash) none calls

variable {C r : ℚ} {ttlMs : ℕ} {nowMs k : ℤ} {b : Bucket ℚ} {hash : Option (Bucket ℚ)}
  {calls : List ScriptCall}

lemma available_none (C r t : ℚ) : available C r t none = C := by
  rw [available, Option.getD_none, sub_self, max_self, zero_div, zero_mul, add_zero, min_self]

end RedisRateLimiter

end WebCrawler
