import WebCrawler.RateLimit.Expiry
import WebCrawler.Pipeline.Pipeline

/-!
# How far apart the fetches of a host are

`Politeness.slot` asks the limiter for a token at the rate of its effective delay, which is the
default delay or what the robots rules ask for, whichever is longer.  The rules may change from
one fetch to the next, and finding them out may fail, so the rate differs from call to call and
from worker to worker, and a bucket is refilled at the rate of whoever polls it.

No rate is higher than that of the default delay.  So with the capacity of one that the crawler
uses, two fetches of a host are never closer than that, whoever makes them, as long as the clocks
agree and the bucket does not expire (`fetches_apart`).
-/

namespace WebCrawler

open Lib Lib.TokenBucket

/-- Every delay is at least the default one. -/
lemma Politeness.le_effectiveDelayMs {ν : Type} {p : Politeness ν} {url : String} {s s' : ν}
    {delayMs : ℤ} (h : (p.effectiveDelayMs url).run s = .ok delayMs s') :
    p.defaultCrawlDelayMs ≤ delayMs := by
  rw [effectiveDelayMs] at h
  split_ifs at h with hrobots
  · obtain ⟨answer, t, -, hanswer⟩ := run_bind_eq_ok.1 h
    split at hanswer
    · obtain ⟨rfl, rfl⟩ := run_pure_eq_ok.1 hanswer
      exact le_max_left _ _
    · obtain ⟨rfl, rfl⟩ := run_pure_eq_ok.1 hanswer
      exact le_rfl
  · obtain ⟨rfl, rfl⟩ := run_pure_eq_ok.1 h
    exact le_rfl

namespace RedisRateLimiter

/-- The calls that are allowed, from a hash on. -/
def allowedFrom (C : ℚ) : Option (Bucket ℚ) → List ScriptCall → List ScriptCall
  | _, [] => []
  | hash, c :: calls =>
      let out := tokenBucketScript C c.refillPerSec c.nowMs 1 hash
      if out.1.1 = 1 then c :: allowedFrom C (some out.2) calls
      else allowedFrom C (some out.2) calls

/-- The calls on a new key that are allowed. -/
def allowedCalls (C : ℚ) (calls : List ScriptCall) : List ScriptCall := allowedFrom C none calls

/-- A call as a poll of the bucket. -/
def toPoll (c : ScriptCall) : Poll ℚ := ⟨c.nowMs, c.refillPerSec / 1000⟩

variable {C : ℚ} {calls : List ScriptCall}

/-- The calls that are allowed are the polls that are granted, from any state of a run on. -/
lemma foldl_eq_allowedFrom (hash : Option (Bucket ℚ)) (granted : List (Poll ℚ)) :
    ((calls.map toPoll).foldl (fun st p =>
      (some (next C st.1 p), if Grants C st.1 p then st.2 ++ [p] else st.2))
      (hash, granted)).2 = granted ++ (allowedFrom C hash calls).map toPoll := by
  induction calls generalizing hash granted with
  | nil => simp [allowedFrom]
  | cons c calls ih =>
      obtain ⟨hstored, hallowed⟩ : _ = next C hash (toPoll c) ∧ _ :=
        tokenBucketScript_eq (C := C) (r := c.refillPerSec) c.nowMs hash
      rw [List.map_cons, List.foldl_cons, ih, allowedFrom]
      simp only [hstored]
      by_cases hg : Grants C hash (toPoll c)
      · rw [if_pos hg, if_pos (hallowed.trans (if_pos hg)), List.map_cons, List.append_assoc]
        rfl
      · have hrefused : ¬ (tokenBucketScript C c.refillPerSec c.nowMs 1 hash).1.1 = 1 := by
          rw [hallowed.trans (if_neg hg)]
          exact zero_ne_one
        rw [if_neg hg, if_neg hrefused]

lemma grants_map_toPoll (C : ℚ) (calls : List ScriptCall) :
    grants C (calls.map toPoll) = (allowedCalls C calls).map toPoll := by
  rw [grants, run, foldl_eq_allowedFrom, List.nil_append, allowedCalls]

/-- **Politeness with changing rules.**  The calls on the key of a host come in the order of their
times, each at the rate of an effective delay.  With a capacity of one any two of them that are
allowed are at least the default delay apart; and with any capacity a window of time has room for
no more than the capacity and one call for each default delay. -/
theorem fetches_apart {ν : Type} (p : Politeness ν) (hdefault : 0 < p.defaultCrawlDelayMs)
    (calls : List ScriptCall) (htime : (calls.map (·.nowMs)).Pairwise (· ≤ ·))
    (hrates : ∀ c ∈ calls, ∃ url s delayMs s',
      (p.effectiveDelayMs url).run s = .ok delayMs s' ∧ c.refillPerSec = 1000 / delayMs) :
    (allowedCalls 1 calls).Pairwise
        (fun c c' => p.defaultCrawlDelayMs ≤ c'.nowMs - c.nowMs) ∧
      ∀ C : ℚ, 1 ≤ C → ∀ lo hi : ℤ, lo ≤ hi →
        ((allowedCalls C calls).countP (fun c => lo ≤ c.nowMs ∧ c.nowMs ≤ hi) : ℚ) ≤
          C + (hi - lo) / p.defaultCrawlDelayMs := by
  have hD : (0 : ℚ) < p.defaultCrawlDelayMs := by exact_mod_cast hdefault
  have hslow : ∀ q ∈ calls.map toPoll, 0 ≤ q.rate ∧ q.rate ≤ 1 / (p.defaultCrawlDelayMs : ℚ) := by
    intro q hq
    obtain ⟨c, hc, rfl⟩ := List.mem_map.1 hq
    obtain ⟨url, s, delayMs, s', hrun, hrate⟩ := hrates c hc
    have hle : (p.defaultCrawlDelayMs : ℚ) ≤ delayMs := by
      exact_mod_cast Politeness.le_effectiveDelayMs hrun
    have heq : (toPoll c).rate = 1 / delayMs := by
      rw [toPoll, hrate]
      field_simp
    rw [heq]
    exact ⟨(one_div_pos.2 (hD.trans_le hle)).le, one_div_le_one_div_of_le hD hle⟩
  have hsorted : ((calls.map toPoll).map (·.time)).Pairwise (· ≤ ·) := by
    have hcast := htime.map (fun n : ℤ => (n : ℚ))
      fun a b hab => (by exact_mod_cast hab : (a : ℚ) ≤ b)
    rw [List.map_map] at hcast ⊢
    exact hcast
  constructor
  · have hapart := grants_apart (one_div_pos.2 hD) hslow hsorted
    rw [grants_map_toPoll, List.pairwise_map] at hapart
    refine hapart.imp fun {c c'} hle => ?_
    rw [one_div_one_div] at hle
    have hle' : (p.defaultCrawlDelayMs : ℚ) ≤ c'.nowMs - c.nowMs := hle
    exact_mod_cast hle'
  · intro C hC lo hi hle
    have hbound := grantsIn_le_of_rate_le (C := C) (by linarith) (one_div_pos.2 hD).le hslow hsorted
      (show (lo : ℚ) ≤ hi by exact_mod_cast hle)
    rw [grantsIn, grants_map_toPoll, List.countP_map] at hbound
    have hcount : (allowedCalls C calls).countP (fun c => lo ≤ c.nowMs ∧ c.nowMs ≤ hi) =
        (allowedCalls C calls).countP
          ((fun q : Poll ℚ => decide ((lo : ℚ) ≤ q.time ∧ q.time ≤ hi)) ∘ toPoll) := by
      refine List.countP_congr ?_
      intro c _
      rw [decide_eq_true_eq, Function.comp_apply, decide_eq_true_eq]
      exact and_congr Int.cast_le.symm Int.cast_le.symm
    rw [hcount]
    calc _ ≤ C + 1 / (p.defaultCrawlDelayMs : ℚ) * (hi - lo) := hbound
      _ = C + (hi - lo) / p.defaultCrawlDelayMs := by ring

/-- A politeness gate whose robots rules ask for two seconds for one URL and cannot be read for
the others. -/
def moodyPoliteness : Politeness Unit where
  robotsAllowed _ := pure true
  robotsCrawlDelay url :=
    if url = "http://a.org/slow" then pure (some 2) else throw { what := "TimeoutError()" }
  acquire _ _ := pure ()

/-- One call at the rate of the rules, then one at the default rate: of three polls within a
second and a half the first and the last are allowed. -/
theorem fetches_apart_moody :
    allowedCalls 1 [⟨0, 1000 / (2000 : ℤ)⟩, ⟨600, 1000 / (1000 : ℤ)⟩, ⟨1500, 1000 / (1000 : ℤ)⟩] =
        [⟨0, 1000 / (2000 : ℤ)⟩, ⟨1500, 1000 / (1000 : ℤ)⟩] ∧
      (allowedCalls 1
        [⟨0, 1000 / (2000 : ℤ)⟩, ⟨600, 1000 / (1000 : ℤ)⟩, ⟨1500, 1000 / (1000 : ℤ)⟩]).Pairwise
        fun c c' => 1000 ≤ c'.nowMs - c.nowMs := by
  refine ⟨by decide +kernel, (fetches_apart moodyPoliteness (by decide) _ (by decide) ?_).1⟩
  have hslow : (moodyPoliteness.effectiveDelayMs "http://a.org/slow").run () = .ok 2000 () := by
    have hms : max moodyPoliteness.defaultCrawlDelayMs (truncate (2 * 1000)) = 2000 := by
      decide +kernel
    rw [← hms]
    rfl
  have hother : (moodyPoliteness.effectiveDelayMs "http://a.org/").run () = .ok 1000 () := by
    rfl
  intro c hc
  simp only [List.mem_cons, List.not_mem_nil, or_false] at hc
  rcases hc with rfl | rfl | rfl
  · exact ⟨_, _, _, _, hslow, rfl⟩
  · exact ⟨_, _, _, _, hother, rfl⟩
  · exact ⟨_, _, _, _, hother, rfl⟩

end RedisRateLimiter

end WebCrawler
