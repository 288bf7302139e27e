import WebCrawler.Lib.Machine
import WebCrawler.Lib.TokenBucket
import Mathlib.Data.List.AList

/-!
# The token bucket inside a process

`LocalRateLimiter` of `crawler/ratelimit/local.py`.  A call of `acquire` waits for the lock of
its host and then polls the bucket of the host until it finds a token, sleeping between the
polls; it holds the lock all the time.  The machine has the calls that wait for a lock, those
that hold one, and a clock that does not run backwards.  A sleep may end at any time, which
covers at least the sleeps of the event loop.  Times and rates are exact rationals.

The polls of a host form a run of the token bucket of the library (`Inv`), which gives the
range of the tokens and the bound on the grants in a window.  With a capacity of one, a call
that finds a token has waited for all of it itself, at its own rate (`Spaced`).
-/

namespace WebCrawler

open Lib Lib.TokenBucket

/-- One turn of the loop of `acquire`: the time to sleep unless a token is found, and the
entry of the host that is written. -/
def pollLocal (capacity now refillPerSec : ℚ) (entry : Option (Bucket ℚ)) :
    Option ℚ × Bucket ℚ :=
  let b := entry.getD ⟨capacity, now⟩
  let tokens := min capacity (b.tokens + (now - b.ts) * refillPerSec)
  if tokens ≥ 1 then (none, ⟨tokens - 1, now⟩)
  else (some ((1 - tokens) / refillPerSec), ⟨tokens, now⟩)

/-- A limiter with its calls. -/
structure LimiterState where
  /-- `_state`: the tokens of a host and the time of its last poll. -/
  buckets : AList fun _ : String => Bucket ℚ := ∅
  clock : ℚ
  /-- The calls that wait for the lock of their host, with their rates. -/
  waiting : List (String × ℚ) := []
  /-- The rate of the call that holds the lock of a host. -/
  holding : AList fun _ : String => ℚ := ∅
  rateLimitWaits : ℕ := 0
  /-- The polls ever made, in order. -/
  polls : List (String × Poll ℚ) := []
  /-- The polls that have found a token, in order. -/
  granted : List (String × Poll ℚ) := []
deriving DecidableEq

/-- The steps of the calls and of the clock. -/
inductive LimiterAct
  /-- Time passes. -/
  | tick (now : ℚ)
  /-- A call of `acquire`. -/
  | acquire (host : String) (refillPerSec : ℚ)
  /-- The `i`-th waiting call gets the lock. -/
  | lock (i : ℕ)
  /-- The call that holds the lock of the host polls. -/
  | poll (host : String)
deriving DecidableEq

namespace LocalRateLimiter

variable (C : ℚ)

/-- One step. -/
def step (s : LimiterState) : LimiterAct → Option LimiterState
  | .tick now => if s.clock ≤ now then some { s with clock := now } else none
  | .acquire host refillPerSec =>
      -- without a rate the call returns at once
      if refillPerSec ≤ 0 then some s
      else some { s with waiting := s.waiting ++ [(host, refillPerSec)] }
  | .lock i =>
      match s.waiting[i]? with
      | none => none
      | some (host, rate) =>
          if s.holding.lookup host = none then
            some { s with
              waiting := s.waiting.eraseIdx i
              holding := s.holding.insert host rate }
          else none
  | .poll host =>
      match s.holding.lookup host with
      | none => none
      | some rate =>
          match pollLocal C s.clock rate (s.buckets.lookup host) with
          | (none, b) =>
              some { s with
                buckets := s.buckets.insert host b
                holding := s.holding.erase host
                polls := s.polls ++ [(host, ⟨s.clock, rate⟩)]
                granted := s.granted ++ [(host, ⟨s.clock, rate⟩)] }
          | (some _, b) =>
              some { s with
                buckets := s.buckets.insert host b
                rateLimitWaits := s.rateLimitWaits + 1
                polls := s.polls ++ [(host, ⟨s.clock, rate⟩)] }

/-- A limiter that is created at a time. -/
def machine (start : ℚ) : Machine LimiterState LimiterAct where
  init := { clock := start }
  step := step C

/-- The polls of a host. -/
def pollsOf (host : String) (polls : List (String × Poll ℚ)) : List (Poll ℚ) :=
  (polls.filter (·.1 = host)).map (·.2)

/-- The number of calls for a host that were granted in a window of time. -/
def grantedIn (host : String) (s : LimiterState) (a b : ℚ) : ℕ :=
  (pollsOf host s.granted).countP fun p => a ≤ p.time ∧ p.time ≤ b

variable {C} {s t : LimiterState} {a : LimiterAct} {host : String}

lemma pollsOf_snoc (host host' : String) (polls : List (String × Poll ℚ)) (p : Poll ℚ) :
    pollsOf host (polls ++ [(host', p)]) =
      if host' = host then pollsOf host polls ++ [p] else pollsOf host polls := by
  rw [pollsOf, List.filter_append, List.map_append]
  split_ifs with h
  · rw [List.filter_cons_of_pos (by simpa using h)]
    rfl
  · rw [List.filter_cons_of_neg (by simpa using h)]
    simp [pollsOf]

lemma mem_pollsOf {polls : List (String × Poll ℚ)} {p : Poll ℚ} (h : p ∈ pollsOf host polls) :
    (host, p) ∈ polls := by
  obtain ⟨⟨host', p'⟩, hmem, rfl⟩ := List.mem_map.1 h
  obtain ⟨hpolls, hhost⟩ := List.mem_filter.1 hmem
  obtain rfl : host' = host := by simpa using hhost
  exact hpolls

/-! ### What one step can do -/

/-- The steps, one by one. -/
inductive Moves (C : ℚ) (s : LimiterState) : LimiterAct → LimiterState → Prop
  | tick {now : ℚ} (hle : s.clock ≤ now) : Moves C s (.tick now) { s with clock := now }
  /-- A call without a rate. -/
  | pass {host : String} {rate : ℚ} (hrate : rate ≤ 0) : Moves C s (.acquire host rate) s
  | wait {host : String} {rate : ℚ} (hrate : 0 < rate) :
      Moves C s (.acquire host rate) { s with waiting := s.waiting ++ [(host, rate)] }
  | lock {host : String} {rate : ℚ} {pre post : List (String × ℚ)}
      (hw : s.waiting = pre ++ (host, rate) :: post) (hfree : s.holding.lookup host = none) :
      Moves C s (.lock pre.length)
        { s with waiting := pre ++ post, holding := s.holding.insert host rate }
  /-- The poll finds a token, and the call returns. -/
  | grant {host : String} {rate : ℚ} (hhold : s.holding.lookup host = some rate)
      (hpoll : (pollLocal C s.clock rate (s.buckets.lookup host)).1 = none) :
      Moves C s (.poll host)
        { s with
          buckets := s.buckets.insert host
            (pollLocal C s.clock rate (s.buckets.lookup host)).2
          holding := s.holding.erase host
          polls := s.polls ++ [(host, ⟨s.clock, rate⟩)]
          granted := s.granted ++ [(host, ⟨s.clock, rate⟩)] }
  /-- The poll finds no token, and the call sleeps. -/
  | refuse {host : String} {rate : ℚ} (hhold : s.holding.lookup host = some rate)
      (hpoll : (pollLocal C s.clock rate (s.buckets.lookup host)).1 ≠ none) :
      Moves C s (.poll host)
        { s with
          buckets := s.buckets.insert host
            (pollLocal C s.clock rate (s.buckets.lookup host)).2
          rateLimitWaits := s.rateLimitWaits + 1
          polls := s.polls ++ [(host, ⟨s.clock, rate⟩)] }

/-- **Inversion of a step.** -/
theorem moves_of_step (h : step C s a = some t) : Moves C s a t := by
  cases a with
  | tick now =>
      simp only [step] at h
      split_ifs at h with hle
      obtain rfl := Option.some.inj h
      exact .tick hle
  | acquire host rate =>
      simp only [step] at h
      split_ifs at h with hrate
      · obtain rfl := Option.some.inj h
        exact .pass hrate
      · obtain rfl := Option.some.inj h
        exact .wait (not_le.1 hrate)
  | lock i =>
      simp only [step] at h
      split at h
      case h_1 => simp at h
      case h_2 host rate hi =>
        obtain ⟨pre, post, hw, rfl⟩ := exists_split_of_getElem? hi
        split_ifs at h with hfree
        obtain rfl := Option.some.inj h
        rw [hw, eraseIdx_append_cons]
        exact .lock hw hfree
  | poll host =>
      simp only [step] at h
      split at h
      case h_1 => simp at h
      case h_2 rate hhold =>
        split at h
        case h_1 b hp =>
          obtain rfl := Option.some.inj h
          have hm : Moves C s (.poll host) _ := .grant hhold (by rw [hp])
          rwa [hp] at hm
        case h_2 w b hp =>
          obtain rfl := Option.some.inj h
          have hm : Moves C s (.poll host) _ := .refuse hhold (by rw [hp]; simp)
          rwa [hp] at hm

/-- Up to a later time, a turn of the loop is a poll of the token bucket. -/
lemma pollLocal_eq {now rate : ℚ} {entry : Option (Bucket ℚ)} (h : ∀ b ∈ entry, b.ts ≤ now) :
    (pollLocal C now rate entry).2 = next C entry ⟨now, rate⟩ ∧
      ((pollLocal C now rate entry).1 = none ↔ Grants C entry ⟨now, rate⟩) := by
  have hts : (entry.getD ⟨C, now⟩).ts ≤ now := by
    cases entry with
    | none => exact le_rfl
    | some b => exact h b rfl
  have htokens : min C ((entry.getD ⟨C, now⟩).tokens + (now - (entry.getD ⟨C, now⟩).ts) * rate) =
      refill C (TokenBucket.before C entry ⟨now, rate⟩) ⟨now, rate⟩ := by
    rw [refill, TokenBucket.before, max_eq_right (sub_nonneg.2 hts)]
  simp only [pollLocal, next, htokens]
  by_cases hg : Grants C entry ⟨now, rate⟩
  · rw [if_pos hg, if_pos (show _ ≥ (1 : ℚ) from hg)]
    exact ⟨rfl, iff_of_true rfl hg⟩
  · rw [if_neg hg, if_neg (show ¬ _ ≥ (1 : ℚ) from hg), sub_zero]
    exact ⟨rfl, iff_of_false (by simp) hg⟩

/-! ### The polls of a host -/

/-- The polls come in the order of their times, with positive rates, and those of a host have
made its bucket what it is. -/
structure Inv (C : ℚ) (s : LimiterState) : Prop where
  ordered : (s.polls.map (·.2.time)).Pairwise (· ≤ ·)
  past : ∀ p ∈ s.polls, p.2.time ≤ s.clock
  polls_pos : ∀ p ∈ s.polls, 0 < p.2.rate
  waiting_pos : ∀ w ∈ s.waiting, 0 < w.2
  holding_pos : ∀ host rate, s.holding.lookup host = some rate → 0 < rate
  buckets_eq : ∀ host, s.buckets.lookup host = bucket C (pollsOf host s.polls)
  granted_eq : ∀ host, pollsOf host s.granted = grants C (pollsOf host s.polls)

/-- The entry of a host is not from the future. -/
lemma Inv.ts_le (h : Inv C s) : ∀ b ∈ s.buckets.lookup host, b.ts ≤ s.clock := by
  intro b hb
  rw [h.buckets_eq] at hb
  obtain ⟨p, hp, hts⟩ := exists_ts_eq hb
  rw [hts]
  exact h.past (host, p) (mem_pollsOf hp)

/-- One more poll, with what it makes of the bucket. -/
lemma Inv.poll (h : Inv C s) {rate : ℚ} (hhold : s.holding.lookup host = some rate)
    (holding' : AList fun _ : String => ℚ)
    (hholding : ∀ host' rate', holding'.lookup host' = some rate' → 0 < rate') (n : ℕ)
    (granted' : List (String × Poll ℚ))
    (hgranted : granted' = if Grants C (s.buckets.lookup host) ⟨s.clock, rate⟩ then
      s.granted ++ [(host, ⟨s.clock, rate⟩)] else s.granted) :
    Inv C { s with
      buckets := s.buckets.insert host (pollLocal C s.clock rate (s.buckets.lookup host)).2
      holding := holding'
      rateLimitWaits := n
      polls := s.polls ++ [(host, ⟨s.clock, rate⟩)]
      granted := granted' } := by
  have hnext : (pollLocal C s.clock rate (s.buckets.lookup host)).2 =
      next C (s.buckets.lookup host) ⟨s.clock, rate⟩ := (pollLocal_eq h.ts_le).1
  refine ⟨?_, ?_, ?_, h.waiting_pos, hholding, fun host' => ?_, fun host' => ?_⟩
  · rw [List.map_append, List.map_singleton, List.pairwise_append]
    refine ⟨h.ordered, List.pairwise_singleton _ _, ?_⟩
    rintro x hx y hy
    obtain ⟨p, hp, rfl⟩ := List.mem_map.1 hx
    rw [List.mem_singleton.1 hy]
    exact h.past p hp
  · exact forall_mem_append_singleton h.past le_rfl
  · exact forall_mem_append_singleton h.polls_pos (h.holding_pos host rate hhold)
  · rw [pollsOf_snoc, hnext]
    split_ifs with heq
    · rw [← heq, AList.lookup_insert, bucket_snoc, h.buckets_eq]
    · rw [AList.lookup_insert_ne (Ne.symm heq), h.buckets_eq]
  · rw [pollsOf_snoc, hgranted]
    by_cases heq : host = host'
    · rw [if_pos heq, grants_snoc, ← heq, ← h.buckets_eq]
      split_ifs
      · rw [pollsOf_snoc, if_pos rfl, h.granted_eq]
      · exact h.granted_eq host
    · rw [if_neg heq]
      split_ifs
      · rw [pollsOf_snoc, if_neg heq, h.granted_eq]
      · exact h.granted_eq host'

lemma Inv.step (h : Inv C s) (hm : Moves C s a t) : Inv C t := by
  cases hm with
  | tick hle =>
      exact ⟨h.ordered, fun p hp => (h.past p hp).trans hle, h.polls_pos, h.waiting_pos,
        h.holding_pos, h.buckets_eq, h.granted_eq⟩
  | pass hrate => exact h
  | wait hrate =>
      exact ⟨h.ordered, h.past, h.polls_pos, forall_mem_append_singleton h.waiting_pos hrate,
        h.holding_pos, h.buckets_eq, h.granted_eq⟩
  | @lock host rate pre post hw hfree =>
      have hwaiting := h.waiting_pos
      rw [hw] at hwaiting
      refine ⟨h.ordered, h.past, h.polls_pos, forall_mem_remove hwaiting, ?_, h.buckets_eq,
        h.granted_eq⟩
      intro host' rate' hlook
      by_cases heq : host' = host
      · rw [heq, AList.lookup_insert, Option.some.injEq] at hlook
        rw [← hlook]
        exact hwaiting (host, rate) (by simp)
      · rw [AList.lookup_insert_ne heq] at hlook
        exact h.holding_pos host' rate' hlook
  | @grant host rate hhold hpoll =>
      refine h.poll hhold _ (fun host' rate' hlook => ?_) _ _ ?_
      · by_cases heq : host' = host
        · rw [heq, AList.lookup_erase] at hlook
          exact absurd hlook (by simp)
        · rw [AList.lookup_erase_ne heq] at hlook
          exact h.holding_pos host' rate' hlook
      · rw [if_pos ((pollLocal_eq h.ts_le).2.1 hpoll)]
  | @refuse host rate hhold hpoll =>
      refine h.poll hhold _ h.holding_pos _ _ ?_
      rw [if_neg fun hg => hpoll ((pollLocal_eq h.ts_le).2.2 hg)]

lemma inv_of_reachable {start : ℚ} (h : (machine C start).Reachable s) : Inv C s := by
  refine Machine.ReachableBy.inv ?_
    (fun s a t (ih : Inv C s) _ hst => ih.step (moves_of_step hst)) h
  exact ⟨List.Pairwise.nil, nofun, nofun, nofun, fun host rate hlook => by simp [machine] at hlook,
    fun host => rfl, fun host => rfl⟩

/-- The polls of a host in the order of their times. -/
lemma Inv.ordered_pollsOf (h : Inv C s) (host : String) :
    ((pollsOf host s.polls).map (·.time)).Pairwise (· ≤ ·) := by
  rw [pollsOf, List.map_map]
  exact h.ordered.sublist (List.filter_sublist.map _)

/-! ### A capacity of one -/

/-- The second grant comes at least the time of one token, at its own rate, after the first. -/
def Apart (g g' : Poll ℚ) : Prop := 1 / g'.rate ≤ g'.time - g.time

/-- With a capacity of one, a grant leaves the bucket empty; while a call polls, the bucket
holds at most what was refilled since, at the rate of that call. -/
structure Spaced (s : LimiterState) : Prop where
  chain : ∀ host, (pollsOf host s.granted).IsChain Apart
  idle : ∀ host g, (pollsOf host s.granted).getLast? = some g → s.holding.lookup host = none →
    ∃ b, s.buckets.lookup host = some b ∧ b.ts = g.time ∧ b.tokens ≤ 0
  busy : ∀ host g rate, (pollsOf host s.granted).getLast? = some g →
    s.holding.lookup host = some rate →
    ∃ b, s.buckets.lookup host = some b ∧ b.tokens ≤ (b.ts - g.time) * rate

/-- The tokens that a poll finds were refilled since the last grant. -/
lemma Spaced.refill_le (h : Spaced s) (hinv : Inv 1 s) {rate : ℚ} {g : Poll ℚ}
    (hhold : s.holding.lookup host = some rate)
    (hlast : (pollsOf host s.granted).getLast? = some g) :
    refill 1 (TokenBucket.before 1 (s.buckets.lookup host) ⟨s.clock, rate⟩) ⟨s.clock, rate⟩ ≤
      (s.clock - g.time) * rate := by
  obtain ⟨b, hb, htokens⟩ := h.busy host g rate hlast hhold
  have hadd : refill 1 b ⟨s.clock, rate⟩ ≤ b.tokens + (s.clock - b.ts) * rate :=
    refill_le_add (hinv.ts_le b hb)
  rw [hb]
  show refill 1 b ⟨s.clock, rate⟩ ≤ _
  linarith

/-- What a step leaves alone for a host. -/
lemma Spaced.of_eq (h : Spaced s) (hgranted : t.granted = s.granted)
    (hbuckets : t.buckets = s.buckets) (hholding : t.holding = s.holding) : Spaced t := by
  refine ⟨?_, ?_, ?_⟩
  · rw [hgranted]
    exact h.chain
  · rw [hgranted, hbuckets, hholding]
    exact h.idle
  · rw [hgranted, hbuckets, hholding]
    exact h.busy

lemma Spaced.lock (h : Spaced s) {rate : ℚ} (hfree : s.holding.lookup host = none)
    (waiting' : List (String × ℚ)) :
    Spaced { s with waiting := waiting', holding := s.holding.insert host rate } := by
  refine ⟨h.chain, fun host' g hlast hidle => ?_, fun host' g rate' hlast hbusy => ?_⟩
  · by_cases heq : host' = host
    · rw [heq, AList.lookup_insert] at hidle
      exact absurd hidle (by simp)
    · rw [AList.lookup_insert_ne heq] at hidle
      exact h.idle host' g hlast hidle
  · by_cases heq : host' = host
    · subst heq
      obtain ⟨b, hb, hts, htokens⟩ := h.idle host' g hlast hfree
      refine ⟨b, hb, ?_⟩
      rw [hts, sub_self, zero_mul]
      exact htokens
    · rw [AList.lookup_insert_ne heq] at hbusy
      exact h.busy host' g rate' hlast hbusy

lemma Spaced.grant (h : Spaced s) (hinv : Inv 1 s) {rate : ℚ}
    (hhold : s.holding.lookup host = some rate)
    (hpoll : (pollLocal 1 s.clock rate (s.buckets.lookup host)).1 = none) :
    Spaced { s with
      buckets := s.buckets.insert host (pollLocal 1 s.clock rate (s.buckets.lookup host)).2
      holding := s.holding.erase host
      polls := s.polls ++ [(host, ⟨s.clock, rate⟩)]
      granted := s.granted ++ [(host, ⟨s.clock, rate⟩)] } := by
  have hrate := hinv.holding_pos host rate hhold
  have hnext : (pollLocal 1 s.clock rate (s.buckets.lookup host)).2 =
      next 1 (s.buckets.lookup host) ⟨s.clock, rate⟩ := (pollLocal_eq hinv.ts_le).1
  have hg : Grants 1 (s.buckets.lookup host) ⟨s.clock, rate⟩ :=
    (pollLocal_eq hinv.ts_le).2.1 hpoll
  refine ⟨fun host' => ?_, fun host' g hlast hidle => ?_, fun host' g rate' hlast hbusy => ?_⟩
  · rw [pollsOf_snoc]
    split_ifs with heq
    · subst heq
      refine List.isChain_append.2 ⟨h.chain host, List.isChain_singleton _, ?_⟩
      intro g hlast g' hg'
      obtain rfl : (⟨s.clock, rate⟩ : Poll ℚ) = g' := by simpa using hg'
      have hle := h.refill_le hinv hhold hlast
      have hone : (1 : ℚ) ≤ _ := hg
      show 1 / rate ≤ s.clock - g.time
      rw [div_le_iff₀ hrate]
      linarith
    · exact h.chain host'
  · rw [pollsOf_snoc] at hlast
    by_cases heq : host = host'
    · subst heq
      rw [if_pos rfl, List.getLast?_append, List.getLast?_singleton, Option.some_or,
        Option.some.injEq] at hlast
      refine ⟨_, AList.lookup_insert _, ?_, ?_⟩
      · rw [hnext, ← hlast]
        rfl
      · rw [hnext]
        have hle := TokenBucket.refill_le (C := (1 : ℚ))
          (TokenBucket.before 1 (s.buckets.lookup host) ⟨s.clock, rate⟩) ⟨s.clock, rate⟩
        simp only [next, if_pos hg]
        linarith
    · rw [if_neg heq] at hlast
      rw [AList.lookup_erase_ne (Ne.symm heq)] at hidle
      rw [AList.lookup_insert_ne (Ne.symm heq)]
      exact h.idle host' g hlast hidle
  · rw [pollsOf_snoc] at hlast
    by_cases heq : host = host'
    · subst heq
      rw [AList.lookup_erase] at hbusy
      exact absurd hbusy (by simp)
    · rw [if_neg heq] at hlast
      rw [AList.lookup_erase_ne (Ne.symm heq)] at hbusy
      rw [AList.lookup_insert_ne (Ne.symm heq)]
      exact h.busy host' g rate' hlast hbusy

lemma Spaced.refuse (h : Spaced s) (hinv : Inv 1 s) {rate : ℚ}
    (hhold : s.holding.lookup host = some rate)
    (hpoll : (pollLocal 1 s.clock rate (s.buckets.lookup host)).1 ≠ none) (n : ℕ) :
    Spaced { s with
      buckets := s.buckets.insert host (pollLocal 1 s.clock rate (s.buckets.lookup host)).2
      rateLimitWaits := n
      polls := s.polls ++ [(host, ⟨s.clock, rate⟩)] } := by
  have hnext : (pollLocal 1 s.clock rate (s.buckets.lookup host)).2 =
      next 1 (s.buckets.lookup host) ⟨s.clock, rate⟩ := (pollLocal_eq hinv.ts_le).1
  have hg : ¬ Grants 1 (s.buckets.lookup host) ⟨s.clock, rate⟩ :=
    fun hg => hpoll ((pollLocal_eq hinv.ts_le).2.2 hg)
  refine ⟨h.chain, fun host' g hlast hidle => ?_, fun host' g rate' hlast hbusy => ?_⟩
  · have hne : host' ≠ host := by
      rintro rfl
      rw [hhold] at hidle
      exact absurd hidle (by simp)
    rw [AList.lookup_insert_ne hne]
    exact h.idle host' g hlast hidle
  · by_cases heq : host' = host
    · subst heq
      obtain rfl : rate = rate' := Option.some.inj (hhold.symm.trans hbusy)
      refine ⟨_, AList.lookup_insert _, ?_⟩
      have hle := h.refill_le hinv hhold hlast
      rw [hnext]
      simp only [next, if_neg hg, sub_zero]
      exact hle
    · rw [AList.lookup_insert_ne heq]
      exact h.busy host' g rate' hlast hbusy

lemma Spaced.step (h : Spaced s) (hinv : Inv 1 s) (hm : Moves 1 s a t) : Spaced t := by
  cases hm with
  | tick hle => exact h.of_eq rfl rfl rfl
  | pass hrate => exact h
  | wait hrate => exact h.of_eq rfl rfl rfl
  | lock hw hfree => exact h.lock hfree _
  | grant hhold hpoll => exact h.grant hinv hhold hpoll
  | refuse hhold hpoll => exact h.refuse hinv hhold hpoll _

lemma spaced_of_reachable {start : ℚ} (h : (machine 1 start).Reachable s) : Spaced s := by
  refine Machine.ReachableBy.inv_of (J := Inv 1) (fun s hs => inv_of_reachable hs) ?_
    (fun s a t hJ _ (ih : Spaced s) _ hst => ih.step hJ (moves_of_step hst)) h
  exact ⟨fun host => List.isChain_nil, fun host g hlast => by simp [machine, pollsOf] at hlast,
    fun host g rate hlast => by simp [machine, pollsOf] at hlast⟩

/-- Only the polls for a host touch its bucket. -/
lemma lookup_of_moves (hm : Moves C s a t) (ha : a ≠ .poll host) :
    t.buckets.lookup host = s.buckets.lookup host := by
  cases hm with
  | tick hle => rfl
  | pass hrate => rfl
  | wait hrate => rfl
  | lock hw hfree => rfl
  | @grant host' rate hhold hpoll =>
      have hne : host ≠ host' := fun heq => ha (by rw [heq])
      exact AList.lookup_insert_ne hne
  | @refuse host' rate hhold hpoll =>
      have hne : host ≠ host' := fun heq => ha (by rw [heq])
      exact AList.lookup_insert_ne hne

/-- **Politeness.**  In every run: the tokens of a host stay between zero and the capacity; at
a fixed rate the calls granted in a window number at most the capacity and the refill of the
window; with a capacity of one, a grant comes at least the time of a token after the one
before, at its own rate; and only the calls for a host touch its bucket. -/
theorem politeness_of_reachable (C start : ℚ) (hC : 1 ≤ C) (s : LimiterState)
    (h : (machine C start).Reachable s) :
    (∀ host b, s.buckets.lookup host = some b → 0 ≤ b.tokens ∧ b.tokens ≤ C) ∧
    (∀ host r, 0 < r → (∀ p ∈ pollsOf host s.polls, p.rate = r) →
      ∀ a D, 0 ≤ D → (grantedIn host s a (a + D) : ℚ) ≤ C + r * D) ∧
    (C = 1 → ∀ host, (pollsOf host s.granted).IsChain Apart) ∧
    ∀ host a t, step C s a = some t → a ≠ .poll host →
      t.buckets.lookup host = s.buckets.lookup host := by
  have hC0 : 0 ≤ C := by linarith
  have hinv := inv_of_reachable h
  refine ⟨fun host b hb => ?_, fun host r hr hrate a D hD => ?_, fun hone host => ?_,
    fun host a t hst ha => lookup_of_moves (moves_of_step hst) ha⟩
  · rw [hinv.buckets_eq] at hb
    have hbounded := bounded_bucket hC0
      (fun p hp => (hinv.polls_pos (host, p) (mem_pollsOf hp)).le) b hb
    exact ⟨hbounded.nonneg, hbounded.le⟩
  · have hbound := grantsIn_le hC0 hr.le hrate (hinv.ordered_pollsOf host)
      (show a ≤ a + D by linarith)
    rw [grantsIn, ← hinv.granted_eq, add_sub_cancel_left] at hbound
    exact hbound
  · subst hone
    exact (spaced_of_reachable h).chain host

/-- Two pages are fetched from a host within a second. -/
def twoCalls : List LimiterAct :=
  [.acquire "a.org" 1, .lock 0, .poll "a.org", .acquire "a.org" 1, .lock 0, .tick 1, .poll "a.org"]

theorem politeness_of_reachable_twoCalls :
    ∃ s, (machine 1 0).Reachable s ∧ s.granted = [("a.org", ⟨0, 1⟩), ("a.org", ⟨1, 1⟩)] ∧
      (grantedIn "a.org" s 0 (0 + 1) : ℚ) ≤ 1 + 1 * 1 := by
  have hrun : ((machine 1 0).exec (fun _ _ => True) (machine 1 0).init twoCalls).map
      (fun s => (s.polls, s.granted)) = some ([("a.org", ⟨0, 1⟩), ("a.org", ⟨1, 1⟩)],
        [("a.org", ⟨0, 1⟩), ("a.org", ⟨1, 1⟩)]) := by
    decide +kernel
  obtain ⟨s, hs, heq⟩ := Option.map_eq_some_iff.1 hrun
  obtain ⟨hpolls, hgranted⟩ := Prod.mk.inj heq
  have hreach : (machine 1 0).Reachable s := Machine.reachableBy_of_exec twoCalls hs
  refine ⟨s, hreach, hgranted, ?_⟩
  refine (politeness_of_reachable 1 0 le_rfl s hreach).2.1 "a.org" 1 one_pos ?_ 0 1 zero_le_one
  rw [hpolls]
  decide +kernel

end LocalRateLimiter

end WebCrawler
