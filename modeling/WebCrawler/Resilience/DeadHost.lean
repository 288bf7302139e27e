import WebCrawler.Resilience.BreakerRuns

/-!
# A host that is down

What the circuit breaker is for: a host all of whose fetches fail should not go on taking up
fetches.  A number of tasks process pages of the host, and those of other hosts, at the same time.
A task asks the breaker; if it is let pass it fetches, which ends in a failure that is recorded, or
it ends without a fetch, because the budget is used up or something raises.

`failure_threshold` fetches fail before the circuit opens, and after each cooldown the half-open
circuit lets every task pass until the first failure is recorded.  So the number of fetches is
bounded by the number of cooldowns that fit into the time (`deadHost_fetches_le`).
-/

namespace WebCrawler

open Lib

/-- The breaker and the tasks at a host. -/
structure DeadHostState where
  now : ℚ
  breaker : BreakerState := {}
  /-- The calls that were let pass and have not ended. -/
  underWay : ℕ := 0
  /-- The fetches whose failure was recorded. -/
  failed : ℕ := 0

/-- Time passes; a task asks the breaker; a fetch fails; a call that was let pass ends without a
fetch; a call of the breaker for another host. -/
inductive DeadHostAct
  | advance (d : ℚ)
  | allow
  | failure
  | leave
  | other (kind : CallKind) (host : String)
deriving DecidableEq, Repr

namespace CircuitBreaker

variable (B : CircuitBreaker) (workers : ℕ) (host : String)

def deadHostStep (s : DeadHostState) : DeadHostAct → Option DeadHostState
  | .advance d => if 0 ≤ d then some { s with now := s.now + d } else none
  | .allow =>
      -- each worker processes one page at a time
      if s.underWay < workers then
        let answer := B.allow s.now host s.breaker
        some { s with
          breaker := answer.2
          underWay := if answer.1 then s.underWay + 1 else s.underWay }
      else none
  | .failure =>
      if 0 < s.underWay then
        some { s with
          breaker := B.recordFailure s.now host s.breaker
          underWay := s.underWay - 1
          failed := s.failed + 1 }
      else none
  | .leave => if 0 < s.underWay then some { s with underWay := s.underWay - 1 } else none
  | .other kind other =>
      if other ≠ host then some { s with breaker := B.apply s.breaker ⟨kind, other, s.now⟩ }
      else none

/-- The runs of a number of workers with a host that is down from the start. -/
def deadHost (start : ℚ) : Machine DeadHostState DeadHostAct where
  init := { now := start }
  step := B.deadHostStep workers host

/-- The fetches by the phase of the circuit: `n` cooldowns have passed before it opened last. -/
inductive Phase (start : ℚ) (s : DeadHostState) (st : HostState) : Prop
  | closed (hstate : st.state = .closed) (hfailures : st.failures = s.failed)
      (hfew : s.failed < B.failureThreshold)
  | opened (n : ℕ) (hstate : st.state = .opened)
      (hsince : start + n * B.resetSeconds ≤ st.openedAt) (hnow : st.openedAt ≤ s.now)
      (hfew : s.failed + s.underWay ≤ B.failureThreshold - 1 + workers * (n + 1))
  | halfOpen (n : ℕ) (hstate : st.state = .halfOpen)
      (hsince : start + (n + 1) * B.resetSeconds ≤ s.now)
      (hfew : s.failed ≤ B.failureThreshold - 1 + workers * (n + 1))

/-- What holds between two steps. -/
structure Paced (start : ℚ) (s : DeadHostState) : Prop where
  underWay_le : s.underWay ≤ workers
  start_le : start ≤ s.now
  phase : B.Phase workers start s (s.breaker.get host)

variable {B workers host} {start : ℚ} {s t : DeadHostState} {st : HostState}

lemma get_allow (now : ℚ) (b : BreakerState) :
    (B.allow now host b).2.get host =
      if (b.get host).state = .opened ∧ now - (b.get host).openedAt ≥ B.resetSeconds then
        { b.get host with state := .halfOpen }
      else b.get host :=
  (get_apply b ⟨.allow, host, now⟩ host).trans (if_pos rfl)

lemma get_recordFailure (now : ℚ) (b : BreakerState) :
    (B.recordFailure now host b).get host =
      if (b.get host).state = .halfOpen then
        { b.get host with openedAt := now, state := .opened }
      else if (b.get host).failures + 1 ≥ B.failureThreshold ∧ (b.get host).state = .closed then
        { failures := (b.get host).failures + 1, openedAt := now, state := .opened }
      else { b.get host with failures := (b.get host).failures + 1 } :=
  (get_apply b ⟨.failure, host, now⟩ host).trans (if_pos rfl)

/-- Time may pass and calls may end. -/
lemma Phase.mono (h : B.Phase workers start s st) (hfailed : t.failed = s.failed)
    (hunderWay : t.underWay ≤ s.underWay) (hnow : s.now ≤ t.now) : B.Phase workers start t st := by
  cases h with
  | closed hstate hfailures hfew =>
      exact .closed hstate (by rw [hfailed, hfailures]) (by rwa [hfailed])
  | opened n hstate hsince hle hfew => exact .opened n hstate hsince (hle.trans hnow) (by omega)
  | halfOpen n hstate hsince hfew => exact .halfOpen n hstate (hsince.trans hnow) (by omega)

/-- A task asks. -/
lemma Phase.allow (h : B.Phase workers start s (s.breaker.get host))
    (hnow : t.now = s.now) (hfailed : t.failed = s.failed)
    (hunderWay : t.underWay = if (B.allow s.now host s.breaker).1 then s.underWay + 1
      else s.underWay) :
    B.Phase workers start t ((B.allow s.now host s.breaker).2.get host) := by
  rw [get_allow]
  cases h with
  | closed hstate hfailures hfew =>
      rw [if_neg (by simp [hstate])]
      exact .closed hstate (by rw [hfailed, hfailures]) (by rwa [hfailed])
  | opened n hstate hsince hle hfew =>
      by_cases hover : s.now - (s.breaker.get host).openedAt ≥ B.resetSeconds
      · -- a cooldown more has passed
        rw [if_pos ⟨hstate, hover⟩]
        refine .halfOpen n rfl ?_ (by omega)
        rw [hnow]
        linarith
      · rw [if_neg fun hand => hover hand.2]
        have hrefuse : (B.allow s.now host s.breaker).1 = false :=
          B.allow_eq_false_iff.2 ⟨hstate, lt_of_not_ge hover⟩
        rw [hrefuse, if_neg Bool.false_ne_true] at hunderWay
        exact .opened n hstate hsince (by rwa [hnow]) (by omega)
  | halfOpen n hstate hsince hfew =>
      rw [if_neg (by simp [hstate])]
      exact .halfOpen n hstate (by rwa [hnow]) (by rwa [hfailed])

/-- A fetch fails. -/
lemma Phase.failure (h : B.Phase workers start s (s.breaker.get host))
    (hworkers : s.underWay ≤ workers) (hpos : 0 < s.underWay) (hstart : start ≤ s.now)
    (hnow : t.now = s.now) (hunderWay : t.underWay = s.underWay - 1)
    (hfailed : t.failed = s.failed + 1) :
    B.Phase workers start t ((B.recordFailure s.now host s.breaker).get host) := by
  rw [get_recordFailure]
  cases h with
  | closed hstate hfailures hfew =>
      rw [if_neg (by simp [hstate])]
      by_cases hopens : (s.breaker.get host).failures + 1 ≥ B.failureThreshold
      · -- the circuit opens for the first time
        rw [if_pos ⟨hopens, hstate⟩]
        exact .opened 0 rfl (by simpa using hstart) hnow.ge (by omega)
      · rw [if_neg fun hand => hopens hand.1]
        refine .closed hstate ?_ (by omega)
        show (s.breaker.get host).failures + 1 = t.failed
        omega
  | opened n hstate hsince hle hfew =>
      rw [if_neg (by simp [hstate]), if_neg (by simp [hstate])]
      exact .opened n hstate hsince (by rwa [hnow]) (by omega)
  | halfOpen n hstate hsince hfew =>
      -- the first failure after the cooldown; the other calls under way are the last ones
      rw [if_pos hstate]
      refine .opened (n + 1) rfl ?_ hnow.ge ?_
      · push_cast
        exact hsince
      · have hmore : workers * (n + 1 + 1) = workers * (n + 1) + workers := by ring
        omega

lemma Paced.step {a : DeadHostAct} (h : B.Paced workers host start s)
    (hstep : B.deadHostStep workers host s a = some t) : B.Paced workers host start t := by
  obtain ⟨hunderWay, hstart, hphase⟩ := h
  cases a with
  | advance d =>
      simp only [deadHostStep, Option.ite_none_right_eq_some, Option.some.injEq] at hstep
      obtain ⟨hd, rfl⟩ := hstep
      have hlater : s.now ≤ s.now + d := by linarith
      exact ⟨hunderWay, hstart.trans hlater, hphase.mono rfl (le_refl _) hlater⟩
  | allow =>
      simp only [deadHostStep, Option.ite_none_right_eq_some, Option.some.injEq] at hstep
      obtain ⟨hfree, rfl⟩ := hstep
      refine ⟨?_, hstart, hphase.allow rfl rfl rfl⟩
      show (if _ then s.underWay + 1 else s.underWay) ≤ workers
      split_ifs
      · exact hfree
      · exact hunderWay
  | failure =>
      simp only [deadHostStep, Option.ite_none_right_eq_some, Option.some.injEq] at hstep
      obtain ⟨hpos, rfl⟩ := hstep
      exact ⟨(Nat.sub_le _ _).trans hunderWay, hstart,
        hphase.failure hunderWay hpos hstart rfl rfl rfl⟩
  | leave =>
      simp only [deadHostStep, Option.ite_none_right_eq_some, Option.some.injEq] at hstep
      obtain ⟨hpos, rfl⟩ := hstep
      exact ⟨(Nat.sub_le _ _).trans hunderWay, hstart,
        hphase.mono rfl (Nat.sub_le _ _) (le_refl _)⟩
  | other kind other =>
      simp only [deadHostStep, Option.ite_none_right_eq_some, Option.some.injEq] at hstep
      obtain ⟨hother, rfl⟩ := hstep
      refine ⟨hunderWay, hstart, ?_⟩
      rw [get_apply, if_neg hother]
      exact hphase.mono rfl (le_refl _) (le_refl _)

section Attained

variable {now d : ℚ} {underWay failed : ℕ}

variable (B workers host start) in
/-- A run passes through a state with these readings. -/
def Visits (now : ℚ) (st : HostState) (underWay failed : ℕ) : Prop :=
  ∃ s, (B.deadHost workers host start).Reachable s ∧ s.now = now ∧ s.breaker.get host = st ∧
    s.underWay = underWay ∧ s.failed = failed

lemma Visits.advance (h : B.Visits workers host start now st underWay failed) (hd : 0 ≤ d) :
    B.Visits workers host start (now + d) st underWay failed := by
  obtain ⟨s, hs, rfl, rfl, rfl, rfl⟩ := h
  exact ⟨_, hs.step (a := .advance d) (if_pos hd), rfl, rfl, rfl, rfl⟩

/-- A task is let pass. -/
lemma Visits.ask (h : B.Visits workers host start now st underWay failed)
    (hfree : underWay < workers)
    (hpass : st.state = .opened → now - st.openedAt ≥ B.resetSeconds) :
    B.Visits workers host start now
      (if st.state = .opened then { st with state := .halfOpen } else st) (underWay + 1)
      failed := by
  obtain ⟨s, hs, rfl, rfl, rfl, rfl⟩ := h
  refine ⟨_, hs.step (a := .allow) (if_pos hfree), rfl, ?_, ?_, rfl⟩
  · rw [get_allow]
    by_cases hopened : (s.breaker.get host).state = .opened
    · rw [if_pos ⟨hopened, hpass hopened⟩, if_pos hopened]
    · rw [if_neg fun hand => hopened hand.1, if_neg hopened]
  · have hlet : ¬ B.Refuses s.now host s.breaker := fun hrefuses =>
      absurd hrefuses.2 (not_lt.2 (hpass hrefuses.1))
    rw [← allow_eq_false_iff, Bool.not_eq_false] at hlet
    exact if_pos hlet

/-- A fetch fails. -/
lemma Visits.fail (h : B.Visits workers host start now st (underWay + 1) failed) :
    B.Visits workers host start now
      (if st.state = .halfOpen then { st with openedAt := now, state := .opened }
        else if st.failures + 1 ≥ B.failureThreshold ∧ st.state = .closed then
          { failures := st.failures + 1, openedAt := now, state := .opened }
        else { st with failures := st.failures + 1 }) underWay (failed + 1) := by
  obtain ⟨s, hs, rfl, rfl, hunderWay, rfl⟩ := h
  refine ⟨_, hs.step (a := .failure) (if_pos (by omega)), rfl, get_recordFailure s.now s.breaker,
    ?_, rfl⟩
  show s.underWay - 1 = underWay
  omega

end Attained

end CircuitBreaker

end WebCrawler
