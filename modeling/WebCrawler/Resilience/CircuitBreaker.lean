import WebCrawler.Models
import Mathlib.Data.List.AList

/-!
# The per-host circuit breaker

`crawler/resilience/circuit_breaker.py`.  The readings of the monotonic clock are
arguments of the calls, as exact rationals.  The state holds the dictionary of the
hosts and the last value written to the gauge of open circuits.
-/

namespace WebCrawler

/-- `CircuitState`. -/
inductive CircuitState
  /-- Requests pass. -/
  | closed
  /-- Requests are refused until the cooldown is over. -/
  | opened
  /-- A probe is under way. -/
  | halfOpen
deriving DecidableEq, Repr

/-- `_HostState`. -/
structure HostState where
  failures : ℕ := 0
  openedAt : ℚ := 0
  state : CircuitState := .closed
deriving DecidableEq, Repr

/-- The state of a breaker. -/
structure BreakerState where
  hosts : AList fun _ : String => HostState := ∅
  gauge : ℕ := 0
deriving DecidableEq

namespace BreakerState

/-- The state kept for a host, the default one if there is none. -/
def get (b : BreakerState) (host : String) : HostState := (b.hosts.lookup host).getD {}

/-- `_get` enters the host into the dictionary, and the methods then change its state. -/
def set (b : BreakerState) (host : String) (st : HostState) : BreakerState :=
  { b with hosts := b.hosts.insert host st }

/-- The number of hosts whose circuit is open. -/
def openCount (b : BreakerState) : ℕ := b.hosts.entries.countP fun e => e.2.state = .opened

/-- `_refresh_gauge`. -/
def refreshGauge (b : BreakerState) : BreakerState := { b with gauge := b.openCount }

end BreakerState

/-- The arguments of `CircuitBreaker`, whose constructor rejects a threshold that is not
positive. -/
structure CircuitBreaker where
  failureThreshold : ℕ := 5
  resetSeconds : ℚ := 30
  threshold_pos : 0 < failureThreshold := by decide

namespace CircuitBreaker

variable (B : CircuitBreaker)

/-- Whether a fetch may proceed right now. -/
def allow (now : ℚ) (host : String) (b : BreakerState) : Bool × BreakerState :=
  let st := b.get host
  if st.state = .opened then
    if now - st.openedAt ≥ B.resetSeconds then
      -- the cooldown has elapsed: allow a probe
      (true, b.set host { st with state := .halfOpen })
    else (false, b.set host st)
  else (true, b.set host st)

/-- `record_success`. -/
def recordSuccess (host : String) (b : BreakerState) : BreakerState :=
  let st := b.get host
  let b' := b.set host { st with failures := 0, state := .closed }
  if st.state ≠ .closed then b'.refreshGauge else b'

/-- `record_failure`. -/
def recordFailure (now : ℚ) (host : String) (b : BreakerState) : BreakerState :=
  let st := b.get host
  if st.state = .halfOpen then
    -- the probe failed: open again at once
    (b.set host { st with openedAt := now, state := .opened }).refreshGauge
  else if st.failures + 1 ≥ B.failureThreshold ∧ st.state = .closed then
    (b.set host { failures := st.failures + 1, openedAt := now, state := .opened }).refreshGauge
  else b.set host { st with failures := st.failures + 1 }

/-- The circuit of the host is open and its cooldown is not over. -/
def Refuses (now : ℚ) (host : String) (b : BreakerState) : Prop :=
  (b.get host).state = .opened ∧ now - (b.get host).openedAt < B.resetSeconds

instance (now : ℚ) (host : String) (b : BreakerState) : Decidable (B.Refuses now host b) :=
  inferInstanceAs (Decidable (_ ∧ _))

lemma allow_eq_false_iff {now : ℚ} {host : String} {b : BreakerState} :
    (B.allow now host b).1 = false ↔ B.Refuses now host b := by
  rw [allow, Refuses]
  split_ifs with ho hc
  · simpa using fun _ => hc
  · simpa [ho] using hc
  · simp [ho]

end CircuitBreaker

end WebCrawler
