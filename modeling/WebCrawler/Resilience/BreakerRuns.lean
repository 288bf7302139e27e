import WebCrawler.Resilience.CircuitBreaker
import WebCrawler.Lib.Machine

/-!
# Runs of the circuit breaker

The pipeline tasks share one breaker, and their calls of `allow`, `record_success` and
`record_failure` come in any order.  A run is the list of these calls, each with the
reading of the clock at that moment.

What the breaker keeps for a host is a function of the calls for that host, and the three
states are described by them: the circuit is closed as long as fewer than
`failure_threshold` failures have come since the last success (`Counts`), and `opened_at`
is the time of the last opening (`Cooldown`).  In the half-open state every call of `allow`
is granted, not only the probe that has led to it.
-/

namespace WebCrawler

/-- The methods that change the state of a host. -/
inductive CallKind
  | allow
  | success
  | failure
deriving DecidableEq, Repr

/-- A call, with the time at which it is made. -/
structure BreakerCall where
  kind : CallKind
  host : String
  now : ℚ
deriving DecidableEq, Repr

lemma BreakerState.get_set (b : BreakerState) (host host' : String) (st : HostState) :
    (b.set host st).get host' = if host' = host then st else b.get host' := by
  rw [get, set]
  split_ifs with h
  · rw [h, AList.lookup_insert, Option.getD_some]
  · rw [AList.lookup_insert_ne h, get]

@[simp] lemma BreakerState.get_refreshGauge (b : BreakerState) (host : String) :
    b.refreshGauge.get host = b.get host := rfl

namespace CircuitBreaker

variable (B : CircuitBreaker)

/-- The state of the breaker after a call. -/
def apply (b : BreakerState) (c : BreakerCall) : BreakerState :=
  match c.kind with
  | .allow => (B.allow c.now c.host b).2
  | .success => recordSuccess c.host b
  | .failure => B.recordFailure c.now c.host b

/-- The state of the breaker after a run. -/
def run (calls : List BreakerCall) : BreakerState := calls.foldl B.apply {}

/-- What a call does to the state of its host. -/
def stepHost (st : HostState) (c : BreakerCall) : HostState :=
  match c.kind with
  | .allow =>
      if st.state = .opened ∧ c.now - st.openedAt ≥ B.resetSeconds then
        { st with state := .halfOpen }
      else st
  | .success => { st with failures := 0, state := .closed }
  | .failure =>
      if st.state = .halfOpen then { st with openedAt := c.now, state := .opened }
      else if st.failures + 1 ≥ B.failureThreshold ∧ st.state = .closed then
        { failures := st.failures + 1, openedAt := c.now, state := .opened }
      else { st with failures := st.failures + 1 }

/-- The state that is kept for a host after a run. -/
def hostState (calls : List BreakerCall) (host : String) : HostState := (B.run calls).get host

/-- The calls for a host. -/
def callsFor (host : String) (calls : List BreakerCall) : List BreakerCall :=
  calls.filter (·.host = host)

variable {B} {calls : List BreakerCall} {host : String} {c : BreakerCall}

/-! ### One call -/

/-- A call changes the state of its host only. -/
lemma get_apply (b : BreakerState) (c : BreakerCall) (host : String) :
    (B.apply b c).get host = if c.host = host then B.stepHost (b.get host) c else b.get host := by
  have hset : ∀ st, (b.set c.host st).get host = if c.host = host then st else b.get host := by
    intro st
    rw [BreakerState.get_set]
    simp only [eq_comm]
  rcases eq_or_ne c.host host with rfl | hne
  · rw [if_pos rfl, apply, stepHost]
    cases c.kind with
    | allow =>
        simp only [allow]
        by_cases ho : (b.get c.host).state = .opened
        · by_cases hc : c.now - (b.get c.host).openedAt ≥ B.resetSeconds
          · simp [ho, hc, hset]
          · simp [ho, hc, hset]
        · simp [ho, hset]
    | success =>
        simp only [recordSuccess]
        split_ifs <;> simp [hset]
    | failure =>
        simp only [recordFailure]
        split_ifs <;> simp [hset]
  · rw [if_neg hne, apply]
    cases c.kind with
    | allow =>
        simp only [allow]
        split_ifs <;> simp [hset, hne]
    | success =>
        simp only [recordSuccess]
        split_ifs <;> simp [hset, hne]
    | failure =>
        simp only [recordFailure]
        split_ifs <;> simp [hset, hne]

/-- One more call. -/
lemma run_snoc (calls : List BreakerCall) (c : BreakerCall) :
    B.run (calls ++ [c]) = B.apply (B.run calls) c := by
  rw [run, List.foldl_append]
  rfl

lemma hostState_snoc (calls : List BreakerCall) (c : BreakerCall) (host : String) :
    B.hostState (calls ++ [c]) host =
      if c.host = host then B.stepHost (B.hostState calls host) c else B.hostState calls host := by
  rw [hostState, run_snoc]
  exact get_apply _ c host

lemma callsFor_snoc (host : String) (calls : List BreakerCall) (c : BreakerCall) :
    callsFor host (calls ++ [c]) =
      if c.host = host then callsFor host calls ++ [c] else callsFor host calls := by
  rw [callsFor, List.filter_append]
  split_ifs with hc
  · rw [List.filter_cons_of_pos (by simpa using hc), List.filter_nil]
    rfl
  · rw [List.filter_cons_of_neg (by simpa using hc), List.filter_nil, List.append_nil]
    rfl

/-- What the breaker keeps for a host depends on the calls for that host. -/
lemma hostState_callsFor (calls : List BreakerCall) (host : String) :
    B.hostState (callsFor host calls) host = B.hostState calls host := by
  induction calls using List.reverseRecOn with
  | nil => rfl
  | append_singleton calls c ih =>
      rw [hostState_snoc, callsFor_snoc]
      by_cases hc : c.host = host
      · rw [if_pos hc, if_pos hc, hostState_snoc, if_pos hc, ih]
      · rw [if_neg hc, if_neg hc, ih]

/-! ### Failures since the last success -/

/-- The failures of the host since its last success, or since the start. -/
def failuresSince (host : String) (calls : List BreakerCall) : ℕ :=
  ((callsFor host calls).reverse.takeWhile (·.kind ≠ .success)).countP (·.kind = .failure)

lemma failuresSince_snoc (host : String) (calls : List BreakerCall) (c : BreakerCall) :
    failuresSince host (calls ++ [c]) =
      if c.host = host then
        match c.kind with
        | .allow => failuresSince host calls
        | .success => 0
        | .failure => failuresSince host calls + 1
      else failuresSince host calls := by
  rw [failuresSince, callsFor_snoc]
  split_ifs with hc
  · rw [List.reverse_append, List.reverse_singleton, List.singleton_append, List.takeWhile_cons]
    cases hk : c.kind with
    | allow => simp [hk, failuresSince]
    | success => simp
    | failure => simp [hk, failuresSince]
  · rfl

/-- How the state of a host and the failures since its last success go together.  In the
open state the failures are counted on, and a failed probe is not counted, so that the
field says how many there are only in the closed state. -/
structure Counts (B : CircuitBreaker) (st : HostState) (n : ℕ) : Prop where
  failures_eq : st.state = .closed → st.failures = n
  lt_threshold : st.state = .closed → n < B.failureThreshold
  threshold_le : st.state ≠ .closed → B.failureThreshold ≤ n

lemma Counts.allow {st : HostState} {n : ℕ} (h : Counts B st n) (hk : c.kind = .allow) :
    Counts B (B.stepHost st c) n := by
  simp only [stepHost, hk]
  split_ifs with hc
  · -- the probe: the circuit was open before
    have hopen : st.state ≠ .closed := by
      rw [hc.1]
      exact CircuitState.noConfusion
    exact ⟨nofun, nofun, fun _ => h.threshold_le hopen⟩
  · exact h

lemma counts_success (st : HostState) (hk : c.kind = .success) : Counts B (B.stepHost st c) 0 := by
  simp only [stepHost, hk]
  exact ⟨fun _ => rfl, fun _ => B.threshold_pos, fun h => absurd rfl h⟩

lemma Counts.failure {st : HostState} {n : ℕ} (h : Counts B st n) (hk : c.kind = .failure) :
    Counts B (B.stepHost st c) (n + 1) := by
  simp only [stepHost, hk]
  split_ifs with hhalf htrip
  · have hopen : st.state ≠ .closed := by
      rw [hhalf]
      exact CircuitState.noConfusion
    have hle := h.threshold_le hopen
    exact ⟨nofun, nofun, fun _ => by omega⟩
  · have hn := h.failures_eq htrip.2
    have hle := htrip.1
    exact ⟨nofun, nofun, fun _ => by omega⟩
  · refine ⟨fun hcl => ?_, fun hcl => ?_, fun hcl => ?_⟩
    · exact congrArg (· + 1) (h.failures_eq hcl)
    · have hn := h.failures_eq hcl
      have hlt : ¬ st.failures + 1 ≥ B.failureThreshold := fun hge => htrip ⟨hge, hcl⟩
      omega
    · have hle := h.threshold_le hcl
      omega

/-- Every run keeps the count. -/
lemma counts_hostState (B : CircuitBreaker) (calls : List BreakerCall) (host : String) :
    Counts B (B.hostState calls host) (failuresSince host calls) := by
  induction calls using List.reverseRecOn with
  | nil => exact ⟨fun _ => rfl, fun _ => B.threshold_pos, fun h => absurd rfl h⟩
  | append_singleton calls c ih =>
      rw [hostState_snoc, failuresSince_snoc]
      by_cases hc : c.host = host
      · rw [if_pos hc, if_pos hc]
        cases hk : c.kind with
        | allow => exact ih.allow hk
        | success => exact counts_success _ hk
        | failure => exact ih.failure hk
      · rw [if_neg hc, if_neg hc]
        exact ih

/-- The state of a host is a function of the calls for it: the circuit is closed as long as
fewer than the threshold of failures have come since the last success, and `failures` is
then their number. -/
theorem hostState_of_history (B : CircuitBreaker) (calls : List BreakerCall) (host : String) :
    (∀ calls', callsFor host calls' = callsFor host calls →
      B.hostState calls' host = B.hostState calls host) ∧
    ((B.hostState calls host).state = .closed →
      (B.hostState calls host).failures = failuresSince host calls ∧
      (B.hostState calls host).failures < B.failureThreshold) ∧
    ((B.hostState calls host).state = .opened ∨ (B.hostState calls host).state = .halfOpen ↔
      B.failureThreshold ≤ failuresSince host calls) := by
  have hcounts := counts_hostState B calls host
  refine ⟨fun calls' heq => ?_, fun hcl => ?_, fun h => ?_, fun hle => ?_⟩
  · rw [← hostState_callsFor calls', heq, hostState_callsFor]
  · have heq := hcounts.failures_eq hcl
    have hlt := hcounts.lt_threshold hcl
    omega
  · refine hcounts.threshold_le fun hcl => ?_
    rw [hcl] at h
    exact h.elim CircuitState.noConfusion CircuitState.noConfusion
  · cases hst : (B.hostState calls host).state with
    | closed =>
        have hlt := hcounts.lt_threshold hst
        omega
    | opened => exact Or.inl rfl
    | halfOpen => exact Or.inr rfl

/-! ### The probe -/

/-- The verdict of a call of `allow` that comes after the given calls. -/
def Grants (B : CircuitBreaker) (calls : List BreakerCall) (c : BreakerCall) : Prop :=
  (B.allow c.now c.host (B.run calls)).1 = true

instance (calls : List BreakerCall) (c : BreakerCall) : Decidable (B.Grants calls c) :=
  inferInstanceAs (Decidable (_ = _))

/-- A call of `allow` for the host. -/
def IsAllow (host : String) (c : BreakerCall) : Prop := c.kind = .allow ∧ c.host = host

instance (c : BreakerCall) : Decidable (IsAllow host c) := inferInstanceAs (Decidable (_ ∧ _))

/-- After a probe no call of `allow` is granted until its outcome is recorded. -/
def SingleProbe (B : CircuitBreaker) (host : String) (calls : List BreakerCall) : Prop :=
  ∀ pre probe mid again post, calls = pre ++ probe :: (mid ++ again :: post) →
    IsAllow host probe → (B.hostState pre host).state = .opened → B.Grants pre probe →
    (∀ d ∈ mid, d.host = host → d.kind = .allow) →
    IsAllow host again → ¬ B.Grants (pre ++ probe :: mid) again

/-- No call of `allow` for the host comes while its circuit is half-open. -/
def QuietProbe (B : CircuitBreaker) (host : String) (calls : List BreakerCall) : Prop :=
  ∀ pre c post, calls = pre ++ c :: post → IsAllow host c →
    (B.hostState pre host).state ≠ .halfOpen

lemma grants_iff (hc : IsAllow host c) :
    B.Grants calls c ↔ (B.hostState calls host).state ≠ .opened ∨
      B.resetSeconds ≤ c.now - (B.hostState calls host).openedAt := by
  have hiff : (B.allow c.now c.host (B.run calls)).1 = false ↔
      B.Refuses c.now c.host (B.run calls) := B.allow_eq_false_iff
  rw [Grants, ← Bool.not_eq_false, hiff, Refuses, hc.2, not_and_or, not_lt]
  rfl

/-- A granted call leaves an open circuit half-open. -/
lemma state_probe (hc : IsAllow host c) (hopen : (B.hostState calls host).state = .opened)
    (hg : B.Grants calls c) : (B.hostState (calls ++ [c]) host).state = .halfOpen := by
  have hcool : c.now - (B.hostState calls host).openedAt ≥ B.resetSeconds :=
    ((grants_iff hc).1 hg).resolve_left fun hne => hne hopen
  rw [hostState_snoc, if_pos hc.2, stepHost, hc.1]
  simp [hopen, hcool]

/-- Without an outcome the circuit stays half-open. -/
lemma state_halfOpen_append {mid : List BreakerCall}
    (hhalf : (B.hostState calls host).state = .halfOpen)
    (hmid : ∀ d ∈ mid, d.host = host → d.kind = .allow) :
    (B.hostState (calls ++ mid) host).state = .halfOpen := by
  induction mid using List.reverseRecOn with
  | nil => rwa [List.append_nil]
  | append_singleton mid d ih =>
      have hst := ih fun e he => hmid e (List.mem_append_left _ he)
      rw [← List.append_assoc, hostState_snoc]
      split_ifs with hd
      · have hk := hmid d (by simp) hd
        rw [stepHost, hk]
        simp [hst]
      · exact hst

/-- A half-open circuit has a probe whose outcome is not recorded yet. -/
lemma exists_probe (hhalf : (B.hostState calls host).state = .halfOpen) :
    ∃ pre probe mid, calls = pre ++ probe :: mid ∧ IsAllow host probe ∧
      (B.hostState pre host).state = .opened ∧ B.Grants pre probe ∧
      ∀ d ∈ mid, d.host = host → d.kind = .allow := by
  induction calls using List.reverseRecOn with
  | nil => exact CircuitState.noConfusion hhalf
  | append_singleton calls c ih =>
      -- a call that keeps the circuit half-open goes to the end of the calls after the probe
      have hkeep : (B.hostState calls host).state = .halfOpen →
          (c.host = host → c.kind = .allow) →
          ∃ pre probe mid, calls ++ [c] = pre ++ probe :: mid ∧ IsAllow host probe ∧
            (B.hostState pre host).state = .opened ∧ B.Grants pre probe ∧
            ∀ d ∈ mid, d.host = host → d.kind = .allow := by
        intro hst hc
        obtain ⟨pre, probe, mid, rfl, hp, hopen, hg, hmid⟩ := ih hst
        exact ⟨pre, probe, mid ++ [c], by simp, hp, hopen, hg,
          Lib.forall_mem_append_singleton hmid hc⟩
      rw [hostState_snoc] at hhalf
      split_ifs at hhalf with hc
      · cases hk : c.kind with
        | allow =>
            by_cases hopen : (B.hostState calls host).state = .opened
            · -- the probe itself
              have hcool : B.resetSeconds ≤ c.now - (B.hostState calls host).openedAt := by
                by_contra hnot
                rw [stepHost, hk] at hhalf
                simp [hopen, hnot] at hhalf
              exact ⟨calls, c, [], rfl, ⟨hk, hc⟩, hopen, (grants_iff ⟨hk, hc⟩).2 (Or.inr hcool),
                nofun⟩
            · refine hkeep ?_ fun _ => hk
              rw [stepHost, hk] at hhalf
              simpa [hopen] using hhalf
        | success =>
            rw [stepHost, hk] at hhalf
            exact CircuitState.noConfusion hhalf
        | failure =>
            simp only [stepHost, hk] at hhalf
            split_ifs at hhalf with h1
            exact absurd hhalf h1
      · exact hkeep hhalf fun h => absurd h hc

/-- The breaker lets a single probe through exactly when nobody asks while it is
half-open. -/
theorem singleProbe_iff_quietProbe (B : CircuitBreaker) (host : String)
    (calls : List BreakerCall) : B.SingleProbe host calls ↔ B.QuietProbe host calls := by
  constructor
  · intro hsingle pre c post heq hc hhalf
    obtain ⟨pre₀, probe, mid, rfl, hp, hopen, hg, hmid⟩ := exists_probe hhalf
    refine hsingle pre₀ probe mid c post (by simp [heq]) hp hopen hg hmid hc ?_
    refine (grants_iff hc).2 (Or.inl ?_)
    rw [hhalf]
    exact CircuitState.noConfusion
  · intro hquiet pre probe mid again post heq hp hopen hg hmid hagain _
    refine hquiet (pre ++ probe :: mid) again post (by simp [heq]) hagain ?_
    have hhalf := state_halfOpen_append (state_probe hp hopen hg) hmid
    rwa [List.append_assoc, List.singleton_append] at hhalf

/-- The clock does not run backwards along the calls. -/
def Chronological (calls : List BreakerCall) : Prop := (calls.map (·.now)).Pairwise (· ≤ ·)

instance (calls : List BreakerCall) : Decidable (Chronological calls) :=
  inferInstanceAs (Decidable (List.Pairwise _ _))

/-- One failure opens the circuit for five seconds. -/
def quickBreaker : CircuitBreaker := { failureThreshold := 1, resetSeconds := 5 }

/-- Two requests that overlap at the end of the cooldown are both let through. -/
theorem second_probe_passes :
    ¬ ∀ (B : CircuitBreaker) (host : String) (calls : List BreakerCall), 0 < B.resetSeconds →
      Chronological calls → B.SingleProbe host calls := by
  intro hall
  have hsingle := hall quickBreaker "h"
    [⟨.failure, "h", 0⟩, ⟨.allow, "h", 5⟩, ⟨.allow, "h", 5⟩] (by decide) (by decide)
  refine hsingle [⟨.failure, "h", 0⟩] ⟨.allow, "h", 5⟩ [] ⟨.allow, "h", 5⟩ [] rfl ⟨rfl, rfl⟩
    (by decide) (by decide +kernel) nofun ⟨rfl, rfl⟩ (by decide +kernel)

/-! ### The cooldown -/

/-- The call opens the circuit of the host, which was closed or half-open before. -/
def Opens (B : CircuitBreaker) (host : String) (calls : List BreakerCall) (c : BreakerCall) :
    Prop :=
  (B.hostState calls host).state ≠ .opened ∧ (B.hostState (calls ++ [c]) host).state = .opened

/-- Every opening of the circuit has been followed by a success. -/
def Settled (B : CircuitBreaker) (host : String) (calls : List BreakerCall) : Prop :=
  ∀ pre o mid, calls = pre ++ o :: mid → B.Opens host pre o →
    ∃ d ∈ mid, d.kind = .success ∧ d.host = host

/-- The call `o` was the last one to open the circuit. -/
def LastOpening (B : CircuitBreaker) (host : String) (calls : List BreakerCall)
    (o : BreakerCall) : Prop :=
  ∃ pre mid, calls = pre ++ o :: mid ∧ B.Opens host pre o ∧
    ∀ mid₁ d mid₂, mid = mid₁ ++ d :: mid₂ → ¬ B.Opens host (pre ++ o :: mid₁) d

lemma lastOpening_of_opens (h : B.Opens host calls c) : B.LastOpening host (calls ++ [c]) c :=
  ⟨calls, [], rfl, h, fun _ _ _ hnil => by simp at hnil⟩

lemma LastOpening.snoc {o : BreakerCall} (h : B.LastOpening host calls o)
    (hc : ¬ B.Opens host calls c) : B.LastOpening host (calls ++ [c]) o := by
  obtain ⟨pre, mid, rfl, ho, hlast⟩ := h
  refine ⟨pre, mid ++ [c], by simp, ho, ?_⟩
  intro mid₁ d mid₂ heq
  rcases Lib.snoc_eq_append_cons heq with ⟨rfl, rfl, -⟩ | ⟨mid₂', -, hmid⟩
  · exact hc
  · exact hlast mid₁ d mid₂' hmid

lemma Settled.snoc (h : B.Settled host calls) (hc : ¬ B.Opens host calls c) :
    B.Settled host (calls ++ [c]) := by
  intro pre o mid heq ho
  rcases Lib.snoc_eq_append_cons heq with ⟨rfl, rfl, -⟩ | ⟨mid', rfl, hcalls⟩
  · exact absurd ho hc
  · obtain ⟨d, hd, hsucc⟩ := h pre o mid' hcalls ho
    exact ⟨d, List.mem_append_left _ hd, hsucc⟩

/-- A success settles whatever was open before. -/
lemma settled_of_success (hk : c.kind = .success) (hc : c.host = host) :
    B.Settled host (calls ++ [c]) := by
  intro pre o mid heq ho
  rcases Lib.snoc_eq_append_cons heq with ⟨rfl, rfl, -⟩ | ⟨mid', rfl, -⟩
  · have hcl := ho.2
    rw [hostState_snoc, if_pos hc, stepHost, hk] at hcl
    exact CircuitState.noConfusion hcl
  · exact ⟨c, by simp, hk, hc⟩

/-- What the state of a host says about its openings: `opened_at` is the time of the last
one, and a half-open circuit has seen the end of its cooldown. -/
structure Cooldown (B : CircuitBreaker) (host : String) (calls : List BreakerCall) : Prop where
  closed : (B.hostState calls host).state = .closed → B.Settled host calls
  opened : (B.hostState calls host).state = .opened →
    ∃ o, B.LastOpening host calls o ∧ o.now = (B.hostState calls host).openedAt
  halfOpen : (B.hostState calls host).state = .halfOpen →
    ∃ o, B.LastOpening host calls o ∧ ∃ p ∈ calls, B.resetSeconds ≤ p.now - o.now

lemma cooldown_of_closed (hst : (B.hostState calls host).state = .closed)
    (h : B.Settled host calls) : B.Cooldown host calls := by
  constructor
  · exact fun _ => h
  · exact fun hopen => CircuitState.noConfusion (hst.symm.trans hopen)
  · exact fun hhalf => CircuitState.noConfusion (hst.symm.trans hhalf)

lemma cooldown_of_opened {o : BreakerCall} (hst : (B.hostState calls host).state = .opened)
    (ho : B.LastOpening host calls o) (hnow : o.now = (B.hostState calls host).openedAt) :
    B.Cooldown host calls := by
  constructor
  · exact fun hcl => CircuitState.noConfusion (hst.symm.trans hcl)
  · exact fun _ => ⟨o, ho, hnow⟩
  · exact fun hhalf => CircuitState.noConfusion (hst.symm.trans hhalf)

lemma cooldown_of_halfOpen {o p : BreakerCall} (hst : (B.hostState calls host).state = .halfOpen)
    (ho : B.LastOpening host calls o) (hp : p ∈ calls)
    (hreset : B.resetSeconds ≤ p.now - o.now) : B.Cooldown host calls := by
  constructor
  · exact fun hcl => CircuitState.noConfusion (hst.symm.trans hcl)
  · exact fun hopen => CircuitState.noConfusion (hst.symm.trans hopen)
  · exact fun _ => ⟨o, ho, p, hp, hreset⟩

/-- A call that leaves the state of the host as it is. -/
lemma Cooldown.of_eq (h : B.Cooldown host calls)
    (heq : B.hostState (calls ++ [c]) host = B.hostState calls host) :
    B.Cooldown host (calls ++ [c]) := by
  have hnot : ¬ B.Opens host calls c := fun ho => ho.1 (by rw [← heq]; exact ho.2)
  constructor
  · intro hst
    rw [heq] at hst
    exact (h.closed hst).snoc hnot
  · intro hst
    rw [heq] at hst ⊢
    obtain ⟨o, ho, hnow⟩ := h.opened hst
    exact ⟨o, ho.snoc hnot, hnow⟩
  · intro hst
    rw [heq] at hst
    obtain ⟨o, ho, p, hp, hcool⟩ := h.halfOpen hst
    exact ⟨o, ho.snoc hnot, p, List.mem_append_left _ hp, hcool⟩

/-- Calls of `allow` do not open a circuit; a granted one at the end of the cooldown leaves
it half-open. -/
lemma Cooldown.allow (h : B.Cooldown host calls) (hc : IsAllow host c) :
    B.Cooldown host (calls ++ [c]) := by
  have hsnoc := hostState_snoc (B := B) calls c host
  rw [if_pos hc.2, stepHost, hc.1] at hsnoc
  dsimp only at hsnoc
  split_ifs at hsnoc with hprobe
  · obtain ⟨o, ho, hnow⟩ := h.opened hprobe.1
    have hhalf : (B.hostState (calls ++ [c]) host).state = .halfOpen := by rw [hsnoc]
    have hnot : ¬ B.Opens host calls c := fun hop => hop.1 hprobe.1
    refine cooldown_of_halfOpen hhalf (ho.snoc hnot) (show c ∈ calls ++ [c] by simp) ?_
    rw [hnow]
    exact hprobe.2
  · exact h.of_eq hsnoc

/-- A success closes the circuit. -/
lemma cooldown_success (hk : c.kind = .success) (hc : c.host = host) :
    B.Cooldown host (calls ++ [c]) := by
  have hcl : (B.hostState (calls ++ [c]) host).state = .closed := by
    rw [hostState_snoc, if_pos hc, stepHost, hk]
  exact cooldown_of_closed hcl (settled_of_success hk hc)

/-- A failure opens the circuit, with its own time, or it is counted and leaves the state
and the time as they are. -/
lemma Cooldown.failure (h : B.Cooldown host calls) (hk : c.kind = .failure)
    (hc : c.host = host) : B.Cooldown host (calls ++ [c]) := by
  have hsnoc := hostState_snoc (B := B) calls c host
  rw [if_pos hc, stepHost, hk] at hsnoc
  dsimp only at hsnoc
  split_ifs at hsnoc with hhalf htrip
  · have hopened : (B.hostState (calls ++ [c]) host).state = .opened := by rw [hsnoc]
    have hopens : B.Opens host calls c :=
      ⟨fun hopen => CircuitState.noConfusion (hhalf.symm.trans hopen), hopened⟩
    exact cooldown_of_opened hopened (lastOpening_of_opens hopens) (by rw [hsnoc])
  · have hopened : (B.hostState (calls ++ [c]) host).state = .opened := by rw [hsnoc]
    have hopens : B.Opens host calls c :=
      ⟨fun hopen => CircuitState.noConfusion (htrip.2.symm.trans hopen), hopened⟩
    exact cooldown_of_opened hopened (lastOpening_of_opens hopens) (by rw [hsnoc])
  · have hst : (B.hostState (calls ++ [c]) host).state = (B.hostState calls host).state := by
      rw [hsnoc]
    have hnot : ¬ B.Opens host calls c := fun hop => hop.1 (hst ▸ hop.2)
    constructor
    · intro hcl
      exact (h.closed (hst ▸ hcl)).snoc hnot
    · intro hopen
      obtain ⟨o, ho, hnow⟩ := h.opened (hst ▸ hopen)
      refine ⟨o, ho.snoc hnot, ?_⟩
      rw [hsnoc]
      exact hnow
    · intro hh
      exact absurd (hst ▸ hh) hhalf

lemma cooldown_hostState (B : CircuitBreaker) (host : String) (calls : List BreakerCall) :
    B.Cooldown host calls := by
  induction calls using List.reverseRecOn with
  | nil =>
      refine ⟨fun _ pre o mid hnil => ?_, CircuitState.noConfusion, CircuitState.noConfusion⟩
      simp at hnil
  | append_singleton calls c ih =>
      by_cases hc : c.host = host
      · cases hk : c.kind with
        | allow => exact ih.allow ⟨hk, hc⟩
        | success => exact cooldown_success hk hc
        | failure => exact ih.failure hk hc
      · refine ih.of_eq ?_
        rw [hostState_snoc, if_neg hc]

/-- A call of `allow` is granted only if every opening of the circuit is settled by a
success, or if the last opening is at least `reset_seconds` ago. -/
theorem grants_after_cooldown (B : CircuitBreaker) (host : String)
    (calls pre post : List BreakerCall) (c : BreakerCall) (hclock : Chronological calls)
    (hsplit : calls = pre ++ c :: post) (hc : IsAllow host c) (hg : B.Grants pre c) :
    B.Settled host pre ∨ ∃ o, B.LastOpening host pre o ∧ B.resetSeconds ≤ c.now - o.now := by
  have hcool := cooldown_hostState B host pre
  cases hst : (B.hostState pre host).state with
  | closed => exact Or.inl (hcool.closed hst)
  | opened =>
      obtain ⟨o, ho, hnow⟩ := hcool.opened hst
      have hreset := ((grants_iff hc).1 hg).resolve_left fun hne => hne hst
      exact Or.inr ⟨o, ho, hnow ▸ hreset⟩
  | halfOpen =>
      obtain ⟨o, ho, p, hp, hreset⟩ := hcool.halfOpen hst
      -- the probe that has seen the end of the cooldown came before this call
      have hle : p.now ≤ c.now := by
        rw [hsplit, Chronological, List.map_append, List.map_cons] at hclock
        exact (List.pairwise_append.1 hclock).2.2 p.now (List.mem_map_of_mem hp) c.now (by simp)
      exact Or.inr ⟨o, ho, by linarith⟩

theorem grants_after_cooldown_probe :
    quickBreaker.Settled "h" [⟨.failure, "h", 0⟩] ∨
      ∃ o, quickBreaker.LastOpening "h" [⟨.failure, "h", 0⟩] o ∧ (5 : ℚ) ≤ 5 - o.now :=
  grants_after_cooldown quickBreaker "h" [⟨.failure, "h", 0⟩, ⟨.allow, "h", 5⟩]
    [⟨.failure, "h", 0⟩] [] ⟨.allow, "h", 5⟩ (by decide) rfl ⟨rfl, rfl⟩ (by decide +kernel)

end CircuitBreaker

end WebCrawler
