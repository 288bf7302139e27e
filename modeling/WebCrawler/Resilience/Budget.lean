import WebCrawler.Models
import WebCrawler.Lib.Machine
import Mathlib.Data.List.AList

/-!
# Per-domain crawl budgets

`crawler/resilience/budget.py`.  Both backends implement the protocol `DomainBudget`: the
one in memory stops counting at the limit, the one in Redis counts every call, granted or
not.  The calls of all workers on one counter are listed in the order in which Redis
executes their `INCRBY`.

The counters of Redis are signed 64-bit integers.  A command that cannot be executed, as
Redis is not reachable or the counter would overflow, raises in the client, and the client
then grants the call.  So the limits are kept exactly as long as no counter overflows
(`budgets_kept_iff`).
-/

namespace WebCrawler

/-- The protocol `DomainBudget`. -/
structure DomainBudget (σ : Type) where
  /-- Charges the cost against the budget of a domain; false once it is exhausted. -/
  tryConsume : String → ℤ → σ → Bool × σ
  remaining : String → σ → ℤ
  /-- The state in which nothing has been charged. -/
  init : σ

/-- A call of `try_consume`. -/
structure BudgetCall where
  domain : String
  cost : ℤ := 1
deriving DecidableEq, Repr

namespace DomainBudget

variable {σ : Type} (D : DomainBudget σ)

/-- The state after a call, and the calls that have been granted. -/
def serve (p : σ × List BudgetCall) (c : BudgetCall) : σ × List BudgetCall :=
  let answer := D.tryConsume c.domain c.cost p.1
  (answer.2, if answer.1 then p.2 ++ [c] else p.2)

/-- The state after a run. -/
def run (calls : List BudgetCall) : σ := (calls.foldl D.serve (D.init, [])).1

/-- The calls of a run that are granted. -/
def granted (calls : List BudgetCall) : List BudgetCall := (calls.foldl D.serve (D.init, [])).2

/-- The verdict on a call that comes after the given ones. -/
def verdict (calls : List BudgetCall) (c : BudgetCall) : Bool :=
  (D.tryConsume c.domain c.cost (D.run calls)).1

/-- The budget as the pipeline uses it, at the cost of one page. -/
def consumePage (domain : String) : EStateM PyError σ Bool := fun s =>
  let answer := D.tryConsume domain 1 s
  .ok answer.1 answer.2

lemma run_snoc (calls : List BudgetCall) (c : BudgetCall) :
    D.run (calls ++ [c]) = (D.tryConsume c.domain c.cost (D.run calls)).2 := by
  rw [run, List.foldl_append]
  rfl

lemma granted_snoc (calls : List BudgetCall) (c : BudgetCall) :
    D.granted (calls ++ [c]) =
      if D.verdict calls c then D.granted calls ++ [c] else D.granted calls := by
  rw [granted, List.foldl_append]
  rfl

end DomainBudget

/-- The total cost of the calls for a domain. -/
def costFor (domain : String) (calls : List BudgetCall) : ℤ :=
  ((calls.filter (·.domain = domain)).map (·.cost)).sum

/-- The number of calls for a domain. -/
def callCount (domain : String) (calls : List BudgetCall) : ℕ :=
  calls.countP (·.domain = domain)

lemma costFor_snoc (domain : String) (calls : List BudgetCall) (c : BudgetCall) :
    costFor domain (calls ++ [c]) =
      costFor domain calls + if c.domain = domain then c.cost else 0 := by
  rw [costFor, List.filter_append, List.map_append, List.sum_append]
  split_ifs with hc
  · simp [hc, costFor]
  · simp [hc, costFor]

lemma costFor_nonneg {calls : List BudgetCall} (hcost : ∀ c ∈ calls, 0 ≤ c.cost)
    (domain : String) : 0 ≤ costFor domain calls := by
  refine List.sum_nonneg ?_
  intro x hx
  obtain ⟨c, hc, rfl⟩ := List.mem_map.1 hx
  exact hcost c (List.mem_of_mem_filter hc)

lemma callCount_snoc (domain : String) (calls : List BudgetCall) (c : BudgetCall) :
    callCount domain (calls ++ [c]) =
      callCount domain calls + if c.domain = domain then 1 else 0 := by
  rw [callCount, List.countP_append, List.countP_singleton]
  simp [callCount]

/-- At unit cost the total cost is the number of calls. -/
lemma costFor_eq_callCount {calls : List BudgetCall} (hunit : ∀ c ∈ calls, c.cost = 1)
    (domain : String) : costFor domain calls = callCount domain calls := by
  induction calls using List.reverseRecOn with
  | nil => rfl
  | append_singleton calls c ih =>
      have hc : c.cost = 1 := hunit c (by simp)
      rw [costFor_snoc, callCount_snoc, ih fun d hd => hunit d (by simp [hd]), hc]
      push_cast
      rfl

/-! ### In memory -/

/-- The state of `InMemoryDomainBudget`, with the metric of exhausted budgets. -/
structure InMemoryBudgetState where
  used : AList fun _ : String => ℤ := ∅
  budgetExhausted : ℕ := 0

namespace InMemoryDomainBudget

variable (limit : ℤ)

/-- `InMemoryDomainBudget.try_consume`. -/
def tryConsume (domain : String) (cost : ℤ) (s : InMemoryBudgetState) :
    Bool × InMemoryBudgetState :=
  if limit ≤ 0 then (true, s)
  else
    let used := (s.used.lookup domain).getD 0
    if used + cost > limit then (false, { s with budgetExhausted := s.budgetExhausted + 1 })
    else (true, { s with used := s.used.insert domain (used + cost) })

/-- `InMemoryDomainBudget.remaining`. -/
def remaining (domain : String) (s : InMemoryBudgetState) : ℤ :=
  if limit ≤ 0 then -1 else max 0 (limit - (s.used.lookup domain).getD 0)

end InMemoryDomainBudget

/-- `InMemoryDomainBudget`. -/
def inMemoryDomainBudget (limit : ℤ) : DomainBudget InMemoryBudgetState where
  tryConsume := InMemoryDomainBudget.tryConsume limit
  remaining := InMemoryDomainBudget.remaining limit
  init := {}

/-! ### In Redis -/

/-- The counters of a Redis server, and the metric of exhausted budgets. -/
structure RedisBudgetState where
  counters : AList fun _ : String => ℤ := ∅
  reachable : Bool := true
  budgetExhausted : ℕ := 0

namespace RedisBudgetState

/-- The value of a counter, zero if the key does not exist. -/
def value (s : RedisBudgetState) (key : String) : ℤ := (s.counters.lookup key).getD 0

/-- `INCRBY`: the new value, or an error in place of an overflow. -/
def incrby (key : String) (amount : ℤ) : EStateM PyError RedisBudgetState ℤ := fun s =>
  let total := s.value key + amount
  if s.reachable = false then .error ⟨"ConnectionError"⟩ s
  else if amount < -2 ^ 63 ∨ 2 ^ 63 ≤ amount then
    .error ⟨"value is not an integer or out of range"⟩ s
  else if total < -2 ^ 63 ∨ 2 ^ 63 ≤ total then
    .error ⟨"increment or decrement would overflow"⟩ s
  else .ok total { s with counters := s.counters.insert key total }

/-- `GET` of a counter. -/
def get (key : String) : EStateM PyError RedisBudgetState (Option ℤ) := fun s =>
  if s.reachable = false then .error ⟨"ConnectionError"⟩ s
  else .ok (s.counters.lookup key) s

/-- A counter grows up to `2 ^ 63 - 1`. -/
lemma incrby_of_lt {s : RedisBudgetState} {key : String} {amount : ℤ}
    (hreach : s.reachable = true) (hvalue : 0 ≤ s.value key) (hamount : 0 ≤ amount)
    (hlt : s.value key + amount < 2 ^ 63) :
    ∃ used s', (incrby key amount).run s = .ok used s' := by
  refine ⟨s.value key + amount,
    { s with counters := s.counters.insert key (s.value key + amount) }, ?_⟩
  simp only [incrby, EStateM.run, hreach]
  rw [if_neg (by simp), if_neg (by omega), if_neg (by omega)]

end RedisBudgetState

/-- The arguments of `RedisDomainBudget`, apart from the client. -/
structure RedisDomainBudget where
  ns : String
  limit : ℤ

namespace RedisDomainBudget

variable (B : RedisDomainBudget)

/-- The key of a domain. -/
def key (domain : String) : String := B.ns ++ ":" ++ domain

/-- `RedisDomainBudget.try_consume`. -/
def tryConsume (domain : String) (cost : ℤ) (s : RedisBudgetState) : Bool × RedisBudgetState :=
  if B.limit ≤ 0 then (true, s)
  else
    match (RedisBudgetState.incrby (B.key domain) cost).run s with
    | .error _ s' => (true, s')  -- fail open if Redis is unavailable
    | .ok used s' =>
        if used > B.limit then (false, { s' with budgetExhausted := s'.budgetExhausted + 1 })
        else (true, s')

/-- `RedisDomainBudget.remaining`. -/
def remaining (domain : String) (s : RedisBudgetState) : ℤ :=
  if B.limit ≤ 0 then -1
  else
    match (RedisBudgetState.get (B.key domain)).run s with
    | .error _ _ => -1
    | .ok raw _ => max 0 (B.limit - raw.getD 0)

/-- The budget that all workers share. -/
def budget : DomainBudget RedisBudgetState where
  tryConsume := B.tryConsume
  remaining := B.remaining
  init := {}

/-- Redis executes the `INCRBY` of every call of the run. -/
def Answered (calls : List BudgetCall) : Prop :=
  ∀ pre c post, calls = pre ++ c :: post →
    ∃ used s', (RedisBudgetState.incrby (B.key c.domain) c.cost).run (B.budget.run pre) =
      .ok used s'

variable {B} {calls : List BudgetCall} {c : BudgetCall} {domain : String}

lemma key_injective : Function.Injective B.key := by
  intro d d' h
  exact String.append_right_inj _ |>.1 h

lemma Answered.of_append {post : List BudgetCall} (h : B.Answered (calls ++ post)) :
    B.Answered calls := by
  intro pre d mid heq
  exact h pre d (mid ++ post) (by simp [heq])

/-! ### The counter -/

/-- What a call does when Redis executes it: the counter of the domain grows by the cost,
granted or not. -/
lemma tryConsume_of_incrby {cost : ℤ} {s : RedisBudgetState} (hlimit : 0 < B.limit)
    (h : ∃ used s', (RedisBudgetState.incrby (B.key domain) cost).run s = .ok used s') :
    ((B.tryConsume domain cost s).1 = true ↔ s.value (B.key domain) + cost ≤ B.limit) ∧
    (B.tryConsume domain cost s).2.counters =
      s.counters.insert (B.key domain) (s.value (B.key domain) + cost) ∧
    (B.tryConsume domain cost s).2.reachable = s.reachable := by
  obtain ⟨used, s', hincr⟩ := h
  have hpos : ¬ B.limit ≤ 0 := by omega
  rw [tryConsume, if_neg hpos, hincr]
  simp only [RedisBudgetState.incrby, EStateM.run] at hincr
  split_ifs at hincr
  obtain ⟨rfl, rfl⟩ := EStateM.Result.ok.inj hincr
  dsimp only
  split_ifs with hover
  · exact ⟨by simpa using hover, rfl, rfl⟩
  · exact ⟨by simpa using hover, rfl, rfl⟩

lemma counters_snoc (hlimit : 0 < B.limit) (h : B.Answered (calls ++ [c])) :
    (B.budget.run (calls ++ [c])).counters =
      (B.budget.run calls).counters.insert (B.key c.domain)
        ((B.budget.run calls).value (B.key c.domain) + c.cost) ∧
    (B.budget.run (calls ++ [c])).reachable = (B.budget.run calls).reachable := by
  rw [DomainBudget.run_snoc]
  exact (tryConsume_of_incrby hlimit (h calls c [] rfl)).2

/-- The counter of a domain is the total cost of its calls. -/
lemma value_run (hlimit : 0 < B.limit) (h : B.Answered calls) (domain : String) :
    (B.budget.run calls).value (B.key domain) = costFor domain calls := by
  induction calls using List.reverseRecOn with
  | nil => rfl
  | append_singleton calls c ih =>
      obtain ⟨hcounters, -⟩ := counters_snoc hlimit h
      have ih := ih h.of_append
      rw [costFor_snoc, RedisBudgetState.value, hcounters]
      by_cases hc : c.domain = domain
      · rw [if_pos hc, hc, AList.lookup_insert, Option.getD_some, ih]
      · have hkey : B.key domain ≠ B.key c.domain := fun heq => hc (key_injective heq).symm
        rw [if_neg hc, AList.lookup_insert_ne hkey, add_zero, ← ih, RedisBudgetState.value]

lemma verdict_iff (hlimit : 0 < B.limit) (h : B.Answered (calls ++ [c])) :
    B.budget.verdict calls c = true ↔ costFor c.domain calls + c.cost ≤ B.limit := by
  rw [← value_run hlimit h.of_append]
  exact (tryConsume_of_incrby hlimit (h calls c [] rfl)).1

lemma reachable_run (hlimit : 0 < B.limit) (h : B.Answered calls) :
    (B.budget.run calls).reachable = true := by
  induction calls using List.reverseRecOn with
  | nil => rfl
  | append_singleton calls c ih =>
      rw [(counters_snoc hlimit h).2]
      exact ih h.of_append

/-- Redis executes the calls as long as the counters stay below `2 ^ 63`. -/
lemma answered_of_costFor_lt (hlimit : 0 < B.limit) (hcost : ∀ c ∈ calls, 0 ≤ c.cost)
    (hlt : ∀ domain, costFor domain calls < 2 ^ 63) : B.Answered calls := by
  induction calls using List.reverseRecOn with
  | nil => exact fun pre c post hnil => by simp at hnil
  | append_singleton calls c ih =>
      have hc := hcost c (by simp)
      have hcost' : ∀ d ∈ calls, 0 ≤ d.cost := fun d hd => hcost d (by simp [hd])
      have hans := ih hcost' fun domain => by
        have hdom := hlt domain
        rw [costFor_snoc] at hdom
        split_ifs at hdom <;> omega
      intro pre d post heq
      rcases Lib.snoc_eq_append_cons heq with ⟨rfl, rfl, -⟩ | ⟨mid, -, hsplit⟩
      · have hdom := hlt d.domain
        rw [costFor_snoc, if_pos rfl] at hdom
        have hnonneg := costFor_nonneg hcost' d.domain
        rw [← value_run hlimit hans] at hdom hnonneg
        exact RedisBudgetState.incrby_of_lt (reachable_run hlimit hans) hnonneg hc hdom
      · exact hans pre d mid hsplit

lemma remaining_run (hlimit : 0 < B.limit) (h : B.Answered calls) (domain : String) :
    B.budget.remaining domain (B.budget.run calls) =
      max 0 (B.limit - costFor domain calls) := by
  have hpos : ¬ B.limit ≤ 0 := by omega
  have hget : (RedisBudgetState.get (B.key domain)).run (B.budget.run calls) =
      .ok ((B.budget.run calls).counters.lookup (B.key domain)) (B.budget.run calls) := by
    simp [RedisBudgetState.get, EStateM.run, reachable_run hlimit h]
  have hvalue := value_run hlimit h domain
  show B.remaining domain (B.budget.run calls) = _
  rw [remaining, if_neg hpos, hget, ← hvalue, RedisBudgetState.value]

/-- The calls granted for a domain cost at most what is asked for and at most the limit: a
call is granted only while the whole count is below the limit. -/
lemma costFor_granted (hlimit : 0 < B.limit) (h : B.Answered calls)
    (hcost : ∀ c ∈ calls, 0 ≤ c.cost) (domain : String) :
    costFor domain (B.budget.granted calls) ≤ costFor domain calls ∧
      costFor domain (B.budget.granted calls) ≤ B.limit := by
  induction calls using List.reverseRecOn with
  | nil => exact ⟨le_refl 0, hlimit.le⟩
  | append_singleton calls c ih =>
      obtain ⟨hasked, hle⟩ := ih h.of_append fun d hd => hcost d (by simp [hd])
      have hc := hcost c (by simp)
      have hverdict := verdict_iff hlimit h
      rw [DomainBudget.granted_snoc, costFor_snoc]
      split_ifs with hv hd hd
      · have hbound := hverdict.1 hv
        rw [costFor_snoc, if_pos hd]
        rw [hd] at hbound
        omega
      · rw [costFor_snoc, if_neg hd]
        omega
      · omega
      · omega

end RedisDomainBudget

/-! ### The two backends compared -/

namespace InMemoryDomainBudget

variable {limit : ℤ} {calls : List BudgetCall} {c : BudgetCall} {domain : String}

/-- The amount that is charged for a domain. -/
def usedFor (domain : String) (s : InMemoryBudgetState) : ℤ := (s.used.lookup domain).getD 0

lemma verdict_iff (hlimit : 0 < limit) :
    (inMemoryDomainBudget limit).verdict calls c = true ↔
      usedFor c.domain ((inMemoryDomainBudget limit).run calls) + c.cost ≤ limit := by
  have hpos : ¬ limit ≤ 0 := by omega
  simp only [DomainBudget.verdict, inMemoryDomainBudget, tryConsume, if_neg hpos]
  split_ifs with hover
  · simpa [usedFor] using hover
  · simpa [usedFor] using hover

lemma usedFor_snoc (hlimit : 0 < limit) (domain : String) :
    usedFor domain ((inMemoryDomainBudget limit).run (calls ++ [c])) =
      usedFor domain ((inMemoryDomainBudget limit).run calls) +
        if (inMemoryDomainBudget limit).verdict calls c = true ∧ c.domain = domain then c.cost
        else 0 := by
  have hpos : ¬ limit ≤ 0 := by omega
  have hverdict : (inMemoryDomainBudget limit).verdict calls c = true ↔
      usedFor c.domain ((inMemoryDomainBudget limit).run calls) + c.cost ≤ limit :=
    verdict_iff hlimit
  rw [DomainBudget.run_snoc]
  by_cases hover : usedFor c.domain ((inMemoryDomainBudget limit).run calls) + c.cost > limit
  · rw [if_neg fun hv => by have := hverdict.1 hv.1; omega, add_zero]
    simp only [usedFor, inMemoryDomainBudget] at hover
    simp [inMemoryDomainBudget, tryConsume, hpos, hover, usedFor]
  · have hv := hverdict.2 (by omega)
    simp only [usedFor, inMemoryDomainBudget] at hover
    simp only [hv, true_and]
    simp only [inMemoryDomainBudget, tryConsume, if_neg hpos, if_neg hover, usedFor]
    by_cases hd : c.domain = domain
    · rw [if_pos hd, hd, AList.lookup_insert, Option.getD_some]
    · rw [if_neg hd, AList.lookup_insert_ne (Ne.symm hd), add_zero]

/-- At unit cost the count stops at the limit. -/
lemma usedFor_run (hlimit : 0 < limit) (hunit : ∀ c ∈ calls, c.cost = 1) (domain : String) :
    usedFor domain ((inMemoryDomainBudget limit).run calls) =
      min (callCount domain calls : ℤ) limit := by
  induction calls using List.reverseRecOn with
  | nil =>
      show (0 : ℤ) = min 0 limit
      omega
  | append_singleton calls c ih =>
      have hc : c.cost = 1 := hunit c (by simp)
      have ih := ih fun d hd => hunit d (by simp [hd])
      have hverdict : (inMemoryDomainBudget limit).verdict calls c = true ↔
          usedFor c.domain ((inMemoryDomainBudget limit).run calls) + c.cost ≤ limit :=
        verdict_iff hlimit
      rw [usedFor_snoc hlimit, callCount_snoc, hc]
      by_cases hd : c.domain = domain
      · rw [hd, hc] at hverdict
        simp only [hd, and_true, if_true, hverdict]
        split_ifs with hle
        · push_cast
          omega
        · push_cast
          omega
      · simp only [hd, and_false, if_false]
        push_cast
        omega

end InMemoryDomainBudget

/-! ### What the shared budget keeps -/

namespace RedisDomainBudget

/-- The calls granted for a domain cost at most the limit. -/
def NeverOverspends (B : RedisDomainBudget) (calls : List BudgetCall) : Prop :=
  ∀ domain, costFor domain (B.budget.granted calls) ≤ B.limit

/-- Each call gets the verdict that it gets in memory, with the same remainders after it, and
the first `limit` calls of each domain are the ones that are granted. -/
def AgreesWithMemory (B : RedisDomainBudget) (calls : List BudgetCall) : Prop :=
  ∀ pre c post, calls = pre ++ c :: post →
    B.budget.verdict pre c = (inMemoryDomainBudget B.limit).verdict pre c ∧
    (∀ domain, B.budget.remaining domain (B.budget.run (pre ++ [c])) =
      (inMemoryDomainBudget B.limit).remaining domain
        ((inMemoryDomainBudget B.limit).run (pre ++ [c]))) ∧
    (B.budget.verdict pre c = true ↔ (callCount c.domain pre : ℤ) < B.limit)

variable {B : RedisDomainBudget} {calls : List BudgetCall} {c : BudgetCall}

/-- While Redis executes the calls, both backends agree at unit cost. -/
lemma agreesWithMemory_of_answered (hlimit : 0 < B.limit) (hredis : B.Answered calls)
    (hunit : ∀ c ∈ calls, c.cost = 1) : B.AgreesWithMemory calls := by
  intro pre c post heq
  have hsplit : calls = (pre ++ [c]) ++ post := by simp [heq]
  have hpre : B.Answered (pre ++ [c]) := (hsplit ▸ hredis).of_append
  have hunit' : ∀ d ∈ pre ++ [c], d.cost = 1 := by
    intro d hd
    refine hunit d ?_
    rw [hsplit]
    exact List.mem_append_left _ hd
  have hc : c.cost = 1 := hunit' c (by simp)
  have hredisVerdict : B.budget.verdict pre c = true ↔ (callCount c.domain pre : ℤ) < B.limit := by
    rw [verdict_iff hlimit hpre, hc, costFor_eq_callCount fun d hd => hunit' d (by simp [hd])]
    omega
  have hmemoryVerdict : (inMemoryDomainBudget B.limit).verdict pre c = true ↔
      (callCount c.domain pre : ℤ) < B.limit := by
    rw [InMemoryDomainBudget.verdict_iff hlimit, hc,
      InMemoryDomainBudget.usedFor_run hlimit fun d hd => hunit' d (by simp [hd])]
    omega
  refine ⟨Bool.eq_iff_iff.2 (hredisVerdict.trans hmemoryVerdict.symm), ?_,
    hredisVerdict⟩
  intro domain
  have hpos : ¬ B.limit ≤ 0 := by omega
  have hused := InMemoryDomainBudget.usedFor_run hlimit hunit' domain
  rw [remaining_run hlimit hpre, costFor_eq_callCount hunit']
  show _ = InMemoryDomainBudget.remaining B.limit domain _
  rw [InMemoryDomainBudget.remaining, if_neg hpos]
  rw [InMemoryDomainBudget.usedFor] at hused
  rw [hused]
  omega

/-- A command that would overflow is refused by Redis and granted by the client, and nothing is
counted. -/
lemma tryConsume_of_overflow {domain : String} {cost : ℤ} {s : RedisBudgetState}
    (hover : 2 ^ 63 ≤ s.value (B.key domain) + cost) : B.tryConsume domain cost s = (true, s) := by
  have herror : ∃ e, (RedisBudgetState.incrby (B.key domain) cost).run s = .error e s := by
    simp only [RedisBudgetState.incrby, EStateM.run]
    rw [if_pos (show _ ∨ 2 ^ 63 ≤ s.value (B.key domain) + cost from Or.inr hover)]
    split_ifs
    · exact ⟨_, rfl⟩
    · exact ⟨_, rfl⟩
    · exact ⟨_, rfl⟩
  obtain ⟨e, he⟩ := herror
  rw [tryConsume, he]
  split_ifs
  · rfl
  · rfl

/-- With the largest limit that a counter reaches, no call is refused. -/
lemma granted_of_le_limit (hlimit : 2 ^ 63 ≤ B.limit + 1) (calls : List BudgetCall) :
    B.budget.granted calls = calls := by
  induction calls using List.reverseRecOn with
  | nil => rfl
  | append_singleton calls c ih =>
      have hgrant : B.budget.verdict calls c = true := by
        show (B.tryConsume c.domain c.cost (B.budget.run calls)).1 = true
        rw [tryConsume, if_neg (by omega)]
        cases hrun : (RedisBudgetState.incrby (B.key c.domain) c.cost).run (B.budget.run calls) with
        | error e s' => rfl
        | ok used s' =>
            simp only [RedisBudgetState.incrby, EStateM.run] at hrun
            split_ifs at hrun with _ _ hover
            obtain ⟨rfl, -⟩ := EStateM.Result.ok.inj hrun
            dsimp only
            rw [if_neg (by omega)]
      rw [DomainBudget.granted_snoc, if_pos hgrant, ih]

lemma AgreesWithMemory.of_append {post : List BudgetCall}
    (h : B.AgreesWithMemory (calls ++ post)) : B.AgreesWithMemory calls := by
  intro pre c mid heq
  exact h pre c (mid ++ post) (by simp [heq])

/-- Both backends agree at unit cost only until a counter is full. -/
lemma callCount_lt_of_agrees (hlimit : 0 < B.limit) (hunit : ∀ c ∈ calls, c.cost = 1)
    (h : B.AgreesWithMemory calls) : ∀ domain, callCount domain calls < 2 ^ 63 := by
  induction calls using List.reverseRecOn with
  | nil => exact fun domain => by simp [callCount]
  | append_singleton calls c ih =>
      have hunit' : ∀ d ∈ calls, d.cost = 1 := fun d hd => hunit d (by simp [hd])
      have hbefore := ih hunit' h.of_append
      intro domain
      by_contra hfull
      have hcount := hbefore domain
      rw [callCount_snoc] at hfull
      obtain rfl : c.domain = domain := by
        by_contra hne
        rw [if_neg hne] at hfull
        omega
      rw [if_pos rfl] at hfull
      -- the counter of the domain of the last call is full
      have hredis : B.Answered calls := by
        refine answered_of_costFor_lt hlimit (fun d hd => by rw [hunit' d hd]; omega) ?_
        intro d
        rw [costFor_eq_callCount hunit']
        exact_mod_cast hbefore d
      have hvalue := value_run hlimit hredis c.domain
      rw [costFor_eq_callCount hunit'] at hvalue
      have hc : c.cost = 1 := hunit c (by simp)
      have hstep : B.tryConsume c.domain c.cost (B.budget.run calls) =
          (true, B.budget.run calls) := tryConsume_of_overflow (by omega)
      obtain ⟨-, hremaining, hverdict⟩ := h calls c [] rfl
      have hgranted : B.budget.verdict calls c = true := congrArg Prod.fst hstep
      have hroom := hverdict.1 hgranted
      have hrun : B.budget.run (calls ++ [c]) = B.budget.run calls := by
        rw [DomainBudget.run_snoc]
        exact congrArg Prod.snd hstep
      have hleft := hremaining c.domain
      have hpos : ¬ B.limit ≤ 0 := by omega
      have hused := InMemoryDomainBudget.usedFor_run hlimit hunit c.domain
      rw [InMemoryDomainBudget.usedFor] at hused
      rw [hrun, remaining_run hlimit hredis, costFor_eq_callCount hunit'] at hleft
      change _ = InMemoryDomainBudget.remaining B.limit c.domain _ at hleft
      rw [InMemoryDomainBudget.remaining, if_neg hpos, hused, callCount_snoc, if_pos rfl] at hleft
      push_cast at hleft
      omega

/-- **When the shared budget keeps its limits.**  Calls whose costs are not negative never get
more than the limit for a domain out of Redis, and at unit cost both backends agree, for every
limit exactly if for each domain the costs add up to less than `2 ^ 63`.  At unit cost the
backends then part for every limit. -/
theorem budgets_kept_iff (ns : String) (calls : List BudgetCall)
    (hcost : ∀ c ∈ calls, 0 ≤ c.cost) :
    ((∀ limit : ℤ, 0 < limit → NeverOverspends ⟨ns, limit⟩ calls ∧
        ((∀ c ∈ calls, c.cost = 1) → AgreesWithMemory ⟨ns, limit⟩ calls)) ↔
      ∀ domain, costFor domain calls < 2 ^ 63) ∧
    ((∀ c ∈ calls, c.cost = 1) → ∀ limit : ℤ, 0 < limit →
      (AgreesWithMemory ⟨ns, limit⟩ calls ↔ ∀ domain, callCount domain calls < 2 ^ 63)) := by
  have hanswered : ∀ limit : ℤ, 0 < limit → (∀ domain, costFor domain calls < 2 ^ 63) →
      Answered ⟨ns, limit⟩ calls := fun limit hlimit hlt =>
    answered_of_costFor_lt (B := ⟨ns, limit⟩) hlimit hcost hlt
  refine ⟨⟨?_, fun hlt limit hlimit => ⟨?_, ?_⟩⟩, ?_⟩
  · intro h domain
    -- the largest counter is a limit that refuses nothing
    have hkept := (h (2 ^ 63 - 1) (by norm_num)).1 domain
    rw [granted_of_le_limit (by norm_num)] at hkept
    exact Int.lt_of_le_sub_one hkept
  · intro domain
    exact (costFor_granted (B := ⟨ns, limit⟩) hlimit (hanswered limit hlimit hlt) hcost domain).2
  · exact agreesWithMemory_of_answered (B := ⟨ns, limit⟩) hlimit (hanswered limit hlimit hlt)
  · intro hunit limit hlimit
    refine ⟨callCount_lt_of_agrees (B := ⟨ns, limit⟩) hlimit hunit, ?_⟩
    intro hlt
    refine agreesWithMemory_of_answered (B := ⟨ns, limit⟩) hlimit ?_ hunit
    refine hanswered limit hlimit ?_
    intro domain
    rw [costFor_eq_callCount hunit]
    exact_mod_cast hlt domain

/-- Two calls at a limit of one. -/
theorem budgets_kept_two_calls :
    NeverOverspends ⟨"budget", 1⟩ [⟨"a.org", 1⟩, ⟨"a.org", 1⟩] ∧
      AgreesWithMemory ⟨"budget", 1⟩ [⟨"a.org", 1⟩, ⟨"a.org", 1⟩] := by
  have hunit : ∀ c ∈ [(⟨"a.org", 1⟩ : BudgetCall), ⟨"a.org", 1⟩], c.cost = 1 := by decide
  have hkept := (budgets_kept_iff "budget" [⟨"a.org", 1⟩, ⟨"a.org", 1⟩]
      (by decide)).1.2 fun domain => by
    rw [costFor_eq_callCount hunit]
    have hle : callCount domain [⟨"a.org", 1⟩, ⟨"a.org", 1⟩] ≤ 2 := List.countP_le_length
    omega
  exact ⟨(hkept 1 one_pos).1, (hkept 1 one_pos).2 hunit⟩

/-- **An overflow is granted.**  Redis is reachable and refuses to add `2 ^ 63`, and the client
takes its error for a Redis that is not available. -/
theorem overflow_is_granted :
    ∃ calls : List BudgetCall, (∀ c ∈ calls, 0 ≤ c.cost) ∧
      ((RedisDomainBudget.mk "budget" 1).budget.run calls).reachable = true ∧
      ¬ NeverOverspends ⟨"budget", 1⟩ calls := by
  refine ⟨[⟨"a.org", 2 ^ 63⟩], by decide, rfl, ?_⟩
  intro h
  have hle : (2 ^ 63 : ℤ) ≤ 1 := h "a.org"
  exact absurd hle (by norm_num)

end RedisDomainBudget

end WebCrawler
