import WebCrawler.Fleet.Steps
import WebCrawler.Lib.Descent
import Mathlib.Data.Prod.Lex

/-!
# The fleet comes to rest

A page may put any number of links on the frontier topic and a failed message comes back through
the retry topic, so the amount of work goes up and down.  What goes down with every step is the
multiset of the weights of all that is left to do: a child has less room below the depth limit
than its parent, a message that is retried has fewer attempts left, and otherwise a message goes
from point to point in one direction only.

Only a record that is handed out again adds a weight.  So whatever the pages answer, and however
the workers are scheduled, raise and are killed, a run is infinite only if records are handed out
again and again, and without that the fleet drains (`fleet_drains`).
-/

namespace WebCrawler

open Lib

namespace Fleet

variable {σ : Type}

/-- Nothing is left to do. -/
structure Drained (s : FleetState σ) : Prop where
  seeds : s.seeds = []
  pending : s.pending = []
  uncommitted : s.uncommitted = []
  calls : s.calls = []

/-- The weight of a message: the levels below it, the attempts that are left, the point at which
it stands, and the links that are left there. -/
abbrev Weight : Type := ℕ ×ₗ ℕ ×ₗ ℕ ×ₗ ℕ

variable (F : Fleet) (N : Numerals)

/-- The weight of a message at a point. -/
def messageWeight (m : FrontierMessage) (stage : ℕ ×ₗ ℕ) : Weight :=
  toLex ((F.maxDepth - m.depth).toNat, toLex ((F.maxRetries - m.attempts).toNat, stage))

/-- The weight of a seed that is still to be published. -/
def seedWeight (m : FrontierMessage) : Weight := F.messageWeight m (toLex (7, 0))

/-- The weight of a record that only waits for its offset to be committed. -/
def idleWeight : Weight := toLex (0, toLex (0, toLex (0, 0)))

/-- The weight of a record that is to be handed to a worker. -/
def recordWeight (e : Entry) : Weight :=
  match FrontierMessage.fromBytes N e.value with
  | .ok m => F.messageWeight m (toLex (if e.topic = .retry then 6 else 4, 0))
  | .error _ => toLex (0, toLex (0, toLex (4, 0)))

/-- The point at which a call stands. -/
def stage : Point → ℕ ×ₗ ℕ
  | .requeuing _ => toLex (5, 0)
  | .processing _ => toLex (3, 0)
  | .linking _ _ rest => toLex (2, 2 * rest.length)
  | .enqueuing _ _ _ rest => toLex (2, 2 * rest.length + 1)
  | .retrying _ => toLex (1, 0)

/-- The weight of a call. -/
def pointWeight (p : Point) : Weight := F.messageWeight p.message (stage p)

/-- The weights of seeds to be published, of records to be handed out, of records to be committed
and of calls. -/
def weightsOf (seeds : List FrontierMessage) (pending uncommitted : List Entry)
    (calls : List Call) : Multiset Weight :=
  (seeds.map F.seedWeight : Multiset Weight) + (pending.map (F.recordWeight N)) +
    (uncommitted.map fun _ => idleWeight) + (calls.map fun call => F.pointWeight call.point)

/-- The weights of all that is left to do. -/
def weights (s : FleetState σ) : Multiset Weight :=
  F.weightsOf N s.seeds s.pending s.uncommitted s.calls

variable {F N} {S : SeenSet σ String} {s t : FleetState σ} {a : FleetAct} {m m' : FrontierMessage}

/-! ### Weights -/

/-- A message goes on to a later point. -/
lemma messageWeight_lt {st st' : ℕ ×ₗ ℕ} (hdepth : m'.depth = m.depth)
    (hattempts : m'.attempts = m.attempts) (h : st' < st) :
    F.messageWeight m' st' < F.messageWeight m st := by
  rw [messageWeight, messageWeight, hdepth, hattempts]
  exact Prod.Lex.toLex_lt_toLex.2 (Or.inr ⟨rfl, Prod.Lex.toLex_lt_toLex.2 (Or.inr ⟨rfl, h⟩)⟩)

lemma idleWeight_lt {n k : ℕ} {st : ℕ ×ₗ ℕ} (h : toLex (0, 0) < st) :
    idleWeight < toLex (n, toLex (k, st)) := by
  rcases Nat.eq_zero_or_pos n with rfl | hn
  · refine Prod.Lex.toLex_lt_toLex.2 (Or.inr ⟨rfl, Prod.Lex.toLex_lt_toLex.2 ?_⟩)
    rcases Nat.eq_zero_or_pos k with rfl | hk
    · exact Or.inr ⟨rfl, h⟩
    · exact Or.inl hk
  · exact Prod.Lex.toLex_lt_toLex.2 (Or.inl hn)

lemma idleWeight_lt_recordWeight (e : Entry) : idleWeight < F.recordWeight N e := by
  have hpos : ∀ n : ℕ, 0 < n → toLex ((0 : ℕ), (0 : ℕ)) < toLex (n, 0) :=
    fun n hn => Prod.Lex.toLex_lt_toLex.2 (Or.inl hn)
  rw [recordWeight]
  cases FrontierMessage.fromBytes N e.value with
  | error err => exact idleWeight_lt (hpos 4 (by norm_num))
  | ok m => exact idleWeight_lt (hpos _ (by split_ifs <;> norm_num))

lemma recordWeight_toBytes (topic : Topic) (ℓ : ℕ) (m : FrontierMessage) :
    F.recordWeight N ⟨topic, ℓ, m.toBytes⟩ =
      F.messageWeight m (toLex (if topic = .retry then 6 else 4, 0)) := by
  simp [recordWeight]

/-- A child has less room below the depth limit. -/
lemma messageWeight_child_lt {l : Link} {st st' : ℕ ×ₗ ℕ} (hd : m.depth < F.maxDepth) :
    F.messageWeight (.fromItem (child m.toItem l)) st' < F.messageWeight m st := by
  have hdepth : (FrontierMessage.fromItem (child m.toItem l)).depth = m.depth + 1 := rfl
  refine Prod.Lex.toLex_lt_toLex.2 (Or.inl ?_)
  rw [hdepth]
  omega

/-- A message that is retried has fewer attempts left. -/
lemma messageWeight_retry_lt (st st' : ℕ ×ₗ ℕ) (now : ℚ) (h : m.attempts < F.maxRetries) :
    F.messageWeight (CrawlWorker.afterFailure F.maxRetries now m).2 st' <
      F.messageWeight m st := by
  rw [CrawlWorker.afterFailure, if_neg (not_le.2 h)]
  refine Prod.Lex.toLex_lt_toLex.2 (Or.inr ⟨rfl, Prod.Lex.toLex_lt_toLex.2 (Or.inl ?_)⟩)
  show (F.maxRetries - (m.attempts + 1)).toNat < (F.maxRetries - m.attempts).toNat
  omega

/-! ### What one step replaces -/

lemma weightsOf_append (seeds seeds' : List FrontierMessage) (pending pending' : List Entry)
    (uncommitted uncommitted' : List Entry) (calls calls' : List Call) :
    F.weightsOf N (seeds ++ seeds') (pending ++ pending') (uncommitted ++ uncommitted')
        (calls ++ calls') =
      F.weightsOf N seeds pending uncommitted calls +
        F.weightsOf N seeds' pending' uncommitted' calls' := by
  simp only [weightsOf, List.map_append, ← Multiset.coe_add]
  abel

/-- The order of the items does not matter. -/
lemma weightsOf_perm {seeds seeds' : List FrontierMessage} {pending pending' : List Entry}
    {uncommitted uncommitted' : List Entry} {calls calls' : List Call} (hs : seeds.Perm seeds')
    (hp : pending.Perm pending') (hu : uncommitted.Perm uncommitted') (hc : calls.Perm calls') :
    F.weightsOf N seeds pending uncommitted calls =
      F.weightsOf N seeds' pending' uncommitted' calls' := by
  simp only [weightsOf, Multiset.coe_eq_coe.2 (hs.map _), Multiset.coe_eq_coe.2 (hp.map _),
    Multiset.coe_eq_coe.2 (hu.map _), Multiset.coe_eq_coe.2 (hc.map _)]

/-- A call moves on, and what it publishes is lighter than the call was. -/
lemma lighter_of_calls {pre post : List Call} {call : Call} (cs : List Call) (new : List Entry)
    (hs : s.calls = pre ++ call :: post) (hseeds : t.seeds = s.seeds)
    (hpending : t.pending = s.pending ++ new) (huncommitted : t.uncommitted = s.uncommitted)
    (hcalls : t.calls = pre ++ cs ++ post)
    (hcs : ∀ c ∈ cs, F.pointWeight c.point < F.pointWeight call.point)
    (hnew : ∀ e ∈ new, F.recordWeight N e < F.pointWeight call.point) :
    Multiset.IsDershowitzMannaLT (F.weights N t) (F.weights N s) := by
  have hlight : ∀ y ∈ F.weightsOf N [] new [] cs, y < F.pointWeight call.point := by
    intro y hy
    simp only [weightsOf, List.map_nil, Multiset.coe_nil, zero_add, add_zero, Multiset.mem_add,
      Multiset.mem_coe] at hy
    rcases hy with hy | hy
    · obtain ⟨e, he, rfl⟩ := List.mem_map.1 hy
      exact hnew e he
    · obtain ⟨c, hc, rfl⟩ := List.mem_map.1 hy
      exact hcs c hc
  have h := lighter_of_replace (X := F.weightsOf N s.seeds s.pending s.uncommitted (pre ++ post))
    hlight
  convert h using 1
  · rw [← weightsOf_append, weights, hseeds, hpending, huncommitted, hcalls]
    refine weightsOf_perm (by simp) .rfl (by simp) ?_
    rw [List.append_assoc, List.append_assoc]
    exact (List.perm_append_comm).append_left pre
  · have hcall : {F.pointWeight call.point} = F.weightsOf N [] [] [] [call] := by simp [weightsOf]
    rw [hcall, ← weightsOf_append, weights, hs]
    refine weightsOf_perm (by simp) (by simp) (by simp) ?_
    rw [List.append_assoc]
    exact (List.perm_append_singleton call post).symm.append_left pre

/-- A call moves on to a lighter point. -/
lemma lighter_of_call {pre post : List Call} {call c : Call} {new : List Entry}
    (hs : s.calls = pre ++ call :: post) (hseeds : t.seeds = s.seeds)
    (hpending : t.pending = s.pending ++ new) (huncommitted : t.uncommitted = s.uncommitted)
    (hcalls : t.calls = pre ++ c :: post)
    (hc : F.pointWeight c.point < F.pointWeight call.point)
    (hnew : ∀ e ∈ new, F.recordWeight N e < F.pointWeight call.point) :
    Multiset.IsDershowitzMannaLT (F.weights N t) (F.weights N s) :=
  lighter_of_calls [c] new hs hseeds hpending huncommitted (by simp [hcalls])
    (List.forall_mem_singleton.2 hc) hnew

/-- A record is handed to a worker. -/
lemma lighter_of_deliver {pre post : List Entry} {e : Entry} (cs : List Call)
    (hs : s.pending = pre ++ e :: post) (hseeds : t.seeds = s.seeds)
    (hpending : t.pending = pre ++ post) (huncommitted : t.uncommitted = s.uncommitted ++ [e])
    (hcalls : t.calls = s.calls ++ cs)
    (hcs : ∀ c ∈ cs, F.pointWeight c.point < F.recordWeight N e) :
    Multiset.IsDershowitzMannaLT (F.weights N t) (F.weights N s) := by
  have hlight : ∀ y ∈ F.weightsOf N [] [] [e] cs, y < F.recordWeight N e := by
    intro y hy
    simp only [weightsOf, List.map_nil, Multiset.coe_nil, zero_add, List.map_cons,
      Multiset.mem_add, Multiset.mem_coe] at hy
    rcases hy with hy | hy
    · rw [List.mem_singleton.1 hy]
      exact idleWeight_lt_recordWeight e
    · obtain ⟨c, hc, rfl⟩ := List.mem_map.1 hy
      exact hcs c hc
  have h := lighter_of_replace (X := F.weightsOf N s.seeds (pre ++ post) s.uncommitted s.calls)
    hlight
  convert h using 1
  · rw [← weightsOf_append, weights, hseeds, hpending, huncommitted, hcalls, List.append_nil,
      List.append_nil]
  · have hrecord : {F.recordWeight N e} = F.weightsOf N [] [e] [] [] := by simp [weightsOf]
    rw [hrecord, ← weightsOf_append, weights, hs]
    refine weightsOf_perm (by simp) ?_ (by simp) (by simp)
    rw [List.append_assoc]
    exact (List.perm_append_singleton e post).symm.append_left pre

/-- What is left of a call after `process_message`. -/
lemma pointWeight_concluded_lt {ℓ : ℕ} {r : ProcessResult} {st : ℕ ×ₗ ℕ}
    (h : toLex (1, 0) < st) :
    ∀ c ∈ concluded ℓ m r, F.pointWeight c.point < F.messageWeight m st := by
  intro c hc
  rw [concluded] at hc
  split_ifs at hc
  · rw [List.mem_singleton.1 hc]
    exact messageWeight_lt rfl rfl h
  · exact absurd hc List.not_mem_nil

/-- A page whose links are followed is above the depth limit. -/
def Shallow (F : Fleet) (s : FleetState σ) : Prop :=
  ∀ call ∈ s.calls, call.point.InLoop → call.point.message.depth < F.maxDepth

lemma Shallow.step (h : Shallow F s) (hm : StepsTo F S N s a t) : Shallow F t := by
  have hcalls := h
  rw [Shallow] at hcalls
  cases hm with
  | seed hs => exact h
  | abort hs => exact h
  | drop hs hdrop => exact h
  | wait hs hm htopic => exact forall_mem_append_singleton h fun hloop => hloop.elim
  | visit hs hm htopic hd => exact forall_mem_append_singleton h fun hloop => hloop.elim
  | redeliver he => exact h
  | commit hs => exact h
  | failed hs =>
      rw [hs] at hcalls
      exact forall_mem_replace hcalls fun hloop => hloop.elim
  | expand hs hexp =>
      rw [hs] at hcalls
      refine forall_mem_replace hcalls ?_
      intro _
      simp only [ProcessResult.expands, Bool.and_eq_true, decide_eq_true_eq] at hexp
      exact hexp.2
  | settle hs hexp =>
      rw [hs] at hcalls
      exact forall_mem_concluded hcalls fun hloop => hloop.elim
  | @known pre post ℓ m r l rest hs hold =>
      rw [hs] at hcalls
      exact forall_mem_replace hcalls (hcalls ⟨ℓ, .linking m r (l :: rest)⟩ (by simp))
  | @fresh pre post ℓ m r l rest hs hnew =>
      rw [hs] at hcalls
      exact forall_mem_replace hcalls (hcalls ⟨ℓ, .linking m r (l :: rest)⟩ (by simp))
  | leave hs =>
      rw [hs] at hcalls
      exact forall_mem_concluded hcalls fun hloop => hloop.elim
  | @enqueue pre post ℓ m r l rest hs =>
      rw [hs] at hcalls
      exact forall_mem_replace hcalls (hcalls ⟨ℓ, .enqueuing m r l rest⟩ (by simp))
  | refuse hs hkey =>
      rw [hs] at hcalls
      exact forall_mem_replace hcalls fun hloop => hloop.elim
  | raise hs hp =>
      rw [hs] at hcalls
      exact forall_mem_replace hcalls fun hloop => hloop.elim
  | retry hs =>
      rw [hs] at hcalls
      exact forall_mem_remove hcalls
  | requeue hs =>
      rw [hs] at hcalls
      exact forall_mem_remove hcalls
  | unsent hs hkey ha =>
      rw [hs] at hcalls
      exact forall_mem_remove hcalls
  | crash hs =>
      rw [hs] at hcalls
      exact forall_mem_remove hcalls

lemma shallow_of_reachable {seen : σ} {seeds : List FrontierMessage}
    {P : FleetState σ → FleetAct → Prop} (h : (F.machine S N seen seeds).ReachableBy P s) :
    Shallow F s := by
  refine Machine.ReachableBy.inv (I := Shallow F) ?_
    (fun _ _ _ ih _ hst => ih.step (stepsTo_of_step hst)) h
  exact fun call hcall => absurd hcall (by simp [machine])

/-- Every step that does not hand out a record again makes the weights lighter. -/
theorem weights_lighter (h : Shallow F s) (hno : redelivers a = false)
    (hm : StepsTo F S N s a t) :
    Multiset.IsDershowitzMannaLT (F.weights N t) (F.weights N s) := by
  have hlt : ∀ {i j k l : ℕ}, i < j ∨ i = j ∧ k < l → toLex (i, k) < toLex (j, l) :=
    fun hor => Prod.Lex.toLex_lt_toLex.2 hor
  cases hm with
  | @seed m rest hs =>
      have hlight : ∀ y ∈ F.weightsOf N [] [⟨.frontier, s.roots.length, m.toBytes⟩] [] [],
          y < F.seedWeight m := by
        intro y hy
        obtain rfl : y = F.recordWeight N ⟨.frontier, s.roots.length, m.toBytes⟩ := by
          simpa [weightsOf] using hy
        rw [recordWeight_toBytes]
        exact messageWeight_lt rfl rfl (hlt (Or.inl (by simp)))
      have h := lighter_of_replace (X := F.weightsOf N rest s.pending s.uncommitted s.calls) hlight
      convert h using 1
      · rw [← weightsOf_append, weights]
        simp [FleetState.produce, FleetState.publish]
      · have hseed : {F.seedWeight m} = F.weightsOf N [m] [] [] [] := by simp [weightsOf]
        rw [hseed, ← weightsOf_append, weights, hs]
        exact weightsOf_perm (List.perm_append_singleton m rest).symm (by simp) (by simp) (by simp)
  | @abort m rest hs hkey =>
      -- the seeds leave, and nothing takes their place
      refine ⟨F.weightsOf N [] s.pending s.uncommitted s.calls, 0,
        F.weightsOf N s.seeds [] [] [], ?_, ?_, ?_, by simp⟩
      · simp [weightsOf, hs]
      · rw [add_zero, weights]
      · rw [← weightsOf_append, weights]
        simp
  | @drop pre post e hs hdrop =>
      exact lighter_of_deliver [] hs rfl rfl rfl (by simp) (by simp)
  | @wait pre post e m hs hm htopic =>
      refine lighter_of_deliver _ hs rfl rfl rfl rfl (List.forall_mem_singleton.2 ?_)
      rw [recordWeight, hm]
      exact messageWeight_lt rfl rfl (hlt (Or.inl (by simp [htopic])))
  | @visit pre post e m hs hm htopic hd =>
      refine lighter_of_deliver _ hs rfl rfl rfl rfl (List.forall_mem_singleton.2 ?_)
      rw [recordWeight, hm]
      exact messageWeight_lt rfl rfl (hlt (Or.inl (by simp [htopic])))
  | redeliver he => exact absurd hno (by simp [redelivers])
  | @commit pre post e hs =>
      -- the record leaves, and nothing takes its place
      have h := lighter_of_replace (X := F.weightsOf N s.seeds s.pending (pre ++ post) s.calls)
        (Y := 0) (z := idleWeight) (by simp)
      convert h using 1
      · rw [add_zero, weights]
      · have hidle : {idleWeight} = F.weightsOf N [] [] [e] [] := by simp [weightsOf]
        rw [hidle, ← weightsOf_append, weights, hs]
        refine weightsOf_perm (by simp) (by simp) ?_ (by simp)
        rw [List.append_assoc]
        exact (List.perm_append_singleton e post).symm.append_left pre
  | failed hs =>
      refine lighter_of_call hs rfl (List.append_nil _).symm rfl rfl ?_ (by simp)
      exact messageWeight_lt rfl rfl (hlt (Or.inl (by norm_num)))
  | expand hs hexp =>
      refine lighter_of_call hs rfl (List.append_nil _).symm rfl rfl ?_ (by simp)
      exact messageWeight_lt rfl rfl (hlt (Or.inl (by norm_num)))
  | settle hs hexp =>
      refine lighter_of_calls _ [] hs rfl (List.append_nil _).symm rfl rfl ?_ (by simp)
      exact pointWeight_concluded_lt (hlt (Or.inl (by norm_num)))
  | known hs hold =>
      refine lighter_of_call hs rfl (List.append_nil _).symm rfl rfl ?_ (by simp)
      exact messageWeight_lt rfl rfl (hlt (Or.inr ⟨rfl, by simp⟩))
  | fresh hs hnew =>
      refine lighter_of_call hs rfl (List.append_nil _).symm rfl rfl ?_ (by simp)
      refine messageWeight_lt rfl rfl (hlt (Or.inr ⟨rfl, ?_⟩))
      rw [List.length_cons]
      omega
  | leave hs =>
      refine lighter_of_calls _ [] hs rfl (List.append_nil _).symm rfl rfl ?_ (by simp)
      exact pointWeight_concluded_lt (hlt (Or.inl (by norm_num)))
  | @enqueue pre post ℓ m r l rest hs =>
      -- the child and what is left of the loop take the place of the call
      have hd : m.depth < F.maxDepth := h ⟨ℓ, .enqueuing m r l rest⟩ (by simp [hs]) trivial
      refine lighter_of_call hs rfl rfl rfl rfl ?_ (List.forall_mem_singleton.2 ?_)
      · exact messageWeight_lt rfl rfl (hlt (Or.inr ⟨rfl, Nat.lt_succ_self _⟩))
      · rw [recordWeight_toBytes]
        exact messageWeight_child_lt hd
  | refuse hs hkey =>
      refine lighter_of_call hs rfl (List.append_nil _).symm rfl rfl ?_ (by simp)
      exact messageWeight_lt rfl rfl (hlt (Or.inl (by norm_num)))
  | @raise pre post ℓ p hs hp =>
      refine lighter_of_call hs rfl (List.append_nil _).symm rfl rfl ?_ (by simp)
      refine messageWeight_lt rfl rfl ?_
      cases p with
      | linking m r rest => exact hlt (Or.inl (by norm_num))
      | enqueuing m r l rest => exact hlt (Or.inl (by norm_num))
      | processing m => exact hp.elim
      | retrying m => exact hp.elim
      | requeuing m => exact hp.elim
  | @retry pre post ℓ m now hs =>
      by_cases hge : F.maxRetries ≤ m.attempts
      · -- nobody consumes the dlq
        refine lighter_of_calls [] [] hs rfl ?_ rfl ?_ (by simp) (by simp)
        · simp [FleetState.publish, CrawlWorker.afterFailure, hge]
        · simp [FleetState.publish]
      · have hretry := messageWeight_retry_lt (toLex (1, 0)) (toLex (6, 0)) now (not_le.1 hge)
        refine lighter_of_calls []
          [⟨.retry, ℓ, (CrawlWorker.afterFailure F.maxRetries now m).2.toBytes⟩] hs rfl ?_ rfl ?_
          (by simp) (List.forall_mem_singleton.2 ?_)
        · simp [FleetState.publish, CrawlWorker.afterFailure, hge]
        · simp [FleetState.publish]
        · rw [recordWeight_toBytes, if_pos rfl]
          exact hretry
  | @requeue pre post ℓ m hs =>
      refine lighter_of_calls [] _ hs rfl rfl rfl (by simp [FleetState.publish]) (by simp)
        (List.forall_mem_singleton.2 ?_)
      rw [recordWeight_toBytes]
      exact messageWeight_lt rfl rfl (hlt (Or.inl (by simp)))
  | unsent hs hkey ha =>
      exact lighter_of_calls [] [] hs rfl (List.append_nil _).symm rfl (by simp) (by simp)
        (by simp)
  | crash hs =>
      exact lighter_of_calls [] [] hs rfl (List.append_nil _).symm rfl (by simp) (by simp)
        (by simp)

/-! ### Every run -/

lemma descends (F : Fleet) (S : SeenSet σ String) (N : Numerals) (seen : σ)
    (seeds : List FrontierMessage) :
    (F.machine S N seen seeds).Descends (redelivers · = true) Multiset.IsDershowitzMannaLT
      (F.weights N) :=
  ⟨Multiset.wellFounded_isDershowitzMannaLT, fun _ _ _ hs hno hst =>
    weights_lighter (shallow_of_reachable hs) (Bool.eq_false_iff.2 hno) (stepsTo_of_step hst)⟩

/-- The step is one that the code takes by itself, without an exception in the loop over the
links. -/
def ordinary : FleetAct → Bool
  | .redeliver _ => false
  | .crash _ => false
  | .raise _ => false
  | _ => true

lemma redelivers_of_ordinary (h : ordinary a = true) : redelivers a = false := by
  cases a with
  | redeliver k => exact absurd h (by simp [ordinary])
  | _ => rfl

/-- A call can always go on. -/
lemma exists_step_of_call {call : Call} {rest : List Call} (hs : s.calls = call :: rest) :
    ∃ a t, ordinary a = true ∧ F.step S N s a = some t := by
  obtain ⟨ℓ, p⟩ := call
  cases p with
  | processing m => exact ⟨.process 0 (.error { what := "" }), _, rfl, by simp [step, hs]; rfl⟩
  | linking m r links =>
      cases links with
      | nil => exact ⟨.check 0, _, rfl, by simp [step, hs]; rfl⟩
      | cons l links => exact ⟨.check 0, _, rfl, by simp [step, hs]; rfl⟩
  | enqueuing m r l links => exact ⟨.enqueue 0, _, rfl, by simp [step, hs]; rfl⟩
  | retrying m => exact ⟨.retry 0 0, _, rfl, by simp [step, hs]; rfl⟩
  | requeuing m => exact ⟨.requeue 0, _, rfl, by simp [step, hs]; rfl⟩

/-- In a drained fleet there is nothing to do. -/
lemma Drained.not_stepsTo (h : Drained s) : ¬ StepsTo F S N s a t := by
  obtain ⟨hseeds, hpending, huncommitted, hcalls⟩ := h
  intro hm
  cases hm with
  | seed hs => exact absurd (hseeds.symm.trans hs) (by simp)
  | abort hs => exact absurd (hseeds.symm.trans hs) (by simp)
  | drop hs hdrop => exact absurd (hpending.symm.trans hs) (by simp)
  | wait hs hm htopic => exact absurd (hpending.symm.trans hs) (by simp)
  | visit hs hm htopic hd => exact absurd (hpending.symm.trans hs) (by simp)
  | redeliver he => exact absurd he (by simp [huncommitted])
  | commit hs => exact absurd (huncommitted.symm.trans hs) (by simp)
  | failed hs => exact absurd (hcalls.symm.trans hs) (by simp)
  | expand hs hexp => exact absurd (hcalls.symm.trans hs) (by simp)
  | settle hs hexp => exact absurd (hcalls.symm.trans hs) (by simp)
  | known hs hold => exact absurd (hcalls.symm.trans hs) (by simp)
  | fresh hs hnew => exact absurd (hcalls.symm.trans hs) (by simp)
  | leave hs => exact absurd (hcalls.symm.trans hs) (by simp)
  | enqueue hs => exact absurd (hcalls.symm.trans hs) (by simp)
  | refuse hs hkey => exact absurd (hcalls.symm.trans hs) (by simp)
  | raise hs hp => exact absurd (hcalls.symm.trans hs) (by simp)
  | retry hs => exact absurd (hcalls.symm.trans hs) (by simp)
  | requeue hs => exact absurd (hcalls.symm.trans hs) (by simp)
  | unsent hs hkey ha => exact absurd (hcalls.symm.trans hs) (by simp)
  | crash hs => exact absurd (hcalls.symm.trans hs) (by simp)

/-- The fleet rests only when it has drained. -/
lemma rest_iff_drained :
    (∀ a t, ordinary a = true → F.step S N s a ≠ some t) ↔ Drained s := by
  constructor
  · intro hrest
    refine ⟨?_, ?_, ?_, ?_⟩
    · cases hs : s.seeds with
      | nil => rfl
      | cons m rest => exact absurd (by simp [step, hs]; rfl) (hrest .seed _ rfl)
    · cases hs : s.pending with
      | nil => rfl
      | cons e rest => exact absurd (by simp [step, hs]; rfl) (hrest (.deliver 0) _ rfl)
    · cases hs : s.uncommitted with
      | nil => rfl
      | cons e rest => exact absurd (by simp [step, hs]; rfl) (hrest (.commit 0) _ rfl)
    · cases hs : s.calls with
      | nil => rfl
      | cons call rest =>
          obtain ⟨a, t, hno, hst⟩ := exists_step_of_call (F := F) (S := S) (N := N) hs
          exact absurd hst (hrest a t hno)
  · exact fun hs a t _ hst => hs.not_stepsTo (stepsTo_of_step hst)

/-- **The fleet comes to rest.**  Whatever the pages answer, and however the workers are
scheduled, raise and are killed: there is no infinite run in which records are handed out again
only finitely often; and from every reachable state the ordinary steps lead to a drained fleet,
which is the only state in which none of them is possible. -/
theorem fleet_drains (F : Fleet) (S : SeenSet σ String) (N : Numerals) (seen : σ)
    (seeds : List FrontierMessage) :
    (¬ ∃ (run : ℕ → FleetState σ) (acts : ℕ → FleetAct) (n : ℕ),
      run 0 = { seeds := seeds, seen := seen } ∧
      (∀ k, F.step S N (run k) (acts k) = some (run (k + 1))) ∧
      ∀ k, n ≤ k → redelivers (acts k) = false) ∧
    ∀ s, (F.machine S N seen seeds).Reachable s →
      ((∀ a t, ordinary a = true → F.step S N s a ≠ some t) ↔ Drained s) ∧
      ∃ t, Relation.ReflTransGen
        (fun s t => ∃ a, ordinary a = true ∧ F.step S N s a = some t) s t ∧ Drained t := by
  constructor
  · rintro ⟨run, acts, n, h0, hrun, hno⟩
    have hstart : (F.machine S N seen seeds).Reachable (run 0) := h0 ▸ Machine.ReachableBy.init
    obtain ⟨k, hk, hredeliver⟩ := (descends F S N seen seeds).frequently hstart hrun n
    rw [hno k hk] at hredeliver
    exact absurd hredeliver (by simp)
  · intro s hs
    have hdescends := (descends F S N seen seeds).mono (¬ ordinary · = true)
      fun a ha hord => by
        rw [redelivers_of_ordinary hord] at ha
        exact absurd ha (by simp)
    obtain ⟨t, hsteps, hrest⟩ := hdescends.exists_rest hs
    have hle : (F.machine S N seen seeds).NextBut (¬ ordinary · = true) ≤
        fun s t => ∃ a, ordinary a = true ∧ F.step S N s a = some t :=
      fun s t ⟨a, ha, hst⟩ => ⟨a, not_not.1 ha, hst⟩
    have hdrained : Drained t := (rest_iff_drained (F := F) (S := S) (N := N)).1
      fun a t' ha hst => hrest t' ⟨a, not_not.2 ha, hst⟩
    exact ⟨rest_iff_drained, t, Relation.ReflTransGen.mono hle _ _ hsteps, hdrained⟩

/-- A worker is killed while it handles the only seed; the fleet drains nevertheless. -/
theorem fleet_drains_killed :
    ∃ s, (({} : Fleet).machine (SeenSet.exact String) noNumerals ∅
        [{ url := "http://a.org/" }]).Reachable s ∧ s.uncommitted.length = 1 ∧
      ∃ t, Relation.ReflTransGen (fun s t => ∃ a, ordinary a = true ∧
        ({} : Fleet).step (SeenSet.exact String) noNumerals s a = some t) s t ∧ Drained t := by
  have h := Machine.reachableBy_of_exec
    (M := ({} : Fleet).machine (SeenSet.exact String) noNumerals ∅ [{ url := "http://a.org/" }])
    (P := fun _ _ => True) [.seed, .deliver 0, .crash 0] rfl
  exact ⟨_, h, rfl, ((fleet_drains {} (SeenSet.exact String) noNumerals ∅ _).2 _ h).2⟩

end Fleet

end WebCrawler
