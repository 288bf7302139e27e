import WebCrawler.Fleet.Loop

/-!
# The retry protocol

A message that fails goes through the retry topic back to the frontier, with one more
attempt each time, and to the dlq when `max_retries` attempts are used up.  The counter
travels in the JSON of the records and is dropped on the way through the pipeline.

`Protocol` says what the records on the topics and the calls under way look like in
every state, redeliveries included: they descend from the root of their lineage, and
their counter is within bounds.  Without redelivery a lineage has a fixed stock of
`max_retries + 1` attempts: the attempts made, and those that its records and calls
still stand for, never exceed it (`potential`).
-/

namespace WebCrawler

open Lib

/-- The message has the URL, the depth and the crawl id of the root of the lineage. -/
def Descends (roots : List FrontierMessage) (lineage : ℕ) (m : FrontierMessage) : Prop :=
  ∃ root, roots[lineage]? = some root ∧ m.url = root.url ∧ m.depth = root.depth ∧
    m.crawlId = root.crawlId

lemma Descends.append {roots : List FrontierMessage} {ℓ : ℕ} {m : FrontierMessage}
    (h : Descends roots ℓ m) (more : List FrontierMessage) : Descends (roots ++ more) ℓ m := by
  obtain ⟨root, hroot, heq⟩ := h
  have hlt : ℓ < roots.length := (List.getElem?_eq_some_iff.1 hroot).1
  exact ⟨root, by rw [List.getElem?_append_left hlt, hroot], heq⟩

/-- A record carries a message of its lineage; on the dlq its attempts are used up, on
the other topics their number is within bounds. -/
def EntryOk (maxRetries : ℤ) (roots : List FrontierMessage) (e : Entry) : Prop :=
  ∃ m : FrontierMessage, e.value = m.toBytes ∧ Descends roots e.lineage m ∧
    0 ≤ m.attempts ∧ m.attempts ≤ maxRetries ∧ (e.topic = .dlq → m.attempts = maxRetries)

/-- A call holds a message of its lineage, with a number of attempts within bounds. -/
def CallOk (maxRetries : ℤ) (roots : List FrontierMessage) (call : Call) : Prop :=
  Descends roots call.lineage call.point.message ∧
    0 ≤ call.point.message.attempts ∧ call.point.message.attempts ≤ maxRetries

lemma EntryOk.append {M : ℤ} {roots : List FrontierMessage} {e : Entry} (h : EntryOk M roots e)
    (more : List FrontierMessage) : EntryOk M (roots ++ more) e := by
  obtain ⟨m, hvalue, hdesc, hrest⟩ := h
  exact ⟨m, hvalue, hdesc.append more, hrest⟩

namespace Fleet

variable {σ : Type} {F : Fleet} {S : SeenSet σ String} {N : Numerals} {s t : FleetState σ}
  {a : FleetAct} {M : ℤ}

/-- The records and the calls of a state follow the protocol. -/
structure Protocol (M : ℤ) (s : FleetState σ) : Prop where
  seeds : ∀ m ∈ s.seeds, m.attempts = 0
  log : ∀ e ∈ s.log, EntryOk M s.roots e
  pending : s.pending ⊆ s.log
  uncommitted : s.uncommitted ⊆ s.log
  calls : ∀ call ∈ s.calls, CallOk M s.roots call

/-- Only the calls have changed. -/
lemma Protocol.of_calls (h : Protocol M s) {seen : σ} {calls : List Call}
    (hcalls : ∀ call ∈ calls, CallOk M s.roots call) :
    Protocol M { s with seen := seen, calls := calls } :=
  ⟨h.seeds, h.log, h.pending, h.uncommitted, hcalls⟩

lemma Protocol.publish (h : Protocol M s) {topic : Topic} {ℓ : ℕ} {m : FrontierMessage}
    (he : EntryOk M s.roots ⟨topic, ℓ, m.toBytes⟩) : Protocol M (s.publish topic ℓ m) := by
  refine ⟨h.seeds, forall_mem_append_singleton h.log he,
    FleetState.pending_publish_subset h.pending topic ℓ m, ?_, h.calls⟩
  exact List.Subset.trans h.uncommitted (List.subset_append_left _ _)

/-- A new URL starts a lineage with no attempt made. -/
lemma Protocol.produce (h : Protocol M s) (hM : 0 ≤ M) {m : FrontierMessage}
    (hm : m.attempts = 0) : Protocol M (s.produce m) := by
  have hroot : Protocol M { s with roots := s.roots ++ [m] } :=
    ⟨h.seeds, fun e he => (h.log e he).append _, h.pending, h.uncommitted,
      fun call hc => ⟨(h.calls call hc).1.append _, (h.calls call hc).2⟩⟩
  refine hroot.publish ⟨m, rfl, ⟨m, by simp, rfl, rfl, rfl⟩, ?_⟩
  refine ⟨hm.ge, hm.le.trans hM, ?_⟩
  intro hdlq
  exact absurd hdlq (by simp)

/-- The message of a pending record. -/
lemma Protocol.message (h : Protocol M s) {e : Entry} (he : e ∈ s.pending) {m : FrontierMessage}
    (hm : FrontierMessage.fromBytes N e.value = .ok m) :
    Descends s.roots e.lineage m ∧ 0 ≤ m.attempts ∧ m.attempts ≤ M := by
  obtain ⟨m', hvalue, hdesc, h0, hM, -⟩ := h.log e (h.pending he)
  rw [hvalue, FrontierMessage.fromBytes_toBytes, Except.ok.injEq] at hm
  exact hm ▸ ⟨hdesc, h0, hM⟩

/-- A record has been handed to a worker. -/
lemma Protocol.take (h : Protocol M s) {pre post : List Entry} {e : Entry}
    (hs : s.pending = pre ++ e :: post) :
    Protocol M { s with pending := pre ++ post, uncommitted := s.uncommitted ++ [e] } := by
  have hsub := hs ▸ h.pending
  refine ⟨h.seeds, h.log, forall_mem_remove hsub, ?_, h.calls⟩
  exact forall_mem_append_singleton h.uncommitted (hsub (by simp))

/-- A failed message goes to the dlq only when its attempts are used up. -/
lemma entryOk_afterFailure {roots : List FrontierMessage} {ℓ : ℕ} {m : FrontierMessage} {now : ℚ}
    (h : CallOk M roots ⟨ℓ, .retrying m⟩) :
    EntryOk M roots ⟨(CrawlWorker.afterFailure M now m).1, ℓ,
      (CrawlWorker.afterFailure M now m).2.toBytes⟩ := by
  obtain ⟨hdesc, h0, hM⟩ := h
  simp only [Point.message] at hdesc h0 hM
  rw [CrawlWorker.afterFailure]
  split_ifs with hge
  · exact ⟨m, rfl, hdesc, h0, hM, fun _ => le_antisymm hM hge⟩
  · refine ⟨_, rfl, hdesc, ?_, ?_, fun hdlq => absurd hdlq (by simp)⟩
    · show (0 : ℤ) ≤ m.attempts + 1
      omega
    · show m.attempts + 1 ≤ M
      omega

/-- Every step keeps the protocol. -/
lemma Protocol.step (h : Protocol F.maxRetries s) (hM : 0 ≤ F.maxRetries)
    (hm : Moves F S N s a t) : Protocol F.maxRetries t := by
  have hcalls := h.calls
  cases hm with
  | @seed m rest hs =>
      have hseeds := h.seeds
      rw [hs] at hseeds
      have h' : Protocol F.maxRetries { s with seeds := rest } :=
        ⟨fun m hm => hseeds m (by simp [hm]), h.log, h.pending, h.uncommitted, h.calls⟩
      exact h'.produce hM (hseeds m (by simp))
  | abort hs => exact ⟨fun m hm => by simp at hm, h.log, h.pending, h.uncommitted, h.calls⟩
  | drop hs => exact h.take hs
  | @wait pre post e m hs hm =>
      have hok : CallOk F.maxRetries s.roots ⟨e.lineage, .requeuing m⟩ :=
        h.message (by simp [hs]) hm
      exact (h.take hs).of_calls (forall_mem_append_singleton hcalls hok)
  | @visit pre post e m hs hm hd =>
      have hok : CallOk F.maxRetries s.roots ⟨e.lineage, .processing m⟩ :=
        h.message (by simp [hs]) hm
      have h' := h.take hs
      exact ⟨h'.seeds, h'.log, h'.pending, h'.uncommitted, forall_mem_append_singleton hcalls hok⟩
  | redeliver he =>
      exact ⟨h.seeds, h.log, forall_mem_append_singleton h.pending (h.uncommitted he),
        h.uncommitted, h.calls⟩
  | commit =>
      exact ⟨h.seeds, h.log, h.pending,
        List.Subset.trans (List.eraseIdx_sublist _ _).subset h.uncommitted, h.calls⟩
  | @expand pre post ℓ m r hs hexp =>
      rw [hs] at hcalls
      exact h.of_calls (forall_mem_replace hcalls (hcalls ⟨ℓ, .processing m⟩ (by simp)))
  | @known pre post ℓ m r l rest hs =>
      rw [hs] at hcalls
      have hok := hcalls ⟨ℓ, .linking m r (l :: rest)⟩ (by simp)
      exact h.of_calls (forall_mem_replace hcalls hok)
  | @fresh pre post ℓ m r l rest hs hnew =>
      rw [hs] at hcalls
      have hok := hcalls ⟨ℓ, .linking m r (l :: rest)⟩ (by simp)
      exact h.of_calls (forall_mem_replace hcalls hok)
  | @enqueue pre post ℓ m r l rest hs =>
      rw [hs] at hcalls
      have hok : CallOk F.maxRetries s.roots ⟨ℓ, .linking m r rest⟩ :=
        hcalls ⟨ℓ, .enqueuing m r l rest⟩ (by simp)
      exact (h.of_calls (forall_mem_replace hcalls hok)).produce hM
        (m := .fromItem (child m.toItem l)) rfl
  | @fail _ pre post ℓ p hs hp =>
      rw [hs] at hcalls
      exact h.of_calls (forall_mem_replace hcalls (hcalls ⟨ℓ, p⟩ (by simp)))
  | @retry pre post ℓ m now hs =>
      rw [hs] at hcalls
      have hok := hcalls ⟨ℓ, .retrying m⟩ (by simp)
      exact (h.of_calls (forall_mem_remove hcalls)).publish (entryOk_afterFailure hok)
  | @requeue pre post ℓ m hs =>
      rw [hs] at hcalls
      obtain ⟨hdesc, h0, hle⟩ := hcalls ⟨ℓ, .requeuing m⟩ (by simp)
      refine (h.of_calls (forall_mem_remove hcalls)).publish ⟨_, rfl, hdesc, h0, hle, ?_⟩
      exact fun hdlq => absurd hdlq (by simp)
  | finish hs =>
      rw [hs] at hcalls
      exact h.of_calls (forall_mem_remove hcalls)

/-! ### The stock of attempts -/

/-- The number of attempts that a record was published with. -/
def attemptsOf (N : Numerals) (e : Entry) : ℤ :=
  match FrontierMessage.fromBytes N e.value with
  | .ok m => m.attempts
  | .error _ => 0

/-- The number of attempts made when a call stands at a point: all of them, the current
one included, unless the message waits for its delay. -/
def spent : Point → ℤ
  | .requeuing m => m.attempts
  | p => p.message.attempts + 1

/-- The attempts of a lineage that a pending record stands for. -/
def entryWeight (N : Numerals) (M : ℤ) (ℓ : ℕ) (e : Entry) : ℤ :=
  if e.lineage = ℓ then M + 1 - attemptsOf N e else 0

/-- The attempts of a lineage that are left after the current one. -/
def callWeight (M : ℤ) (ℓ : ℕ) (call : Call) : ℤ :=
  if call.lineage = ℓ then M + 1 - spent call.point else 0

/-- The attempts of a lineage that were made or may still be made. -/
def potential (N : Numerals) (M : ℤ) (ℓ : ℕ) (s : FleetState σ) : ℤ :=
  s.processed.count ℓ + (s.pending.map (entryWeight N M ℓ)).sum +
    (s.calls.map (callWeight M ℓ)).sum

lemma attemptsOf_toBytes (topic : Topic) (ℓ : ℕ) (m : FrontierMessage) :
    attemptsOf N ⟨topic, ℓ, m.toBytes⟩ = m.attempts := by
  simp [attemptsOf]

lemma spent_of_ne {p : Point} (hp : ∀ m, p ≠ .requeuing m) : spent p = p.message.attempts + 1 := by
  cases p with
  | requeuing m => exact absurd rfl (hp m)
  | processing m => rfl
  | linking m r rest => rfl
  | enqueuing m r l rest => rfl
  | retrying m => rfl

lemma entryWeight_nonneg (h : Protocol M s) {e : Entry} (he : e ∈ s.pending) (ℓ : ℕ) :
    0 ≤ entryWeight N M ℓ e := by
  obtain ⟨m, hvalue, -, -, hM, -⟩ := h.log e (h.pending he)
  have hatt : attemptsOf N e = m.attempts := by simp [attemptsOf, hvalue]
  rw [entryWeight, hatt]
  split_ifs <;> omega

lemma callWeight_nonneg (h : Protocol M s) (call : Call) (hc : call ∈ s.calls) (ℓ : ℕ) :
    0 ≤ callWeight M ℓ call := by
  obtain ⟨-, -, hM⟩ := h.calls call hc
  have hspent : spent call.point ≤ call.point.message.attempts + 1 := by
    cases call.point with
    | requeuing m => exact (lt_add_one _).le
    | processing m => exact le_rfl
    | linking m r rest => exact le_rfl
    | enqueuing m r l rest => exact le_rfl
    | retrying m => exact le_rfl
  rw [callWeight]
  split_ifs <;> omega

/-- The attempts that were made are part of the stock. -/
lemma count_le_potential (h : Protocol M s) (ℓ : ℕ) :
    (s.processed.count ℓ : ℤ) ≤ potential N M ℓ s := by
  have h₁ : 0 ≤ (s.pending.map (entryWeight N M ℓ)).sum := by
    refine List.sum_nonneg ?_
    intro x hx
    obtain ⟨e, he, rfl⟩ := List.mem_map.1 hx
    exact entryWeight_nonneg h he ℓ
  have h₂ : 0 ≤ (s.calls.map (callWeight M ℓ)).sum := by
    refine List.sum_nonneg ?_
    intro x hx
    obtain ⟨call, hc, rfl⟩ := List.mem_map.1 hx
    exact callWeight_nonneg h call hc ℓ
  rw [potential]
  omega

/-- A new URL brings the stock of its lineage. -/
lemma potential_produce {m : FrontierMessage} (hm : m.attempts = 0) (ℓ : ℕ) :
    potential N M ℓ (s.produce m) =
      potential N M ℓ s + if ℓ = s.roots.length then M + 1 else 0 := by
  simp only [potential, FleetState.produce, FleetState.publish, reduceCtorEq, if_false,
    List.map_append, List.map_cons, List.map_nil, List.sum_append, List.sum_singleton, entryWeight,
    attemptsOf_toBytes, hm, sub_zero, @eq_comm _ s.roots.length ℓ]
  ring

/-- Whether a step hands out a record again. -/
def redelivers : FleetAct → Bool
  | .redeliver _ => true
  | _ => false

/-- The step does not hand out a record again. -/
def NoRedelivery (_ : FleetState σ) (a : FleetAct) : Prop := redelivers a = false

instance (s : FleetState σ) (a : FleetAct) : Decidable (NoRedelivery s a) :=
  inferInstanceAs (Decidable (_ = _))

/-- A step that is not a redelivery either starts a lineage or adds nothing to the stocks. -/
lemma potential_step (h : Protocol F.maxRetries s) (hno : NoRedelivery s a)
    (hm : Moves F S N s a t) :
    (t.roots = s.roots ∧ ∀ ℓ, potential N F.maxRetries ℓ t ≤ potential N F.maxRetries ℓ s) ∨
      ∃ m, t.roots = s.roots ++ [m] ∧ ∀ ℓ, potential N F.maxRetries ℓ t =
        potential N F.maxRetries ℓ s + if ℓ = s.roots.length then F.maxRetries + 1 else 0 := by
  cases hm with
  | @seed m rest hs =>
      refine Or.inr ⟨m, rfl, ?_⟩
      intro ℓ
      exact potential_produce (s := { s with seeds := rest }) (h.seeds m (by simp [hs])) ℓ
  | abort hs => exact Or.inl ⟨rfl, fun ℓ => le_rfl⟩
  | @drop pre post e hs =>
      refine Or.inl ⟨rfl, ?_⟩
      intro ℓ
      have := entryWeight_nonneg (N := N) h (e := e) (by simp [hs]) ℓ
      simp only [potential, hs, List.map_append, List.map_cons, List.sum_append, List.sum_cons]
      omega
  | @wait pre post e m hs hm =>
      refine Or.inl ⟨rfl, ?_⟩
      intro ℓ
      simp only [potential, hs, List.map_append, List.map_cons, List.map_nil, List.sum_append,
        List.sum_cons, List.sum_nil, entryWeight, callWeight, spent, attemptsOf, hm]
      omega
  | @visit pre post e m hs hm hd =>
      -- the attempt is counted as made, and the call stands for one less than the record
      refine Or.inl ⟨rfl, ?_⟩
      intro ℓ
      simp only [potential, hs, List.map_append, List.map_cons, List.map_nil, List.sum_append,
        List.sum_cons, List.sum_nil, entryWeight, callWeight, spent, attemptsOf, hm, Point.message,
        List.count_append, List.count_singleton, beq_iff_eq]
      split_ifs <;> push_cast <;> omega
  | redeliver he => exact absurd hno (by simp [NoRedelivery, redelivers])
  | commit => exact Or.inl ⟨rfl, fun ℓ => le_rfl⟩
  | expand hs hexp =>
      refine Or.inl ⟨rfl, fun ℓ => le_of_eq ?_⟩
      simp only [potential, hs, List.map_append, List.map_cons, List.sum_append, List.sum_cons,
        callWeight, spent, Point.message]
  | known hs =>
      refine Or.inl ⟨rfl, fun ℓ => le_of_eq ?_⟩
      simp only [potential, hs, List.map_append, List.map_cons, List.sum_append, List.sum_cons,
        callWeight, spent, Point.message]
  | fresh hs hnew =>
      refine Or.inl ⟨rfl, fun ℓ => le_of_eq ?_⟩
      simp only [potential, hs, List.map_append, List.map_cons, List.sum_append, List.sum_cons,
        callWeight, spent, Point.message]
  | @enqueue pre post ℓ₀ m r l rest hs =>
      refine Or.inr ⟨.fromItem (child m.toItem l), rfl, ?_⟩
      intro ℓ
      rw [potential_produce rfl]
      simp only [potential, hs, List.map_append, List.map_cons, List.sum_append, List.sum_cons,
        callWeight, spent, Point.message]
  | @fail _ pre post ℓ₀ p hs hp =>
      refine Or.inl ⟨rfl, fun ℓ => le_of_eq ?_⟩
      simp only [potential, hs, List.map_append, List.map_cons, List.sum_append, List.sum_cons,
        callWeight, spent_of_ne hp]
      simp only [spent, Point.message]
  | @retry pre post ℓ₀ m now hs =>
      refine Or.inl ⟨rfl, ?_⟩
      intro ℓ
      have := callWeight_nonneg h ⟨ℓ₀, .retrying m⟩ (by simp [hs]) ℓ
      by_cases hge : m.attempts ≥ F.maxRetries
      · -- nobody consumes the dlq, and what the call stood for is given up
        simp only [potential, FleetState.publish, CrawlWorker.afterFailure, if_pos hge, if_true, hs,
          List.map_append, List.map_cons, List.sum_append, List.sum_cons]
        omega
      · -- the new record carries the attempt just made in its counter
        simp only [potential, FleetState.publish, CrawlWorker.afterFailure, if_neg hge,
          reduceCtorEq, if_false, hs, List.map_append, List.map_cons, List.map_nil,
          List.sum_append, List.sum_cons, List.sum_nil, entryWeight, callWeight, spent,
          attemptsOf_toBytes, Point.message]
        omega
  | @requeue pre post ℓ₀ m hs =>
      refine Or.inl ⟨rfl, ?_⟩
      intro ℓ
      simp only [potential, FleetState.publish, reduceCtorEq, if_false, hs, List.map_append,
        List.map_cons, List.map_nil, List.sum_append, List.sum_cons, List.sum_nil, entryWeight,
        callWeight, spent, attemptsOf_toBytes]
      omega
  | @finish _ pre post call hs =>
      refine Or.inl ⟨rfl, ?_⟩
      intro ℓ
      have := callWeight_nonneg h call (by simp [hs]) ℓ
      simp only [potential, hs, List.map_append, List.map_cons, List.sum_append, List.sum_cons]
      omega

/-! ### Every run -/

section Runs

variable {seen : σ} {seeds : List FrontierMessage} (hM : 0 ≤ F.maxRetries)
  (hseeds : ∀ m ∈ seeds, m.attempts = 0)
include hM hseeds

lemma protocol_of_reachable {P : FleetState σ → FleetAct → Prop}
    (h : (F.machine S N seen seeds).ReachableBy P s) : Protocol F.maxRetries s := by
  refine Machine.ReachableBy.inv (I := Protocol F.maxRetries) ?_
    (fun _ _ _ ih _ hst => ih.step hM (moves_of_step hst)) h
  exact ⟨hseeds, by simp [machine], by simp [machine], by simp [machine], by simp [machine]⟩

/-- Without redelivery a lineage never has more than its stock of attempts. -/
lemma potential_le (h : (F.machine S N seen seeds).ReachableBy NoRedelivery s) (ℓ : ℕ) :
    potential N F.maxRetries ℓ s ≤ if ℓ < s.roots.length then F.maxRetries + 1 else 0 := by
  refine Machine.ReachableBy.inv_of (J := Protocol F.maxRetries)
    (I := fun s => potential N F.maxRetries ℓ s ≤
      if ℓ < s.roots.length then F.maxRetries + 1 else 0)
    (fun _ hr => protocol_of_reachable hM hseeds hr) (by simp [machine, potential]) ?_ h
  intro s a t hp _ ih hno hst
  rcases potential_step hp hno (moves_of_step hst) with ⟨hroots, hle⟩ | ⟨m, hroots, heq⟩
  · rw [hroots]
    exact (hle ℓ).trans ih
  · rw [heq ℓ, hroots, List.length_append, List.length_singleton]
    split_ifs at ih ⊢ <;> omega

end Runs

/-- **The retry protocol.**  In every state of every run, redeliveries included, each
record carries a message with the URL, the depth and the crawl id of the root of its
lineage; its number of attempts is between zero and `max_retries`, and on the dlq it is
`max_retries`.  Without redelivery a message is processed at most `max_retries + 1`
times. -/
theorem retry_protocol (seen : σ) (seeds : List FrontierMessage) (hM : 0 ≤ F.maxRetries)
    (hseeds : ∀ m ∈ seeds, m.attempts = 0) :
    (∀ s, (F.machine S N seen seeds).Reachable s → ∀ e ∈ s.log, ∃ m root,
      FrontierMessage.fromBytes N e.value = .ok m ∧ s.roots[e.lineage]? = some root ∧
        m.url = root.url ∧ m.depth = root.depth ∧ m.crawlId = root.crawlId ∧
        (e.topic ≠ .dlq → 0 ≤ m.attempts ∧ m.attempts ≤ F.maxRetries) ∧
        (e.topic = .dlq → m.attempts = F.maxRetries)) ∧
      ∀ s, (F.machine S N seen seeds).ReachableBy NoRedelivery s →
        ∀ ℓ, (s.processed.count ℓ : ℤ) ≤ F.maxRetries + 1 := by
  constructor
  · intro s h e he
    obtain ⟨m, hvalue, ⟨root, hroot, hurl, hdepth, hcrawl⟩, h0, hle, hdlq⟩ :=
      (protocol_of_reachable hM hseeds h).log e he
    refine ⟨m, root, ?_, hroot, hurl, hdepth, hcrawl, fun _ => ⟨h0, hle⟩, hdlq⟩
    rw [hvalue, FrontierMessage.fromBytes_toBytes]
  · intro s h ℓ
    have hcount := count_le_potential (N := N) (protocol_of_reachable hM hseeds h) ℓ
    have hstock := potential_le hM hseeds h ℓ
    split_ifs at hstock <;> omega

/-- A message that fails twice with one retry goes through all three topics. -/
theorem retry_protocol_dlq :
    ∃ s, (({ maxRetries := 1 } : Fleet).machine (SeenSet.exact String) noNumerals ∅
        [{ url := "http://a.org/" }]).ReachableBy NoRedelivery s ∧
      s.log.map (·.topic) = [.frontier, .retry, .frontier, .dlq] ∧
      (∀ e ∈ s.log, e.topic = .dlq →
        ∃ m, FrontierMessage.fromBytes noNumerals e.value = .ok m ∧ m.attempts = 1) ∧
      s.processed = [0, 0] ∧ (s.processed.count 0 : ℤ) ≤ 1 + 1 := by
  have h := Machine.reachableBy_of_exec
    (M := ({ maxRetries := 1 } : Fleet).machine (SeenSet.exact String) noNumerals ∅
      [{ url := "http://a.org/" }])
    (P := NoRedelivery)
    [.seed, .deliver 0, .process 0 (.error { what := "TimeoutError" }), .retry 0 0,
      .deliver 0, .requeue 0, .deliver 0, .process 0 (.error { what := "TimeoutError" }),
      .retry 0 5] rfl
  have hprotocol := retry_protocol (F := { maxRetries := 1 }) (S := SeenSet.exact String)
    (N := noNumerals) ∅ [{ url := "http://a.org/" }] (by decide) (by simp)
  refine ⟨_, h, rfl, ?_, rfl, hprotocol.2 _ h 0⟩
  intro e he hdlq
  obtain ⟨m, root, hm, -, -, -, -, -, hatt⟩ := hprotocol.1 _ h.reachable e he
  exact ⟨m, hm, hatt hdlq⟩

end Fleet

end WebCrawler
