import WebCrawler.Fleet.RetryProtocol

/-!
# The steps of the fleet, one by one

`Moves` is what the invariants about records and attempts need of a step: it leaves open which
step makes a call fail or come to an end.  Here every step is told apart, with the answer of the
seen-set and the reason why a record is dropped, for the results that depend on it: those about
the end of a run and those about what a run has covered.
-/

namespace WebCrawler

open Lib

/-- The call is in the loop over the links of a page. -/
def Point.InLoop : Point → Prop
  | .linking _ _ _ => True
  | .enqueuing _ _ _ _ => True
  | _ => False

namespace Fleet

variable {σ : Type}

/-- What is left of a call when `process_message` has returned. -/
def concluded (ℓ : ℕ) (m : FrontierMessage) (r : ProcessResult) : List Call :=
  if r.skipped = some .fetchError then [⟨ℓ, .retrying m⟩] else []

/-- The steps, each with its action. -/
inductive StepsTo (F : Fleet) (S : SeenSet σ String) (N : Numerals) (s : FleetState σ) :
    FleetAct → FleetState σ → Prop
  /-- A seed is published. -/
  | seed {m : FrontierMessage} {rest : List FrontierMessage} (hs : s.seeds = m :: rest)
      (hkey : F.hasKey m.url = true) : StepsTo F S N s .seed ({ s with seeds := rest }.produce m)
  /-- A seed cannot be published, and the seeding ends. -/
  | abort {m : FrontierMessage} {rest : List FrontierMessage} (hs : s.seeds = m :: rest)
      (hkey : F.hasKey m.url = false) : StepsTo F S N s .seed { s with seeds := [] }
  /-- A record is handed to a worker that cannot read it, or is too deep. -/
  | drop {pre post : List Entry} {e : Entry} (hs : s.pending = pre ++ e :: post)
      (hdrop : ∀ m, FrontierMessage.fromBytes N e.value = .ok m → F.maxDepth < m.depth) :
      StepsTo F S N s (.deliver pre.length)
        { s with pending := pre ++ post, uncommitted := s.uncommitted ++ [e] }
  /-- A record of the retry topic is handed to a worker. -/
  | wait {pre post : List Entry} {e : Entry} {m : FrontierMessage}
      (hs : s.pending = pre ++ e :: post) (hm : FrontierMessage.fromBytes N e.value = .ok m)
      (htopic : e.topic = .retry) :
      StepsTo F S N s (.deliver pre.length)
        { s with
          pending := pre ++ post
          uncommitted := s.uncommitted ++ [e]
          calls := s.calls ++ [⟨e.lineage, .requeuing m⟩] }
  /-- A record of another topic is handed to a worker. -/
  | visit {pre post : List Entry} {e : Entry} {m : FrontierMessage}
      (hs : s.pending = pre ++ e :: post) (hm : FrontierMessage.fromBytes N e.value = .ok m)
      (htopic : e.topic ≠ .retry) (hd : m.depth ≤ F.maxDepth) :
      StepsTo F S N s (.deliver pre.length)
        { s with
          pending := pre ++ post
          uncommitted := s.uncommitted ++ [e]
          calls := s.calls ++ [⟨e.lineage, .processing m⟩]
          processed := s.processed ++ [e.lineage] }
  /-- A record is handed out again. -/
  | redeliver {k : ℕ} {e : Entry} (he : e ∈ s.uncommitted) :
      StepsTo F S N s (.redeliver k) { s with pending := s.pending ++ [e] }
  /-- An offset is committed. -/
  | commit {pre post : List Entry} {e : Entry} (hs : s.uncommitted = pre ++ e :: post) :
      StepsTo F S N s (.commit pre.length) { s with uncommitted := pre ++ post }
  /-- `pipeline.process` raises. -/
  | failed {pre post : List Call} {ℓ : ℕ} {m : FrontierMessage} {e : PyError}
      (hs : s.calls = pre ++ ⟨ℓ, .processing m⟩ :: post) :
      StepsTo F S N s (.process pre.length (.error e))
        { s with calls := pre ++ ⟨ℓ, .retrying m⟩ :: post }
  /-- The links of a page are followed. -/
  | expand {pre post : List Call} {ℓ : ℕ} {m : FrontierMessage} {r : ProcessResult}
      (hs : s.calls = pre ++ ⟨ℓ, .processing m⟩ :: post)
      (hexp : r.expands m.toItem F.maxDepth = true) :
      StepsTo F S N s (.process pre.length (.ok r))
        { s with calls := pre ++ ⟨ℓ, .linking m r r.links⟩ :: post }
  /-- The links of a page are not followed. -/
  | settle {pre post : List Call} {ℓ : ℕ} {m : FrontierMessage} {r : ProcessResult}
      (hs : s.calls = pre ++ ⟨ℓ, .processing m⟩ :: post)
      (hexp : r.expands m.toItem F.maxDepth = false) :
      StepsTo F S N s (.process pre.length (.ok r))
        { s with calls := pre ++ concluded ℓ m r ++ post }
  /-- The seen-set knows a link. -/
  | known {pre post : List Call} {ℓ : ℕ} {m : FrontierMessage} {r : ProcessResult} {l : Link}
      {rest : List Link} (hs : s.calls = pre ++ ⟨ℓ, .linking m r (l :: rest)⟩ :: post)
      (hold : (S.checkAndAdd s.seen l.url).1 = false) :
      StepsTo F S N s (.check pre.length)
        { s with
          seen := (S.checkAndAdd s.seen l.url).2
          calls := pre ++ ⟨ℓ, .linking m r rest⟩ :: post }
  /-- A link is new to the seen-set. -/
  | fresh {pre post : List Call} {ℓ : ℕ} {m : FrontierMessage} {r : ProcessResult} {l : Link}
      {rest : List Link} (hs : s.calls = pre ++ ⟨ℓ, .linking m r (l :: rest)⟩ :: post)
      (hnew : (S.checkAndAdd s.seen l.url).1 = true) :
      StepsTo F S N s (.check pre.length)
        { s with
          seen := (S.checkAndAdd s.seen l.url).2
          calls := pre ++ ⟨ℓ, .enqueuing m r l rest⟩ :: post }
  /-- The loop over the links is left. -/
  | leave {pre post : List Call} {ℓ : ℕ} {m : FrontierMessage} {r : ProcessResult}
      (hs : s.calls = pre ++ ⟨ℓ, .linking m r []⟩ :: post) :
      StepsTo F S N s (.check pre.length) { s with calls := pre ++ concluded ℓ m r ++ post }
  /-- A new link is enqueued. -/
  | enqueue {pre post : List Call} {ℓ : ℕ} {m : FrontierMessage} {r : ProcessResult} {l : Link}
      {rest : List Link} (hs : s.calls = pre ++ ⟨ℓ, .enqueuing m r l rest⟩ :: post)
      (hkey : F.hasKey l.url = true) :
      StepsTo F S N s (.enqueue pre.length)
        (FleetState.produce { s with calls := pre ++ ⟨ℓ, .linking m r rest⟩ :: post }
          (.fromItem (child m.toItem l)))
  /-- There is no key for a new link. -/
  | refuse {pre post : List Call} {ℓ : ℕ} {m : FrontierMessage} {r : ProcessResult} {l : Link}
      {rest : List Link} (hs : s.calls = pre ++ ⟨ℓ, .enqueuing m r l rest⟩ :: post)
      (hkey : F.hasKey l.url = false) :
      StepsTo F S N s (.enqueue pre.length)
        { s with calls := pre ++ ⟨ℓ, .retrying m⟩ :: post }
  /-- An exception is raised in the loop over the links. -/
  | raise {pre post : List Call} {ℓ : ℕ} {p : Point}
      (hs : s.calls = pre ++ ⟨ℓ, p⟩ :: post) (hp : p.InLoop) :
      StepsTo F S N s (.raise pre.length)
        { s with calls := pre ++ ⟨ℓ, .retrying p.message⟩ :: post }
  /-- A message is sent to the retry topic or to the dlq. -/
  | retry {pre post : List Call} {ℓ : ℕ} {m : FrontierMessage} {now : ℚ}
      (hs : s.calls = pre ++ ⟨ℓ, .retrying m⟩ :: post) (hkey : F.hasKey m.url = true) :
      StepsTo F S N s (.retry pre.length now)
        ({ s with calls := pre ++ post }.publish (CrawlWorker.afterFailure F.maxRetries now m).1 ℓ
          (CrawlWorker.afterFailure F.maxRetries now m).2)
  /-- A message of the retry topic goes back to the frontier. -/
  | requeue {pre post : List Call} {ℓ : ℕ} {m : FrontierMessage}
      (hs : s.calls = pre ++ ⟨ℓ, .requeuing m⟩ :: post) (hkey : F.hasKey m.url = true) :
      StepsTo F S N s (.requeue pre.length)
        ({ s with calls := pre ++ post }.publish .frontier ℓ { m with notBefore := 0 })
  /-- There is no key for the message of a call that is about to send it. -/
  | unsent {a : FleetAct} {pre post : List Call} {call : Call}
      (hs : s.calls = pre ++ call :: post) (hkey : F.hasKey call.point.message.url = false)
      (ha : (∃ now, a = .retry pre.length now) ∨ a = .requeue pre.length) :
      StepsTo F S N s a { s with calls := pre ++ post }
  /-- A call comes to an end before its work is done. -/
  | crash {pre post : List Call} {call : Call} (hs : s.calls = pre ++ call :: post) :
      StepsTo F S N s (.crash pre.length) { s with calls := pre ++ post }

variable {F : Fleet} {S : SeenSet σ String} {N : Numerals} {s t : FleetState σ} {a : FleetAct}

lemma conclude_eq {pre post : List Call} {ℓ : ℕ} {p : Point} (m : FrontierMessage)
    (r : ProcessResult) (hs : s.calls = pre ++ ⟨ℓ, p⟩ :: post) :
    conclude s pre.length ℓ m r = { s with calls := pre ++ concluded ℓ m r ++ post } := by
  rw [conclude, concluded]
  split_ifs
  · simp [FleetState.setCall, hs]
  · simp [FleetState.endCall, hs]

/-- What holds of all calls still holds when `process_message` has returned. -/
lemma forall_mem_concluded {P : Call → Prop} {pre post : List Call} {call : Call} {ℓ : ℕ}
    {m : FrontierMessage} {r : ProcessResult} (h : ∀ c ∈ pre ++ call :: post, P c)
    (hretrying : P ⟨ℓ, .retrying m⟩) : ∀ c ∈ pre ++ concluded ℓ m r ++ post, P c := by
  rw [concluded]
  split_ifs
  · rw [List.append_assoc]
    exact forall_mem_replace h hretrying
  · rw [List.append_nil]
    exact forall_mem_remove h

lemma stepsTo_deliver {k : ℕ} (h : F.step S N s (.deliver k) = some t) :
    StepsTo F S N s (.deliver k) t := by
  obtain ⟨e, he, rfl⟩ := Option.map_eq_some_iff.1 h
  obtain ⟨pre, post, hs, rfl⟩ := exists_split_of_getElem? he
  rw [begin]
  cases hm : FrontierMessage.fromBytes N e.value with
  | error err =>
      simpa [FleetState.take, hs] using
        StepsTo.drop (F := F) (S := S) (N := N) hs (by simp [hm])
  | ok m =>
      simp only
      split_ifs with htopic hd
      · simpa [FleetState.take, hs] using StepsTo.wait (F := F) (S := S) hs hm htopic
      · simpa [FleetState.take, hs] using
          StepsTo.drop (F := F) (S := S) (N := N) hs (by simpa [hm] using hd)
      · simpa [FleetState.take, hs] using
          StepsTo.visit (S := S) hs hm htopic (not_lt.1 hd)

lemma stepsTo_process {i : ℕ} {out : Except PyError ProcessResult}
    (h : F.step S N s (.process i out) = some t) : StepsTo F S N s (.process i out) t := by
  simp only [step] at h
  split at h
  case h_2 => simp at h
  case h_1 ℓ m hi =>
    obtain ⟨pre, post, hs, rfl⟩ := exists_split_of_getElem? hi
    cases out with
    | error e =>
        obtain rfl := Option.some.inj h
        simpa [FleetState.setCall, hs] using
          StepsTo.failed (F := F) (S := S) (N := N) (e := e) hs
    | ok r =>
        by_cases hexp : r.expands m.toItem F.maxDepth = true
        · simp only [if_pos hexp] at h
          obtain rfl := Option.some.inj h
          simpa [FleetState.setCall, hs] using StepsTo.expand (S := S) (N := N) hs hexp
        · simp only [if_neg hexp] at h
          obtain rfl := Option.some.inj h
          rw [conclude_eq m r hs]
          exact .settle hs (Bool.eq_false_iff.2 hexp)

lemma stepsTo_check {i : ℕ} (h : F.step S N s (.check i) = some t) :
    StepsTo F S N s (.check i) t := by
  simp only [step] at h
  split at h
  case h_3 => simp at h
  case h_1 ℓ m r hi =>
    obtain ⟨pre, post, hs, rfl⟩ := exists_split_of_getElem? hi
    obtain rfl := Option.some.inj h
    rw [conclude_eq m r hs]
    exact .leave hs
  case h_2 ℓ m r l rest hi =>
    obtain ⟨pre, post, hs, rfl⟩ := exists_split_of_getElem? hi
    obtain rfl := Option.some.inj h
    by_cases hnew : (S.checkAndAdd s.seen l.url).1 = true
    · simpa [FleetState.setCall, hs, hnew] using StepsTo.fresh (F := F) (N := N) hs hnew
    · simpa [FleetState.setCall, hs, hnew] using
        StepsTo.known (F := F) (S := S) (N := N) hs (Bool.eq_false_iff.2 hnew)

lemma stepsTo_raise {i : ℕ} (h : F.step S N s (.raise i) = some t) :
    StepsTo F S N s (.raise i) t := by
  simp only [step] at h
  split at h
  case h_3 => simp at h
  case h_1 ℓ m r rest hi =>
    obtain ⟨pre, post, hs, rfl⟩ := exists_split_of_getElem? hi
    obtain rfl := Option.some.inj h
    simpa [FleetState.setCall, hs, Point.message] using
      StepsTo.raise (F := F) (S := S) (N := N) hs trivial
  case h_2 ℓ m r l rest hi =>
    obtain ⟨pre, post, hs, rfl⟩ := exists_split_of_getElem? hi
    obtain rfl := Option.some.inj h
    simpa [FleetState.setCall, hs, Point.message] using
      StepsTo.raise (F := F) (S := S) (N := N) hs trivial

/-- The steps that publish a record, unless there is no key for it. -/
lemma stepsTo_publish (h : F.step S N s a = some t)
    (ha : (∃ i, a = .enqueue i) ∨ (∃ i now, a = .retry i now) ∨ ∃ i, a = .requeue i) :
    StepsTo F S N s a t := by
  rcases ha with ⟨i, rfl⟩ | ⟨i, now, rfl⟩ | ⟨i, rfl⟩
  · simp only [step] at h
    split at h
    case h_2 => simp at h
    case h_1 ℓ m r l rest hi =>
      obtain ⟨pre, post, hs, rfl⟩ := exists_split_of_getElem? hi
      obtain rfl := Option.some.inj h
      split_ifs with hkey
      · simpa [FleetState.setCall, FleetState.produce, FleetState.publish, hs] using
          StepsTo.enqueue (S := S) (N := N) hs hkey
      · simpa [FleetState.setCall, hs] using
          StepsTo.refuse (S := S) (N := N) hs (Bool.eq_false_iff.2 hkey)
  · simp only [step] at h
    split at h
    case h_2 => simp at h
    case h_1 ℓ m hi =>
      obtain ⟨pre, post, hs, rfl⟩ := exists_split_of_getElem? hi
      obtain rfl := Option.some.inj h
      split_ifs with hkey
      · have hm : StepsTo F S N s (.retry pre.length now) _ := .retry hs hkey
        simpa [FleetState.endCall, FleetState.publish, hs] using hm
      · simpa [FleetState.endCall, hs] using StepsTo.unsent (S := S) (N := N)
          hs (Bool.eq_false_iff.2 hkey) (Or.inl ⟨now, rfl⟩)
  · simp only [step] at h
    split at h
    case h_2 => simp at h
    case h_1 ℓ m hi =>
      obtain ⟨pre, post, hs, rfl⟩ := exists_split_of_getElem? hi
      obtain rfl := Option.some.inj h
      split_ifs with hkey
      · simpa [FleetState.endCall, FleetState.publish, hs] using
          StepsTo.requeue (S := S) (N := N) hs hkey
      · simpa [FleetState.endCall, hs] using StepsTo.unsent (S := S) (N := N)
          hs (Bool.eq_false_iff.2 hkey) (Or.inr rfl)

/-- **Inversion of a step**, with its action. -/
theorem stepsTo_of_step (h : F.step S N s a = some t) : StepsTo F S N s a t := by
  cases a with
  | seed =>
      simp only [step] at h
      split at h
      case h_1 => simp at h
      case h_2 m rest hs =>
        obtain rfl := Option.some.inj h
        split_ifs with hkey
        · exact .seed hs hkey
        · exact .abort hs (Bool.eq_false_iff.2 hkey)
  | deliver k => exact stepsTo_deliver h
  | redeliver k =>
      obtain ⟨e, he, rfl⟩ := Option.map_eq_some_iff.1 h
      exact .redeliver (List.mem_of_getElem? he)
  | commit k =>
      obtain ⟨e, he, rfl⟩ := Option.map_eq_some_iff.1 h
      obtain ⟨pre, post, hs, rfl⟩ := exists_split_of_getElem? he
      simpa [hs] using StepsTo.commit (F := F) (S := S) (N := N) hs
  | process i out => exact stepsTo_process h
  | check i => exact stepsTo_check h
  | enqueue i => exact stepsTo_publish h (Or.inl ⟨i, rfl⟩)
  | raise i => exact stepsTo_raise h
  | retry i now => exact stepsTo_publish h (Or.inr (Or.inl ⟨i, now, rfl⟩))
  | requeue i => exact stepsTo_publish h (Or.inr (Or.inr ⟨i, rfl⟩))
  | crash i =>
      obtain ⟨call, hi, rfl⟩ := Option.map_eq_some_iff.1 h
      obtain ⟨pre, post, hs, rfl⟩ := exists_split_of_getElem? hi
      simpa [FleetState.endCall, hs] using StepsTo.crash (F := F) (S := S) (N := N) hs

end Fleet

end WebCrawler
