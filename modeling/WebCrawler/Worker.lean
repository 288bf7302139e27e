import WebCrawler.Frontier.Messages
import WebCrawler.Pipeline.Distributed
import WebCrawler.Pipeline.Pipeline

/-!
# The distributed worker

`CrawlWorker._handle` and `_schedule_retry` of `crawler/worker.py`, on top of the sends
of `KafkaFrontier` in `crawler/frontier/kafka_frontier.py`.  A record of the frontier
topic goes through `process_message`; if that raises or ends in a fetch error, the
message goes to the retry topic with one more attempt, or to the dlq when no attempt is
left.  A record of the retry topic goes back to the frontier after a delay.  The key of a
record is the registered domain of its URL; without one nothing is sent.

The broker, the seen-set and the sleeping are arbitrary programs on the network side.
The last two fields of a state are history variables: they record what was done and
are never read.  What becomes of a message is the subject of
`handle_conserves_iff`: it is dropped exactly when the circuit of its host is open.
-/

namespace WebCrawler

open Lib

/-- The topics. -/
inductive Topic
  | frontier
  | retry
  | dlq
deriving DecidableEq, Repr

/-- A record: its topic, its key and its bytes. -/
structure Published where
  topic : Topic
  key : String
  value : Wire
deriving DecidableEq

/-- A worker with its collaborators and settings. -/
structure CrawlWorker (ν ω : Type) where
  pipeline : Pipeline ν ω
  numerals : Numerals
  maxDepth : ℤ := 3
  maxRetries : ℤ := 3
  /-- `producer.send_and_wait`. -/
  sendAndWait : Published → EStateM PyError ν Unit
  /-- `seen.check_and_add`. -/
  checkAndAdd : String → EStateM PyError ν Bool
  /-- `asyncio.sleep`. -/
  sleep : ℚ → EStateM PyError ν Unit

/-- The state of a worker. -/
structure WorkerState (ν ω : Type) where
  pipe : PipelineState ν ω
  /-- The records that the broker has acknowledged. -/
  published : List Published := []
  /-- The results that `pipeline.process` has returned. -/
  results : List ProcessResult := []

/-- The readings of the clocks during one call of `_handle`. -/
structure Clock where
  pipeline : Readings
  /-- `time.time()` when a record of the retry topic arrives. -/
  arrival : ℚ
  /-- `time.time()` in `_schedule_retry`. -/
  failure : ℚ

namespace CrawlWorker

variable {ν ω : Type} (W : CrawlWorker ν ω)

/-- A program of the pipeline. -/
def inPipe {α : Type} (x : EStateM PyError (PipelineState ν ω) α) :
    EStateM PyError (WorkerState ν ω) α :=
  zoom WorkerState.pipe (fun p s => { s with pipe := p }) x

/-- The record that carries a message. -/
def record (topic : Topic) (key : String) (m : FrontierMessage) : Published where
  topic := topic
  key := key
  value := m.toBytes

/-- Sends a message to a topic: `add_message`, `send_retry` and `send_dlq`. -/
def publish (topic : Topic) (m : FrontierMessage) : EStateM PyError (WorkerState ν ω) Unit := do
  let domain ← ofExcept (W.pipeline.urls.registeredDomain m.url)
  inPipe (Pipeline.onNet (W.sendAndWait (record topic domain m)))
  modify fun s => { s with published := s.published ++ [record topic domain m] }

/-- `frontier.add`. -/
def add (item : FrontierItem) : EStateM PyError (WorkerState ν ω) Unit :=
  W.publish .frontier (.fromItem item)

/-- `pipeline.process`. -/
def process (c : Readings) (item : FrontierItem) :
    EStateM PyError (WorkerState ν ω) ProcessResult := do
  let r ← inPipe (W.pipeline.process c item)
  modify fun s => { s with results := s.results ++ [r] }
  pure r

/-- Where a message goes after a failure, and as what. -/
def afterFailure (maxRetries : ℤ) (now : ℚ) (m : FrontierMessage) : Topic × FrontierMessage :=
  if m.attempts ≥ maxRetries then (.dlq, m)
  else
    (.retry, { m with
      attempts := m.attempts + 1
      notBefore := now + min (2 ^ (m.attempts + 1)) 30 })

/-- `_schedule_retry`. -/
def scheduleRetry (now : ℚ) (m : FrontierMessage) : EStateM PyError (WorkerState ν ω) Unit :=
  W.publish (afterFailure W.maxRetries now m).1 (afterFailure W.maxRetries now m).2

/-- The branch for a record of the retry topic. -/
def handleRetry (c : Clock) (m : FrontierMessage) : EStateM PyError (WorkerState ν ω) Unit := do
  let delay := m.notBefore - c.arrival
  inPipe (Pipeline.onNet (if delay > 0 then W.sleep (min delay 5) else pure ()))
  W.publish .frontier { m with notBefore := 0 }

/-- The branch for a record of the frontier topic. -/
def handleFrontier (c : Clock) (m : FrontierMessage) : EStateM PyError (WorkerState ν ω) Unit := do
  let x ← attempt (processMessage (W.process c.pipeline) W.add
    (fun url => inPipe (Pipeline.onNet (W.checkAndAdd url))) m.toItem W.maxDepth)
  match x with
  | .error _ => W.scheduleRetry c.failure m
  | .ok r => if r.skipped = some .fetchError then W.scheduleRetry c.failure m else pure ()

/-- `_handle`. -/
def handle (c : Clock) (topic : Topic) (value : Wire) : EStateM PyError (WorkerState ν ω) Unit :=
  match FrontierMessage.fromBytes W.numerals value with
  | .error _ => pure ()
  | .ok m =>
      if topic = .retry then W.handleRetry c m
      else if m.depth > W.maxDepth then pure ()
      else W.handleFrontier c m

/-! ### What a call of `_handle` does with its message -/

variable {W} {c : Clock} {m : FrontierMessage} {s s' : WorkerState ν ω}

/-- The records that were acknowledged between two states. -/
def Sent (s s' : WorkerState ν ω) (p : Published) : Prop :=
  ∃ new, s'.published = s.published ++ new ∧ p ∈ new

/-- The message was not lost: its page was stored or has not changed, or the URL was
refused for good, or the message was sent, under the domain of its URL, to the retry topic
with one more attempt, or to the dlq. -/
def Conserved (W : CrawlWorker ν ω) (m : FrontierMessage) (s s' : WorkerState ν ω) : Prop :=
  (∃ r, s'.results = s.results ++ [r] ∧
      (r.stored = true ∨ r.skipped = some .notModified ∨
        r.skipped = some .robots ∨ r.skipped = some .budgetExhausted)) ∨
    ∃ domain, W.pipeline.urls.registeredDomain m.url = .ok domain ∧
      ((∃ t, Sent s s'
          (record .retry domain { m with attempts := m.attempts + 1, notBefore := t })) ∨
        Sent s s' (record .dlq domain m))

/-- A message that has failed keeps its URL. -/
lemma url_afterFailure {maxRetries : ℤ} {now : ℚ} :
    (afterFailure maxRetries now m).2.url = m.url := by
  rw [afterFailure]
  split_ifs
  · rfl
  · rfl

lemma publish_eq_ok {topic : Topic} {u : Unit} (h : (W.publish topic m).run s = .ok u s') :
    ∃ domain, W.pipeline.urls.registeredDomain m.url = .ok domain ∧
      s'.published = s.published ++ [record topic domain m] ∧ s'.results = s.results := by
  obtain ⟨domain, hdomain, h⟩ := run_ofExcept_bind_eq_ok.1 h
  obtain ⟨v, t, hsend, hnote⟩ := run_bind_eq_ok.1 h
  obtain ⟨p, -, rfl⟩ := run_zoom_eq_ok.1 hsend
  obtain rfl := run_modify_eq_ok.1 hnote
  exact ⟨domain, hdomain, rfl, rfl⟩

lemma process_eq_ok {item : FrontierItem} {readings : Readings} {r : ProcessResult}
    (h : (W.process readings item).run s = .ok r s') :
    (∃ p, (W.pipeline.process readings item).run s.pipe = .ok r p) ∧
      s'.published = s.published ∧ s'.results = s.results ++ [r] := by
  obtain ⟨r', t, hrun, h₁⟩ := run_bind_eq_ok.1 h
  obtain ⟨p, hp, rfl⟩ := run_zoom_eq_ok.1 hrun
  obtain ⟨v, t, hnote, h₂⟩ := run_bind_eq_ok.1 h₁
  obtain rfl := run_modify_eq_ok.1 hnote
  obtain ⟨rfl, rfl⟩ := run_pure_eq_ok.1 h₂
  exact ⟨⟨p, hp⟩, rfl, rfl⟩

/-- Publishing adds to what was published before. -/
lemma preserves_publish {base : List Published} {topic : Topic} :
    Preserves (fun t : WorkerState ν ω => base <+: t.published) (W.publish topic m) := by
  refine Preserves.bind (preserves_ofExcept _) ?_
  intro _ domain _ _
  refine Preserves.bind ?_ fun _ _ _ _ => preserves_modify ?_
  · exact preserves_zoom _ fun _ _ h => h
  · intro t ht
    exact ht.trans (List.prefix_append _ _)

/-- Publishing leaves the results alone. -/
lemma preserves_publish_results {rs : List ProcessResult} {topic : Topic} :
    Preserves (fun t : WorkerState ν ω => t.results = rs) (W.publish topic m) := by
  refine Preserves.bind (preserves_ofExcept _) ?_
  intro _ domain _ _
  refine Preserves.bind ?_ fun _ _ _ _ => preserves_modify fun _ ht => ht
  exact preserves_zoom _ fun _ _ h => h

section OfferLinks

variable {I : WorkerState ν ω → Prop} {item : FrontierItem} {maxDepth : ℤ} {r : ProcessResult}

/-- What publishing keeps and does not concern the pipeline, the loop over the links
keeps. -/
lemma preserves_offerLinks (hpipe : ∀ p t, I t → I { t with pipe := p })
    (hpublish : ∀ m, Preserves I (W.publish .frontier m)) :
    Preserves I (offerLinks W.add (fun url => inPipe (Pipeline.onNet (W.checkAndAdd url)))
      item maxDepth r) := by
  rw [offerLinks]
  split_ifs with hexp
  · refine Preserves.forM ?_
    intro link _
    refine (preserves_zoom _ hpipe).bind ?_
    intro _ isNew _ _
    cases isNew with
    | true => exact hpublish _
    | false => exact preserves_pure _
  · exact preserves_pure _

end OfferLinks

/-- `process_message` adds to what was published before, whether it raises or not. -/
lemma preserves_processMessage {base : List Published} {readings : Readings} {item : FrontierItem} :
    Preserves (fun t : WorkerState ν ω => base <+: t.published)
      (processMessage (W.process readings) W.add
        (fun url => inPipe (Pipeline.onNet (W.checkAndAdd url))) item W.maxDepth) := by
  have hprocess : Preserves (fun t : WorkerState ν ω => base <+: t.published)
      (W.process readings item) := by
    refine Preserves.bind (preserves_zoom _ fun _ _ h => h) ?_
    intro _ _ _ _
    exact Preserves.bind (preserves_modify fun _ h => h) fun _ _ _ _ => preserves_pure _
  refine hprocess.bind ?_
  intro _ r _ _
  exact (preserves_offerLinks (fun _ _ h => h) fun m => preserves_publish).bind
    fun _ _ _ _ => preserves_pure _

/-- The result of `process_message` is that of the pipeline, and it is noted. -/
lemma processMessage_eq_ok {readings : Readings} {item : FrontierItem} {r : ProcessResult}
    (h : (processMessage (W.process readings) W.add
      (fun url => inPipe (Pipeline.onNet (W.checkAndAdd url))) item W.maxDepth).run s = .ok r s') :
    (∃ p, (W.pipeline.process readings item).run s.pipe = .ok r p) ∧
      s'.results = s.results ++ [r] := by
  obtain ⟨r', t, hrun, h₁⟩ := run_bind_eq_ok.1 h
  obtain ⟨u, t', hlinks, h₂⟩ := run_bind_eq_ok.1 h₁
  obtain ⟨rfl, rfl⟩ := run_pure_eq_ok.1 h₂
  obtain ⟨hp, -, hresults⟩ := process_eq_ok hrun
  have hkeep : Preserves (fun t : WorkerState ν ω => t.results = s.results ++ [r'])
      (offerLinks W.add (fun url => inPipe (Pipeline.onNet (W.checkAndAdd url)))
        item W.maxDepth r') :=
    preserves_offerLinks (fun _ _ h => h) fun m => preserves_publish_results
  exact ⟨hp, (hkeep t hresults).1 u t' hlinks⟩

/-- A failure sends the message to the retry topic or to the dlq. -/
lemma conserved_of_scheduleRetry {t : WorkerState ν ω} {now : ℚ} {u : Unit}
    (hgrown : s.published <+: t.published) (h : (W.scheduleRetry now m).run t = .ok u s') :
    Conserved W m s s' := by
  obtain ⟨new, hnew⟩ := hgrown
  obtain ⟨domain, hdomain, hpublished, -⟩ := publish_eq_ok h
  have hsent : Sent s s' (record (afterFailure W.maxRetries now m).1 domain
      (afterFailure W.maxRetries now m).2) := by
    refine ⟨new ++ [_], ?_, List.mem_append_right _ (List.mem_singleton.2 rfl)⟩
    rw [hpublished, ← hnew, List.append_assoc]
  rw [afterFailure] at hdomain hsent
  split_ifs at hdomain hsent
  · exact Or.inr ⟨domain, hdomain, Or.inr hsent⟩
  · exact Or.inr ⟨domain, hdomain, Or.inl ⟨_, hsent⟩⟩

/-- Unless the circuit is open, a result that is not a fetch error settles the message. -/
lemma settled_of_processed {p p' : PipelineState ν ω} {readings : Readings} {r : ProcessResult}
    (h : (W.pipeline.process readings m.toItem).run p = .ok r p')
    (hfetch : r.skipped ≠ some .fetchError)
    (hopen : ¬ (W.pipeline.RobotsAllow m.url p.net ∧
      W.pipeline.CircuitRefuses readings.allow m.url p.breaker)) :
    r.stored = true ∨ r.skipped = some .notModified ∨
      r.skipped = some .robots ∨ r.skipped = some .budgetExhausted := by
  cases Pipeline.processed_of_process h with
  | robots hrobots hstore => simp
  | circuitOpen hrobots hcircuit hstore => exact absurd ⟨hrobots, hcircuit⟩ hopen
  | budgetExhausted hcircuit hstore => simp
  | fetchError hcircuit => exact absurd rfl hfetch
  | notModified hcircuit => simp
  | stored hcircuit hheaders hresponse herr h304 hstore =>
      exact Or.inl (Pipeline.storePage_eq_ok hstore).2.1

/-- With an open circuit, a skipped page is all that comes of a message. -/
lemma handleFrontier_of_refuses (hrobots : W.pipeline.RobotsAllow m.url s.pipe.net)
    (hcircuit : W.pipeline.CircuitRefuses c.pipeline.allow m.url s.pipe.breaker) :
    ∃ p, (W.handleFrontier c m).run s = .ok ()
      { s with
        pipe := p
        results := s.results ++ [{ item := m.toItem, skipped := some .circuitOpen }] } := by
  obtain ⟨p, hp⟩ := Pipeline.process_of_refuses m.toItem hrobots hcircuit
  have hprocess : (W.process c.pipeline m.toItem).run s =
      .ok { item := m.toItem, skipped := some .circuitOpen }
        { s with
          pipe := p
          results := s.results ++ [{ item := m.toItem, skipped := some .circuitOpen }] } :=
    run_bind_eq_ok.2 ⟨_, _, run_zoom_eq_ok.2 ⟨p, hp, rfl⟩, rfl⟩
  refine ⟨p, run_bind_eq_ok.2 ⟨.ok { item := m.toItem, skipped := some .circuitOpen }, _,
    run_attempt_eq_ok.2 (Or.inl ⟨_, rfl, ?_⟩), rfl⟩⟩
  exact run_bind_eq_ok.2 ⟨_, _, hprocess, rfl⟩

/-- A skipped page alone does not settle a message. -/
lemma not_conserved_of_circuitOpen {p : PipelineState ν ω} :
    ¬ Conserved W m s { s with
      pipe := p
      results := s.results ++ [{ item := m.toItem, skipped := some .circuitOpen }] } := by
  have hsent : ∀ q, ¬ Sent s { s with
      pipe := p
      results := s.results ++ [{ item := m.toItem, skipped := some .circuitOpen }] } q := by
    rintro q ⟨new, hnew, hq⟩
    have : new = [] := by simpa using hnew
    simp [this] at hq
  rintro (⟨r, hr, hsettled⟩ | ⟨domain, -, ⟨t, ht⟩ | ht⟩)
  · obtain rfl : _ = r := by simpa using hr
    simp at hsettled
  · exact hsent _ ht
  · exact hsent _ ht

/-- **What becomes of a message.**  When `_handle` returns from a record of the frontier
topic that decodes and is not too deep, the message is conserved, exactly unless the
robots rules allow the URL and the circuit breaker refuses its host. -/
theorem handle_conserves_iff {value : Wire} {u : Unit}
    (hdec : FrontierMessage.fromBytes W.numerals value = .ok m) (hdepth : m.depth ≤ W.maxDepth)
    (h : (W.handle c .frontier value).run s = .ok u s') :
    Conserved W m s s' ↔
      ¬ (W.pipeline.RobotsAllow m.url s.pipe.net ∧
        W.pipeline.CircuitRefuses c.pipeline.allow m.url s.pipe.breaker) := by
  rw [handle, hdec] at h
  simp only [reduceCtorEq, if_false, not_lt.2 hdepth] at h
  obtain ⟨x, t, hx, hrest⟩ := run_bind_eq_ok.1 h
  have hgrown : s.published <+: t.published :=
    (preserves_processMessage.attempt s (List.prefix_refl _)).1 x t hx
  by_cases hopen : W.pipeline.RobotsAllow m.url s.pipe.net ∧
      W.pipeline.CircuitRefuses c.pipeline.allow m.url s.pipe.breaker
  · -- the pipeline skips the page, and nothing else happens
    obtain ⟨p, hp⟩ := handleFrontier_of_refuses hopen.1 hopen.2
    rw [hp] at h
    obtain ⟨-, rfl⟩ := EStateM.Result.ok.inj h
    exact iff_of_false not_conserved_of_circuitOpen (not_not_intro hopen)
  · -- a result that settles the message, a fetch error or an exception
    refine iff_of_true ?_ hopen
    rcases run_attempt_eq_ok.1 hx with ⟨r, rfl, hr⟩ | ⟨e, rfl, -⟩
    · obtain ⟨⟨p, hp⟩, hresults⟩ := processMessage_eq_ok hr
      simp only at hrest
      split_ifs at hrest with hskip
      · exact conserved_of_scheduleRetry hgrown hrest
      · obtain ⟨-, rfl⟩ := run_pure_eq_ok.1 hrest
        exact Or.inl ⟨r, hresults, settled_of_processed hp hskip hopen⟩
    · exact conserved_of_scheduleRetry hgrown hrest

/-! ### A host that does not answer -/

/-- A worker whose fetches all time out. -/
def timeoutWorker : CrawlWorker Unit Unit where
  pipeline :=
    { urls := plainUrls
      tools :=
        { parsePage := fun _ _ => .ok {}
          extractText := fun _ => .ok ""
          sha256 := fun _ => ""
          tokenizer := { tokens := fun _ => [], tokenHash := fun _ => 0 } }
      fetch := fun url _ => pure { finalUrl := url, status := 0, error := some "TimeoutError()" }
      sink := { savePage := fun _ => pure (), getValidators := fun _ => pure none }
      circuitBreaker := some {} }
  numerals := noNumerals
  sendAndWait _ := pure ()
  checkAndAdd _ := pure true
  sleep _ := pure ()

/-- The breaker of a worker that opened the circuit of `a.org` at time zero. -/
def openBreaker : BreakerState where
  hosts := AList.insert "a.org" { failures := 5, openedAt := 0, state := .opened } ∅
  gauge := 1

/-- With a closed circuit, a message whose fetch fails is sent to the retry topic. -/
theorem handle_conserves_timeout :
    ∃ s', (timeoutWorker.handle ⟨⟨1, 2⟩, 0, 2⟩ .frontier
        (FrontierMessage.toBytes { url := "http://a.org/" })).run { pipe := ⟨{}, (), ()⟩ } =
          .ok () s' ∧
      s'.published.map (·.topic) = [.retry] ∧
      Conserved timeoutWorker { url := "http://a.org/" } { pipe := ⟨{}, (), ()⟩ } s' := by
  refine ⟨_, rfl, rfl, (handle_conserves_iff (c := ⟨⟨1, 2⟩, 0, 2⟩)
    (FrontierMessage.fromBytes_toBytes _ _) (by decide) rfl).2 ?_⟩
  rintro ⟨-, B, hB, host, hhost, hopen, -⟩
  obtain rfl := Option.some.inj hB
  obtain rfl := Except.ok.inj hhost
  exact absurd hopen (by decide)

/-- **An open circuit drops a message.**  The URL is not fetched, and the message is
sent nowhere. -/
theorem open_circuit_drops_message :
    FrontierMessage.fromBytes timeoutWorker.numerals
      (FrontierMessage.toBytes { url := "http://a.org/" }) = .ok { url := "http://a.org/" } ∧
    ∃ s', (timeoutWorker.handle ⟨⟨1, 2⟩, 0, 2⟩ .frontier
        (FrontierMessage.toBytes { url := "http://a.org/" })).run
          { pipe := ⟨openBreaker, (), ()⟩ } = .ok () s' ∧
      s'.published = [] ∧
      ¬ Conserved timeoutWorker { url := "http://a.org/" }
        { pipe := ⟨openBreaker, (), ()⟩ } s' := by
  refine ⟨FrontierMessage.fromBytes_toBytes _ _, ?_⟩
  have hrobots : timeoutWorker.pipeline.RobotsAllow "http://a.org/" () := fun p hp => by cases hp
  have hget : openBreaker.get "a.org" = { failures := 5, openedAt := 0, state := .opened } := rfl
  have hcircuit : timeoutWorker.pipeline.CircuitRefuses 1 "http://a.org/" openBreaker := by
    refine ⟨{}, rfl, "a.org", by decide, ?_⟩
    rw [CircuitBreaker.Refuses, hget]
    norm_num
  obtain ⟨p, hp⟩ := handleFrontier_of_refuses (W := timeoutWorker) (c := ⟨⟨1, 2⟩, 0, 2⟩)
    (m := { url := "http://a.org/" }) (s := { pipe := ⟨openBreaker, (), ()⟩ }) hrobots hcircuit
  exact ⟨_, hp, rfl, not_conserved_of_circuitOpen⟩

end CrawlWorker

end WebCrawler
