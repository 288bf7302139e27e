import WebCrawler.Dedup.SimHash
import WebCrawler.Resilience.CircuitBreaker
import WebCrawler.Lib.Effects

/-!
# Per-URL processing

`Pipeline.process` of `crawler/pipeline/pipeline.py`: the guards (robots, circuit
breaker, domain budget), the conditional fetch, and then parsing, content dedup and
storage of the page.

The collaborators that the source describes by protocols are arbitrary programs that
may raise.  Those on the network side (robots rules, rate limiter, domain budget,
fetcher) act on a state `ν`, those on the storage side (content dedup, object store,
document sink) on a state `ω`.  The circuit breaker is the concrete one, with its own
state.  The semaphores of the back-pressure gate and of the politeness slot only delay
a call and are left out, as are metrics and logging.
-/

namespace WebCrawler

open Lib

/-- The library functions applied to the body of a page. -/
structure PageTools where
  /-- `parse_page`: the title and the links of a page, given its URL. -/
  parsePage : String → List UInt8 → Except PyError ParsedPage
  /-- `extract_text`: the visible text. -/
  extractText : List UInt8 → Except PyError String
  /-- `hashlib.sha256(body).hexdigest()`. -/
  sha256 : List UInt8 → String
  tokenizer : Tokenizer

/-- The fingerprint of a page. -/
def PageTools.fingerprint (T : PageTools) (body : List UInt8) : Except PyError ℕ :=
  (T.extractText body).map fun text => T.tokenizer.simhashText text

/-- The collaborators of `Politeness`, and the settings that it reads. -/
structure Politeness (ν : Type) where
  respectRobots : Bool := true
  defaultCrawlDelayMs : ℤ := 1000
  /-- `robots.allowed`. -/
  robotsAllowed : String → EStateM PyError ν Bool
  /-- `robots.crawl_delay`, in seconds. -/
  robotsCrawlDelay : String → EStateM PyError ν (Option ℚ)
  /-- `limiter.acquire`, for a host and a rate. -/
  acquire : String → ℚ → EStateM PyError ν Unit

namespace Politeness

variable {ν : Type} (p : Politeness ν)

/-- Whether the robots rules allow a URL; a failure to find out counts as permission. -/
def allowed (url : String) : EStateM PyError ν Bool :=
  if p.respectRobots then do
    match ← attempt (p.robotsAllowed url) with
    | .ok b => pure b
    | .error _ => pure true
  else pure true

/-- The delay between two fetches from the host of a URL. -/
def effectiveDelayMs (url : String) : EStateM PyError ν ℤ :=
  if p.respectRobots then do
    match ← attempt (p.robotsCrawlDelay url) with
    | .ok (some crawlDelay) => pure (max p.defaultCrawlDelayMs (truncate (crawlDelay * 1000)))
    | _ => pure p.defaultCrawlDelayMs
  else pure p.defaultCrawlDelayMs

/-- Entering the slot of a host waits for the rate limiter. -/
def slot (U : UrlUtils) (url : String) : EStateM PyError ν Unit := do
  let host ← ofExcept (U.hostOf url)
  let delayMs ← p.effectiveDelayMs url
  if delayMs > 0 then p.acquire host (1000 / delayMs) else pure ()

end Politeness

/-- The protocol `DocumentSink`. -/
structure DocumentSink (ω : Type) where
  savePage : PageRecord → EStateM PyError ω Unit
  /-- The cached `ETag` and `Last-Modified` of a URL. -/
  getValidators : String → EStateM PyError ω (Option (Option String × Option String))

/-- A pipeline with its collaborators. -/
structure Pipeline (ν ω : Type) where
  urls : UrlUtils
  tools : PageTools
  /-- `fetcher.fetch`, with the extra request headers. -/
  fetch : String → List (String × String) → EStateM PyError ν FetchResult
  sink : DocumentSink ω
  politeness : Option (Politeness ν) := none
  /-- `content_dedup.is_duplicate`. -/
  contentDedup : Option (ℕ → EStateM PyError ω Bool) := none
  /-- `object_store.put`, for a content hash, a body and its content type. -/
  objectStore : Option (String → List UInt8 → Option String → EStateM PyError ω String) := none
  conditionalGet : Bool := false
  circuitBreaker : Option CircuitBreaker := none
  /-- `domain_budget.try_consume`, for a registered domain. -/
  domainBudget : Option (String → EStateM PyError ν Bool) := none

/-- The state of the collaborators of a pipeline. -/
structure PipelineState (ν ω : Type) where
  breaker : BreakerState
  net : ν
  store : ω

/-- The readings of the monotonic clock during one call of `process`: when the breaker
is asked, and when the outcome of the fetch is recorded. -/
structure Readings where
  allow : ℚ
  outcome : ℚ

namespace Pipeline

variable {ν ω : Type} (P : Pipeline ν ω)

/-- A program on the network side. -/
def onNet {α : Type} (x : EStateM PyError ν α) : EStateM PyError (PipelineState ν ω) α :=
  zoom PipelineState.net (fun n s => { s with net := n }) x

/-- A program on the storage side. -/
def onStore {α : Type} (x : EStateM PyError ω α) : EStateM PyError (PipelineState ν ω) α :=
  zoom PipelineState.store (fun w s => { s with store := w }) x

/-! ### The guards -/

/-- The robots rules. -/
def checkRobots (item : FrontierItem) : EStateM PyError (PipelineState ν ω) Bool :=
  match P.politeness with
  | none => pure true
  | some p => onNet (p.allowed item.url)

/-- The circuit breaker of the host. -/
def checkBreaker (now : ℚ) (host : String) : EStateM PyError (PipelineState ν ω) Bool :=
  match P.circuitBreaker with
  | none => pure true
  | some B => fun s =>
      let answer := B.allow now host s.breaker
      .ok answer.1 { s with breaker := answer.2 }

/-- The budget of the registered domain. -/
def checkBudget (item : FrontierItem) : EStateM PyError (PipelineState ν ω) Bool :=
  match P.domainBudget with
  | none => pure true
  | some tryConsume => do
      let domain ← ofExcept (P.urls.registeredDomain item.url)
      onNet (tryConsume domain)

/-! ### The fetch -/

/-- The validators of the stored version of the page, as request headers. -/
def conditionalHeaders (url : String) : EStateM PyError ω (List (String × String)) :=
  if P.conditionalGet then do
    let normalized ← ofExcept (P.urls.normalizeUrl url)
    let validators ← P.sink.getValidators (normalized.getD url)
    match validators with
    | none => pure []
    | some (etag, lastModified) =>
        pure ((etag.filter (· ≠ "")).toList.map (fun v => ("If-None-Match", v)) ++
          (lastModified.filter (· ≠ "")).toList.map fun v => ("If-Modified-Since", v))
  else pure []

/-- Entering the politeness slot. -/
def enterSlot (url : String) : EStateM PyError ν Unit :=
  match P.politeness with
  | none => pure ()
  | some p => p.slot P.urls url

/-- The fetch inside the slot. -/
def fetchInSlot (url : String) (headers : List (String × String)) :
    EStateM PyError ν FetchResult := do
  P.enterSlot url
  P.fetch url headers

/-- Transport errors and 5xx are failures of the host; everything else is a success. -/
def recordOutcome (now : ℚ) (host : String) (result : FetchResult) :
    EStateM PyError (PipelineState ν ω) Unit :=
  match P.circuitBreaker with
  | none => pure ()
  | some B => fun s =>
      if result.error.isSome ∨ result.status ≥ 500 ∨ result.status = 0 then
        .ok () { s with breaker := B.recordFailure now host s.breaker }
      else .ok () { s with breaker := CircuitBreaker.recordSuccess host s.breaker }

/-! ### Parsing and storage -/

/-- The URL under which a response is stored. -/
def canonical (item : FrontierItem) (result : FetchResult) : Except PyError String := do
  return (← P.urls.normalizeUrl result.finalUrl).getD item.url

/-- The record of a response before its body is looked at. -/
def newRecord (item : FrontierItem) (result : FetchResult) (url domain : String) :
    PageRecord where
  url := url
  registeredDomain := domain
  depth := item.depth
  httpStatus := some result.status
  contentType := result.contentType
  contentLength := some result.body.length
  contentHash := if result.body = [] then none else some (P.tools.sha256 result.body)
  etag := result.header "ETag"
  lastModified := result.header "Last-Modified"
  crawlId := item.crawlId

/-- Parses an HTML page and looks for near-duplicates, whose links are dropped. -/
def readPage (result : FetchResult) (record : PageRecord) :
    EStateM PyError ω (PageRecord × Bool) :=
  if result.isHtml ∧ result.body ≠ [] then do
    let parsed ← ofExcept (P.tools.parsePage record.url result.body)
    match P.contentDedup with
    | none => pure ({ record with title := parsed.title, links := parsed.links }, false)
    | some isDuplicate => do
        let fingerprint ← ofExcept (P.tools.fingerprint result.body)
        let duplicate ← isDuplicate fingerprint
        pure ({ record with
          title := parsed.title
          simhash := some fingerprint
          links := if duplicate then [] else parsed.links }, duplicate)
  else pure (record, false)

/-- Stores the body, unless it is empty or that of a near-duplicate. -/
def storeBody (result : FetchResult) (record : PageRecord) (duplicate : Bool) :
    EStateM PyError ω PageRecord :=
  -- a record has a content hash exactly when the body is not empty
  match P.objectStore, record.contentHash with
  | some put, some contentHash =>
      if duplicate then pure record
      else do
        let key ← put contentHash result.body result.contentType
        pure { record with storageKey := some key }
  | _, _ => pure record

/-- Everything that `process` does with a response that is neither an error nor a 304. -/
def storePage (item : FrontierItem) (result : FetchResult) : EStateM PyError ω ProcessResult := do
  let url ← ofExcept (P.canonical item result)
  let domain ← ofExcept (P.urls.registeredDomain url)
  let (record, duplicate) ← P.readPage result (P.newRecord item result url domain)
  let record ← P.storeBody result record duplicate
  P.sink.savePage record
  pure { item := item, fetched := true, stored := true, duplicate := duplicate
         links := record.links, record := some record }

/-! ### The whole -/

/-- `process` after the guards. -/
def fetchAndStore (c : Readings) (item : FrontierItem) (host : String) :
    EStateM PyError (PipelineState ν ω) ProcessResult := do
  let headers ← onStore (P.conditionalHeaders item.url)
  let result ← onNet (P.fetchInSlot item.url headers)
  P.recordOutcome c.outcome host result
  if result.error.isSome then pure { item := item, skipped := some .fetchError }
  else if result.status = 304 then
    pure { item := item, fetched := true, skipped := some .notModified }
  else onStore (P.storePage item result)

/-- `Pipeline.process`. -/
def process (c : Readings) (item : FrontierItem) :
    EStateM PyError (PipelineState ν ω) ProcessResult := do
  if ← P.checkRobots item then
    let host ← ofExcept (P.urls.hostOf item.url)
    if ← P.checkBreaker c.allow host then
      if ← P.checkBudget item then P.fetchAndStore c item host
      else pure { item := item, skipped := some .budgetExhausted }
    else pure { item := item, skipped := some .circuitOpen }
  else pure { item := item, skipped := some .robots }

/-! ### What a call of `process` can do -/

/-- The robots rules allow the URL, as far as the crawler can tell. -/
def RobotsAllow (url : String) (n : ν) : Prop :=
  ∀ p ∈ P.politeness, ∃ n', (p.allowed url).run n = .ok true n'

/-- There is a circuit breaker, and it refuses the host of the URL at that time. -/
def CircuitRefuses (now : ℚ) (url : String) (b : BreakerState) : Prop :=
  ∃ B ∈ P.circuitBreaker, ∃ host, P.urls.hostOf url = .ok host ∧ B.Refuses now host b

/-- The ways in which `process` returns. -/
inductive Processed (c : Readings) (item : FrontierItem) (s : PipelineState ν ω) :
    ProcessResult → PipelineState ν ω → Prop
  /-- The robots rules forbid the URL. -/
  | robots {s' : PipelineState ν ω} (hrobots : ¬ P.RobotsAllow item.url s.net)
      (hstore : s'.store = s.store) :
      Processed c item s { item := item, skipped := some .robots } s'
  /-- The circuit of the host is open. -/
  | circuitOpen {s' : PipelineState ν ω} (hrobots : P.RobotsAllow item.url s.net)
      (hcircuit : P.CircuitRefuses c.allow item.url s.breaker) (hstore : s'.store = s.store) :
      Processed c item s { item := item, skipped := some .circuitOpen } s'
  /-- The budget of the domain is used up. -/
  | budgetExhausted {s' : PipelineState ν ω}
      (hcircuit : ¬ P.CircuitRefuses c.allow item.url s.breaker) (hstore : s'.store = s.store) :
      Processed c item s { item := item, skipped := some .budgetExhausted } s'
  /-- The fetch failed. -/
  | fetchError {s' : PipelineState ν ω}
      (hcircuit : ¬ P.CircuitRefuses c.allow item.url s.breaker) :
      Processed c item s { item := item, skipped := some .fetchError } s'
  /-- The page has not changed. -/
  | notModified {s' : PipelineState ν ω}
      (hcircuit : ¬ P.CircuitRefuses c.allow item.url s.breaker) :
      Processed c item s { item := item, fetched := true, skipped := some .notModified } s'
  /-- The response was stored. -/
  | stored {s' : PipelineState ν ω} {r : ProcessResult} {headers : List (String × String)}
      {w : ω} {n n' : ν} {response : FetchResult}
      (hcircuit : ¬ P.CircuitRefuses c.allow item.url s.breaker)
      (hheaders : (P.conditionalHeaders item.url).run s.store = .ok headers w)
      (hfetch : (P.fetch item.url headers).run n = .ok response n')
      (herr : response.error = none) (h304 : response.status ≠ 304)
      (hstore : (P.storePage item response).run w = .ok r s'.store) :
      Processed c item s r s'

variable {P} {c : Readings} {item : FrontierItem} {s s' : PipelineState ν ω} {r : ProcessResult}

lemma checkRobots_eq_ok {b : Bool} (h : (P.checkRobots item).run s = .ok b s') :
    s'.breaker = s.breaker ∧ s'.store = s.store ∧ (b = true ↔ P.RobotsAllow item.url s.net) := by
  rw [checkRobots] at h
  cases hp : P.politeness with
  | none =>
      simp only [hp] at h
      obtain ⟨rfl, rfl⟩ := run_pure_eq_ok.1 h
      exact ⟨rfl, rfl, by simp [RobotsAllow, hp]⟩
  | some p =>
      simp only [hp] at h
      obtain ⟨n, hn, rfl⟩ := run_zoom_eq_ok.1 h
      refine ⟨rfl, rfl, ?_⟩
      simp [RobotsAllow, hp, hn]

lemma checkBreaker_eq_ok {now : ℚ} {url host : String} {b : Bool}
    (hhost : P.urls.hostOf url = .ok host) (h : (P.checkBreaker now host).run s = .ok b s') :
    s'.net = s.net ∧ s'.store = s.store ∧
      (b = false ↔ P.CircuitRefuses now url s.breaker) := by
  rw [checkBreaker] at h
  cases hB : P.circuitBreaker with
  | none =>
      simp only [hB] at h
      obtain ⟨rfl, rfl⟩ := run_pure_eq_ok.1 h
      exact ⟨rfl, rfl, by simp [CircuitRefuses, hB]⟩
  | some B =>
      simp only [hB] at h
      obtain ⟨rfl, rfl⟩ := EStateM.Result.ok.inj h
      refine ⟨rfl, rfl, ?_⟩
      rw [B.allow_eq_false_iff]
      simp [CircuitRefuses, hB, hhost]

lemma checkBudget_eq_ok {b : Bool} (h : (P.checkBudget item).run s = .ok b s') :
    s'.store = s.store := by
  rw [checkBudget] at h
  cases hb : P.domainBudget with
  | none =>
      simp only [hb] at h
      obtain ⟨-, rfl⟩ := run_pure_eq_ok.1 h
      rfl
  | some tryConsume =>
      simp only [hb] at h
      obtain ⟨domain, -, h⟩ := run_ofExcept_bind_eq_ok.1 h
      obtain ⟨n, -, rfl⟩ := run_zoom_eq_ok.1 h
      rfl

lemma recordOutcome_eq_ok {now : ℚ} {host : String} {result : FetchResult}
    (h : (P.recordOutcome now host result).run s = .ok () s') :
    s'.net = s.net ∧ s'.store = s.store := by
  rw [recordOutcome] at h
  cases hB : P.circuitBreaker with
  | none =>
      simp only [hB] at h
      obtain ⟨-, rfl⟩ := run_pure_eq_ok.1 h
      exact ⟨rfl, rfl⟩
  | some B =>
      simp only [hB, EStateM.run] at h
      split_ifs at h
      · obtain ⟨-, rfl⟩ := EStateM.Result.ok.inj h
        exact ⟨rfl, rfl⟩
      · obtain ⟨-, rfl⟩ := EStateM.Result.ok.inj h
        exact ⟨rfl, rfl⟩

lemma fetchInSlot_eq_ok {url : String} {headers : List (String × String)} {n n' : ν}
    {response : FetchResult} (h : (P.fetchInSlot url headers).run n = .ok response n') :
    ∃ n₁, (P.fetch url headers).run n₁ = .ok response n' := by
  obtain ⟨-, n₁, -, hfetch⟩ := run_bind_eq_ok.1 h
  exact ⟨n₁, hfetch⟩

/-- What `process` does after the guards, by the answer of the fetcher. -/
lemma fetchAndStore_eq_ok {host : String} (h : (P.fetchAndStore c item host).run s = .ok r s') :
    ∃ headers w response n n', (P.conditionalHeaders item.url).run s.store = .ok headers w ∧
      (P.fetch item.url headers).run n = .ok response n' ∧
      ((response.error ≠ none ∧ r = { item := item, skipped := some .fetchError }) ∨
        (response.error = none ∧ response.status = 304 ∧ s'.store = w ∧
          r = { item := item, fetched := true, skipped := some .notModified }) ∨
        (response.error = none ∧ response.status ≠ 304 ∧
          (P.storePage item response).run w = .ok r s'.store)) := by
  obtain ⟨headers, s₁, h₁, h₁'⟩ := run_bind_eq_ok.1 h
  obtain ⟨response, s₂, h₂, h₂'⟩ := run_bind_eq_ok.1 h₁'
  obtain ⟨u, s₃, h₃, h₃'⟩ := run_bind_eq_ok.1 h₂'
  obtain ⟨w, hheaders, rfl⟩ := run_zoom_eq_ok.1 h₁
  obtain ⟨n, hslot, rfl⟩ := run_zoom_eq_ok.1 h₂
  obtain ⟨n₁, hfetch⟩ := fetchInSlot_eq_ok hslot
  obtain ⟨-, hstore₃⟩ := recordOutcome_eq_ok h₃
  refine ⟨headers, w, response, n₁, n, hheaders, hfetch, ?_⟩
  split_ifs at h₃' with herr h304
  · obtain ⟨rfl, rfl⟩ := run_pure_eq_ok.1 h₃'
    exact Or.inl ⟨by simpa [← Option.isSome_iff_ne_none] using herr, rfl⟩
  · obtain ⟨rfl, rfl⟩ := run_pure_eq_ok.1 h₃'
    exact Or.inr (Or.inl ⟨by simpa using herr, h304, hstore₃, rfl⟩)
  · obtain ⟨w', hpage, rfl⟩ := run_zoom_eq_ok.1 h₃'
    rw [hstore₃] at hpage
    exact Or.inr (Or.inr ⟨by simpa using herr, h304, hpage⟩)

lemma processed_of_fetchAndStore {s₀ : PipelineState ν ω} {host : String}
    (hstore : s.store = s₀.store) (hcircuit : ¬ P.CircuitRefuses c.allow item.url s₀.breaker)
    (h : (P.fetchAndStore c item host).run s = .ok r s') : P.Processed c item s₀ r s' := by
  obtain ⟨headers, w, response, n, n', hheaders, hfetch, hcases⟩ := fetchAndStore_eq_ok h
  rcases hcases with ⟨-, rfl⟩ | ⟨-, -, -, rfl⟩ | ⟨herr, h304, hpage⟩
  · exact .fetchError hcircuit
  · exact .notModified hcircuit
  · exact .stored hcircuit (hstore ▸ hheaders) hfetch herr h304 hpage

/-- A page is fetched only after all guards have let it pass. -/
lemma guards_of_fetched (h : (P.process c item).run s = .ok r s') (hfetched : r.fetched = true) :
    ∃ host s₁ s₂ s₃, P.urls.hostOf item.url = .ok host ∧
      (P.checkRobots item).run s = .ok true s₁ ∧
      (P.checkBreaker c.allow host).run s₁ = .ok true s₂ ∧
      (P.checkBudget item).run s₂ = .ok true s₃ ∧
      (P.fetchAndStore c item host).run s₃ = .ok r s' := by
  rw [process] at h
  obtain ⟨robots, s₁, h₁, h⟩ := run_bind_eq_ok.1 h
  cases robots with
  | false =>
      obtain ⟨rfl, -⟩ := run_pure_eq_ok.1 h
      exact absurd hfetched (by simp)
  | true =>
      obtain ⟨host, hhost, h⟩ := run_ofExcept_bind_eq_ok.1 h
      obtain ⟨circuit, s₂, h₂, h⟩ := run_bind_eq_ok.1 h
      cases circuit with
      | false =>
          obtain ⟨rfl, -⟩ := run_pure_eq_ok.1 h
          exact absurd hfetched (by simp)
      | true =>
          obtain ⟨budget, s₃, h₃, h⟩ := run_bind_eq_ok.1 h
          cases budget with
          | false =>
              obtain ⟨rfl, -⟩ := run_pure_eq_ok.1 h
              exact absurd hfetched (by simp)
          | true => exact ⟨host, s₁, s₂, s₃, hhost, h₁, h₂, h₃, h⟩

/-- **Inversion of `process`.** -/
theorem processed_of_process (h : (P.process c item).run s = .ok r s') :
    P.Processed c item s r s' := by
  rw [process] at h
  obtain ⟨robots, s₁, h₁, h⟩ := run_bind_eq_ok.1 h
  obtain ⟨hb₁, hst₁, hrobots⟩ := checkRobots_eq_ok h₁
  cases robots with
  | false =>
      obtain ⟨rfl, rfl⟩ := run_pure_eq_ok.1 h
      exact .robots (fun hr => absurd (hrobots.2 hr) (by simp)) hst₁
  | true =>
      obtain ⟨host, hhost, h⟩ := run_ofExcept_bind_eq_ok.1 h
      obtain ⟨circuit, s₂, h₂, h⟩ := run_bind_eq_ok.1 h
      obtain ⟨-, hst₂, hcircuit⟩ := checkBreaker_eq_ok hhost h₂
      rw [hb₁] at hcircuit
      cases circuit with
      | false =>
          obtain ⟨rfl, rfl⟩ := run_pure_eq_ok.1 h
          exact .circuitOpen (hrobots.1 rfl) (hcircuit.1 rfl) (hst₂.trans hst₁)
      | true =>
          have hclosed : ¬ P.CircuitRefuses c.allow item.url s.breaker :=
            fun hc => absurd (hcircuit.2 hc) (by simp)
          obtain ⟨budget, s₃, h₃, h⟩ := run_bind_eq_ok.1 h
          have hst₃ := checkBudget_eq_ok h₃
          cases budget with
          | false =>
              obtain ⟨rfl, rfl⟩ := run_pure_eq_ok.1 h
              exact .budgetExhausted hclosed (hst₃.trans (hst₂.trans hst₁))
          | true => exact processed_of_fetchAndStore (hst₃.trans (hst₂.trans hst₁)) hclosed h

lemma checkRobots_of_allow (h : P.RobotsAllow item.url s.net) :
    ∃ n, (P.checkRobots item).run s = .ok true { s with net := n } := by
  rw [checkRobots]
  cases hp : P.politeness with
  | none => exact ⟨s.net, rfl⟩
  | some p =>
      obtain ⟨n, hn⟩ := h p hp
      exact ⟨n, run_zoom_eq_ok.2 ⟨n, hn, rfl⟩⟩

lemma checkBreaker_of_refuses {now : ℚ} {url : String}
    (h : P.CircuitRefuses now url s.breaker) :
    ∃ host b, P.urls.hostOf url = .ok host ∧
      (P.checkBreaker now host).run s = .ok false { s with breaker := b } := by
  obtain ⟨B, hB, host, hhost, hrefuse⟩ := h
  refine ⟨host, (B.allow now host s.breaker).2, hhost, ?_⟩
  rw [checkBreaker, Option.mem_def.1 hB, ← B.allow_eq_false_iff.2 hrefuse]
  rfl

/-- A page whose host is refused by the breaker is skipped. -/
lemma process_of_refuses (item : FrontierItem) (hrobots : P.RobotsAllow item.url s.net)
    (hcircuit : P.CircuitRefuses c.allow item.url s.breaker) :
    ∃ s', (P.process c item).run s =
      .ok { item := item, skipped := some .circuitOpen } s' := by
  obtain ⟨n, hn⟩ := checkRobots_of_allow hrobots
  obtain ⟨host, b, hhost, hb⟩ := checkBreaker_of_refuses (s := { s with net := n }) hcircuit
  refine ⟨{ s with net := n, breaker := b }, run_bind_eq_ok.2 ⟨true, _, hn, ?_⟩⟩
  refine run_ofExcept_bind_eq_ok.2 ⟨host, hhost, ?_⟩
  exact run_bind_eq_ok.2 ⟨false, _, hb, rfl⟩

/-- The steps of `storePage`, one by one. -/
lemma storePage_parts {w w' : ω} {response : FetchResult}
    (h : (P.storePage item response).run w = .ok r w') :
    ∃ url domain p w₁ record w₂, P.canonical item response = .ok url ∧
      P.urls.registeredDomain url = .ok domain ∧
      (P.readPage response (P.newRecord item response url domain)).run w = .ok p w₁ ∧
      (P.storeBody response p.1 p.2).run w₁ = .ok record w₂ ∧
      (P.sink.savePage record).run w₂ = .ok () w' ∧
      r = { item := item, fetched := true, stored := true, duplicate := p.2
            links := record.links, record := some record } := by
  rw [storePage] at h
  obtain ⟨url, hurl, h⟩ := run_ofExcept_bind_eq_ok.1 h
  obtain ⟨domain, hdomain, h⟩ := run_ofExcept_bind_eq_ok.1 h
  obtain ⟨p, w₁, hread, h⟩ := run_bind_eq_ok.1 h
  obtain ⟨record, w₂, hbody, h⟩ := run_bind_eq_ok.1 h
  obtain ⟨u, w₃, hsave, h⟩ := run_bind_eq_ok.1 h
  obtain ⟨rfl, rfl⟩ := run_pure_eq_ok.1 h
  exact ⟨url, domain, p, w₁, record, w₂, hurl, hdomain, hread, hbody, hsave, rfl⟩

/-- What `process` reports about a page that was stored. -/
lemma storePage_eq_ok {w w' : ω} {response : FetchResult}
    (h : (P.storePage item response).run w = .ok r w') :
    r.fetched = true ∧ r.stored = true ∧ r.skipped = none := by
  obtain ⟨url, domain, p, w₁, record, w₂, -, -, -, -, -, rfl⟩ := storePage_parts h
  exact ⟨rfl, rfl, rfl⟩

/-- What `readPage` does, by the kind of the response and the content dedup. -/
lemma readPage_eq_ok {w w' : ω} {response : FetchResult} {record : PageRecord}
    {p : PageRecord × Bool} (h : (P.readPage response record).run w = .ok p w') :
    (¬ (response.isHtml ∧ response.body ≠ []) ∧ w' = w ∧ p = (record, false)) ∨
    (response.isHtml ∧ response.body ≠ []) ∧ ∃ parsed,
      P.tools.parsePage record.url response.body = .ok parsed ∧
      ((P.contentDedup = none ∧ w' = w ∧
          p = ({ record with title := parsed.title, links := parsed.links }, false)) ∨
        ∃ isDuplicate fingerprint duplicate, P.contentDedup = some isDuplicate ∧
          P.tools.fingerprint response.body = .ok fingerprint ∧
          (isDuplicate fingerprint).run w = .ok duplicate w' ∧
          p = ({ record with
            title := parsed.title
            simhash := some fingerprint
            links := if duplicate then [] else parsed.links }, duplicate)) := by
  rw [readPage] at h
  split_ifs at h with hhtml
  · obtain ⟨parsed, w₁, h₁, h⟩ := run_bind_eq_ok.1 h
    obtain ⟨hparsed, rfl⟩ := run_ofExcept_eq_ok.1 h₁
    refine Or.inr ⟨hhtml, parsed, hparsed, ?_⟩
    cases hd : P.contentDedup with
    | none =>
        simp only [hd] at h
        obtain ⟨rfl, rfl⟩ := run_pure_eq_ok.1 h
        exact Or.inl ⟨rfl, rfl, rfl⟩
    | some isDuplicate =>
        simp only [hd] at h
        obtain ⟨fingerprint, w₂, h₂, h⟩ := run_bind_eq_ok.1 h
        obtain ⟨hfingerprint, rfl⟩ := run_ofExcept_eq_ok.1 h₂
        obtain ⟨duplicate, w₃, h₃, h⟩ := run_bind_eq_ok.1 h
        obtain ⟨rfl, rfl⟩ := run_pure_eq_ok.1 h
        exact Or.inr ⟨isDuplicate, fingerprint, duplicate, rfl, hfingerprint, h₃, rfl⟩
  · obtain ⟨rfl, rfl⟩ := run_pure_eq_ok.1 h
    exact Or.inl ⟨hhtml, rfl, rfl⟩

/-- The body is stored under a key, or nothing happens. -/
lemma storeBody_cases {w w' : ω} {response : FetchResult} {record record' : PageRecord}
    {duplicate : Bool} (h : (P.storeBody response record duplicate).run w = .ok record' w') :
    (w' = w ∧ record' = record) ∨
    ∃ put contentHash key, P.objectStore = some put ∧
      (put contentHash response.body response.contentType).run w = .ok key w' ∧
      record' = { record with storageKey := some key } := by
  rw [storeBody] at h
  split at h
  · next put contentHash hput hhash =>
    split_ifs at h
    · obtain ⟨rfl, rfl⟩ := run_pure_eq_ok.1 h
      exact Or.inl ⟨rfl, rfl⟩
    · obtain ⟨key, w₁, h₁, h⟩ := run_bind_eq_ok.1 h
      obtain ⟨rfl, rfl⟩ := run_pure_eq_ok.1 h
      exact Or.inr ⟨put, contentHash, key, hput, h₁, rfl⟩
  · obtain ⟨rfl, rfl⟩ := run_pure_eq_ok.1 h
    exact Or.inl ⟨rfl, rfl⟩

lemma readPage_url {w w' : ω} {response : FetchResult} {record : PageRecord}
    {p : PageRecord × Bool} (h : (P.readPage response record).run w = .ok p w') :
    p.1.url = record.url := by
  rcases readPage_eq_ok h with ⟨-, -, rfl⟩ | ⟨-, parsed, -, ⟨-, -, rfl⟩ | ⟨_, _, _, -, -, -, rfl⟩⟩
  · rfl
  · rfl
  · rfl

lemma storeBody_url {w w' : ω} {response : FetchResult} {record record' : PageRecord}
    {duplicate : Bool} (h : (P.storeBody response record duplicate).run w = .ok record' w') :
    record'.url = record.url := by
  rcases storeBody_cases h with ⟨-, rfl⟩ | ⟨_, _, _, -, -, rfl⟩
  · rfl
  · rfl

/-- A sink that only reads the validators leaves the storage side as it is. -/
lemma conditionalHeaders_state {url : String} {headers : List (String × String)} {w w' : ω}
    (hget : ∀ lookup v w₁ w₂, (P.sink.getValidators lookup).run w₁ = .ok v w₂ → w₂ = w₁)
    (h : (P.conditionalHeaders url).run w = .ok headers w') : w' = w := by
  rw [conditionalHeaders] at h
  split_ifs at h
  · obtain ⟨normalized, -, h⟩ := run_ofExcept_bind_eq_ok.1 h
    obtain ⟨validators, w₁, h₁, h⟩ := run_bind_eq_ok.1 h
    obtain rfl := hget _ _ _ _ h₁
    cases validators with
    | none => exact (run_pure_eq_ok.1 h).2.symm
    | some v => exact (run_pure_eq_ok.1 h).2.symm
  · exact (run_pure_eq_ok.1 h).2.symm

/-- The record that is saved for a response. -/
lemma storePage_saves {w w' : ω} {response : FetchResult}
    (h : (P.storePage item response).run w = .ok r w') :
    ∃ url domain p w₁ record w₂,
      (P.readPage response (P.newRecord item response url domain)).run w = .ok p w₁ ∧
      (P.storeBody response p.1 p.2).run w₁ = .ok record w₂ ∧
      (P.sink.savePage record).run w₂ = .ok () w' ∧ r.record = some record ∧
      P.canonical item response = .ok record.url := by
  obtain ⟨url, domain, p, w₁, record, w₂, hurl, -, hread, hbody, hsave, rfl⟩ := storePage_parts h
  refine ⟨url, domain, p, w₁, record, w₂, hread, hbody, hsave, rfl, ?_⟩
  rw [hurl, (storeBody_url hbody).trans (readPage_url hread)]
  rfl

end Pipeline

end WebCrawler
