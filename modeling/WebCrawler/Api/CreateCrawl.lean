import WebCrawler.Engine.Invariant
import WebCrawler.Frontier.Messages

/-!
# Starting a crawl from the API

`SqlCrawlService.create_crawl` of `crawler/api/service.py` stores a row for the crawl
and starts it.  With the memory backend `_launch_local` runs an engine inside the
process of the API (`execute_crawl` of `crawler/local_crawl.py`), made from the limits
of the request.  With the Kafka backend `_seed` publishes the seeds for the fleet; a
message carries the id of the crawl and nothing of its limits.

The limits of a crawl are the ones of its request, `max_depth` and `allowed_domains`,
and the length of a URL from the settings.  On the engine they hold in every run
(`put_withinLimits`).
-/

namespace WebCrawler

open Lib

/-- The backends of the frontier. -/
inductive Backend
  | memory
  | kafka
deriving DecidableEq, Repr

/-- The settings that the start of a crawl and the workers of the fleet read. -/
structure Settings where
  /-- `frontier.backend`. -/
  backend : Backend := .memory
  /-- `crawl.max_depth`. -/
  maxDepth : ℤ := 3
  /-- `crawl.max_url_length`. -/
  maxUrlLength : ℤ := 2048
  /-- `kafka.max_retries`. -/
  maxRetries : ℤ := 3
deriving DecidableEq, Repr

/-- A request for a new crawl, with the constraints that its schema checks. -/
structure CrawlCreate where
  seeds : List String
  name : String := "crawl"
  maxDepth : ℤ := 3
  maxPages : ℤ := 1000
  allowedDomains : Option (List String) := none
  seeds_ne_nil : seeds ≠ []
  maxDepth_mem : 0 ≤ maxDepth ∧ maxDepth ≤ 20
  one_le_maxPages : 1 ≤ maxPages

/-- The status of a new crawl. -/
inductive CrawlStatus
  | running
  | failed
deriving DecidableEq, Repr

/-- The row of a crawl. -/
structure Crawl where
  id : ℤ
  name : String
  seeds : List String
  status : CrawlStatus
  maxDepth : ℤ
  maxPages : ℤ
  allowedDomains : Option (List String)
deriving DecidableEq, Repr

/-- The answer to the request. -/
structure CrawlOut where
  id : ℤ
  name : String
  status : CrawlStatus
  seeds : List String
  maxDepth : ℤ
  maxPages : ℤ
  seeded : ℕ := 0
deriving DecidableEq, Repr

/-- What a new crawl is handed to. -/
inductive Launch
  /-- No seed was usable. -/
  | nothing
  /-- The messages published on the frontier topic. -/
  | published (messages : List FrontierMessage)
  /-- An engine in the process of the API, run on the given seeds. -/
  | inProcess (engine : CrawlEngine) (seeds : List String)

/-- The number of seeds that are reported. -/
def Launch.seeded : Launch → ℕ
  | .nothing => 0
  | .published messages => messages.length
  | .inProcess _ seeds => seeds.length

namespace CrawlCreate

variable (req : CrawlCreate)

/-- The allow-list, empty if there is none. -/
def allowList : List String := req.allowedDomains.getD []

/-- The engine that `execute_crawl` makes with the arguments of `_launch_local`: a
non-empty allow-list drives the filter, otherwise the crawl stays on the seed domains. -/
def engine (settings : Settings) : CrawlEngine where
  maxUrlLength := settings.maxUrlLength
  maxDepth := req.maxDepth
  maxPages := req.maxPages
  concurrency := 10
  sameDomainOnly := req.allowList.isEmpty
  allowedDomains := if req.allowList.isEmpty then none else some req.allowList.toFinset

/-- The messages of `_seed`. -/
def seedMessages (urls : List String) (crawlId : ℤ) : List FrontierMessage :=
  urls.map fun url => { url := url, depth := 0, crawlId := some crawlId }

/-- The seeds that `normalize_url` accepts. -/
def normalizedSeeds (U : UrlUtils) : List String → Except PyError (List String)
  | [] => return []
  | s :: seeds => do
      let n ← U.normalizeUrl s
      let rest ← normalizedSeeds U seeds
      return n.toList ++ rest

/-- `create_crawl` after the seeds are normalized. -/
def launched (settings : Settings) (crawlId : ℤ) (normalized : List String) :
    Crawl × Launch × CrawlOut :=
  let status := if normalized.isEmpty then CrawlStatus.failed else .running
  let launch :=
    if normalized.isEmpty then Launch.nothing
    else
      match settings.backend with
      | .kafka => .published (seedMessages normalized crawlId)
      | .memory => .inProcess (req.engine settings) normalized
  ({ id := crawlId, name := req.name, seeds := normalized, status := status,
     maxDepth := req.maxDepth, maxPages := req.maxPages, allowedDomains := req.allowedDomains },
   launch,
   { id := crawlId, name := req.name, status := status, seeds := normalized,
     maxDepth := req.maxDepth, maxPages := req.maxPages, seeded := launch.seeded })

/-- `create_crawl`, with the id that the database gives to the row. -/
def createCrawl (U : UrlUtils) (settings : Settings) (crawlId : ℤ) :
    Except PyError (Crawl × Launch × CrawlOut) := do
  let normalized ← normalizedSeeds U req.seeds
  return req.launched settings crawlId normalized

/-- The crawl is handed over when the request is accepted. -/
def Launches (U : UrlUtils) (settings : Settings) (crawlId : ℤ) (launch : Launch) : Prop :=
  ∃ crawl out, req.createCrawl U settings crawlId = .ok (crawl, launch, out)

/-- The limits of the crawl on a frontier item. -/
def WithinLimits (U : UrlUtils) (settings : Settings) (item : FrontierItem) : Prop :=
  item.depth ≤ req.maxDepth ∧ (item.url.length : ℤ) ≤ settings.maxUrlLength ∧
    (req.allowList ≠ [] → ∃ d ∈ req.allowList, U.registeredDomain item.url = .ok d)

instance (U : UrlUtils) (settings : Settings) (item : FrontierItem) :
    Decidable (req.WithinLimits U settings item) :=
  inferInstanceAs (Decidable (_ ∧ _ ∧ (_ → ∃ d ∈ req.allowList, _)))

variable {req} {U : UrlUtils} {settings : Settings} {crawlId : ℤ}

/-- The launch, case by case. -/
lemma launch_cases {launch : Launch} (h : req.Launches U settings crawlId launch) :
    ∃ urls, normalizedSeeds U req.seeds = .ok urls ∧ (launch = .nothing ∨
      (settings.backend = .kafka ∧ launch = .published (seedMessages urls crawlId)) ∨
      (settings.backend = .memory ∧ launch = .inProcess (req.engine settings) urls)) := by
  obtain ⟨crawl, out, h⟩ := h
  rw [createCrawl] at h
  cases hurls : normalizedSeeds U req.seeds with
  | error e =>
      rw [hurls] at h
      cases h
  | ok urls =>
      rw [hurls] at h
      refine ⟨urls, rfl, ?_⟩
      have hlaunch : (req.launched settings crawlId urls).2.1 = launch :=
        congrArg (·.2.1) (Except.ok.inj h)
      rw [← hlaunch]
      simp only [launched]
      split_ifs with hnil
      · exact Or.inl rfl
      · cases hb : settings.backend with
        | kafka => exact Or.inr (Or.inl ⟨rfl, rfl⟩)
        | memory => exact Or.inr (Or.inr ⟨rfl, rfl⟩)

/-- What the filters of the engine let through is within the limits. -/
lemma withinLimits_of_permitted {seeds : List String} {item : FrontierItem}
    (hd : item.depth ≤ req.maxDepth)
    (h : CrawlEngine.Permitted (req.engine settings) U seeds item.url) :
    req.WithinLimits U settings item := by
  refine ⟨hd, h.length_le, ?_⟩
  intro hne
  have hallowed : (req.engine settings).allowedDomains = some req.allowList.toFinset := by
    simp [engine, hne]
  obtain ⟨d, hd, hdomain⟩ := h.allowed _ hallowed
  exact ⟨d, List.mem_toFinset.1 hd, hdomain⟩

/-- On the engine, every item that is not a seed is within the limits of the crawl, in
every state of every run. -/
lemma put_withinLimits {site : Site} {seeds : List String} {s : EngineState}
    (h : ((req.engine settings).machine U site seeds (some crawlId)).Reachable s)
    {i : FrontierItem} (hi : i ∈ s.put) :
    CrawlEngine.IsSeed U seeds i ∨ req.WithinLimits U settings i := by
  have hprov := CrawlEngine.provenance_of_reachable h
  rcases hprov.origin i hi with hseed | ⟨hperm, -⟩
  · exact Or.inl hseed
  · exact Or.inr (withinLimits_of_permitted (hprov.depth_le req.maxDepth_mem.1 hi) hperm)

end CrawlCreate

end WebCrawler
