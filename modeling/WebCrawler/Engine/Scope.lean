import WebCrawler.Engine.Invariant
import WebCrawler.Pipeline.Reprocess

/-!
# Redirects and the scope of a crawl

The guards of `Pipeline.process` (robots rules, domain budget) and the domain filter of
`CrawlEngine._handle` look at the URL of the item.  The fetcher follows redirects, and the
page is stored under the URL to which they lead.

To say which budget a page was charged to, the pipeline is run next to a ledger of the
domains that were charged.  The guards apply to the stored page exactly when the redirects
stay within the scope of the item (`SameScope`): they keep the registered domain and do not
lead to a URL that the robots rules forbid.
-/

namespace WebCrawler

open Lib

variable {ν ω : Type}

/-- A program on the network side, next to the ledger of the domains charged. -/
def besideLedger {α : Type} (x : EStateM PyError ν α) : EStateM PyError (ν × List String) α :=
  zoom Prod.fst (fun n p => (n, p.2)) x

/-- The politeness rules next to the ledger. -/
def Politeness.besideLedger (p : Politeness ν) : Politeness (ν × List String) where
  respectRobots := p.respectRobots
  defaultCrawlDelayMs := p.defaultCrawlDelayMs
  robotsAllowed url := WebCrawler.besideLedger (p.robotsAllowed url)
  robotsCrawlDelay url := WebCrawler.besideLedger (p.robotsCrawlDelay url)
  acquire host rate := WebCrawler.besideLedger (p.acquire host rate)

lemma preserves_besideLedger {α : Type} (x : EStateM PyError ν α) (charged : List String) :
    Preserves (fun p : ν × List String => p.2 = charged) (besideLedger x) :=
  preserves_zoom x fun _ _ h => h

namespace Politeness

variable {p : Politeness ν}

lemma preserves_allowed (url : String) (charged : List String) :
    Preserves (fun n : ν × List String => n.2 = charged) (p.besideLedger.allowed url) := by
  rw [allowed]
  split_ifs
  · refine Preserves.bind (preserves_besideLedger _ charged).attempt ?_
    intro _ r _ _
    cases r with
    | ok b => exact preserves_pure b
    | error e => exact preserves_pure true
  · exact preserves_pure true

lemma preserves_effectiveDelayMs (url : String) (charged : List String) :
    Preserves (fun n : ν × List String => n.2 = charged)
      (p.besideLedger.effectiveDelayMs url) := by
  rw [effectiveDelayMs]
  split_ifs
  · refine Preserves.bind (preserves_besideLedger _ charged).attempt ?_
    intro _ r _ _
    split
    · exact preserves_pure _
    · exact preserves_pure _
  · exact preserves_pure _

lemma preserves_slot (U : UrlUtils) (url : String) (charged : List String) :
    Preserves (fun n : ν × List String => n.2 = charged) (p.besideLedger.slot U url) := by
  refine Preserves.bind (preserves_ofExcept _) ?_
  intro _ host _ _
  refine Preserves.bind (preserves_effectiveDelayMs url charged) ?_
  intro _ delayMs _ _
  split_ifs
  · exact preserves_besideLedger _ charged
  · exact preserves_pure _

end Politeness

namespace Pipeline

variable (P : Pipeline ν ω) (tryConsume : String → EStateM PyError ν Bool)

/-- The pipeline with a domain budget, next to the ledger of the domains to which a page was
charged. -/
def charging : Pipeline (ν × List String) ω where
  urls := P.urls
  tools := P.tools
  fetch url headers := besideLedger (P.fetch url headers)
  sink := P.sink
  politeness := P.politeness.map Politeness.besideLedger
  contentDedup := P.contentDedup
  objectStore := P.objectStore
  conditionalGet := P.conditionalGet
  circuitBreaker := P.circuitBreaker
  domainBudget := some fun domain p =>
    match (tryConsume domain).run p.1 with
    | .ok granted n => .ok granted (n, if granted then p.2 ++ [domain] else p.2)
    | .error e n => .error e (n, p.2)

variable {P tryConsume} {c : Readings} {item : FrontierItem} {r : ProcessResult}
  {s s' : PipelineState (ν × List String) ω}

lemma preserves_onNet {α : Type} {x : EStateM PyError (ν × List String) α}
    {charged : List String} (h : Preserves (fun n : ν × List String => n.2 = charged) x) :
    Preserves (fun s : PipelineState (ν × List String) ω => s.net.2 = charged) (onNet x) :=
  h.zoom (fun _ hs => hs) fun _ _ _ ht => ht

/-- The fetch and the storage of the page charge nothing. -/
lemma preserves_fetchAndStore (c : Readings) (item : FrontierItem) (host : String)
    (charged : List String) :
    Preserves (fun s : PipelineState (ν × List String) ω => s.net.2 = charged)
      ((P.charging tryConsume).fetchAndStore c item host) := by
  refine Preserves.bind (preserves_zoom _ fun _ _ h => h) ?_
  intro _ headers _ _
  refine Preserves.bind (preserves_onNet ?_) ?_
  · refine Preserves.bind ?_ fun _ _ _ _ => preserves_besideLedger _ charged
    rw [enterSlot]
    cases hp : P.politeness with
    | none =>
        simp only [charging, hp, Option.map_none]
        exact preserves_pure _
    | some p =>
        simp only [charging, hp, Option.map_some]
        exact Politeness.preserves_slot _ _ charged
  · intro _ result _ _
    refine Preserves.bind ?_ ?_
    · rw [recordOutcome]
      split
      · exact preserves_pure _
      · refine preserves_of_finalState ?_
        intro s hs
        simp only [EStateM.run]
        split_ifs
        · exact hs
        · exact hs
    · intro _ _ _ _
      split_ifs
      · exact preserves_pure _
      · exact preserves_pure _
      · exact preserves_zoom _ fun _ _ h => h

/-- The budget is asked about the domain of the item, which is charged if it is granted. -/
lemma ledger_of_granted
    (h : ((P.charging tryConsume).checkBudget item).run s = .ok true s') :
    ∃ domain, P.urls.registeredDomain item.url = .ok domain ∧
      s'.net.2 = s.net.2 ++ [domain] := by
  obtain ⟨domain, hdomain, h⟩ := run_ofExcept_bind_eq_ok.1 h
  obtain ⟨n, hn, rfl⟩ := run_zoom_eq_ok.1 h
  refine ⟨domain, hdomain, ?_⟩
  simp only [EStateM.run] at hn
  split at hn
  · obtain ⟨rfl, rfl⟩ := EStateM.Result.ok.inj hn
    rfl
  · exact absurd hn (by simp)

/-- A page that is fetched was charged once, to the domain of the item. -/
lemma ledger_of_fetched (h : ((P.charging tryConsume).process c item).run s = .ok r s')
    (hfetched : r.fetched = true) :
    ∃ domain, P.urls.registeredDomain item.url = .ok domain ∧
      s'.net.2 = s.net.2 ++ [domain] := by
  obtain ⟨host, s₁, s₂, s₃, hhost, h₁, h₂, h₃, hrun⟩ := guards_of_fetched h hfetched
  have hrobots : s₁.net.2 = s.net.2 := by
    have hpres : Preserves (fun t : PipelineState (ν × List String) ω => t.net.2 = s.net.2)
        ((P.charging tryConsume).checkRobots item) := by
      rw [checkRobots]
      cases hp : P.politeness with
      | none =>
          simp only [charging, hp, Option.map_none]
          exact preserves_pure _
      | some p =>
          simp only [charging, hp, Option.map_some]
          exact preserves_onNet (Politeness.preserves_allowed _ _)
    exact (hpres s rfl).1 true s₁ h₁
  have hbreaker : s₂.net = s₁.net := (checkBreaker_eq_ok hhost h₂).1
  obtain ⟨domain, hdomain, hbudget⟩ := ledger_of_granted h₃
  have hrest := ((preserves_fetchAndStore c item host s₃.net.2) s₃ rfl).1 r s' hrun
  exact ⟨domain, hdomain, by rw [hrest, hbudget, hbreaker, hrobots]⟩

/-- The page that is saved was let through by the guards for the URL under which it is saved:
the robots rules allow it, and the page is charged to its domain. -/
structure GuardsApply (P : Pipeline (ν × List String) ω)
    (s s' : PipelineState (ν × List String) ω) (url : String) : Prop where
  robots : P.RobotsAllow url s.net
  charged : ∃ domain, P.urls.registeredDomain url = .ok domain ∧ s'.net.2 = s.net.2 ++ [domain]

/-- The response comes from the registered domain of the item. -/
def KeepsDomain (P : Pipeline ν ω) (item : FrontierItem) (response : FetchResult) : Prop :=
  (do P.urls.registeredDomain (← P.canonical item response)) = P.urls.registeredDomain item.url

instance (P : Pipeline ν ω) (item : FrontierItem) (response : FetchResult) :
    Decidable (P.KeepsDomain item response) :=
  inferInstanceAs (Decidable (_ = _))

/-- The response comes from the registered domain of the item, and from a URL that the robots
rules allow if they allow the item's. -/
structure SameScope (P : Pipeline ν ω) (item : FrontierItem) (response : FetchResult) (n : ν) :
    Prop where
  domain : P.KeepsDomain item response
  robots : ∀ url, P.canonical item response = .ok url →
    P.RobotsAllow item.url n → P.RobotsAllow url n

/-- The domain of the URL under which the response is stored. -/
lemma keepsDomain_iff {P : Pipeline ν ω} {response : FetchResult} {url : String}
    (hurl : P.canonical item response = .ok url) :
    P.KeepsDomain item response ↔
      P.urls.registeredDomain url = P.urls.registeredDomain item.url := by
  rw [KeepsDomain, hurl]
  rfl

/-- The record of a page is saved under the URL of the response. -/
lemma record_of_process {P : Pipeline ν ω} {s s' : PipelineState ν ω} {record : PageRecord}
    {answers : String → FetchResult}
    (hfetch : ∀ url headers n x n', (P.fetch url headers).run n = .ok x n' → x = answers url)
    (h : (P.process c item).run s = .ok r s') (hrecord : r.record = some record) :
    r.fetched = true ∧ P.RobotsAllow item.url s.net ∧
      P.canonical item (answers item.url) = .ok record.url := by
  have hprocessed := processed_of_process h
  cases hprocessed with
  | robots => exact absurd hrecord (by simp)
  | circuitOpen => exact absurd hrecord (by simp)
  | budgetExhausted => exact absurd hrecord (by simp)
  | fetchError => exact absurd hrecord (by simp)
  | notModified => exact absurd hrecord (by simp)
  | stored _ _ hanswer _ _ hpage =>
      obtain ⟨hfetched, -, -⟩ := storePage_eq_ok hpage
      obtain ⟨host, s₁, -, -, -, h₁, -⟩ := guards_of_fetched h hfetched
      obtain ⟨-, -, hrobots⟩ := checkRobots_eq_ok h₁
      obtain ⟨url, domain, p, w₁, record', w₂, -, -, -, hsaved, hurl⟩ := storePage_saves hpage
      rw [hrecord, Option.some.injEq] at hsaved
      rw [hfetch _ _ _ _ _ hanswer] at hurl
      exact ⟨hfetched, hrobots.1 rfl, hsaved ▸ hurl⟩

/-- The ledger does not change the answers of the fetcher. -/
lemma fetch_charging {answers : String → FetchResult}
    (hfetch : ∀ url headers n x n', (P.fetch url headers).run n = .ok x n' → x = answers url) :
    ∀ url headers n x n', ((P.charging tryConsume).fetch url headers).run n = .ok x n' →
      x = answers url := by
  intro url headers n x n' h
  obtain ⟨m, hm, -⟩ := run_zoom_eq_ok.1 h
  exact hfetch url headers _ x m hm

lemma guardsApply_iff {record : PageRecord} {answers : String → FetchResult}
    (hfetch : ∀ url headers n x n', (P.fetch url headers).run n = .ok x n' → x = answers url)
    (h : ((P.charging tryConsume).process c item).run s = .ok r s')
    (hrecord : r.record = some record) :
    GuardsApply (P.charging tryConsume) s s' record.url ↔
      SameScope (P.charging tryConsume) item (answers item.url) s.net := by
  obtain ⟨hfetched, hallow, hurl⟩ := record_of_process (fetch_charging hfetch) h hrecord
  obtain ⟨domain, hdomain, hledger⟩ := ledger_of_fetched h hfetched
  have hdomain : (P.charging tryConsume).urls.registeredDomain item.url = .ok domain := hdomain
  have hkeep := keepsDomain_iff hurl
  rw [hdomain] at hkeep
  constructor
  · intro hguards
    obtain ⟨domain', hdomain', hcharged⟩ := hguards.charged
    rw [hledger, List.append_cancel_left_eq, List.cons.injEq] at hcharged
    refine ⟨hkeep.2 (hcharged.1 ▸ hdomain'), ?_⟩
    intro url hurl' _
    rw [hurl, Except.ok.injEq] at hurl'
    exact hurl' ▸ hguards.robots
  · intro hscope
    exact ⟨hscope.robots _ hurl hallow, domain, hkeep.1 hscope.domain, hledger⟩

end Pipeline

namespace CrawlEngine

variable (E : CrawlEngine) (U : UrlUtils)

/-- The registered domain of the URL is one of those to which the crawl is restricted. -/
structure InDomains (seeds : List String) (url : String) : Prop where
  allowed : ∀ ds, E.allowedDomains = some ds → ∃ d ∈ ds, U.registeredDomain url = .ok d
  same_domain : E.allowedDomains = none → E.sameDomainOnly = true →
    ∃ d ∈ seedDomains U seeds, U.registeredDomain url = .ok d

/-- The pages saved for items that are not seeds lie in the domains of the crawl. -/
def InScope (site : Site) (seeds : List String) (s : EngineState) : Prop :=
  ∀ item ∈ s.visits, ¬ IsSeed U seeds item → ∀ r record, site item = .ok r →
    r.record = some record → E.InDomains U seeds record.url

/-- The item that is taken next is answered from its own registered domain. -/
def KeepsDomain (P : Pipeline ν ω) (answers : String → FetchResult) (s : EngineState) (a : Act) :
    Prop :=
  a = .get → ∀ item ∈ s.frontier.queue.head?, P.KeepsDomain item (answers item.url)

variable {E} {P : Pipeline ν ω} {answers : String → FetchResult} {site : Site}
  {seeds : List String} {crawlId : Option ℤ} {s t : EngineState} {a : Act}

/-- An item on the queue that is not a seed has passed the domain filter. -/
lemma inDomains_of_mem_put (h : Provenance E U site seeds s) {item : FrontierItem}
    (hput : item ∈ s.put) (hseed : ¬ IsSeed U seeds item) : E.InDomains U seeds item.url := by
  rcases h.origin item hput with hs | ⟨hperm, -⟩
  · exact absurd hs hseed
  · exact ⟨hperm.allowed, hperm.same_domain⟩

/-- Only taking an item from the queue adds to the visits. -/
lemma InScope.step
    (hsite : ∀ item r record, site item = .ok r → r.record = some record →
      P.canonical item (answers item.url) = .ok record.url)
    (hl : s.Ledger) (hp : Provenance E P.urls site seeds s) (h : E.InScope P.urls site seeds s)
    (hkeep : KeepsDomain P answers s a) (hm : Moves E P.urls site s a t) :
    E.InScope P.urls site seeds t := by
  cases hm with
  | @visit item rest hq hc hproc hrun =>
      intro i hi hseed r record hr hrecord
      rcases List.mem_append.1 hi with hi | hi
      · exact h i hi hseed r record hr hrecord
      · obtain rfl := List.mem_singleton.1 hi
        have hput : i ∈ s.put := by
          rw [hl.put_eq, hq]
          simp
        have hdom := hkeep rfl i (by simp [hq])
        have hin := inDomains_of_mem_put P.urls hp hput hseed
        rw [Pipeline.keepsDomain_iff (hsite i r record hr hrecord)] at hdom
        constructor
        · intro ds hds
          rw [hdom]
          exact hin.allowed ds hds
        · intro hnone hsame
          rw [hdom]
          exact hin.same_domain hnone hsame
  | skip hq hc hproc hrun => exact h
  | raised hs he => exact h
  | leaf hs hr hstop => exact h
  | expand hs hr hdup hd => exact h
  | pass hs hno => exact h
  | enqueue hs hadm hnew => exact h
  | cut hs he => exact h
  | exhausted hs => exact h
  | done hs hu => exact h

/-- Every run in which the pages come from the domains of their items. -/
lemma inScope_of_reachable
    (hsite : ∀ item r record, site item = .ok r → r.record = some record →
      P.canonical item (answers item.url) = .ok record.url)
    (h : (E.machine P.urls site seeds crawlId).ReachableBy (KeepsDomain P answers) s) :
    E.InScope P.urls site seeds s := by
  refine Machine.ReachableBy.inv_of (J := fun s => s.Ledger ∧ Provenance E P.urls site seeds s)
    (fun s hs => ⟨ledger_of_reachable hs.reachable, provenance_of_reachable hs.reachable⟩) ?_
    (fun s a t hJ _ hI hkeep hst => hI.step hsite hJ.1 hJ.2 hkeep (moves_of_step hst)) h
  intro item hitem
  have hvisits : (start P.urls seeds crawlId).visits = [] := (start_fields _ _ _).2.2.1
  rw [show (E.machine P.urls site seeds crawlId).init.visits = [] from hvisits] at hitem
  exact absurd hitem List.not_mem_nil

/-- **The guards and the stored pages.**  A page that is saved was let through for the URL
under which it is saved exactly when its redirects stay within the scope of the item; and in
a run whose redirects keep the registered domain, the pages saved for items that are not
seeds lie in the domains of the crawl. -/
theorem guards_of_stored_pages (E : CrawlEngine) (P : Pipeline ν ω)
    (tryConsume : String → EStateM PyError ν Bool) (answers : String → FetchResult)
    (hfetch : ∀ url headers n x n', (P.fetch url headers).run n = .ok x n' → x = answers url) :
    (∀ c item s r s' record, ((P.charging tryConsume).process c item).run s = .ok r s' →
      r.record = some record →
      (Pipeline.GuardsApply (P.charging tryConsume) s s' record.url ↔
        Pipeline.SameScope (P.charging tryConsume) item (answers item.url) s.net)) ∧
    ∀ (site : Site) (seeds : List String) (crawlId : Option ℤ) (s : EngineState),
      (∀ item r, site item = .ok r →
        ∃ c s s', ((P.charging tryConsume).process c item).run s = .ok r s') →
      (E.machine P.urls site seeds crawlId).ReachableBy (KeepsDomain P answers) s →
      E.InScope P.urls site seeds s := by
  refine ⟨fun c item s r s' record h hrecord => Pipeline.guardsApply_iff hfetch h hrecord, ?_⟩
  intro site seeds crawlId s hsite hreach
  refine inScope_of_reachable ?_ hreach
  intro item r record hr hrecord
  obtain ⟨c, s₁, s₂, hrun⟩ := hsite item r hr
  exact (Pipeline.record_of_process (Pipeline.fetch_charging hfetch) hrun hrecord).2.2

/-- The pages of a site whose page `http://a.org/` links to `http://a.org/b`, which is answered
from another URL. -/
def linked (finalUrl url : String) : FetchResult :=
  if url = "http://a.org/" then Pipeline.htmlResponse
  else { Pipeline.textResponse with finalUrl := finalUrl }

/-- A pipeline on such a site. -/
def leading (finalUrl : String) : Pipeline Unit Stores :=
  { Pipeline.answering Pipeline.htmlResponse with fetch := fun url _ => pure (linked finalUrl url) }

/-- The pipeline with a budget that grants every page. -/
def leadingCharged (finalUrl : String) : Pipeline (Unit × List String) Stores :=
  (leading finalUrl).charging fun _ => pure true

/-- A pipeline as the engine sees it. -/
def siteOf (P : Pipeline ν ω) (s : PipelineState ν ω) : Site := fun item =>
  match (P.process ⟨0, 0⟩ item).run s with
  | .ok r _ => .ok r
  | .error e _ => .error e

lemma siteOf_eq_ok {s : PipelineState ν ω} {item : FrontierItem} {r : ProcessResult}
    (h : siteOf P s item = .ok r) : ∃ s', (P.process ⟨0, 0⟩ item).run s = .ok r s' := by
  rw [siteOf] at h
  cases hrun : (P.process ⟨0, 0⟩ item).run s with
  | ok r' s' =>
      simp only [hrun, Except.ok.injEq] at h
      exact ⟨s', h ▸ rfl⟩
  | error e s' =>
      simp only [hrun] at h
      cases h

/-- The site as the engine sees it, with empty stores. -/
def leadingSite (finalUrl : String) : Site := siteOf (leadingCharged finalUrl) ⟨{}, ((), []), {}⟩

/-- A page of `a.org` that redirects to another page of `a.org`, alone and in a crawl. -/
theorem guards_of_stored_pages_sameDomain :
    (∃ r s' record,
      ((leadingCharged "http://a.org/c").process ⟨0, 0⟩ { url := "http://a.org/b" }).run
        ⟨{}, ((), []), {}⟩ = .ok r s' ∧ r.record = some record ∧
      Pipeline.GuardsApply (leadingCharged "http://a.org/c") ⟨{}, ((), []), {}⟩ s'
        record.url) ∧
    ∃ s, (machine {} plainUrls (leadingSite "http://a.org/c") ["http://a.org/"] none).ReachableBy
        (KeepsDomain (leading "http://a.org/c") (linked "http://a.org/c")) s ∧
      { url := "http://a.org/b", depth := 1 } ∈ s.visits ∧
      InScope {} plainUrls (leadingSite "http://a.org/c") ["http://a.org/"] s := by
  obtain ⟨hguards, hscope⟩ := guards_of_stored_pages {} (leading "http://a.org/c")
    (fun _ => pure true) (linked "http://a.org/c")
    fun url headers n x n' h => (run_pure_eq_ok.1 h).1.symm
  refine ⟨⟨_, _, _, rfl, rfl, (hguards ⟨0, 0⟩ { url := "http://a.org/b" } _ _ _ _ rfl rfl).2 ?_⟩,
    ?_⟩
  · exact ⟨by decide, fun _ _ _ p hp => by cases hp⟩
  · have hinit : (machine {} plainUrls (leadingSite "http://a.org/c") ["http://a.org/"]
        none).ReachableBy (KeepsDomain (leading "http://a.org/c") (linked "http://a.org/c")) _ :=
      .init
    have hseed := hinit.step (a := .get) (by rintro - item ⟨⟩; decide) rfl
    have hlinks := hseed.step (a := .result 0) nofun rfl
    have hlink := hlinks.step (a := .link 0) nofun rfl
    have hpage := hlink.step (a := .get) (by rintro - item ⟨⟩; decide) rfl
    refine ⟨_, hpage, by decide, hscope _ _ _ _ ?_ hpage⟩
    intro item r hr
    obtain ⟨s', hs'⟩ := siteOf_eq_ok hr
    exact ⟨_, _, s', hs'⟩

/-- A crawl of `a.org` stores a page of `b.org`, which it has charged to `a.org`. -/
theorem redirect_leaves_scope :
    (∃ r s' record,
      ((leadingCharged "http://b.org/").process ⟨0, 0⟩ { url := "http://a.org/b" }).run
        ⟨{}, ((), []), {}⟩ = .ok r s' ∧ r.record = some record ∧
      ¬ Pipeline.GuardsApply (leadingCharged "http://b.org/") ⟨{}, ((), []), {}⟩ s'
        record.url) ∧
    ∃ s, (machine {} plainUrls (leadingSite "http://b.org/") ["http://a.org/"] none).Reachable s ∧
      ¬ InScope {} plainUrls (leadingSite "http://b.org/") ["http://a.org/"] s := by
  refine ⟨⟨_, _, _, rfl, rfl, ?_⟩, _, Machine.reachableBy_of_exec
    [.get, .result 0, .link 0, .get] rfl, ?_⟩
  · intro h
    obtain ⟨domain, hdomain, hcharged⟩ := h.charged
    have hb : domain = "b.org" := (Except.ok.inj hdomain).symm
    have ha : ["a.org"] = [domain] := hcharged
    exact absurd (hb ▸ ha) (by decide)
  · intro h
    have hin := h { url := "http://a.org/b", depth := 1 } (by decide)
      (fun hseed => absurd hseed.2 (by decide)) _ _ rfl rfl
    obtain ⟨d, hd, hdomain⟩ := hin.same_domain rfl rfl
    obtain rfl : d = "b.org" := (Except.ok.inj hdomain).symm
    exact absurd hd (by decide)

end CrawlEngine

end WebCrawler
