import WebCrawler.Engine.Loop

/-!
# The invariant of the single-node engine

Two invariants of every state of every run, whatever the site answers and in
whatever order the workers are scheduled.

* `Ledger`: the bookkeeping of the frontier.  What was put on the queue is what
  was taken followed by what is still queued, no URL is put twice, the seen-set
  is the set of the URLs ever put, and the counter of unfinished tasks counts the
  queued items and the items being handled.
* `Provenance`: where the items come from.  An item is a seed of depth zero, or a
  link of an item that was taken, one level deeper, that passed the filters.
-/

namespace WebCrawler

open Lib

namespace EngineState

lemma add_of_mem {s : EngineState} {item : FrontierItem} (h : item.url ∈ s.frontier.seen) :
    s.add item = s := by
  simp [add, MemoryFrontier.add_of_mem h]

lemma add_of_notMem {s : EngineState} {item : FrontierItem} (h : item.url ∉ s.frontier.seen) :
    s.add item =
      { s with
        frontier :=
          { queue := s.frontier.queue ++ [item]
            unfinished := s.frontier.unfinished + 1
            seen := insert item.url s.frontier.seen }
        put := s.put ++ [item] } := by
  simp [add, MemoryFrontier.add_of_notMem h]

/-- The bookkeeping of the frontier. -/
structure Ledger (s : EngineState) : Prop where
  put_eq : s.put = s.taken ++ s.frontier.queue
  nodup : (s.put.map (·.url)).Nodup
  mem_seen : ∀ u, u ∈ s.frontier.seen ↔ u ∈ s.put.map (·.url)
  unfinished_eq : s.frontier.unfinished = s.frontier.queue.length + s.tasks.length
  taken_perm : s.taken.Perm (s.finished ++ s.tasks.map (·.item))

namespace Ledger

variable {s : EngineState}

lemma seen_eq (h : Ledger s) : s.frontier.seen = (s.put.map (·.url)).toFinset := by
  ext u
  rw [h.mem_seen, List.mem_toFinset]

lemma empty : Ledger {} := by
  constructor <;> simp

/-- Only the items of the tasks matter. -/
lemma retask (h : Ledger s) {ts : List Task} (n : ℕ)
    (hts : ts.map (·.item) = s.tasks.map (·.item)) :
    Ledger { s with processed := n, tasks := ts } := by
  have hlen : ts.length = s.tasks.length := by
    simpa using congrArg List.length hts
  exact ⟨h.put_eq, h.nodup, h.mem_seen, by simpa [hlen] using h.unfinished_eq,
    by simpa [hts] using h.taken_perm⟩

lemma add (h : Ledger s) (item : FrontierItem) : Ledger (s.add item) := by
  by_cases hmem : item.url ∈ s.frontier.seen
  · rw [add_of_mem hmem]
    exact h
  · rw [add_of_notMem hmem]
    -- a URL outside the seen-set was never put on the queue
    have hput : item.url ∉ s.put.map (·.url) := fun hc => hmem ((h.mem_seen _).2 hc)
    refine ⟨?_, ?_, ?_, ?_, h.taken_perm⟩
    · simp [h.put_eq]
    · rw [List.map_append, List.map_singleton, List.nodup_append]
      refine ⟨h.nodup, by simp, ?_⟩
      rintro u hu v hv rfl
      exact hput (by simpa [List.mem_singleton.1 hv] using hu)
    · intro u
      rw [Finset.mem_insert, h.mem_seen, List.map_append, List.mem_append, List.map_singleton,
        List.mem_singleton, or_comm]
    · have := h.unfinished_eq
      simp only [List.length_append, List.length_singleton]
      omega

lemma take (h : Ledger s) {item : FrontierItem} {rest : List FrontierItem}
    (hq : s.frontier.queue = item :: rest) (st : Stage) (visits : List FrontierItem) :
    Ledger
      { s with
        frontier := { s.frontier with queue := rest }
        tasks := s.tasks ++ [⟨item, st⟩]
        taken := s.taken ++ [item]
        visits := visits } := by
  refine ⟨?_, h.nodup, h.mem_seen, ?_, ?_⟩
  · simp [h.put_eq, hq]
  · have := h.unfinished_eq
    rw [hq] at this
    simp only [List.length_append, List.length_cons, List.length_nil] at this ⊢
    omega
  · simpa using h.taken_perm.append_right [item]

lemma finish (h : Ledger s) {item : FrontierItem} {st : Stage} {pre post : List Task}
    (hs : s.tasks = pre ++ ⟨item, st⟩ :: post) :
    Ledger
      { s with
        frontier := { s.frontier with unfinished := s.frontier.unfinished - 1 }
        tasks := pre ++ post
        finished := s.finished ++ [item] } := by
  refine ⟨h.put_eq, h.nodup, h.mem_seen, ?_, ?_⟩
  · have := h.unfinished_eq
    rw [hs] at this
    simp only [List.length_append, List.length_cons] at this ⊢
    omega
  · refine h.taken_perm.trans ?_
    rw [hs, List.append_assoc, List.map_append, List.map_cons, List.map_append]
    exact List.perm_middle.append_left _

/-- Every step keeps the books. -/
lemma step {E : CrawlEngine} {U : UrlUtils} {site : Site} {t : EngineState} {a : Act}
    (h : Ledger s) (hm : CrawlEngine.Moves E U site s a t) : Ledger t := by
  cases hm with
  | skip hq hc hp => exact h.take hq .finishing s.visits
  | visit hq hc hp => exact h.take hq .fetching _
  | raised hs he => exact h.retask s.processed (by simp [hs])
  | leaf hs hr hstop => exact h.retask _ (by simp [hs])
  | expand hs hr hdup hd => exact h.retask _ (by simp [hs])
  | pass hs hno => exact h.retask s.processed (by simp [hs])
  | @enqueue item pre post l rest hs hadm hnew =>
      have hts : (pre ++ ⟨item, .linking rest⟩ :: post).map (·.item) =
          (s.add (child item l)).tasks.map (·.item) := by
        simp [EngineState.add, hs]
      have hnext := (h.add (child item l)).retask s.processed hts
      rwa [add_of_notMem (by simpa using hnew)] at hnext
  | cut hs he => exact h.retask s.processed (by simp [hs])
  | exhausted hs => exact h.retask s.processed (by simp [hs])
  | done hs hu => exact h.finish hs

end Ledger

end EngineState

namespace CrawlEngine

variable {E : CrawlEngine} {U : UrlUtils} {site : Site} {seeds : List String}
  {crawlId : Option ℤ} {s t : EngineState} {a : Act}

/-! ### Seeding -/

/-- The canonical URLs of the seeds. -/
def seedUrls (U : UrlUtils) (seeds : List String) : List String :=
  seeds.filterMap fun raw => (U.normalizeUrl raw).toOption.join

/-- The registered domains of the seeds. -/
def seedDomains (U : UrlUtils) (seeds : List String) : List String :=
  (seedUrls U seeds).filterMap fun url => (U.registeredDomain url).toOption

/-- No seed raises. -/
def SeedsRead (U : UrlUtils) (seeds : List String) : Prop :=
  ∀ raw ∈ seeds, (readSeed U raw).isOk = true

instance (U : UrlUtils) (seeds : List String) : Decidable (SeedsRead U seeds) :=
  inferInstanceAs (Decidable (∀ raw ∈ seeds, _))

lemma mem_seedUrls {u : String} :
    u ∈ seedUrls U seeds ↔ ∃ raw ∈ seeds, U.normalizeUrl raw = .ok (some u) := by
  rw [seedUrls, List.mem_filterMap]
  refine exists_congr fun raw => and_congr_right ?_
  intro _
  cases U.normalizeUrl raw <;> simp [Except.toOption]

lemma mem_seedDomains {d : String} :
    d ∈ seedDomains U seeds ↔ ∃ u ∈ seedUrls U seeds, U.registeredDomain u = .ok d := by
  rw [seedDomains, List.mem_filterMap]
  refine exists_congr fun u => and_congr_right ?_
  intro _
  cases U.registeredDomain u <;> simp [Except.toOption]

/-- A turn of the seeding loop drops the seed or adds its URL. -/
lemma seed_eq_ok {raw : String} (h : seed U crawlId s raw = .ok t) :
    (U.normalizeUrl raw = .ok none ∧ t = s) ∨
    ∃ url domain, U.normalizeUrl raw = .ok (some url) ∧ U.registeredDomain url = .ok domain ∧
      t = { s with seedDomains := insert domain s.seedDomains }.add
        { url := url, depth := 0, crawlId := crawlId } := by
  rw [seed, readSeed] at h
  rcases hraw : U.normalizeUrl raw with e | _ | url
  · simp [hraw, bind, Except.bind] at h
  · refine Or.inl ⟨rfl, ?_⟩
    simpa [hraw, bind, Except.bind, pure, Except.pure, eq_comm] using h
  · rcases hdom : U.registeredDomain url with e | domain
    · simp [hraw, hdom, bind, Except.bind] at h
    · refine Or.inr ⟨url, domain, rfl, hdom, ?_⟩
      simpa [hraw, hdom, bind, Except.bind, pure, Except.pure, eq_comm] using h

lemma isOk_seed (s : EngineState) (raw : String) :
    (seed U crawlId s raw).isOk = (readSeed U raw).isOk := by
  rw [seed]
  rcases readSeed U raw with e | _ | p <;> rfl

/-- The invariant rule for the seeding loop. -/
lemma seedAll_inv {I : EngineState → Prop} (hs : I s)
    (hseed : ∀ s t, ∀ raw ∈ seeds, I s → seed U crawlId s raw = .ok t → I t)
    (habort : ∀ s e, I s → I { s with aborted := some e }) : I (seedAll U crawlId s seeds) := by
  induction seeds generalizing s with
  | nil => exact hs
  | cons raw seeds ih =>
      rw [seedAll]
      split
      · exact habort _ _ hs
      · next t ht =>
          exact ih (hseed s t raw List.mem_cons_self hs ht)
            fun s t raw hraw => hseed s t raw (List.mem_cons_of_mem _ hraw)

/-- Adding a seed keeps the books. -/
lemma ledger_seed {raw : String} (h : s.Ledger) (ht : seed U crawlId s raw = .ok t) :
    t.Ledger := by
  rcases seed_eq_ok ht with ⟨-, rfl⟩ | ⟨url, domain, -, -, rfl⟩
  · exact h
  · refine EngineState.Ledger.add ?_ _
    exact ⟨h.put_eq, h.nodup, h.mem_seen, h.unfinished_eq, h.taken_perm⟩

lemma ledger_start (U : UrlUtils) (seeds : List String) (crawlId : Option ℤ) :
    (start U seeds crawlId).Ledger :=
  seedAll_inv (I := EngineState.Ledger) .empty (fun _ _ _ _ h ht => ledger_seed h ht)
    fun _ _ h => ⟨h.put_eq, h.nodup, h.mem_seen, h.unfinished_eq, h.taken_perm⟩

/-- Seeding only fills the frontier. -/
lemma start_fields (U : UrlUtils) (seeds : List String) (crawlId : Option ℤ) :
    (start U seeds crawlId).tasks = [] ∧ (start U seeds crawlId).taken = [] ∧
      (start U seeds crawlId).visits = [] ∧ (start U seeds crawlId).processed = 0 := by
  refine seedAll_inv (I := fun s => s.tasks = [] ∧ s.taken = [] ∧ s.visits = [] ∧
    s.processed = 0) ⟨rfl, rfl, rfl, rfl⟩ ?_ fun _ _ h => h
  intro s t raw _ h ht
  rcases seed_eq_ok ht with ⟨-, rfl⟩ | ⟨url, domain, -, -, rfl⟩
  · exact h
  · exact h

/-- The seeding loop puts the canonical URLs of the seeds on the queue, at depth zero. -/
lemma mem_start_put (seeds : List String) {i : FrontierItem}
    (hi : i ∈ (start U seeds crawlId).put) :
    i.url ∈ seedUrls U seeds ∧ i.depth = 0 ∧ i.crawlId = crawlId := by
  suffices hput : ∀ i ∈ (start U seeds crawlId).put,
      i.url ∈ seedUrls U seeds ∧ i.depth = 0 ∧ i.crawlId = crawlId from hput i hi
  refine seedAll_inv
    (I := fun s => ∀ i ∈ s.put, i.url ∈ seedUrls U seeds ∧ i.depth = 0 ∧ i.crawlId = crawlId)
    (by simp) ?_ fun _ _ h => h
  intro s t raw hraw h ht
  rcases seed_eq_ok ht with ⟨-, rfl⟩ | ⟨url, domain, hurl, -, rfl⟩
  · exact h
  · by_cases hseen : url ∈ s.frontier.seen
    · rw [EngineState.add_of_mem hseen]
      exact h
    · rw [EngineState.add_of_notMem hseen]
      exact forall_mem_append_singleton h ⟨mem_seedUrls.2 ⟨raw, hraw, hurl⟩, rfl, rfl⟩

/-- What one seed adds. -/
lemma mem_seed {raw : String} (ht : seed U crawlId s raw = .ok t) :
    (∀ u, u ∈ t.frontier.seen ↔ u ∈ s.frontier.seen ∨ U.normalizeUrl raw = .ok (some u)) ∧
      ∀ d, d ∈ t.seedDomains ↔ d ∈ s.seedDomains ∨
        ∃ u, U.normalizeUrl raw = .ok (some u) ∧ U.registeredDomain u = .ok d := by
  rcases seed_eq_ok ht with ⟨hurl, rfl⟩ | ⟨url, domain, hurl, hdomain, rfl⟩
  · simp [hurl]
  · have hdomains : ∀ d, d ∈ insert domain s.seedDomains ↔ d ∈ s.seedDomains ∨
        ∃ u, U.normalizeUrl raw = .ok (some u) ∧ U.registeredDomain u = .ok d := by
      intro d
      simp [hurl, hdomain, or_comm, eq_comm]
    by_cases hseen : url ∈ s.frontier.seen
    · rw [EngineState.add_of_mem hseen]
      refine ⟨?_, hdomains⟩
      intro u
      rw [hurl]
      refine ⟨Or.inl, fun h => h.elim id ?_⟩
      intro h
      simp only [Except.ok.injEq, Option.some.injEq] at h
      exact h ▸ hseen
    · rw [EngineState.add_of_notMem hseen]
      refine ⟨?_, hdomains⟩
      intro u
      simp [hurl, or_comm, eq_comm]

/-- When no seed raises, all of them are added. -/
lemma mem_seedAll (hread : SeedsRead U seeds) (s : EngineState) :
    (∀ u, u ∈ (seedAll U crawlId s seeds).frontier.seen ↔
        u ∈ s.frontier.seen ∨ u ∈ seedUrls U seeds) ∧
      ∀ d, d ∈ (seedAll U crawlId s seeds).seedDomains ↔
        d ∈ s.seedDomains ∨ d ∈ seedDomains U seeds := by
  induction seeds generalizing s with
  | nil => simp [seedAll, seedUrls, seedDomains]
  | cons raw seeds ih =>
      have hok : (seed U crawlId s raw).isOk = true :=
        (isOk_seed s raw).trans (hread raw List.mem_cons_self)
      rw [seedAll]
      rcases ht : seed U crawlId s raw with e | t
      · rw [ht] at hok
        exact absurd hok (by simp [Except.isOk, Except.toBool])
      · obtain ⟨hseen, hdomains⟩ := mem_seed ht
        obtain ⟨hseen', hdomains'⟩ := ih (fun raw hraw => hread raw (List.mem_cons_of_mem _ hraw)) t
        constructor
        · intro u
          rw [hseen', hseen, or_assoc]
          simp [mem_seedUrls]
        · intro d
          rw [hdomains', hdomains, or_assoc]
          simp [mem_seedDomains, mem_seedUrls, or_and_right, exists_or]

lemma aborted_seed {raw : String} (ht : seed U crawlId s raw = .ok t) :
    t.aborted = s.aborted := by
  rcases seed_eq_ok ht with ⟨-, rfl⟩ | ⟨url, domain, -, -, rfl⟩
  · rfl
  · rfl

lemma aborted_seedAll (s : EngineState) :
    (seedAll U crawlId s seeds).aborted = none ↔ s.aborted = none ∧ SeedsRead U seeds := by
  induction seeds generalizing s with
  | nil => simp [seedAll, SeedsRead]
  | cons raw seeds ih =>
      have hok : (seed U crawlId s raw).isOk = (readSeed U raw).isOk := isOk_seed s raw
      have hcons : SeedsRead U (raw :: seeds) ↔
          (readSeed U raw).isOk = true ∧ SeedsRead U seeds := List.forall_mem_cons
      rw [seedAll, hcons, ← hok]
      rcases ht : seed U crawlId s raw with e | t
      · simp [Except.isOk, Except.toBool]
      · rw [ih, aborted_seed ht]
        simp [Except.isOk, Except.toBool]

/-- A seed that raises ends the run. -/
lemma aborted_start : (start U seeds crawlId).aborted = none ↔ SeedsRead U seeds := by
  rw [start, aborted_seedAll]
  simp

/-! ### Where the items come from -/

/-- The filters on the URL of a link, in the words of the options: the length
limit, the allow-list if there is one, and the seed domains otherwise. -/
structure Permitted (E : CrawlEngine) (U : UrlUtils) (seeds : List String) (url : String) :
    Prop where
  length_le : (url.length : ℤ) ≤ E.maxUrlLength
  allowed : ∀ ds, E.allowedDomains = some ds → ∃ d ∈ ds, U.registeredDomain url = .ok d
  same_domain : E.allowedDomains = none → E.sameDomainOnly = true →
    ∃ d ∈ seedDomains U seeds, U.registeredDomain url = .ok d

/-- A test of a value that may raise. -/
lemma map_decide_eq_ok_true {α : Type} {x : Except PyError α} {p : α → Prop} [DecidablePred p] :
    (x.map fun a => decide (p a)) = .ok true ↔ ∃ a, p a ∧ x = .ok a := by
  cases x with
  | error e => simp [Except.map]
  | ok a => simp [Except.map]

lemma admits_iff (url : String) :
    E.admits U (seedDomains U seeds).toFinset url = .ok true ↔ Permitted E U seeds url := by
  rw [admits]
  by_cases hlen : (url.length : ℤ) > E.maxUrlLength
  · rw [if_pos hlen]
    refine iff_of_false (by simp) ?_
    intro h
    exact absurd hlen (not_lt.2 h.length_le)
  rw [if_neg hlen]
  rcases hdom : E.allowedDomains with _ | ds
  · by_cases hsame : E.sameDomainOnly = true
    · simp only [if_pos hsame, map_decide_eq_ok_true, List.mem_toFinset]
      exact ⟨fun h => ⟨not_lt.1 hlen, by simp [hdom], fun _ _ => h⟩,
        fun h => h.same_domain hdom hsame⟩
    · simp only [if_neg hsame, true_iff]
      exact ⟨not_lt.1 hlen, by simp [hdom], fun _ h => absurd h hsame⟩
  · simp only [map_decide_eq_ok_true]
    refine ⟨fun h => ⟨not_lt.1 hlen, ?_, by simp [hdom]⟩, ?_⟩
    · intro ds' hds
      rw [hdom, Option.some.injEq] at hds
      exact hds ▸ h
    · intro h
      exact h.allowed ds hdom

/-- The page of `p` has a link to `url`. -/
def LinksTo (site : Site) (p : FrontierItem) (url : String) : Prop :=
  ∃ r, site p = .ok r ∧ url ∈ r.links.map (·.url)

/-- The loop over the links of the page of `p` comes to a link to `url`. -/
def FollowsLink (E : CrawlEngine) (U : UrlUtils) (site : Site) (p : FrontierItem) (url : String) :
    Prop :=
  ∃ r, site p = .ok r ∧ url ∈ (E.followed U r.links).map (·.url)

lemma FollowsLink.linksTo {p : FrontierItem} {url : String} (h : FollowsLink E U site p url) :
    LinksTo site p url := by
  obtain ⟨r, hr, hmem⟩ := h
  exact ⟨r, hr, List.map_subset _ (List.takeWhile_subset _) hmem⟩

/-- The item is a seed. -/
def IsSeed (U : UrlUtils) (seeds : List String) (i : FrontierItem) : Prop :=
  i.url ∈ seedUrls U seeds ∧ i.depth = 0

/-- The item is a permitted link of an item that was taken, one level deeper. -/
def IsChild (E : CrawlEngine) (U : UrlUtils) (site : Site) (seeds : List String)
    (s : EngineState) (i : FrontierItem) : Prop :=
  Permitted E U seeds i.url ∧
    ∃ p ∈ s.taken, p.depth < E.maxDepth ∧ i.depth = p.depth + 1 ∧ FollowsLink E U site p i.url

/-- In its loop over the links, a worker holds an item above the depth limit and
goes through links of its page. -/
def LinkingOk (E : CrawlEngine) (U : UrlUtils) (site : Site) (task : Task) : Prop :=
  ∀ rest, task.stage = .linking rest → task.item.depth < E.maxDepth ∧
    ∃ r, site task.item = .ok r ∧ E.followed U rest ⊆ E.followed U r.links

@[simp] lemma linkingOk_fetching (item : FrontierItem) :
    LinkingOk E U site ⟨item, .fetching⟩ := by
  simp [LinkingOk]

@[simp] lemma linkingOk_finishing (item : FrontierItem) :
    LinkingOk E U site ⟨item, .finishing⟩ := by
  simp [LinkingOk]

@[simp] lemma linkingOk_linking (item : FrontierItem) (rest : List Link) :
    LinkingOk E U site ⟨item, .linking rest⟩ ↔ item.depth < E.maxDepth ∧
      ∃ r, site item = .ok r ∧ E.followed U rest ⊆ E.followed U r.links := by
  simp [LinkingOk]

lemma LinkingOk.tail {item : FrontierItem} {l : Link} {rest : List Link} {ds : Finset String}
    {b : Bool} (hadm : E.admits U ds l.url = .ok b)
    (h : LinkingOk E U site ⟨item, .linking (l :: rest)⟩) :
    LinkingOk E U site ⟨item, .linking rest⟩ := by
  rw [linkingOk_linking] at h ⊢
  obtain ⟨hd, r, hr, hsub⟩ := h
  rw [followed_cons_of_ok rest hadm] at hsub
  exact ⟨hd, r, hr, List.Subset.trans (List.subset_cons_self l _) hsub⟩

/-- Where the items come from. -/
structure Provenance (E : CrawlEngine) (U : UrlUtils) (site : Site) (seeds : List String)
    (s : EngineState) : Prop where
  domains : s.aborted = none → s.seedDomains = (seedDomains U seeds).toFinset
  /-- A seed that raises ends the run before a worker is started. -/
  running : s.tasks ≠ [] → s.aborted = none
  linking : ∀ task ∈ s.tasks, LinkingOk E U site task
  origin : ∀ i ∈ s.put, IsSeed U seeds i ∨ IsChild E U site seeds s i
  nonneg : ∀ i ∈ s.put, 0 ≤ i.depth

lemma provenance_start : Provenance E U site seeds (start U seeds crawlId) := by
  obtain ⟨h1, -⟩ := start_fields U seeds crawlId
  refine ⟨?_, fun hne => absurd h1 hne, by simp [h1], ?_, ?_⟩
  · intro hab
    ext d
    have hmem : d ∈ (seedAll U crawlId {} seeds).seedDomains ↔ _ :=
      (mem_seedAll (aborted_start.1 hab) {}).2 d
    simpa [start] using hmem
  · intro i hi
    obtain ⟨hu, hd, -⟩ := mem_start_put seeds hi
    exact Or.inl ⟨hu, hd⟩
  · intro i hi
    exact (mem_start_put seeds hi).2.1.ge

/-- An item being handled was taken from the queue. -/
lemma mem_taken_of_mem_tasks (hl : s.Ledger) {task : Task} (h : task ∈ s.tasks) :
    task.item ∈ s.taken :=
  hl.taken_perm.mem_iff.2 (List.mem_append_right _ (List.mem_map_of_mem h))

lemma mem_put_of_mem_taken (hl : s.Ledger) {i : FrontierItem} (h : i ∈ s.taken) : i ∈ s.put := by
  rw [hl.put_eq]
  exact List.mem_append_left _ h

lemma Moves.aborted_eq (hm : Moves E U site s a t) : t.aborted = s.aborted := by
  cases hm <;> rfl

/-- Workers make steps only if no seed has raised. -/
lemma Provenance.aborted_eq (h : Provenance E U site seeds s) (hm : Moves E U site s a t) :
    s.aborted = none ∧ t.aborted = none := by
  have hrun : s.aborted = none := by
    cases hm with
    | skip hq hc hp hrun => exact hrun
    | visit hq hc hp hrun => exact hrun
    | raised hs he => exact h.running (by simp [hs])
    | leaf hs hr hstop => exact h.running (by simp [hs])
    | expand hs hr hdup hd => exact h.running (by simp [hs])
    | pass hs hno => exact h.running (by simp [hs])
    | enqueue hs hadm hnew => exact h.running (by simp [hs])
    | cut hs he => exact h.running (by simp [hs])
    | exhausted hs => exact h.running (by simp [hs])
    | done hs hu => exact h.running (by simp [hs])
  exact ⟨hrun, hm.aborted_eq.trans hrun⟩

/-- A step that leaves the frontier's history alone keeps the origins. -/
lemma Provenance.of_tasks (h : Provenance E U site seeds s)
    (hab : s.aborted = none ∧ t.aborted = none) (hd : t.seedDomains = s.seedDomains)
    (hput : t.put = s.put) (htaken : s.taken ⊆ t.taken)
    (hlink : ∀ task ∈ t.tasks, LinkingOk E U site task) : Provenance E U site seeds t := by
  refine ⟨fun _ => hd ▸ h.domains hab.1, fun _ => hab.2, hlink, ?_,
    fun i hi => h.nonneg i (hput ▸ hi)⟩
  intro i hi
  rcases h.origin i (hput ▸ hi) with hs | ⟨hperm, p, hp, hrest⟩
  · exact Or.inl hs
  · exact Or.inr ⟨hperm, p, htaken hp, hrest⟩

/-- Every step keeps the origins. -/
lemma Provenance.step (hl : s.Ledger) (h : Provenance E U site seeds s)
    (hm : Moves E U site s a t) : Provenance E U site seeds t := by
  have hlink := h.linking
  have hab := h.aborted_eq hm
  cases hm with
  | skip hq hc hp =>
      exact h.of_tasks hab rfl rfl (by simp) (forall_mem_append_singleton hlink (by simp))
  | visit hq hc hp =>
      exact h.of_tasks hab rfl rfl (by simp) (forall_mem_append_singleton hlink (by simp))
  | raised hs he =>
      rw [hs] at hlink
      exact h.of_tasks hab rfl rfl (by simp) (forall_mem_replace hlink (by simp))
  | leaf hs hr hstop =>
      rw [hs] at hlink
      exact h.of_tasks hab rfl rfl (by simp) (forall_mem_replace hlink (by simp))
  | expand hs hr hdup hd =>
      rw [hs] at hlink
      refine h.of_tasks hab rfl rfl (by simp) (forall_mem_replace hlink ?_)
      exact (linkingOk_linking _ _).2 ⟨hd, _, hr, List.Subset.refl _⟩
  | @pass item pre post l rest hs hno =>
      rw [hs] at hlink
      refine h.of_tasks hab rfl rfl (by simp) (forall_mem_replace hlink ?_)
      have hok := hlink ⟨item, .linking (l :: rest)⟩ (by simp)
      exact hno.elim (fun hno => hok.tail hno) fun hno => hok.tail hno.1
  | @enqueue item pre post l rest hs hadm hnew =>
      -- the new item is a child of the item that the worker holds
      have htaken : item ∈ s.taken :=
        mem_taken_of_mem_tasks hl (show ⟨item, .linking (l :: rest)⟩ ∈ s.tasks by simp [hs])
      rw [hs] at hlink
      have hok := hlink ⟨item, .linking (l :: rest)⟩ (by simp)
      obtain ⟨hd, r, hr, hsub⟩ := (linkingOk_linking _ _).1 hok
      have hmem : l ∈ E.followed U r.links := hsub (by
        rw [followed_cons_of_ok rest hadm]
        exact List.mem_cons_self)
      have hlink' := forall_mem_replace hlink (hok.tail hadm)
      rw [h.domains hab.1, admits_iff] at hadm
      refine ⟨fun _ => h.domains hab.1, fun _ => hab.2, hlink', ?_, ?_⟩
      · intro i hi
        rcases List.mem_append.1 hi with hi | hi
        · exact h.origin i hi
        · rw [List.mem_singleton.1 hi]
          exact Or.inr ⟨hadm, item, htaken, hd, rfl, r, hr, List.mem_map_of_mem hmem⟩
      · intro i hi
        rcases List.mem_append.1 hi with hi | hi
        · exact h.nonneg i hi
        · have := h.nonneg item (mem_put_of_mem_taken hl htaken)
          rw [List.mem_singleton.1 hi, child_depth]
          omega
  | cut hs he =>
      rw [hs] at hlink
      exact h.of_tasks hab rfl rfl (by simp) (forall_mem_replace hlink (by simp))
  | exhausted hs =>
      rw [hs] at hlink
      exact h.of_tasks hab rfl rfl (by simp) (forall_mem_replace hlink (by simp))
  | done hs hu =>
      rw [hs] at hlink
      exact h.of_tasks hab rfl rfl (by simp) (forall_mem_remove hlink)

/-! ### Every reachable state -/

lemma ledger_of_reachable (h : (E.machine U site seeds crawlId).Reachable s) : s.Ledger :=
  Machine.ReachableBy.inv (ledger_start U seeds crawlId)
    (fun _ _ _ ih _ hst => ih.step (moves_of_step hst)) h

lemma provenance_of_reachable (h : (E.machine U site seeds crawlId).Reachable s) :
    Provenance E U site seeds s :=
  Machine.ReachableBy.inv_of (fun _ => ledger_of_reachable) provenance_start
    (fun _ _ _ hl _ ih _ hst => ih.step hl (moves_of_step hst)) h

/-- Seeds that raise end the run, and no others. -/
lemma aborted_of_reachable (h : (E.machine U site seeds crawlId).Reachable s) :
    s.aborted = none ↔ SeedsRead U seeds := by
  have hstart : (start U seeds crawlId).aborted = none ↔ SeedsRead U seeds := aborted_start
  rw [← hstart]
  refine Machine.ReachableBy.inv
    (I := fun s => s.aborted = none ↔ (start U seeds crawlId).aborted = none) Iff.rfl
    ?_ h
  intro _ _ _ ih _ hst
  rwa [(moves_of_step hst).aborted_eq]

/-- A seed that raises leaves the state as it was then. -/
lemma eq_start_of_aborted (h : (E.machine U site seeds crawlId).Reachable s)
    (hab : s.aborted ≠ none) : s = start U seeds crawlId := by
  cases h with
  | init => rfl
  | step hr _ hst =>
      exact absurd ((provenance_of_reachable hr).aborted_eq (moves_of_step hst)).2 hab

/-- A seed that raises ends the run before any page is visited. -/
lemma visits_of_aborted (h : (E.machine U site seeds crawlId).Reachable s)
    (hab : s.aborted ≠ none) : s.visits = [] := by
  rw [eq_start_of_aborted h hab]
  exact (start_fields U seeds crawlId).2.2.1

/-- Items never lie below the depth limit. -/
lemma Provenance.depth_le (h : Provenance E U site seeds s) (hdepth : 0 ≤ E.maxDepth)
    {i : FrontierItem} (hi : i ∈ s.put) : i.depth ≤ E.maxDepth := by
  rcases h.origin i hi with ⟨-, h0⟩ | ⟨-, p, -, hp, hd, -⟩
  · omega
  · omega

/-- When `join` returns, every item ever put on the queue was taken and marked as done. -/
lemma joined_iff (hl : s.Ledger) :
    s.frontier.Joined ↔ s.frontier.queue = [] ∧ s.tasks = [] := by
  rw [MemoryFrontier.Joined, hl.unfinished_eq, Nat.add_eq_zero_iff, List.length_eq_zero_iff,
    List.length_eq_zero_iff]

/-- **The invariant of the engine.**  In every state of every run: each URL is put
on the queue at most once and the URLs ever put are the seen-set; items have a
depth between zero and the limit; an item that is not a seed is one level below
an item that was taken and links to it, and its URL passes the filters; the
counter of unfinished tasks counts the queued items and those being handled; and
when `join` returns every item put on the queue was taken once and handled. -/
theorem engine_invariant (hdepth : 0 ≤ E.maxDepth)
    (h : (E.machine U site seeds crawlId).Reachable s) :
    (s.put.map (·.url)).Nodup ∧ s.frontier.seen = (s.put.map (·.url)).toFinset ∧
      (∀ i ∈ s.put, 0 ≤ i.depth ∧ i.depth ≤ E.maxDepth) ∧
      (∀ i ∈ s.put, IsSeed U seeds i ∨
        (Permitted E U seeds i.url ∧
          ∃ p ∈ s.taken, i.depth = p.depth + 1 ∧ LinksTo site p i.url)) ∧
      s.frontier.unfinished = s.frontier.queue.length + s.tasks.length ∧
      (s.frontier.Joined → s.taken = s.put ∧ s.finished.Perm s.put) := by
  have hl := ledger_of_reachable h
  have hp := provenance_of_reachable h
  refine ⟨hl.nodup, hl.seen_eq, fun i hi => ⟨hp.nonneg i hi, hp.depth_le hdepth hi⟩,
    ?_, hl.unfinished_eq, ?_⟩
  · intro i hi
    rcases hp.origin i hi with hs | ⟨hperm, p, hmem, -, hd, hlink⟩
    · exact Or.inl hs
    · exact Or.inr ⟨hperm, p, hmem, hd, hlink.linksTo⟩
  · intro hj
    obtain ⟨hq, ht⟩ := (joined_iff hl).1 hj
    have hput : s.taken = s.put := by rw [hl.put_eq, hq, List.append_nil]
    refine ⟨hput, hput ▸ ?_⟩
    simpa [ht] using hl.taken_perm.symm

/-- The number of URLs that `run` reports as discovered is the number of items handled. -/
theorem discovered_eq (h : (E.machine U site seeds crawlId).Reachable s) (hj : s.frontier.Joined) :
    s.stats.discovered = s.finished.length := by
  have hl := ledger_of_reachable h
  obtain ⟨hq, ht⟩ := (joined_iff hl).1 hj
  have hlen := hl.taken_perm.length_eq
  rw [EngineState.stats, MemoryFrontier.seenCount, hl.seen_eq, List.toFinset_card_of_nodup hl.nodup,
    List.length_map, hl.put_eq, hq, List.append_nil, hlen, ht]
  simp

/-- Two pages that link to each other, and to another domain. -/
def twoPagesLinks (u : String) : List Link :=
  if u = "http://a.org/" then [{ url := "http://a.org/b" }, { url := "http://b.org/" }]
  else [{ url := "http://a.org/" }]

/-- The site of `twoPagesLinks`. -/
def twoPages : Site := fun i =>
  .ok { item := i, fetched := true, stored := true, links := twoPagesLinks i.url }

/-- A whole run on `twoPages`, to the point where `join` returns. -/
theorem engine_invariant_twoPages :
    ∃ s, (({ concurrency := 2 } : CrawlEngine).machine plainUrls twoPages
        ["http://a.org/"] none).Reachable s ∧ s.frontier.Joined ∧
      s.put.map (·.url) = ["http://a.org/", "http://a.org/b"] ∧
      s.taken = s.put ∧ s.finished.Perm s.put := by
  have h := Machine.reachableBy_of_exec
    (M := ({ concurrency := 2 } : CrawlEngine).machine plainUrls twoPages ["http://a.org/"] none)
    (P := fun _ _ => True)
    [.get, .result 0, .link 0, .get, .result 1, .link 0, .link 1, .link 0, .done 0,
      .link 0, .done 0] rfl
  obtain ⟨-, -, -, -, -, hjoin⟩ := engine_invariant (by decide) h
  exact ⟨_, h, rfl, rfl, hjoin rfl⟩

end CrawlEngine

end WebCrawler
