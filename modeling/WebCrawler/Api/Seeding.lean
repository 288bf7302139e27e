import WebCrawler.Api.CreateCrawl
import WebCrawler.Lib.Effects
import WebCrawler.Url.Query

/-!
# Creating a crawl when the broker fails

`create_crawl` of `crawler/api/service.py` with its exceptions.  The row of the crawl is
committed in a transaction of its own.  Only then are the seeds published: the topics are
created, a producer is started, and one message is sent for every seed.  Any of these calls may
raise, at any position of the list of seeds, and nothing takes the row back.

The calls to the outside are given by their faults: `none` for a call that succeeds.
-/

namespace WebCrawler

open Lib

/-- The exceptions of the calls to the database and to the broker. -/
structure SeedFaults where
  /-- The transaction that stores the row. -/
  transaction : Option PyError := none
  adminStart : Option PyError := none
  createTopic : String → Option PyError := fun _ => none
  adminStop : Option PyError := none
  producerStart : Option PyError := none
  /-- The message for the seed at some position. -/
  publish : ℕ → Option PyError := fun _ => none
  producerStop : Option PyError := none

/-- The tables of the API and the topics of the broker. -/
structure ApiState where
  crawls : List Crawl := []
  nextId : ℤ := 1
  topics : List String := []
  /-- The messages on the frontier topic. -/
  log : List FrontierMessage := []

/-- A call with its effect, unless it raises. -/
def perform (fault : Option PyError) (effect : ApiState → ApiState) :
    EStateM PyError ApiState PUnit :=
  match fault with
  | none => modify effect
  | some e => throw e

/-- `topic_names`, without their prefix. -/
def topicNames : List String := ["frontier", "parsed", "retry", "dlq"]

namespace SqlCrawlService

variable (F : SeedFaults) (L : UrlLibs) (settings : Settings) (req : CrawlCreate)

/-- The seeds that `normalize_url` accepts. -/
def normalizedSeeds : List String → Except PyError (List String)
  | [] => pure []
  | s :: seeds => do
      let n ← normalizeUrl L (some s.toList) none
      let rest ← normalizedSeeds seeds
      pure ((n.map String.ofList).toList ++ rest)

/-- `session_scope` around the new row: one transaction, which gives the row its id. -/
def storeCrawl (crawl : ℤ → Crawl) : EStateM PyError ApiState ℤ := do
  let s ← get
  perform F.transaction fun s =>
    { s with crawls := s.crawls ++ [crawl s.nextId], nextId := s.nextId + 1 }
  pure s.nextId

/-- One topic of `ensure_topics`; that it exists already is benign. -/
def createTopic (name : String) : EStateM PyError ApiState PUnit := do
  let _ ← attempt (perform (F.createTopic name) fun s => { s with topics := s.topics ++ [name] })
  pure ()

/-- `ensure_topics`. -/
def ensureTopics : EStateM PyError ApiState PUnit := do
  perform F.adminStart id
  ensuring (topicNames.forM (createTopic F)) (perform F.adminStop id)

/-- The loop of `_seed`, with the number of seeds published so far. -/
def publishSeeds (crawlId : ℤ) (count : ℕ) : List String → EStateM PyError ApiState ℕ
  | [] => pure count
  | url :: urls => do
      perform (F.publish count) fun s =>
        { s with log := s.log ++ [{ url := url, depth := 0, crawlId := some crawlId }] }
      publishSeeds crawlId (count + 1) urls

/-- `_seed`. -/
def seed (seeds : List String) (crawlId : ℤ) : EStateM PyError ApiState ℕ :=
  if settings.backend ≠ .kafka ∨ seeds = [] then pure 0
  else do
    ensureTopics F
    perform F.producerStart id
    ensuring (publishSeeds F crawlId 0 seeds) (perform F.producerStop id)

/-- The row of the crawl. -/
def row (normalized : List String) (crawlId : ℤ) : Crawl where
  id := crawlId
  name := req.name
  seeds := normalized
  status := if normalized.isEmpty then .failed else .running
  maxDepth := req.maxDepth
  maxPages := req.maxPages
  allowedDomains := req.allowedDomains

/-- What follows the transaction.  With the memory backend a task is created, which cannot
fail. -/
def startCrawl (normalized : List String) (crawlId : ℤ) : EStateM PyError ApiState ℕ :=
  if normalized.isEmpty then pure 0
  else
    match settings.backend with
    | .kafka => seed F settings normalized crawlId
    | .memory => pure normalized.length

/-- `create_crawl`. -/
def createCrawl : EStateM PyError ApiState CrawlOut := do
  let normalized ← ofExcept (normalizedSeeds L req.seeds)
  let crawlId ← storeCrawl F (row req normalized)
  let seeded ← startCrawl F settings normalized crawlId
  pure { id := crawlId, name := req.name, status := (row req normalized crawlId).status,
         seeds := normalized, maxDepth := req.maxDepth, maxPages := req.maxPages,
         seeded := seeded }

/-! ### When seeding fails -/

/-- No call of `_seed` that could raise does. -/
structure SeedingSucceeds (seeds : ℕ) : Prop where
  adminStart : F.adminStart = none
  adminStop : F.adminStop = none
  producerStart : F.producerStart = none
  publish : ∀ i < seeds, F.publish i = none
  producerStop : F.producerStop = none

variable {F L settings req}

lemma returnsIff_perform (fault : Option PyError) (effect : ApiState → ApiState) :
    ReturnsIff (perform fault effect) (fault = none) := by
  intro s
  cases fault with
  | none => exact iff_of_true ⟨_, _, EStateM.run_modify _ s⟩ rfl
  | some e => exact iff_of_false (by rintro ⟨a, s', h⟩; cases h) (by simp)

lemma returnsIff_ensureTopics :
    ReturnsIff (ensureTopics F) (F.adminStart = none ∧ F.adminStop = none) := by
  have htopic : ∀ name, ReturnsIff (createTopic F name) True := fun name =>
    ((returnsIff_attempt _).bind fun _ => returnsIff_pure _).congr (and_self_iff)
  have hloop : ReturnsIff (topicNames.forM (createTopic F)) True :=
    (returnsIff_forM htopic).congr (by simp)
  exact ((returnsIff_perform _ _).bind fun _ => hloop.ensuring (returnsIff_perform _ _)).congr
    (by rw [true_and])

lemma returnsIff_publishSeeds (crawlId : ℤ) (count : ℕ) (seeds : List String) :
    ReturnsIff (publishSeeds F crawlId count seeds)
      (∀ i < seeds.length, F.publish (count + i) = none) := by
  induction seeds generalizing count with
  | nil => exact (returnsIff_pure _).congr (by simp)
  | cons url seeds ih =>
      refine ((returnsIff_perform _ _).bind fun _ => ih (count + 1)).congr ?_
      rw [List.length_cons, Nat.forall_lt_succ_left]
      simp only [add_zero, add_assoc, add_comm 1]

lemma returnsIff_seed {seeds : List String} (hkafka : settings.backend = .kafka)
    (hne : seeds ≠ []) (crawlId : ℤ) :
    ReturnsIff (seed F settings seeds crawlId) (SeedingSucceeds F seeds.length) := by
  rw [seed, if_neg (by simp [hkafka, hne])]
  refine (returnsIff_ensureTopics.bind fun _ => (returnsIff_perform _ _).bind fun _ =>
    (returnsIff_publishSeeds crawlId 0 seeds).ensuring (returnsIff_perform _ _)).congr ?_
  simp only [zero_add]
  constructor
  · rintro ⟨⟨hstart, hstop⟩, hproducer, hpublish, hend⟩
    exact ⟨hstart, hstop, hproducer, hpublish, hend⟩
  · rintro ⟨hstart, hstop, hproducer, hpublish, hend⟩
    exact ⟨⟨hstart, hstop⟩, hproducer, hpublish, hend⟩

/-! ### What is left of the row -/

section Keep

variable {α : Type} {g : ApiState → α} {a : α}

lemma preserves_perform {fault : Option PyError} {effect : ApiState → ApiState}
    (h : ∀ s, g (effect s) = g s) : Preserves (fun s => g s = a) (perform fault effect) := by
  cases fault with
  | none => exact preserves_modify fun s hs => (h s).trans hs
  | some e => exact preserves_ofExcept (.error e)

/-- `ensure_topics` only adds to the topics. -/
lemma preserves_ensureTopics (h : ∀ s topics, g { s with topics := topics } = g s) :
    Preserves (fun s => g s = a) (ensureTopics F) := by
  have htopic : ∀ name, Preserves (fun s => g s = a) (createTopic F name) := by
    intro name
    refine Preserves.bind (preserves_perform ?_).attempt fun _ _ _ _ => preserves_pure _
    exact fun s => h s _
  refine (preserves_perform fun _ => rfl).bind ?_
  intro _ _ _ _
  exact (Preserves.forM fun name _ => htopic name).ensuring (preserves_perform fun _ => rfl)

/-- Seeding does not touch the crawls. -/
lemma preserves_seed {crawls : List Crawl} (seeds : List String) (crawlId : ℤ) :
    Preserves (fun s => s.crawls = crawls) (seed F settings seeds crawlId) := by
  have hpublish : ∀ seeds count, Preserves (fun s => s.crawls = crawls)
      (publishSeeds F crawlId count seeds) := by
    intro seeds
    induction seeds with
    | nil => exact fun count => preserves_pure _
    | cons url seeds ih =>
        intro count
        refine Preserves.bind (preserves_perform ?_) fun _ _ _ _ => ih _
        exact fun _ => rfl
  rw [seed]
  split_ifs
  · exact preserves_pure _
  · refine (preserves_ensureTopics fun _ _ => rfl).bind ?_
    intro _ _ _ _
    refine (preserves_perform fun _ => rfl).bind ?_
    intro _ _ _ _
    exact (hpublish seeds 0).ensuring (preserves_perform fun _ => rfl)

end Keep

/-- If the call raises, then no row that it has created is left with the status running. -/
def LeavesNoOrphan (F : SeedFaults) (L : UrlLibs) (settings : Settings) (req : CrawlCreate)
    (s : ApiState) : Prop :=
  ∀ e s', (createCrawl F L settings req).run s = .error e s' →
    ∀ crawl ∈ s'.crawls.drop s.crawls.length, crawl.status ≠ .running

section Create

variable {s s' : ApiState} {normalized : List String}

/-- The state after the transaction. -/
def stored (s : ApiState) (crawl : ℤ → Crawl) : ApiState :=
  { s with crawls := s.crawls ++ [crawl s.nextId], nextId := s.nextId + 1 }

lemma run_storeCrawl (crawl : ℤ → Crawl) (s : ApiState) :
    (storeCrawl F crawl).run s =
      match F.transaction with
      | none => .ok s.nextId (stored s crawl)
      | some e => .error e s := by
  simp only [storeCrawl]
  cases F.transaction with
  | none => rfl
  | some e => rfl

/-- The call is refused before the transaction or in it, or the row is stored and the crawl is
started. -/
lemma createCrawl_eq_error {e : PyError}
    (h : (createCrawl F L settings req).run s = .error e s') :
    s' = s ∨ ∃ normalized, normalizedSeeds L req.seeds = .ok normalized ∧ F.transaction = none ∧
      (startCrawl F settings normalized s.nextId).run (stored s (row req normalized)) =
        .error e s' := by
  rcases run_bind_eq_error.1 h with h | ⟨normalized, t, hseeds, h⟩
  · left
    cases hseeds : normalizedSeeds L req.seeds with
    | ok normalized => rw [hseeds] at h; cases h
    | error e' =>
        rw [hseeds] at h
        exact (EStateM.Result.error.inj h).2.symm
  · obtain ⟨hok, rfl⟩ := run_ofExcept_eq_ok.1 hseeds
    rcases run_bind_eq_error.1 h with h | ⟨crawlId, t, hstore, h⟩
    · rw [run_storeCrawl] at h
      left
      split at h
      · cases h
      · exact (EStateM.Result.error.inj h).2.symm
    · rw [run_storeCrawl] at hstore
      split at hstore
      · obtain ⟨rfl, rfl⟩ := EStateM.Result.ok.inj hstore
        rcases run_bind_eq_error.1 h with h | ⟨seeded, t, -, h⟩
        · exact Or.inr ⟨normalized, hok, ‹_›, h⟩
        · cases h
      · cases hstore

/-- If the crawl cannot be started, the call raises. -/
lemma createCrawl_of_startCrawl {e : PyError}
    (hseeds : normalizedSeeds L req.seeds = .ok normalized) (htransaction : F.transaction = none)
    (h : (startCrawl F settings normalized s.nextId).run (stored s (row req normalized)) =
      .error e s') :
    (createCrawl F L settings req).run s = .error e s' := by
  refine run_bind_eq_error.2 (Or.inr ⟨normalized, s, run_ofExcept_eq_ok.2 ⟨hseeds, rfl⟩, ?_⟩)
  refine run_bind_eq_error.2 (Or.inr ⟨s.nextId, stored s (row req normalized), ?_, ?_⟩)
  · rw [run_storeCrawl, htransaction]
  · exact run_bind_eq_error.2 (Or.inl h)

/-- **When creating a crawl is atomic.**  A call that raises leaves no running row behind, exactly
unless seeds have been accepted and stored for the Kafka backend and then one of the calls of
`_seed` raises: the start or the stop of the admin client, the start or the stop of the producer,
or the publication of a seed at any position. -/
theorem leavesNoOrphan_iff (F : SeedFaults) (L : UrlLibs) (settings : Settings)
    (req : CrawlCreate) (s : ApiState) :
    LeavesNoOrphan F L settings req s ↔
      ∀ normalized, normalizedSeeds L req.seeds = .ok normalized → normalized ≠ [] →
        settings.backend = .kafka → F.transaction = none →
          SeedingSucceeds F normalized.length := by
  constructor
  · intro h normalized hseeds hne hkafka htransaction
    by_contra hfails
    have hstart : startCrawl F settings normalized s.nextId =
        seed F settings normalized s.nextId := by
      rw [startCrawl, if_neg (by simpa using hne), hkafka]
    obtain ⟨e, s', hrun⟩ := (returnsIff_seed hkafka hne s.nextId).exists_error hfails
      (stored s (row req normalized))
    have hcrawls : s'.crawls = s.crawls ++ [row req normalized s.nextId] :=
      (preserves_seed normalized s.nextId _ rfl).2 e s' hrun
    have horphan := h e s' (createCrawl_of_startCrawl hseeds htransaction (hstart ▸ hrun))
    rw [hcrawls, List.drop_left] at horphan
    refine horphan _ List.mem_cons_self ?_
    rw [row, if_neg (by simpa using hne)]
  · intro h e s' hrun
    rcases createCrawl_eq_error hrun with rfl | ⟨normalized, hseeds, htransaction, hstart⟩
    · simp
    · rw [startCrawl] at hstart
      split_ifs at hstart with hnil
      · cases hstart
      · have hne : normalized ≠ [] := by simpa using hnil
        split at hstart
        · next hkafka =>
            exact absurd (h normalized hseeds hne hkafka htransaction)
              ((returnsIff_seed hkafka hne s.nextId).not_error hstart)
        · cases hstart

/-! ### A call that returns -/

/-- The loop publishes the messages of the seeds, and counts them. -/
lemma publishSeeds_eq_ok {crawlId : ℤ} {count n : ℕ} {seeds : List String}
    (h : (publishSeeds F crawlId count seeds).run s = .ok n s') :
    n = count + seeds.length ∧ s'.log = s.log ++ CrawlCreate.seedMessages seeds crawlId := by
  induction seeds generalizing count s with
  | nil =>
      obtain ⟨rfl, rfl⟩ := run_pure_eq_ok.1 h
      exact ⟨rfl, (List.append_nil _).symm⟩
  | cons url seeds ih =>
      obtain ⟨u, t, hsend, h⟩ := run_bind_eq_ok.1 h
      obtain ⟨hn, hlog⟩ := ih h
      have ht : t.log = s.log ++ [{ url := url, depth := 0, crawlId := some crawlId }] := by
        cases hfault : F.publish count with
        | some e => rw [hfault] at hsend; cases hsend
        | none =>
            rw [hfault] at hsend
            rw [← run_modify_eq_ok.1 hsend]
      refine ⟨by rw [hn, List.length_cons]; omega, ?_⟩
      rw [hlog, ht, List.append_assoc]
      rfl

lemma seed_eq_ok {crawlId : ℤ} {n : ℕ} {seeds : List String} (hkafka : settings.backend = .kafka)
    (hne : seeds ≠ []) (h : (seed F settings seeds crawlId).run s = .ok n s') :
    n = seeds.length ∧ s'.log = s.log ++ CrawlCreate.seedMessages seeds crawlId := by
  rw [seed, if_neg (by simp [hkafka, hne])] at h
  obtain ⟨u, t, htopics, h⟩ := run_bind_eq_ok.1 h
  obtain ⟨u', t', hstart, h⟩ := run_bind_eq_ok.1 h
  have ht : t.log = s.log :=
    (preserves_ensureTopics (g := ApiState.log) (fun _ _ => rfl) s rfl).1 u t htopics
  have ht' : t'.log = t.log :=
    (preserves_perform (g := ApiState.log) (fun _ => rfl) t rfl).1 u' t' hstart
  obtain ⟨r, t₁, hloop, h⟩ := run_bind_eq_ok.1 h
  obtain ⟨u'', t₂, hstop, h⟩ := run_bind_eq_ok.1 h
  obtain ⟨rfl, rfl⟩ := run_ofExcept_eq_ok.1 h
  have ht₂ : t₂.log = t₁.log :=
    (preserves_perform (g := ApiState.log) (fun _ => rfl) t₁ rfl).1 u'' t₂ hstop
  rcases run_attempt_eq_ok.1 hloop with ⟨n', heq, hloop⟩ | ⟨e, heq, -⟩
  · obtain rfl := Except.ok.inj heq
    obtain ⟨hn, hlog⟩ := publishSeeds_eq_ok hloop
    exact ⟨by omega, by rw [ht₂, hlog, ht', ht]⟩
  · cases heq

/-- A crawl that is started is the one of the model without faults. -/
lemma launched_of_startCrawl {seeded : ℕ}
    (h : (startCrawl F settings normalized s.nextId).run (stored s (row req normalized)) =
      .ok seeded s') :
    s'.crawls = s.crawls ++ [(req.launched settings s.nextId normalized).1] ∧
      { id := s.nextId, name := req.name, status := (row req normalized s.nextId).status,
        seeds := normalized, maxDepth := req.maxDepth, maxPages := req.maxPages,
        seeded := seeded : CrawlOut } = (req.launched settings s.nextId normalized).2.2 ∧
      ∀ messages, (req.launched settings s.nextId normalized).2.1 = .published messages →
        s'.log = s.log ++ messages := by
  rw [startCrawl] at h
  by_cases hnil : normalized = []
  · rw [if_pos (by simp [hnil])] at h
    obtain ⟨rfl, rfl⟩ := run_pure_eq_ok.1 h
    refine ⟨?_, ?_, ?_⟩
    all_goals simp [CrawlCreate.launched, stored, row, hnil, Launch.seeded]
  · rw [if_neg (by simpa using hnil)] at h
    cases hb : settings.backend with
    | kafka =>
        rw [hb] at h
        obtain ⟨rfl, hlog⟩ := seed_eq_ok hb hnil h
        have hcrawls := (preserves_seed _ s.nextId _ rfl).1 _ _ h
        refine ⟨hcrawls.trans ?_, ?_, ?_⟩
        · simp [CrawlCreate.launched, stored, row]
        · simp [CrawlCreate.launched, row, hnil, hb, Launch.seeded, CrawlCreate.seedMessages]
        · intro messages hmessages
          simp [CrawlCreate.launched, hnil, hb] at hmessages
          rw [hlog, ← hmessages]
          rfl
    | memory =>
        rw [hb] at h
        obtain ⟨rfl, rfl⟩ := run_pure_eq_ok.1 h
        refine ⟨?_, ?_, ?_⟩
        all_goals simp [CrawlCreate.launched, stored, row, hnil, hb, Launch.seeded]

/-- **A call that returns** stores the row and gives the answer of the model without faults, and
with the Kafka backend the messages of the seeds have been published. -/
theorem createCrawl_eq_ok {U : UrlUtils} {out : CrawlOut}
    (hU : normalizedSeeds L req.seeds = CrawlCreate.normalizedSeeds U req.seeds)
    (h : (createCrawl F L settings req).run s = .ok out s') :
    ∃ crawl launch, req.createCrawl U settings s.nextId = .ok (crawl, launch, out) ∧
      s'.crawls = s.crawls ++ [crawl] ∧
      ∀ messages, launch = .published messages → s'.log = s.log ++ messages := by
  obtain ⟨normalized, t, hseeds, h⟩ := run_bind_eq_ok.1 h
  obtain ⟨hok, rfl⟩ := run_ofExcept_eq_ok.1 hseeds
  obtain ⟨crawlId, t, hstore, h⟩ := run_bind_eq_ok.1 h
  obtain ⟨seeded, t', hstart, h⟩ := run_bind_eq_ok.1 h
  obtain ⟨rfl, rfl⟩ := run_pure_eq_ok.1 h
  rw [run_storeCrawl] at hstore
  split at hstore
  · obtain ⟨rfl, rfl⟩ := EStateM.Result.ok.inj hstore
    obtain ⟨hcrawls, hout, hlog⟩ := launched_of_startCrawl hstart
    refine ⟨_, _, ?_, hcrawls, hlog⟩
    rw [CrawlCreate.createCrawl, ← hU, hok, hout]
    rfl
  · cases hstore

end Create

/-- **A seeding failure.**  The producer cannot be started: the call raises, and the row says
that the crawl is running. -/
theorem failed_producer_leaves_running :
    ∃ (req : CrawlCreate) (e : PyError) (s' : ApiState),
      (createCrawl { producerStart := some e } plainLibs { backend := .kafka } req).run {} =
        .error e s' ∧
      s'.crawls.map Crawl.status = [.running] ∧
      ¬ LeavesNoOrphan { producerStart := some e } plainLibs { backend := .kafka } req {} := by
  let req : CrawlCreate :=
    { seeds := ["http://a.org/"], seeds_ne_nil := by decide, maxDepth_mem := by decide,
      one_le_maxPages := by decide }
  have hseeds : normalizedSeeds plainLibs req.seeds = .ok ["http://a.org/"] := by decide +kernel
  have hrun : (createCrawl { producerStart := some { what := "KafkaConnectionError" } } plainLibs
      { backend := .kafka } req).run {} =
        .error { what := "KafkaConnectionError" }
          { crawls := [row req ["http://a.org/"] 1], nextId := 2, topics := topicNames } :=
    createCrawl_of_startCrawl hseeds rfl rfl
  refine ⟨req, _, _, hrun, by decide, ?_⟩
  intro h
  exact h _ _ hrun _ List.mem_cons_self rfl

end SqlCrawlService

end WebCrawler
