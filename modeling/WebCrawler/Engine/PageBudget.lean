import WebCrawler.Engine.Invariant

/-!
# The page budget

`_worker` compares the number of fetched pages with `max_pages` when it takes an
item, and `_handle` counts the page only after `pipeline.process` has returned.
Between the two the worker is suspended, so several workers can pass the check
on the same count.

The budget is kept by the runs in which a worker passes the check only while the
pages counted and the pages being fetched together are below `max_pages`.  With a
single worker every run is of that kind; in general the overrun is at most one
page for every other worker.
-/

namespace WebCrawler

open Lib

namespace EngineState

/-- The number of items whose page is being fetched. -/
def inFlight (s : EngineState) : ℕ := s.tasks.countP fun task => task.stage = .fetching

lemma inFlight_le (s : EngineState) : s.inFlight ≤ s.tasks.length := List.countP_le_length

end EngineState

namespace CrawlEngine

variable {E : CrawlEngine} {U : UrlUtils} {site : Site} {seeds : List String}
  {crawlId : Option ℤ} {s t : EngineState} {a : Act}

/-- A worker that takes an item and finds the count below `max_pages` also finds
it below `max_pages` when the pages being fetched are added. -/
def RoomForPage (E : CrawlEngine) (s : EngineState) (a : Act) : Prop :=
  a = .get → (s.processed : ℤ) < E.maxPages → (s.processed + s.inFlight : ℤ) < E.maxPages

/-- The pages counted and the pages being fetched: a step adds at most one, when
a worker takes an item and passes the check. -/
lemma pages_step (hm : Moves E U site s a t) :
    t.processed + t.inFlight ≤ s.processed + s.inFlight ∨
      (a = .get ∧ (s.processed : ℤ) < E.maxPages ∧ s.tasks.length < E.concurrency ∧
        t.processed + t.inFlight = s.processed + s.inFlight + 1) := by
  cases hm with
  | skip hq hc hp => exact Or.inl (by simp [EngineState.inFlight])
  | visit hq hc hp => exact Or.inr ⟨rfl, hp, hc, by simp [EngineState.inFlight]; omega⟩
  | raised hs he => exact Or.inl (by simp [EngineState.inFlight, hs])
  | @leaf item pre post r hs hr hstop =>
      -- a page in flight becomes a page counted, or nothing if it was not fetched
      refine Or.inl ?_
      rcases hf : r.fetched with _ | _
      · simp [EngineState.inFlight, hs]
      · simp [EngineState.inFlight, hs]
        omega
  | @expand item pre post r hs hr hdup hd =>
      refine Or.inl ?_
      rcases hf : r.fetched with _ | _
      · simp [EngineState.inFlight, hs]
      · simp [EngineState.inFlight, hs]
        omega
  | pass hs hno => exact Or.inl (by simp [EngineState.inFlight, hs])
  | enqueue hs hadm hnew => exact Or.inl (by simp [EngineState.inFlight, hs])
  | cut hs he => exact Or.inl (by simp [EngineState.inFlight, hs])
  | exhausted hs => exact Or.inl (by simp [EngineState.inFlight, hs])
  | done hs hu => exact Or.inl (by simp [EngineState.inFlight, hs])

instance (E : CrawlEngine) (s : EngineState) (a : Act) : Decidable (RoomForPage E s a) :=
  inferInstanceAs (Decidable (_ → _ → _))

lemma pages_start (U : UrlUtils) (seeds : List String) (crawlId : Option ℤ) :
    (start U seeds crawlId).processed + (start U seeds crawlId).inFlight = 0 := by
  obtain ⟨h1, -, -, h4⟩ := start_fields U seeds crawlId
  simp [EngineState.inFlight, h1, h4]

/-- While there is room, the pages counted and the pages being fetched stay within
the budget. -/
lemma pages_le_maxPages (hpages : 0 ≤ E.maxPages)
    (h : (E.machine U site seeds crawlId).ReachableBy (RoomForPage E) s) :
    (s.processed + s.inFlight : ℤ) ≤ E.maxPages := by
  refine Machine.ReachableBy.inv
    (I := fun s => (s.processed + s.inFlight : ℤ) ≤ E.maxPages) ?_ ?_ h
  · have := pages_start U seeds crawlId
    simp only [machine]
    omega
  · intro s a t ih hroom hst
    rcases pages_step (moves_of_step hst) with hle | ⟨rfl, hlt, -, heq⟩
    · omega
    · have := hroom rfl hlt
      omega

/-- **The page budget.**  In every run whose workers pass the check only while
there is room for one more page, the number of fetched pages never exceeds
`max_pages`. -/
theorem processed_le_maxPages (hpages : 0 ≤ E.maxPages)
    (h : (E.machine U site seeds crawlId).ReachableBy (RoomForPage E) s) :
    (s.processed : ℤ) ≤ E.maxPages := by
  have := pages_le_maxPages hpages h
  omega

/-- A site whose pages have no links. -/
def leaves : Site := fun i => .ok { item := i, fetched := true, stored := true }

/-- Two workers that do not take the second seed before the first page is counted
leave a budget of one page intact. -/
theorem processed_le_maxPages_two_workers :
    ∃ s, (({ maxPages := 1, concurrency := 2 } : CrawlEngine).machine plainUrls leaves
        ["http://a.org/", "http://b.org/"] none).ReachableBy
          (RoomForPage { maxPages := 1, concurrency := 2 }) s ∧
      s.frontier.Joined ∧ (s.processed : ℤ) ≤ 1 := by
  have h := Machine.reachableBy_of_exec
    (M := ({ maxPages := 1, concurrency := 2 } : CrawlEngine).machine plainUrls leaves
      ["http://a.org/", "http://b.org/"] none)
    (P := RoomForPage { maxPages := 1, concurrency := 2 })
    [.get, .result 0, .get, .link 0, .done 1, .done 0] rfl
  exact ⟨_, h, by decide, processed_le_maxPages (by decide) h⟩

/-- **Two workers overrun a budget of one page.**  Both take a seed before either
page is counted. -/
theorem two_workers_overrun :
    ∃ s, (({ maxPages := 1, concurrency := 2 } : CrawlEngine).machine plainUrls leaves
        ["http://a.org/", "http://b.org/"] none).Reachable s ∧ ¬ (s.processed : ℤ) ≤ 1 :=
  ⟨_, Machine.reachableBy_of_exec [.get, .get, .result 0, .result 1] rfl, by decide⟩

/-! ### One worker, and the size of the overrun -/

/-- A single worker that takes an item has no page in flight. -/
lemma roomForPage_of_single (hc : E.concurrency ≤ 1) {t : EngineState}
    (hst : E.step U site s a = some t) : RoomForPage E s a := by
  rintro rfl hlt
  have htasks : s.tasks.length < E.concurrency := by
    cases moves_of_step hst with
    | skip hq hc hp => exact hc
    | visit hq hc hp => exact hc
  have := s.inFlight_le
  omega

/-- With one worker the budget is never exceeded. -/
theorem processed_le_maxPages_of_single (hpages : 0 ≤ E.maxPages) (hc : E.concurrency ≤ 1)
    (h : (E.machine U site seeds crawlId).Reachable s) : (s.processed : ℤ) ≤ E.maxPages := by
  have hroom : (E.machine U site seeds crawlId).ReachableBy (RoomForPage E) s := by
    induction h with
    | init => exact .init
    | step _ _ hst ih => exact ih.step (roomForPage_of_single hc hst) hst
  have := pages_le_maxPages hpages hroom
  omega

/-- In general the overrun is at most one page for every other worker. -/
theorem processed_lt_maxPages_add_concurrency (hp : 0 < E.maxPages)
    (h : (E.machine U site seeds crawlId).Reachable s) :
    (s.processed : ℤ) < E.maxPages + max 1 E.concurrency := by
  have hpages : (s.processed + s.inFlight : ℤ) < E.maxPages + max 1 E.concurrency := by
    refine Machine.ReachableBy.inv
      (I := fun s => (s.processed + s.inFlight : ℤ) < E.maxPages + max 1 E.concurrency) ?_ ?_ h
    · have := pages_start U seeds crawlId
      simp only [machine]
      omega
    · intro s a t ih _ hst
      rcases pages_step (moves_of_step hst) with hle | ⟨-, hlt, hc, heq⟩
      · omega
      · have := s.inFlight_le
        omega
  omega

/-- The two workers above, at the moment at which both have fetched their page. -/
theorem processed_lt_maxPages_add_concurrency_two_workers :
    ∃ s, (({ maxPages := 1, concurrency := 2 } : CrawlEngine).machine plainUrls leaves
        ["http://a.org/", "http://b.org/"] none).Reachable s ∧ (s.processed : ℤ) = 2 ∧
      (s.processed : ℤ) < 1 + max 1 2 := by
  have h := Machine.reachableBy_of_exec
    (M := ({ maxPages := 1, concurrency := 2 } : CrawlEngine).machine plainUrls leaves
      ["http://a.org/", "http://b.org/"] none)
    (P := fun _ _ => True) [.get, .get, .result 0, .result 1] rfl
  exact ⟨_, h, by decide, processed_lt_maxPages_add_concurrency (by decide) h⟩

end CrawlEngine

end WebCrawler
