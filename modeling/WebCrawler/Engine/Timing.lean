import WebCrawler.Engine.Bfs

/-!
# Does the result depend on the timing of the workers?

The depth of a URL is that of the discovery that is enqueued first, and the depth
decides whether the links of its page are followed.  With two workers a slow page
can let a longer path win, and then a page within reach is never visited
(`slow_page_changes_result`).

Level-ordered runs all agree, for any number of workers, since each of them is a
breadth-first search (`levelOrdered_runs_agree`).
-/

namespace WebCrawler

open Lib

namespace EngineState

/-- The URLs that were visited, with the depths recorded for them. -/
def recorded (s : EngineState) : Set (String × ℤ) := {p | ∃ i ∈ s.visits, (i.url, i.depth) = p}

end EngineState

namespace CrawlEngine

variable {E : CrawlEngine} {U : UrlUtils} {site : Site} {seeds : List String}
  {crawlId : Option ℤ} {links : String → List Link} {s s' : EngineState}

lemma admissibleLink_concurrency (c : ℕ) :
    AdmissibleLink { E with concurrency := c } U seeds links = AdmissibleLink E U seeds links := by
  funext u v
  refine propext (and_congr_right fun _ => ⟨?_, ?_⟩)
  · intro h
    exact ⟨h.length_le, h.allowed, h.same_domain⟩
  · intro h
    exact ⟨h.length_le, h.allowed, h.same_domain⟩

lemma followedLinks_concurrency (c : ℕ) :
    followedLinks { E with concurrency := c } U links = followedLinks E U links := rfl

lemma reach_concurrency (c : ℕ) :
    reach { E with concurrency := c } U seeds links = reach E U seeds links := by
  rw [reach, reach, admissibleLink_concurrency]

/-- A breadth-first search records each URL within reach with its distance. -/
lemma BreadthFirst.recorded_eq (h : BreadthFirst E U seeds links s) :
    s.recorded = {p : String × ℤ | p.1 ∈ reach E U seeds links ∧ ∃ n : ℕ, p.2 = n ∧
      IsDist (AdmissibleLink E U seeds links) (seedSet U seeds) n p.1} := by
  ext ⟨u, d⟩
  constructor
  · rintro ⟨i, hi, heq⟩
    obtain ⟨rfl, rfl⟩ := Prod.mk.inj heq
    exact ⟨(h.exact _).1 (List.mem_map_of_mem hi), h.dist i hi⟩
  · rintro ⟨hu, n, hd, hdist⟩
    obtain ⟨i, hi, rfl⟩ := List.mem_map.1 ((h.exact u).2 hu)
    obtain ⟨m, hm, hdist'⟩ := h.dist i hi
    refine ⟨i, hi, Prod.ext rfl ?_⟩
    rw [hm, hdist'.unique hdist]
    exact hd.symm

/-- With a negative depth limit only the seeds are visited. -/
lemma recorded_of_maxDepth_neg (hneg : E.maxDepth < 0) (hread : SeedsRead U seeds)
    (h : (E.machine U site seeds crawlId).Reachable s) (hj : s.frontier.Joined)
    (hpages : (s.processed : ℤ) < E.maxPages) :
    s.recorded = {p : String × ℤ | p.1 ∈ seedUrls U seeds ∧ p.2 = 0} := by
  have hl := ledger_of_reachable h
  have hp := provenance_of_reachable h
  rw [EngineState.recorded, visits_eq_put h hj hpages]
  ext ⟨u, d⟩
  constructor
  · rintro ⟨i, hi, heq⟩
    obtain ⟨rfl, rfl⟩ := Prod.mk.inj heq
    rcases hp.origin i hi with hseed | ⟨-, p, hmem, hlt, -⟩
    · exact hseed
    · have := hp.nonneg p (mem_put_of_mem_taken hl hmem)
      omega
  · rintro ⟨hu, hd⟩
    obtain ⟨i, hi, hurl, hdepth⟩ := exists_put_of_seed h hread hu
    exact ⟨i, hi, Prod.ext hurl (hdepth.trans hd.symm)⟩

/-- What a level-ordered run records when it is over has nothing to do with the number of
workers, and neither with the run. -/
lemma recorded_of_levelOrdered (hfix : FixedPages site links) (hread : SeedsRead U seeds)
    (h : (E.machine U site seeds crawlId).ReachableBy LevelOrdered s) (hj : s.frontier.Joined)
    (hpages : (s.processed : ℤ) < E.maxPages) :
    s.recorded =
      if E.maxDepth < 0 then {p : String × ℤ | p.1 ∈ seedUrls U seeds ∧ p.2 = 0}
      else {p : String × ℤ | p.1 ∈ reach E U seeds (E.followedLinks U links) ∧ ∃ n : ℕ, p.2 = n ∧
        IsDist (AdmissibleLink E U seeds (E.followedLinks U links)) (seedSet U seeds) n p.1} := by
  split_ifs with hneg
  · exact recorded_of_maxDepth_neg hneg hread h.reachable hj hpages
  · exact (breadthFirst_of_levelOrdered hfix (not_lt.1 hneg) hread h hj hpages).recorded_eq

lemma recorded_of_aborted (h : (E.machine U site seeds crawlId).Reachable s)
    (hab : s.aborted ≠ none) : s.recorded = ∅ := by
  rw [EngineState.recorded, visits_of_aborted h hab]
  simp

/-- **Level-ordered runs agree.**  On a site of fixed pages, any two level-ordered
runs that are over without having reached the page budget, with any numbers of
workers, visit the same URLs and record the same depths. -/
theorem levelOrdered_runs_agree (hfix : FixedPages site links) (c c' : ℕ)
    (h : ({ E with concurrency := c }.machine U site seeds crawlId).ReachableBy LevelOrdered s)
    (hover : s.Over) (hpages : (s.processed : ℤ) < E.maxPages)
    (h' : ({ E with concurrency := c' }.machine U site seeds crawlId).ReachableBy LevelOrdered s')
    (hover' : s'.Over) (hpages' : (s'.processed : ℤ) < E.maxPages) :
    s.recorded = s'.recorded := by
  by_cases hread : SeedsRead U seeds
  · have hj := hover.resolve_left (not_not.2 ((aborted_of_reachable h.reachable).2 hread))
    have hj' := hover'.resolve_left (not_not.2 ((aborted_of_reachable h'.reachable).2 hread))
    rw [recorded_of_levelOrdered (E := { E with concurrency := c }) hfix hread h hj hpages,
      recorded_of_levelOrdered (E := { E with concurrency := c' }) hfix hread h' hj' hpages']
    simp only [followedLinks_concurrency, reach_concurrency, admissibleLink_concurrency]
  · -- a seed has ended both runs
    have hab : s.aborted ≠ none := fun hab => hread ((aborted_of_reachable h.reachable).1 hab)
    have hab' : s'.aborted ≠ none := fun hab => hread ((aborted_of_reachable h'.reachable).1 hab)
    rw [recorded_of_aborted h.reachable hab, recorded_of_aborted h'.reachable hab']

/-- Runs with one and with two workers on two pages that link to each other. -/
theorem levelOrdered_runs_agree_twoPages :
    ∃ s s', (({ concurrency := 1 } : CrawlEngine).machine plainUrls twoPages
        ["http://a.org/"] none).ReachableBy LevelOrdered s ∧ s.frontier.Joined ∧
      (({ concurrency := 2 } : CrawlEngine).machine plainUrls twoPages
        ["http://a.org/"] none).ReachableBy LevelOrdered s' ∧ s'.frontier.Joined ∧
      s.recorded = s'.recorded := by
  have h := Machine.reachableBy_of_exec (P := LevelOrdered)
    (M := ({ concurrency := 1 } : CrawlEngine).machine plainUrls twoPages ["http://a.org/"] none)
    [.get, .result 0, .link 0, .link 0, .link 0, .done 0, .get, .result 0, .link 0, .link 0,
      .done 0] rfl
  have h' := Machine.reachableBy_of_exec (P := LevelOrdered)
    (M := ({ concurrency := 2 } : CrawlEngine).machine plainUrls twoPages ["http://a.org/"] none)
    [.get, .result 0, .link 0, .get, .link 0, .link 0, .result 1, .link 1, .done 0, .link 0,
      .done 0] rfl
  exact ⟨_, _, h, by decide, h', by decide,
    levelOrdered_runs_agree (E := { concurrency := 1 }) fixedPages_twoPages 1 2
      h (by decide) (by decide) h' (by decide) (by decide)⟩

/-! ### A slow page -/

/-- The page `/x` is one link away from the first seed and two links away from the
second one; `/y` is linked from `/x` only. -/
def slowPageLinks (u : String) : List Link :=
  if u = "http://a.org/" then [{ url := "http://a.org/x" }]
  else if u = "http://a.org/b" then [{ url := "http://a.org/c" }]
  else if u = "http://a.org/c" then [{ url := "http://a.org/x" }]
  else if u = "http://a.org/x" then [{ url := "http://a.org/y" }]
  else []

/-- The site of `slowPageLinks`. -/
def slowPage : Site := fun i =>
  .ok { item := i, fetched := true, stored := true, links := slowPageLinks i.url }

/-- A run of two workers on `slowPage`, with the default depth limit of two. -/
def slowPageRun : Machine EngineState Act :=
  ({ concurrency := 2 } : CrawlEngine).machine plainUrls slowPage
    ["http://a.org/", "http://a.org/b"] none

/-- **A slow page changes the result.**  If the page of the first seed arrives last,
`/x` is recorded with depth two instead of one, and `/y` is never visited. -/
theorem slow_page_changes_result :
    FixedPages slowPage slowPageLinks ∧
    ∃ s s', slowPageRun.Reachable s ∧ s.frontier.Joined ∧ s.processed < 100 ∧
      slowPageRun.Reachable s' ∧ s'.frontier.Joined ∧ s'.processed < 100 ∧
      ("http://a.org/x", 1) ∈ s.recorded ∧ ("http://a.org/y", 2) ∈ s.recorded ∧
      ("http://a.org/x", 2) ∈ s'.recorded ∧ ∀ d, ("http://a.org/y", d) ∉ s'.recorded := by
  have h := Machine.reachableBy_of_exec (P := fun _ _ => True) (M := slowPageRun)
    [.get, .get, .result 0, .link 0, .link 0, .done 0, .result 0, .link 0, .link 0, .done 0,
      .get, .result 0, .link 0, .link 0, .done 0, .get, .result 0, .link 0, .link 0, .done 0,
      .get, .result 0, .done 0] rfl
  have h' := Machine.reachableBy_of_exec (P := fun _ _ => True) (M := slowPageRun)
    [.get, .get, .result 1, .link 1, .link 1, .done 1, .get, .result 1, .link 1, .link 1,
      .done 1, .get, .result 1, .done 1, .result 0, .link 0, .link 0, .done 0] rfl
  refine ⟨fun _ => ⟨_, rfl, rfl, rfl, rfl⟩, _, _, h, by decide, by decide, h', by decide,
    by decide, ?_, ?_, ?_, ?_⟩
  · exact ⟨⟨"http://a.org/x", 1, none⟩, by decide, rfl⟩
  · exact ⟨⟨"http://a.org/y", 2, none⟩, by decide, rfl⟩
  · exact ⟨⟨"http://a.org/x", 2, none⟩, by decide, rfl⟩
  · rintro d ⟨i, hi, heq⟩
    have hurl : i.url = "http://a.org/y" := congrArg Prod.fst heq
    clear heq
    revert i
    decide

end CrawlEngine

end WebCrawler
