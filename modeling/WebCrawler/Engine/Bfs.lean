import WebCrawler.Engine.Termination
import WebCrawler.Lib.Distance

/-!
# Breadth-first search

On a site whose pages are fixed, the engine explores the graph of the admissible
links from the seeds, as far as they are offered: the links of a page behind a URL that
does not parse are not (`followedLinks`).  The recorded depth of a URL is the depth of
the item that was enqueued first, and the depth decides whether the links of the page
are followed.  So the result is that of a breadth-first search exactly as long as the
links are offered level by level: no worker offers links while another one still
has to offer those of an item of smaller depth (`LevelOrdered`).  A single worker
always does; several workers may not.

The invariant of the level-ordered runs is `Levels`: the items were put on the
queue by nondecreasing depth, and every item ever put is at most one level below
each item that is queued or may still offer links.  Together with `Covered`, which
says that the links of the items that are done were enqueued, it gives the
distances when the queue is empty.
-/

namespace WebCrawler

open Lib

namespace Task

/-- The worker that holds the item may still offer links. -/
def Active (task : Task) : Prop := task.stage ≠ .finishing

instance (task : Task) : Decidable task.Active := inferInstanceAs (Decidable (_ ≠ _))

end Task

namespace CrawlEngine

variable {E : CrawlEngine} {U : UrlUtils} {site : Site} {seeds : List String}
  {crawlId : Option ℤ} {links : String → List Link} {s t : EngineState} {a : Act}

/-- Every URL is answered with a fixed page that is not a duplicate. -/
def FixedPages (site : Site) (links : String → List Link) : Prop :=
  ∀ i, ∃ r, site i = .ok r ∧ r.fetched = true ∧ r.duplicate = false ∧ r.links = links i.url

/-- The admissible links: the links of the pages that pass the filters. -/
def AdmissibleLink (E : CrawlEngine) (U : UrlUtils) (seeds : List String)
    (links : String → List Link) (u v : String) : Prop :=
  v ∈ (links u).map (·.url) ∧ Permitted E U seeds v

/-- The links of the pages that are offered to the frontier. -/
def followedLinks (E : CrawlEngine) (U : UrlUtils) (links : String → List Link) (u : String) :
    List Link :=
  E.followed U (links u)

/-- The canonical URLs of the seeds, as a set. -/
def seedSet (U : UrlUtils) (seeds : List String) : Set String := {u | u ∈ seedUrls U seeds}

/-- The URLs within `max_depth` admissible links of the seeds. -/
def reach (E : CrawlEngine) (U : UrlUtils) (seeds : List String) (links : String → List Link) :
    Set String :=
  ball (AdmissibleLink E U seeds links) (seedSet U seeds) E.maxDepth

/-- Links are offered level by level: a worker in its loop over the links holds an
item of the smallest depth among those that may still offer links. -/
def LevelOrdered (s : EngineState) : Act → Prop
  | .link i => ∀ task ∈ s.tasks[i]?, ∀ task' ∈ s.tasks, task'.Active →
      task.item.depth ≤ task'.item.depth
  | _ => True

instance (s : EngineState) : (a : Act) → Decidable (LevelOrdered s a)
  | .get => inferInstanceAs (Decidable True)
  | .result _ => inferInstanceAs (Decidable True)
  | .link i => inferInstanceAs (Decidable (∀ task ∈ s.tasks[i]?, ∀ task' ∈ s.tasks,
      task'.Active → task.item.depth ≤ task'.item.depth))
  | .done _ => inferInstanceAs (Decidable True)

/-! ### Levels -/

/-- An item whose links may still be offered lies above everything that is queued,
and at most one level above everything that was ever put on the queue. -/
def TaskLevel (put queue : List FrontierItem) (task : Task) : Prop :=
  task.Active → (∀ i ∈ queue, task.item.depth ≤ i.depth) ∧
    ∀ i ∈ put, i.depth ≤ task.item.depth + 1

lemma taskLevel_finishing (put queue : List FrontierItem) (item : FrontierItem) :
    TaskLevel put queue ⟨item, .finishing⟩ := by
  intro h
  exact absurd rfl h

/-- The level of an item does not depend on the point at which it stands. -/
lemma TaskLevel.restage {put queue : List FrontierItem} {item : FrontierItem} {st st' : Stage}
    (h : TaskLevel put queue ⟨item, st⟩) (hst : st ≠ .finishing) :
    TaskLevel put queue ⟨item, st'⟩ :=
  fun _ => h hst

/-- The levels of the search. -/
structure Levels (s : EngineState) : Prop where
  sorted : s.put.Pairwise fun i j => i.depth ≤ j.depth
  tasks : ∀ task ∈ s.tasks, TaskLevel s.put s.frontier.queue task
  queue : ∀ j ∈ s.frontier.queue, ∀ i ∈ s.put, i.depth ≤ j.depth + 1

lemma levels_start : Levels (start U seeds crawlId) := by
  have hl := ledger_start U seeds crawlId
  obtain ⟨h1, -⟩ := start_fields U seeds crawlId
  have hput : ∀ i ∈ (start U seeds crawlId).put, i.depth = 0 := fun i hi =>
    (mem_start_put seeds hi).2.1
  have hqueue : ∀ i ∈ (start U seeds crawlId).frontier.queue, i.depth = 0 := fun i hi =>
    hput i (by rw [hl.put_eq]; exact List.mem_append_right _ hi)
  refine ⟨?_, by simp [h1], ?_⟩
  · exact List.pairwise_of_forall_mem_list fun i hi j hj => by rw [hput i hi, hput j hj]
  · intro j hj i hi
    rw [hput i hi, hqueue j hj]
    norm_num

/-- An item that is taken lies above the rest of the queue. -/
lemma Levels.take (hl : s.Ledger) (h : Levels s) {item : FrontierItem} {rest : List FrontierItem}
    (hq : s.frontier.queue = item :: rest) (st : Stage) :
    ∀ task ∈ s.tasks ++ [⟨item, st⟩], TaskLevel s.put rest task := by
  refine forall_mem_append_singleton ?_ fun _ => ⟨?_, ?_⟩
  · intro task ht hact
    obtain ⟨h1, h2⟩ := h.tasks task ht hact
    exact ⟨fun i hi => h1 i (by simp [hq, hi]), h2⟩
  · intro i hi
    have hsorted := h.sorted
    rw [hl.put_eq, hq] at hsorted
    exact List.rel_of_pairwise_cons (List.pairwise_append.1 hsorted).2.1 hi
  · exact h.queue item (by simp [hq])

/-- A level-ordered step keeps the levels. -/
lemma Levels.step (hl : s.Ledger) (h : Levels s) (hord : LevelOrdered s a)
    (hm : Moves E U site s a t) : Levels t := by
  have htasks := h.tasks
  cases hm with
  | skip hq hc hp =>
      exact ⟨h.sorted, h.take hl hq _, fun j hj => h.queue j (by simp [hq, hj])⟩
  | visit hq hc hp =>
      exact ⟨h.sorted, h.take hl hq _, fun j hj => h.queue j (by simp [hq, hj])⟩
  | raised hs he =>
      rw [hs] at htasks
      exact ⟨h.sorted, forall_mem_replace htasks (taskLevel_finishing _ _ _), h.queue⟩
  | leaf hs hr hstop =>
      rw [hs] at htasks
      exact ⟨h.sorted, forall_mem_replace htasks (taskLevel_finishing _ _ _), h.queue⟩
  | @expand item pre post r hs hr hdup hd =>
      rw [hs] at htasks
      refine ⟨h.sorted, forall_mem_replace htasks ?_, h.queue⟩
      exact (htasks ⟨item, .fetching⟩ (by simp)).restage (by simp)
  | @pass item pre post l rest hs hno =>
      rw [hs] at htasks
      refine ⟨h.sorted, forall_mem_replace htasks ?_, h.queue⟩
      exact (htasks ⟨item, .linking (l :: rest)⟩ (by simp)).restage (by simp)
  | @enqueue item pre post l rest hs hadm hnew =>
      have hmem : (⟨item, .linking (l :: rest)⟩ : Task) ∈ s.tasks := by simp [hs]
      obtain ⟨hbelow, hwithin⟩ := h.tasks _ hmem (by simp [Task.Active])
      have hmin : ∀ task ∈ s.tasks, task.Active → item.depth ≤ task.item.depth := by
        intro task ht hact
        exact hord ⟨item, .linking (l :: rest)⟩ (by simp [hs]) task ht hact
      -- everything ever put is at most as deep as the new child
      have hput : ∀ i ∈ s.put, i.depth ≤ (child item l).depth := hwithin
      have hnew : ∀ task ∈ s.tasks,
          TaskLevel (s.put ++ [child item l]) (s.frontier.queue ++ [child item l]) task := by
        intro task ht hact
        obtain ⟨h1, h2⟩ := h.tasks task ht hact
        refine ⟨forall_mem_append_singleton h1 ?_, forall_mem_append_singleton h2 ?_⟩
        · exact hwithin _ (mem_put_of_mem_taken hl (mem_taken_of_mem_tasks hl ht))
        · have := hmin task ht hact
          simp only [child_depth]
          omega
      rw [hs] at hnew
      refine ⟨?_, forall_mem_replace hnew ?_, ?_⟩
      · rw [List.pairwise_append]
        refine ⟨h.sorted, List.pairwise_singleton _ _, ?_⟩
        intro i hi j hj
        rw [List.mem_singleton.1 hj]
        exact hput i hi
      · exact (hnew ⟨item, .linking (l :: rest)⟩ (by simp)).restage (by simp)
      · refine forall_mem_append_singleton ?_ ?_
        · intro j hj
          refine forall_mem_append_singleton (h.queue j hj) ?_
          have hj' : item.depth ≤ j.depth := hbelow j hj
          simpa using hj'
        · refine forall_mem_append_singleton ?_ (by simp)
          intro i hi
          have := hput i hi
          omega
  | cut hs he =>
      rw [hs] at htasks
      exact ⟨h.sorted, forall_mem_replace htasks (taskLevel_finishing _ _ _), h.queue⟩
  | exhausted hs =>
      rw [hs] at htasks
      exact ⟨h.sorted, forall_mem_replace htasks (taskLevel_finishing _ _ _), h.queue⟩
  | done hs hu =>
      rw [hs] at htasks
      exact ⟨h.sorted, forall_mem_remove htasks, h.queue⟩

/-! ### Soundness: recorded depths are lengths of paths -/

lemma FixedPages.links_eq (hfix : FixedPages site links) {i : FrontierItem} {r : ProcessResult}
    (hr : site i = .ok r) : r.duplicate = false ∧ r.links = links i.url := by
  obtain ⟨r', hr', -, hdup, hlinks⟩ := hfix i
  rw [hr, Except.ok.injEq] at hr'
  exact hr' ▸ ⟨hdup, hlinks⟩

/-- The depth of an item is the length of a path from the seeds to its URL. -/
lemma hops_of_mem_put (hfix : FixedPages site links) (hl : s.Ledger)
    (hp : Provenance E U site seeds s) {n : ℕ} {i : FrontierItem} (hi : i ∈ s.put)
    (hn : i.depth = n) :
    Hops (AdmissibleLink E U seeds (E.followedLinks U links)) (seedSet U seeds) n i.url := by
  -- an item at depth `n + 1` is no seed, and its parent lies at depth `n`
  induction n generalizing i with
  | zero =>
      rcases hp.origin i hi with ⟨hseed, -⟩ | ⟨-, p, hmem, -, hd, -⟩
      · exact .source hseed
      · have := hp.nonneg p (mem_put_of_mem_taken hl hmem)
        push_cast at hn
        omega
  | succ n ih =>
      push_cast at hn
      rcases hp.origin i hi with ⟨-, h0⟩ | ⟨hperm, p, hmem, -, hd, r, hr, hlink⟩
      · omega
      · have hpath := ih (mem_put_of_mem_taken hl hmem) (by omega)
        rw [(hfix.links_eq hr).2] at hlink
        exact .edge hpath ⟨hlink, hperm⟩

lemma hops_depth (hfix : FixedPages site links) (hl : s.Ledger)
    (hp : Provenance E U site seeds s) {i : FrontierItem} (hi : i ∈ s.put) :
    Hops (AdmissibleLink E U seeds (E.followedLinks U links)) (seedSet U seeds) i.depth.toNat
      i.url := by
  refine hops_of_mem_put hfix hl hp hi ?_
  exact (Int.toNat_of_nonneg (hp.nonneg i hi)).symm

lemma mem_reach_of_mem_put (hfix : FixedPages site links) (hl : s.Ledger)
    (hp : Provenance E U site seeds s) (hdepth : 0 ≤ E.maxDepth) {i : FrontierItem}
    (hi : i ∈ s.put) : i.url ∈ reach E U seeds (E.followedLinks U links) := by
  refine ⟨i.depth.toNat, ?_, hops_depth hfix hl hp hi⟩
  rw [Int.toNat_of_nonneg (hp.nonneg i hi)]
  exact hp.depth_le hdepth hi

/-! ### Completeness: the links of finished items were enqueued -/

/-- The worker that holds `p` has still to offer the link `l`. -/
def Offers (E : CrawlEngine) (U : UrlUtils) (p : FrontierItem) (l : Link) (task : Task) : Prop :=
  task.item = p ∧
    (task.stage = .fetching ∨ ∃ rest, task.stage = .linking rest ∧ l ∈ E.followed U rest)

/-- The URL of the link was put on the queue, at most one level below `p`. -/
def Recorded (put : List FrontierItem) (p : FrontierItem) (l : Link) : Prop :=
  ∃ i ∈ put, i.url = l.url ∧ i.depth ≤ p.depth + 1

/-- Each admissible link of an item that was visited is recorded or still to be offered. -/
def Covered (E : CrawlEngine) (U : UrlUtils) (seeds : List String) (links : String → List Link)
    (s : EngineState) : Prop :=
  ∀ p ∈ s.visits, p.depth < E.maxDepth → ∀ l ∈ E.followedLinks U links p.url,
    Permitted E U seeds l.url → Recorded s.put p l ∨ ∃ task ∈ s.tasks, Offers E U p l task

lemma Recorded.mono {put put' : List FrontierItem} {p : FrontierItem} {l : Link}
    (h : Recorded put p l) (hsub : put ⊆ put') : Recorded put' p l := by
  obtain ⟨i, hi, hrest⟩ := h
  exact ⟨i, hsub hi, hrest⟩

/-- New tasks do not take anything from what is covered. -/
lemma Covered.append (h : Covered E U seeds links s) {task : Task} (hvisits : t.visits = s.visits)
    (hput : t.put = s.put) (ht : t.tasks = s.tasks ++ [task]) : Covered E U seeds links t := by
  intro p hp hd l hl hperm
  rw [hvisits] at hp
  rw [hput, ht]
  refine (h p hp hd l hl hperm).imp_right ?_
  rintro ⟨task', htask', hoff⟩
  exact ⟨task', by simp [htask'], hoff⟩

/-- When a worker moves on, only the links that it does not offer any more matter. -/
lemma Covered.replace (h : Covered E U seeds links s) {pre post : List Task} {old new : Task}
    (hs : s.tasks = pre ++ old :: post) (hvisits : t.visits = s.visits) (hput : s.put ⊆ t.put)
    (ht : t.tasks = pre ++ new :: post)
    (hnew : ∀ p l, p ∈ s.visits → p.depth < E.maxDepth → l ∈ E.followedLinks U links p.url →
      Permitted E U seeds l.url → Offers E U p l old → Recorded t.put p l ∨ Offers E U p l new) :
    Covered E U seeds links t := by
  intro p hp hd l hl hperm
  rw [hvisits] at hp
  rcases h p hp hd l hl hperm with hrec | ⟨task, hmem, hoff⟩
  · exact Or.inl (hrec.mono hput)
  · rw [hs, List.mem_append, List.mem_cons] at hmem
    rw [ht]
    rcases hmem with hmem | rfl | hmem
    · exact Or.inr ⟨task, by simp [hmem], hoff⟩
    · exact (hnew p l hp hd hl hperm hoff).imp_right fun hoff' => ⟨new, by simp, hoff'⟩
    · exact Or.inr ⟨task, by simp [hmem], hoff⟩

lemma not_offers_finishing {p item : FrontierItem} {l : Link} :
    ¬ Offers E U p l ⟨item, .finishing⟩ := by
  simp [Offers]

lemma offers_linking {p item : FrontierItem} {l : Link} {rest : List Link} :
    Offers E U p l ⟨item, .linking rest⟩ ↔ item = p ∧ l ∈ E.followed U rest := by
  simp [Offers]

/-- A level-ordered step keeps the links covered. -/
lemma Covered.step (hfix : FixedPages site links) (hl : s.Ledger)
    (hp : Provenance E U site seeds s) (hv : Levels s) (h : Covered E U seeds links s)
    (hm : Moves E U site s a t) : Covered E U seeds links t := by
  have hrun := (hp.aborted_eq hm).1
  cases hm with
  | skip hq hc hp => exact h.append rfl rfl rfl
  | @visit item rest hq hc hp =>
      intro p hmem hd l hl hperm
      rcases List.mem_append.1 hmem with hmem | hmem
      · rcases h p hmem hd l hl hperm with hrec | ⟨task, htask, hoff⟩
        · exact Or.inl hrec
        · exact Or.inr ⟨task, by simp [htask], hoff⟩
      · exact Or.inr ⟨⟨item, .fetching⟩, by simp, (List.mem_singleton.1 hmem).symm, Or.inl rfl⟩
  | @raised item pre post e hs he =>
      obtain ⟨r, hr, -⟩ := hfix item
      rw [he] at hr
      exact absurd hr (by simp)
  | @leaf item pre post r hs hr hstop =>
      refine h.replace hs rfl (List.Subset.refl _) rfl ?_
      intro p l _ hd _ _ hoff
      have hitem : item = p := hoff.1
      subst hitem
      -- the pages are no duplicates, so that only the depth limit stops a worker
      rcases hstop with hdup | hge
      · rw [(hfix.links_eq hr).1] at hdup
        exact absurd hdup (by simp)
      · omega
  | @expand item pre post r hs hr hdup hd =>
      refine h.replace hs rfl (List.Subset.refl _) rfl fun p l _ _ hl _ hoff => Or.inr ?_
      have hitem : item = p := hoff.1
      rw [offers_linking, (hfix.links_eq hr).2, hitem]
      exact ⟨rfl, hl⟩
  | @pass item pre post l₀ rest hs hno =>
      have hfollowed : E.followed U (l₀ :: rest) = l₀ :: E.followed U rest :=
        hno.elim (followed_cons_of_ok rest) fun hno => followed_cons_of_ok rest hno.1
      refine h.replace hs rfl (List.Subset.refl _) rfl ?_
      intro p l _ _ _ hperm hoff
      rw [offers_linking, hfollowed, List.mem_cons] at hoff
      obtain ⟨rfl, rfl | hmem⟩ := hoff
      · rcases hno with hadm | ⟨-, hseen⟩
        · rw [hp.domains hrun, (admits_iff _).2 hperm] at hadm
          exact absurd hadm (by simp)
        · -- the URL was put before, at most one level below the item
          obtain ⟨i, hi, hu⟩ := List.mem_map.1 ((hl.mem_seen _).1 hseen)
          have hact := hv.tasks ⟨item, .linking (l :: rest)⟩ (by simp [hs]) (by simp [Task.Active])
          exact Or.inl ⟨i, hi, hu, hact.2 i hi⟩
      · exact Or.inr (offers_linking.2 ⟨rfl, hmem⟩)
  | @enqueue item pre post l₀ rest hs hadm hnew =>
      refine h.replace hs rfl (List.subset_append_left _ _) rfl ?_
      intro p l _ _ _ _ hoff
      rw [offers_linking, followed_cons_of_ok rest hadm, List.mem_cons] at hoff
      obtain ⟨rfl, rfl | hmem⟩ := hoff
      · exact Or.inl ⟨child item l, by simp, rfl, le_rfl⟩
      · exact Or.inr (offers_linking.2 ⟨rfl, hmem⟩)
  | @cut item pre post l₀ rest e hs he =>
      refine h.replace hs rfl (List.Subset.refl _) rfl ?_
      intro p l _ _ _ _ hoff
      rw [offers_linking, followed_cons_of_error rest he] at hoff
      exact absurd hoff.2 List.not_mem_nil
  | @exhausted item pre post hs =>
      refine h.replace hs rfl (List.Subset.refl _) rfl ?_
      intro p l _ _ _ _ hoff
      rw [offers_linking] at hoff
      exact absurd hoff.2 (by simp)
  | @done item pre post hs hu =>
      intro p hmem hd l hl hperm
      rcases h p hmem hd l hl hperm with hrec | ⟨task, htask, hoff⟩
      · exact Or.inl hrec
      · rw [hs, List.mem_append, List.mem_cons] at htask
        rcases htask with htask | rfl | htask
        · exact Or.inr ⟨task, by simp [htask], hoff⟩
        · exact absurd hoff not_offers_finishing
        · exact Or.inr ⟨task, by simp [htask], hoff⟩

/-! ### Level-ordered runs -/

lemma levels_of_reachable (h : (E.machine U site seeds crawlId).ReachableBy LevelOrdered s) :
    Levels s :=
  Machine.ReachableBy.inv_of (fun _ hr => ledger_of_reachable hr.reachable) levels_start
    (fun _ _ _ hl _ ih hord hst => ih.step hl hord (moves_of_step hst)) h

/-- Nothing is ever removed from the history of the queue. -/
lemma start_put_subset (h : (E.machine U site seeds crawlId).Reachable s) :
    (start U seeds crawlId).put ⊆ s.put := by
  refine Machine.ReachableBy.inv (I := fun s => (start U seeds crawlId).put ⊆ s.put)
    (List.Subset.refl _) ?_ h
  intro s a t ih _ hst
  have hput : s.put ⊆ t.put := by
    cases moves_of_step hst <;> simp
  exact List.Subset.trans ih hput

/-- Until the page budget is reached, no item is skipped. -/
lemma visits_eq_taken (h : (E.machine U site seeds crawlId).Reachable s)
    (hpages : (s.processed : ℤ) < E.maxPages) : s.visits = s.taken := by
  have hinv : s.visits = s.taken ∨ E.maxPages ≤ s.processed := by
    refine Machine.ReachableBy.inv (I := fun s => s.visits = s.taken ∨ E.maxPages ≤ s.processed)
      ?_ ?_ h
    · obtain ⟨-, h2, h3, -⟩ := start_fields U seeds crawlId
      simp [machine, h2, h3]
    · intro s a t ih _ hst
      cases moves_of_step hst with
      | skip hq hc hp => exact Or.inr hp
      | visit hq hc hp => exact ih.imp_left fun heq => by simp [heq]
      | raised hs he => exact ih
      | leaf hs hr hstop =>
          refine ih.imp_right fun hle => hle.trans ?_
          dsimp only
          split <;> omega
      | expand hs hr hdup hd =>
          refine ih.imp_right fun hle => hle.trans ?_
          dsimp only
          split <;> omega
      | pass hs hno => exact ih
      | enqueue hs hadm hnew => exact ih
      | cut hs he => exact ih
      | exhausted hs => exact ih
      | done hs hu => exact ih
  exact hinv.resolve_right (not_le.2 hpages)

/-- When the run is over, every item that was ever put on the queue was visited. -/
lemma visits_eq_put (h : (E.machine U site seeds crawlId).Reachable s) (hj : s.frontier.Joined)
    (hpages : (s.processed : ℤ) < E.maxPages) : s.visits = s.put := by
  have hl := ledger_of_reachable h
  rw [visits_eq_taken h hpages, hl.put_eq, ((joined_iff hl).1 hj).1, List.append_nil]

/-- The seeds are on the queue from the start. -/
lemma exists_put_of_seed (h : (E.machine U site seeds crawlId).Reachable s)
    (hread : SeedsRead U seeds) {u : String} (hu : u ∈ seedUrls U seeds) :
    ∃ i ∈ s.put, i.url = u ∧ i.depth = 0 := by
  have hseen : u ∈ (start U seeds crawlId).frontier.seen :=
    ((mem_seedAll hread {}).1 u).2 (Or.inr hu)
  obtain ⟨i, hi, rfl⟩ := List.mem_map.1 (((ledger_start U seeds crawlId).mem_seen _).1 hseen)
  exact ⟨i, start_put_subset h hi, rfl, (mem_start_put seeds hi).2.1⟩

lemma covered_of_reachable (hfix : FixedPages site links)
    (h : (E.machine U site seeds crawlId).ReachableBy LevelOrdered s) :
    Covered E U seeds links s := by
  refine Machine.ReachableBy.inv_of (I := Covered E U seeds links) (fun _ hr => hr) ?_ ?_ h
  · obtain ⟨-, -, h3, -⟩ := start_fields U seeds crawlId
    intro p hp
    simp [machine, h3] at hp
  · intro s a t hr _ ih _ hst
    exact ih.step hfix (ledger_of_reachable hr.reachable) (provenance_of_reachable hr.reachable)
      (levels_of_reachable hr) (moves_of_step hst)

/-- When the run is over, every URL within reach is recorded with at most the
length of any path to it. -/
lemma recorded_of_hops (hfix : FixedPages site links) (hread : SeedsRead U seeds)
    (h : (E.machine U site seeds crawlId).ReachableBy LevelOrdered s)
    (hpages : (s.processed : ℤ) < E.maxPages) (hj : s.frontier.Joined) {n : ℕ} {v : String}
    (hv : Hops (AdmissibleLink E U seeds (E.followedLinks U links)) (seedSet U seeds) n v)
    (hn : (n : ℤ) ≤ E.maxDepth) :
    ∃ i ∈ s.put, i.url = v ∧ i.depth ≤ n := by
  obtain ⟨-, ht⟩ := (joined_iff (ledger_of_reachable h.reachable)).1 hj
  have hvisits := visits_eq_put h.reachable hj hpages
  have hcov := covered_of_reachable hfix h
  have hsource : ∀ v ∈ seedSet U seeds, ∃ k ≤ 0, ∃ i ∈ s.put, i.url = v ∧ i.depth = k := by
    intro v hv
    exact ⟨0, le_rfl, exists_put_of_seed h.reachable hread hv⟩
  have hedge : ∀ u v k, (∃ i ∈ s.put, i.url = u ∧ i.depth = k) → k < E.maxDepth →
      AdmissibleLink E U seeds (E.followedLinks U links) u v →
        ∃ k' ≤ k + 1, ∃ i ∈ s.put, i.url = v ∧ i.depth = k' := by
    rintro u v k ⟨p, hp, rfl, rfl⟩ hlt ⟨hlink, hperm⟩
    obtain ⟨l, hl, rfl⟩ := List.mem_map.1 hlink
    rcases hcov p (hvisits.symm ▸ hp) hlt l hl hperm with ⟨i, hi, hu, hd⟩ | ⟨task, htask, -⟩
    · exact ⟨i.depth, hd, i, hi, hu, rfl⟩
    · simp [ht] at htask
  obtain ⟨k, hk, i, hi, hu, rfl⟩ := hv.recorded hsource hedge hn
  exact ⟨i, hi, hu, hk⟩

/-- The result of a breadth-first search: exactly the URLs within reach are
visited, each once, with its distance from the seeds as depth, and by
nondecreasing depth. -/
structure BreadthFirst (E : CrawlEngine) (U : UrlUtils) (seeds : List String)
    (links : String → List Link) (s : EngineState) : Prop where
  exact : ∀ v, v ∈ s.visits.map (·.url) ↔ v ∈ reach E U seeds links
  once : (s.visits.map (·.url)).Nodup
  dist : ∀ i ∈ s.visits, ∃ n : ℕ, i.depth = n ∧
    IsDist (AdmissibleLink E U seeds links) (seedSet U seeds) n i.url
  ordered : s.visits.Pairwise fun i j => i.depth ≤ j.depth

/-- A level-ordered run that is over is a breadth-first search along the links that are
offered. -/
theorem breadthFirst_of_levelOrdered (hfix : FixedPages site links) (hdepth : 0 ≤ E.maxDepth)
    (hread : SeedsRead U seeds)
    (h : (E.machine U site seeds crawlId).ReachableBy LevelOrdered s) (hj : s.frontier.Joined)
    (hpages : (s.processed : ℤ) < E.maxPages) :
    BreadthFirst E U seeds (E.followedLinks U links) s := by
  have hl := ledger_of_reachable h.reachable
  have hp := provenance_of_reachable h.reachable
  have hvisits := visits_eq_put h.reachable hj hpages
  have hrec : ∀ {n : ℕ} {v : String},
      Hops (AdmissibleLink E U seeds (E.followedLinks U links)) (seedSet U seeds) n v →
        (n : ℤ) ≤ E.maxDepth → ∃ i ∈ s.put, i.url = v ∧ i.depth ≤ n :=
    recorded_of_hops hfix hread h hpages hj
  refine ⟨fun v => ⟨?_, ?_⟩, hvisits ▸ hl.nodup, ?_,
    hvisits ▸ (levels_of_reachable h).sorted⟩
  · intro hv
    rw [hvisits] at hv
    obtain ⟨i, hi, rfl⟩ := List.mem_map.1 hv
    exact mem_reach_of_mem_put hfix hl hp hdepth hi
  · intro hv
    obtain ⟨n, hn, hpath⟩ := hv
    obtain ⟨i, hi, rfl, -⟩ := hrec hpath hn
    exact hvisits ▸ List.mem_map_of_mem hi
  · intro i hi
    rw [hvisits] at hi
    have hcast : (i.depth.toNat : ℤ) = i.depth := Int.toNat_of_nonneg (hp.nonneg i hi)
    refine ⟨i.depth.toNat, hcast.symm, IsDist.of_bounds (hops_depth hfix hl hp hi) ?_⟩
    intro m hm hpath
    -- a shorter path would have recorded the same URL with a smaller depth
    have hle := hp.depth_le hdepth hi
    obtain ⟨j, hj, hurl, hd⟩ := hrec hpath (by omega)
    have hij : j = i := List.inj_on_of_nodup_map hl.nodup hj hi hurl
    rw [hij] at hd
    omega

/-! ### Runs come to an end -/

/-- While an item is being handled, some worker can go on, level by level. -/
lemma exists_step_of_task (hl : s.Ledger) (hne : s.tasks ≠ []) :
    ∃ a, LevelOrdered s a ∧ (E.step U site s a).isSome := by
  have hu : s.frontier.unfinished ≠ 0 := by
    have := List.length_pos_iff.2 hne
    have := hl.unfinished_eq
    omega
  by_cases hfin : ∃ task ∈ s.tasks, task.stage = .finishing
  · obtain ⟨⟨item, st⟩, hmem, rfl⟩ := hfin
    obtain ⟨i, hi⟩ := List.mem_iff_getElem?.1 hmem
    exact ⟨.done i, trivial, by simp [step, hi, MemoryFrontier.taskDone, hu]⟩
  by_cases hfetch : ∃ task ∈ s.tasks, task.stage = .fetching
  · obtain ⟨⟨item, st⟩, hmem, rfl⟩ := hfetch
    obtain ⟨i, hi⟩ := List.mem_iff_getElem?.1 hmem
    rcases hsite : site item with e | r
    · exact ⟨.result i, trivial, by simp [step, hi, hsite]⟩
    · exact ⟨.result i, trivial, by simp [step, hi, hsite]⟩
  -- every worker is in its loop over the links: the one with the smallest depth goes on
  obtain ⟨task, hmem, hmin⟩ := Finset.exists_min_image s.tasks.toFinset (·.item.depth)
    (List.toFinset_nonempty_iff _ |>.2 hne)
  rw [List.mem_toFinset] at hmem
  obtain ⟨i, hi⟩ := List.mem_iff_getElem?.1 hmem
  have hord : LevelOrdered s (.link i) := by
    intro task' htask' task'' hmem'' _
    rw [hi, Option.mem_some_iff] at htask'
    exact htask' ▸ hmin task'' (List.mem_toFinset.2 hmem'')
  obtain ⟨item, st⟩ := task
  cases st with
  | fetching => exact absurd ⟨_, hmem, rfl⟩ hfetch
  | finishing => exact absurd ⟨_, hmem, rfl⟩ hfin
  | linking rest =>
      obtain ⟨t, hst⟩ : ∃ t, E.step U site s (.link i) = some t := exists_step_link hi
      exact ⟨.link i, hord, by simp [hst]⟩

/-- A run that is not over can go on, level by level. -/
lemma exists_step (hc : 1 ≤ E.concurrency) (hl : s.Ledger) (hover : ¬ s.Over) :
    ∃ a, LevelOrdered s a ∧ (E.step U site s a).isSome := by
  obtain ⟨hab, hj⟩ := not_or.1 hover
  by_cases htasks : s.tasks = []
  · rcases hq : s.frontier.queue with _ | ⟨item, rest⟩
    · exact absurd ((joined_iff hl).2 ⟨hq, htasks⟩) hj
    · have hlt : s.tasks.length < E.concurrency := by
        rw [htasks, List.length_nil]
        omega
      exact ⟨.get, trivial, by simp [step, hlt, not_not.1 hab, MemoryFrontier.get, hq]⟩
  · exact exists_step_of_task hl htasks

/-- Some level-ordered run comes to its end. -/
lemma exists_over (hc : 1 ≤ E.concurrency) :
    ∃ s, (E.machine U site seeds crawlId).ReachableBy LevelOrdered s ∧ s.Over := by
  obtain ⟨s, hs, hstuck⟩ := Machine.exists_stuck
    (M := E.machine U site seeds crawlId) (P := LevelOrdered) wellFounded_engine .init
  refine ⟨s, hs, by_contra ?_⟩
  intro hj
  obtain ⟨a, hord, hsome⟩ : ∃ a, LevelOrdered s a ∧ (E.step U site s a).isSome :=
    exists_step hc (ledger_of_reachable hs.reachable) hj
  obtain ⟨t, hst⟩ := Option.isSome_iff_exists.1 hsome
  exact hstuck a t hord hst

/-! ### One worker -/

lemma tasks_length_le (h : (E.machine U site seeds crawlId).Reachable s) :
    s.tasks.length ≤ E.concurrency := by
  refine Machine.ReachableBy.inv (I := fun s => s.tasks.length ≤ E.concurrency) ?_ ?_ h
  · obtain ⟨h1, -⟩ := start_fields U seeds crawlId
    simp [machine, h1]
  · intro s a t ih _ hst
    cases moves_of_step hst with
    | skip hq hc hp => simpa using hc
    | visit hq hc hp => simpa using hc
    | raised hs he => simpa [hs] using ih
    | leaf hs hr hstop => simpa [hs] using ih
    | expand hs hr hdup hd => simpa [hs] using ih
    | pass hs hno => simpa [hs] using ih
    | enqueue hs hadm hnew => simpa [hs] using ih
    | cut hs he => simpa [hs] using ih
    | exhausted hs => simpa [hs] using ih
    | done hs hu =>
        simp only [hs, List.length_append, List.length_cons] at ih ⊢
        omega

/-- With at most one item being handled, links are offered level by level. -/
lemma levelOrdered_of_length_le_one (h : s.tasks.length ≤ 1) (a : Act) : LevelOrdered s a := by
  cases a with
  | get => trivial
  | result i => trivial
  | done i => trivial
  | link i =>
      intro task htask task' htask' _
      have hmem : task ∈ s.tasks := List.mem_of_getElem? htask
      match hs : s.tasks, h with
      | [], _ => simp [hs] at hmem
      | [x], _ =>
          rw [hs, List.mem_singleton] at hmem htask'
          rw [hmem, htask']

lemma levelOrdered_of_single (hone : E.concurrency = 1)
    (h : (E.machine U site seeds crawlId).Reachable s) :
    (E.machine U site seeds crawlId).ReachableBy LevelOrdered s := by
  induction h with
  | init => exact .init
  | step hr _ hst ih =>
      exact ih.step (levelOrdered_of_length_le_one (hone ▸ tasks_length_le hr) _) hst

/-! ### What the exceptions cost -/

/-- The exceptions cost the search nothing: no seed raises, or none has a URL; and a link
behind a URL that does not parse leads to a page that is found as early along others. -/
structure FindsAll (E : CrawlEngine) (U : UrlUtils) (seeds : List String)
    (links : String → List Link) : Prop where
  reads : SeedsRead U seeds ∨ seedUrls U seeds = []
  spans : Spans (AdmissibleLink E U seeds (E.followedLinks U links))
    (AdmissibleLink E U seeds links) (seedSet U seeds) E.maxDepth

lemma AdmissibleLink.of_followed {u v : String}
    (h : AdmissibleLink E U seeds (E.followedLinks U links) u v) :
    AdmissibleLink E U seeds links u v :=
  ⟨List.map_subset _ (List.takeWhile_subset _) h.1, h.2⟩

/-- URLs that parse cost nothing. -/
lemma findsAll_of_followed (hread : SeedsRead U seeds)
    (hlinks : ∀ u, E.followedLinks U links u = links u) : FindsAll E U seeds links := by
  refine ⟨Or.inl hread, spans_of_subset ?_⟩
  intro u v hlink
  exact ⟨(hlinks u).symm ▸ hlink.1, hlink.2⟩

/-- A search along the links that are offered is one along all links exactly if these
reach the same pages as early. -/
lemma BreadthFirst.all_links_iff (h : BreadthFirst E U seeds (E.followedLinks U links) s) :
    BreadthFirst E U seeds links s ↔ Spans (AdmissibleLink E U seeds (E.followedLinks U links))
      (AdmissibleLink E U seeds links) (seedSet U seeds) E.maxDepth := by
  have hsub : ∀ u v, AdmissibleLink E U seeds (E.followedLinks U links) u v →
      AdmissibleLink E U seeds links u v := fun _ _ => AdmissibleLink.of_followed
  rw [← hops_iff_spans hsub]
  constructor
  · intro hall n v hn hv
    obtain ⟨i, hi, rfl⟩ := List.mem_map.1 ((hall.exact v).2 ⟨n, hn, hv⟩)
    obtain ⟨m, hm, hdist⟩ := hall.dist i hi
    obtain ⟨m', hm', hdist'⟩ := h.dist i hi
    have := hdist.2 n hv
    exact ⟨m', by omega, hdist'.1⟩
  · intro hspan
    have hreach : reach E U seeds links = reach E U seeds (E.followedLinks U links) := by
      ext v
      refine ⟨?_, fun ⟨n, hn, hv⟩ => ⟨n, hn, hv.mono hsub⟩⟩
      rintro ⟨n, hn, hv⟩
      obtain ⟨m, hm, hv'⟩ := hspan n v hn hv
      exact ⟨m, by omega, hv'⟩
    refine ⟨fun v => hreach ▸ h.exact v, h.once, ?_, h.ordered⟩
    intro i hi
    obtain ⟨n, hn, hdist⟩ := h.dist i hi
    obtain ⟨k, hk, hv⟩ := (h.exact i.url).1 (List.mem_map_of_mem hi)
    have hnk := hdist.2 k hv
    refine ⟨n, hn, hdist.1.mono hsub, ?_⟩
    intro m hm
    by_contra hlt
    obtain ⟨m', hm', hv'⟩ := hspan m i.url (by omega) hm
    have := hdist.2 m' hv'
    omega

/-- A run that a seed has ended is right only if there is nothing to visit. -/
lemma breadthFirst_of_aborted (hdepth : 0 ≤ E.maxDepth)
    (h : (E.machine U site seeds crawlId).Reachable s) (hab : s.aborted ≠ none) :
    BreadthFirst E U seeds links s ↔ seedUrls U seeds = [] := by
  have hvisits := visits_of_aborted h hab
  constructor
  · intro hbfs
    rw [List.eq_nil_iff_forall_not_mem]
    intro u hu
    have hmem := (hbfs.exact u).2 ⟨0, by simpa using hdepth, .source hu⟩
    simp [hvisits] at hmem
  · intro hnil
    refine ⟨?_, by simp [hvisits], by simp [hvisits], by simp [hvisits]⟩
    intro v
    rw [hvisits]
    refine iff_of_false (by simp) ?_
    rintro ⟨n, _, hv⟩
    obtain ⟨u, hu⟩ := hv.exists_source
    simp [seedSet, hnil] at hu

/-- A level-ordered run that is over is a breadth-first search exactly if the exceptions
cost it nothing. -/
theorem breadthFirst_iff_findsAll (hfix : FixedPages site links) (hdepth : 0 ≤ E.maxDepth)
    (h : (E.machine U site seeds crawlId).ReachableBy LevelOrdered s) (hover : s.Over)
    (hpages : (s.processed : ℤ) < E.maxPages) :
    BreadthFirst E U seeds links s ↔ FindsAll E U seeds links := by
  by_cases hab : s.aborted = none
  · have hread := (aborted_of_reachable h.reachable).1 hab
    have hbfs := breadthFirst_of_levelOrdered hfix hdepth hread h
      (hover.resolve_left (not_not.2 hab)) hpages
    rw [hbfs.all_links_iff]
    exact ⟨fun hspans => ⟨Or.inl hread, hspans⟩, FindsAll.spans⟩
  · rw [breadthFirst_of_aborted hdepth h.reachable hab]
    have hread : ¬ SeedsRead U seeds := fun hread =>
      hab ((aborted_of_reachable h.reachable).2 hread)
    constructor
    · intro hnil
      refine ⟨Or.inr hnil, ?_⟩
      intro n u v hdist
      obtain ⟨w, hw⟩ := hdist.1.exists_source
      simp [seedSet, hnil] at hw
    · exact fun hall => hall.reads.resolve_left hread

/-- **One worker performs a breadth-first search.**  On a site of fixed pages the run
of a single worker never gets stuck and comes to its end.  When it is over and the page
budget is not reached, exactly the URLs within `max_depth` admissible links of the
seeds were visited, each once, with its distance from the seeds as depth, and by
nondecreasing depth, if and only if the exceptions of URLs that do not parse cost it
nothing. -/
theorem single_worker_breadthFirst (hone : E.concurrency = 1) (hdepth : 0 ≤ E.maxDepth)
    (hfix : FixedPages site links) :
    (∃ s, (E.machine U site seeds crawlId).Reachable s ∧ s.Over) ∧
      (∀ s, (E.machine U site seeds crawlId).Reachable s → ¬ s.Over →
        ∃ a t, E.step U site s a = some t) ∧
      ∀ s, (E.machine U site seeds crawlId).Reachable s → s.Over →
        (s.processed : ℤ) < E.maxPages →
        (BreadthFirst E U seeds links s ↔ FindsAll E U seeds links) := by
  refine ⟨?_, ?_, ?_⟩
  · obtain ⟨s, hs, hover⟩ : ∃ s, (E.machine U site seeds crawlId).ReachableBy LevelOrdered s ∧
        s.Over := exists_over hone.ge
    exact ⟨s, hs.reachable, hover⟩
  · intro s hs hover
    obtain ⟨a, -, hsome⟩ : ∃ a, LevelOrdered s a ∧ (E.step U site s a).isSome :=
      exists_step hone.ge (ledger_of_reachable hs) hover
    exact ⟨a, Option.isSome_iff_exists.1 hsome⟩
  · intro s hs hover hpages
    exact breadthFirst_iff_findsAll hfix hdepth (levelOrdered_of_single hone hs) hover hpages

lemma fixedPages_twoPages : FixedPages twoPages twoPagesLinks :=
  fun _ => ⟨_, rfl, rfl, rfl, rfl⟩

lemma followed_twoPagesLinks (u : String) :
    followedLinks { concurrency := 1 } plainUrls twoPagesLinks u = twoPagesLinks u := by
  rw [followedLinks, twoPagesLinks]
  split_ifs
  · decide
  · decide

/-- The run of one worker on `twoPages`. -/
theorem single_worker_breadthFirst_twoPages :
    ∃ s, (({ concurrency := 1 } : CrawlEngine).machine plainUrls twoPages
        ["http://a.org/"] none).Reachable s ∧ s.Over ∧ s.processed = 2 ∧
      BreadthFirst { concurrency := 1 } plainUrls ["http://a.org/"] twoPagesLinks s := by
  have h := Machine.reachableBy_of_exec (P := fun _ _ => True)
    (M := ({ concurrency := 1 } : CrawlEngine).machine plainUrls twoPages ["http://a.org/"] none)
    [.get, .result 0, .link 0, .link 0, .link 0, .done 0, .get, .result 0, .link 0, .link 0,
      .done 0] rfl
  exact ⟨_, h, by decide, rfl,
    ((single_worker_breadthFirst rfl (by decide) fixedPages_twoPages).2.2 _ h (by decide)
      (by decide)).2 (findsAll_of_followed (by decide) followed_twoPagesLinks)⟩

/-- A page with a link that does not parse before another one. -/
def bracketLinks (u : String) : List Link :=
  if u = "http://a.org/" then [{ url := "http://[" }, { url := "http://a.org/b" }] else []

/-- The site of `bracketLinks`. -/
def bracketPages : Site := fun i =>
  .ok { item := i, fetched := true, stored := true, links := bracketLinks i.url }

/-- **A URL that does not parse ends the search.**  Among the seeds it ends the run before
the first seed is visited; among the links of a page it hides the ones behind it. -/
theorem bracket_ends_search :
    FixedPages bracketPages bracketLinks ∧
    (∃ s, (({ concurrency := 1 } : CrawlEngine).machine plainUrls bracketPages
        ["http://a.org/", "http://["] none).Reachable s ∧ s.Over ∧ s.processed < 100 ∧
      ¬ BreadthFirst { concurrency := 1 } plainUrls ["http://a.org/", "http://["]
        bracketLinks s) ∧
    ∃ s, (({ concurrency := 1 } : CrawlEngine).machine plainUrls bracketPages
        ["http://a.org/"] none).Reachable s ∧ s.Over ∧ s.processed < 100 ∧
      ¬ BreadthFirst { concurrency := 1 } plainUrls ["http://a.org/"] bracketLinks s := by
  have h := Machine.reachableBy_of_exec (P := fun _ _ => True)
    (M := ({ concurrency := 1 } : CrawlEngine).machine plainUrls bracketPages
      ["http://a.org/"] none)
    [.get, .result 0, .link 0, .done 0] rfl
  have hseed : ∀ seeds, "http://a.org/" ∈ seedUrls plainUrls seeds →
      Hops (AdmissibleLink { concurrency := 1 } plainUrls seeds bracketLinks)
        (seedSet plainUrls seeds) 0 "http://a.org/" := fun _ hu => .source hu
  refine ⟨fun _ => ⟨_, rfl, rfl, rfl, rfl⟩, ⟨_, .init, by decide, by decide, ?_⟩,
    _, h, by decide, by decide, ?_⟩
  · intro hbfs
    have hmem := (hbfs.exact "http://a.org/").2 ⟨0, by decide, hseed _ (by decide)⟩
    exact absurd hmem (by decide)
  · intro hbfs
    have hlink : AdmissibleLink { concurrency := 1 } plainUrls ["http://a.org/"] bracketLinks
        "http://a.org/" "http://a.org/b" :=
      ⟨by decide, by decide, by simp, fun _ _ => ⟨"a.org", by decide, by decide⟩⟩
    have hmem := (hbfs.exact "http://a.org/b").2
      ⟨1, by decide, .edge (hseed _ (by decide)) hlink⟩
    exact absurd hmem (by decide)

end CrawlEngine

end WebCrawler
