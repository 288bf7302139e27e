import WebCrawler.Engine.Invariant
import Mathlib.Data.Multiset.DershowitzManna
import Mathlib.Data.Prod.Lex

/-!
# Termination of the crawl loop

A step may put arbitrarily many children on the queue, one after the other, so
no counter decreases.  What decreases is the multiset of the weights of the items
that are queued or being handled: a child has strictly less room below the depth
limit than the item whose page links to it, and an item that is being handled
gets lighter at every step of its worker.
-/

namespace WebCrawler

open Lib

namespace CrawlEngine

variable (E : CrawlEngine)

/-- The weight of an item: its room below the depth limit, then the point at which
it stands, then the number of links still to be offered. -/
abbrev Weight : Type := ℕ ×ₗ ℕ ×ₗ ℕ

/-- The number of levels below an item. -/
def room (item : FrontierItem) : ℕ := (E.maxDepth - item.depth).toNat

/-- The weight of a queued item. -/
def queuedWeight (item : FrontierItem) : Weight := toLex (E.room item, toLex (3, 0))

/-- The weight of the point at which an item stands. -/
def stageWeight : Stage → ℕ ×ₗ ℕ
  | .fetching => toLex (2, 0)
  | .linking rest => toLex (1, rest.length)
  | .finishing => toLex (0, 0)

/-- The weight of an item being handled. -/
def taskWeight (task : Task) : Weight := toLex (E.room task.item, stageWeight task.stage)

/-- The weights of all items that are queued or being handled. -/
def weights (s : EngineState) : Multiset Weight :=
  (s.frontier.queue.map E.queuedWeight : Multiset Weight) + (s.tasks.map E.taskWeight)

/-- The order on multisets of weights: some elements are replaced by smaller ones. -/
abbrev Lighter : Multiset Weight → Multiset Weight → Prop := Multiset.IsDershowitzMannaLT

variable {E} {U : UrlUtils} {site : Site} {seeds : List String} {crawlId : Option ℤ}
  {s t : EngineState} {a : Act}

lemma lighter_of_replace {X Y : Multiset Weight} {z : Weight} (h : ∀ y ∈ Y, y < z) :
    Lighter (X + Y) (X + {z}) :=
  ⟨X, Y, {z}, by simp, rfl, rfl, fun y hy => ⟨z, by simp, h y hy⟩⟩

lemma taskWeight_lt {item : FrontierItem} {st st' : Stage} (h : stageWeight st' < stageWeight st) :
    E.taskWeight ⟨item, st'⟩ < E.taskWeight ⟨item, st⟩ :=
  Prod.Lex.toLex_lt_toLex.2 (Or.inr ⟨rfl, h⟩)

lemma taskWeight_lt_queuedWeight {item : FrontierItem} {st : Stage}
    (h : stageWeight st < toLex (3, 0)) : E.taskWeight ⟨item, st⟩ < E.queuedWeight item :=
  Prod.Lex.toLex_lt_toLex.2 (Or.inr ⟨rfl, h⟩)

/-- A child lies strictly closer to the depth limit than its parent. -/
lemma queuedWeight_child_lt {item : FrontierItem} {l : Link} {st : Stage}
    (hd : item.depth < E.maxDepth) :
    E.queuedWeight (child item l) < E.taskWeight ⟨item, st⟩ := by
  refine Prod.Lex.toLex_lt_toLex.2 (Or.inl ?_)
  simp only [room, child_depth]
  omega

lemma stageWeight_linking_lt (l : Link) (rest : List Link) :
    stageWeight (.linking rest) < stageWeight (.linking (l :: rest)) :=
  Prod.Lex.toLex_lt_toLex.2 (Or.inr ⟨rfl, by simp⟩)

lemma stageWeight_linking_lt_fetching (rest : List Link) :
    stageWeight (.linking rest) < stageWeight .fetching :=
  Prod.Lex.toLex_lt_toLex.2 (Or.inl (by norm_num))

lemma stageWeight_finishing_lt_linking (rest : List Link) :
    stageWeight .finishing < stageWeight (.linking rest) :=
  Prod.Lex.toLex_lt_toLex.2 (Or.inl (by norm_num))

/-- The weights, split at the item that moves. -/
lemma weights_eq {pre post : List Task} (task : Task) (hs : s.tasks = pre ++ task :: post) :
    E.weights s =
      (s.frontier.queue.map E.queuedWeight + pre.map E.taskWeight + post.map E.taskWeight :
        Multiset Weight) + {E.taskWeight task} := by
  simp only [weights, hs, List.map_append, List.map_cons, ← Multiset.coe_add,
    ← Multiset.cons_coe, ← Multiset.singleton_add]
  abel

/-- An item being handled gets lighter when its worker moves on. -/
lemma lighter_of_task {pre post : List Task} {item : FrontierItem} {st st' : Stage}
    (hs : s.tasks = pre ++ ⟨item, st⟩ :: post) (hlt : stageWeight st' < stageWeight st) (n : ℕ) :
    Lighter (E.weights { s with processed := n, tasks := pre ++ ⟨item, st'⟩ :: post })
      (E.weights s) := by
  rw [weights_eq _ hs, weights_eq ⟨item, st'⟩ rfl]
  exact lighter_of_replace (by simpa using taskWeight_lt hlt)

/-- An item gets lighter when it is taken from the queue. -/
lemma lighter_of_take {item : FrontierItem} {rest : List FrontierItem} {st : Stage}
    (hq : s.frontier.queue = item :: rest) (hlt : stageWeight st < toLex (3, 0))
    (visits taken : List FrontierItem) :
    Lighter
      (E.weights
        { s with
          frontier := { s.frontier with queue := rest }
          tasks := s.tasks ++ [⟨item, st⟩]
          taken := taken
          visits := visits })
      (E.weights s) := by
  have h := lighter_of_replace (X := (rest.map E.queuedWeight : Multiset Weight) +
    (s.tasks.map E.taskWeight : Multiset Weight)) (Y := {E.taskWeight ⟨item, st⟩})
    (z := E.queuedWeight item) (by simpa using taskWeight_lt_queuedWeight hlt)
  convert h using 1
  · simp only [weights, List.map_append, List.map_cons, List.map_nil, ← Multiset.coe_add,
      Multiset.coe_singleton]
    abel
  · simp only [weights, hq, List.map_cons, ← Multiset.cons_coe, ← Multiset.singleton_add]
    abel

/-- Every step of a worker makes the weights lighter. -/
theorem weights_lighter (hp : Provenance E U site seeds s) (hm : Moves E U site s a t) :
    Lighter (E.weights t) (E.weights s) := by
  have hlink := hp.linking
  cases hm with
  | skip hq hc hp => exact lighter_of_take hq (by decide) s.visits _
  | visit hq hc hp => exact lighter_of_take hq (by decide) _ _
  | raised hs he => exact lighter_of_task hs (by decide) s.processed
  | leaf hs hr hstop => exact lighter_of_task hs (by decide) _
  | expand hs hr hdup hd => exact lighter_of_task hs (stageWeight_linking_lt_fetching _) _
  | pass hs hno => exact lighter_of_task hs (stageWeight_linking_lt _ _) s.processed
  | @enqueue item pre post l rest hs hadm hnew =>
      -- the child joins the queue: two weights take the place of a heavier one
      obtain ⟨hd, -⟩ := (linkingOk_linking item (l :: rest)).1
        (hlink ⟨item, .linking (l :: rest)⟩ (by simp [hs]))
      have h := lighter_of_replace (X := (s.frontier.queue.map E.queuedWeight +
        pre.map E.taskWeight + post.map E.taskWeight : Multiset Weight))
        (Y := {E.queuedWeight (child item l)} + {E.taskWeight ⟨item, .linking rest⟩})
        (z := E.taskWeight ⟨item, .linking (l :: rest)⟩) (by
          intro y hy
          rcases Multiset.mem_add.1 hy with hy | hy
          · rw [Multiset.mem_singleton.1 hy]
            exact queuedWeight_child_lt hd
          · rw [Multiset.mem_singleton.1 hy]
            exact taskWeight_lt (stageWeight_linking_lt l rest))
      rw [weights_eq _ hs, weights_eq ⟨item, .linking rest⟩ rfl]
      convert h using 1
      simp only [List.map_append, List.map_cons, List.map_nil, ← Multiset.coe_add,
        Multiset.coe_singleton]
      abel
  | cut hs he => exact lighter_of_task hs (stageWeight_finishing_lt_linking _) s.processed
  | exhausted hs => exact lighter_of_task hs (stageWeight_finishing_lt_linking _) s.processed
  | @done item pre post hs hu =>
      -- the item leaves, and nothing takes its place
      have h := lighter_of_replace (X := (s.frontier.queue.map E.queuedWeight +
        pre.map E.taskWeight + post.map E.taskWeight : Multiset Weight))
        (Y := 0) (z := E.taskWeight ⟨item, .finishing⟩) (by simp)
      rw [weights_eq _ hs]
      convert h using 1
      simp only [weights, List.map_append, ← Multiset.coe_add]
      abel

lemma wellFounded_engine :
    WellFounded fun t s => (E.machine U site seeds crawlId).Reachable s ∧
      (E.machine U site seeds crawlId).Next s t :=
  Machine.wellFounded_next Multiset.wellFounded_isDershowitzMannaLT E.weights
    fun _ _ _ hs hst => weights_lighter (provenance_of_reachable hs) (moves_of_step hst)

/-- **The crawl loop terminates.**  Whatever the site answers and however the
workers are scheduled, every step replaces weights of queued items and of items
being handled by lighter ones, a well-founded order, so there is no infinite
run. -/
theorem crawl_terminates (E : CrawlEngine) (U : UrlUtils) (site : Site) (seeds : List String)
    (crawlId : Option ℤ) :
    WellFounded Lighter ∧
      (∀ s a t, (E.machine U site seeds crawlId).Reachable s → E.step U site s a = some t →
        Lighter (E.weights t) (E.weights s)) ∧
      ¬ ∃ run : ℕ → EngineState, run 0 = start U seeds crawlId ∧
        ∀ n, ∃ a, E.step U site (run n) a = some (run (n + 1)) := by
  refine ⟨Multiset.wellFounded_isDershowitzMannaLT, ?_, ?_⟩
  · intro s a t hs hst
    exact weights_lighter (provenance_of_reachable hs) (moves_of_step hst)
  · exact Machine.no_infinite_run (M := E.machine U site seeds crawlId) wellFounded_engine

end CrawlEngine

end WebCrawler
