import WebCrawler.Frontier.Memory
import WebCrawler.Lib.Machine

/-!
# The single-node crawl engine as a machine

`CrawlEngine.run` of `crawler/pipeline/engine.py` seeds the frontier and starts
`concurrency` workers; each worker repeats: take an item, skip it if the page
budget is used up, otherwise await `pipeline.process` and offer the links of the
page to the frontier, and in every case call `task_done`.

A URL that `urlsplit` cannot parse raises.  Among the seeds it ends `run` before any
worker is started; among the links of a page it ends the loop over them, so that the
links behind it are not offered.

The workers are interchangeable, so a state lists the items that were taken from
the queue and whose `task_done` is still to come, each with the point at which
its worker stands.  A worker gives up control only at an `await`; the machine
may switch after every single call of `frontier.add`, which covers at least the
interleavings of the event loop.

The pipeline is an arbitrary function `site` from items to results or raised
exceptions.  No URL is handled twice in a run, so a pipeline whose answers change
over time is covered as well.

The last four fields of a state are history variables: they record what was
done and are never read.
-/

namespace WebCrawler

open Lib

/-- The arguments of `CrawlEngine`, and the setting that `_handle` reads. -/
structure CrawlEngine where
  maxUrlLength : ℤ := 2048
  maxDepth : ℤ := 2
  maxPages : ℤ := 100
  concurrency : ℕ := 10
  sameDomainOnly : Bool := true
  allowedDomains : Option (Finset String) := none

/-- The answer of `run`, without the time that it took. -/
structure CrawlStats where
  processed : ℕ
  discovered : ℕ
deriving DecidableEq, Repr

/-- What `pipeline.process` does with an item. -/
abbrev Site : Type := FrontierItem → Except PyError ProcessResult

/-- The point at which the worker that holds an item stands. -/
inductive Stage
  /-- Awaiting `pipeline.process`. -/
  | fetching
  /-- In the loop over the links of the page; the remaining ones are listed. -/
  | linking (rest : List Link)
  /-- About to call `task_done`. -/
  | finishing
deriving DecidableEq, Repr

/-- An item that was taken from the queue and is being handled. -/
structure Task where
  item : FrontierItem
  stage : Stage
deriving DecidableEq, Repr

/-- A state of a run of the engine. -/
structure EngineState where
  frontier : MemoryFrontier := {}
  processed : ℕ := 0
  seedDomains : Finset String := ∅
  /-- The exception of a seed, with which `run` has ended. -/
  aborted : Option PyError := none
  tasks : List Task := []
  /-- The items ever put on the queue, in order. -/
  put : List FrontierItem := []
  /-- The items taken from the queue, in order. -/
  taken : List FrontierItem := []
  /-- The items handed to `pipeline.process`, in order. -/
  visits : List FrontierItem := []
  /-- The items for which `task_done` was called, in order. -/
  finished : List FrontierItem := []
deriving DecidableEq

/-- The steps of a run: a waiting worker takes an item, or the worker that holds
the `i`-th item being handled goes on to its next point of suspension. -/
inductive Act
  /-- `frontier.get` returns. -/
  | get
  /-- `pipeline.process` returns or raises. -/
  | result (i : ℕ)
  /-- One turn of the loop over the links. -/
  | link (i : ℕ)
  /-- `frontier.task_done`. -/
  | done (i : ℕ)
deriving DecidableEq, Repr

namespace EngineState

/-- `frontier.add`. -/
def add (s : EngineState) (item : FrontierItem) : EngineState :=
  { s with
    frontier := (s.frontier.add item).2
    put := if (s.frontier.add item).1 then s.put ++ [item] else s.put }

/-- The counts that `run` returns. -/
def stats (s : EngineState) : CrawlStats where
  processed := s.processed
  discovered := s.frontier.seenCount

/-- `run` is over: a seed has ended it, or `join` returns. -/
def Over (s : EngineState) : Prop := s.aborted ≠ none ∨ s.frontier.Joined

instance (s : EngineState) : Decidable s.Over := inferInstanceAs (Decidable (_ ∨ _))

/-- The worker holding the `i`-th item moves on to another point. -/
def setTask (s : EngineState) (i : ℕ) (t : Task) : EngineState :=
  { s with tasks := s.tasks.set i t }

end EngineState

namespace CrawlEngine

variable (E : CrawlEngine) (U : UrlUtils) (site : Site)

/-- The filters of `_handle` on the URL of a link: its length, and its registered
domain. -/
def admits (seedDomains : Finset String) (url : String) : Except PyError Bool :=
  if (url.length : ℤ) > E.maxUrlLength then .ok false
  else
    match E.allowedDomains with
    | some allowed => (U.registeredDomain url).map fun domain => decide (domain ∈ allowed)
    | none =>
        if E.sameDomainOnly then
          (U.registeredDomain url).map fun domain => decide (domain ∈ seedDomains)
        else .ok true

/-- The links to which the loop in `_handle` comes: those before the first URL that
does not parse.  Whether a URL parses has nothing to do with the seed domains. -/
def followed (links : List Link) : List Link :=
  links.takeWhile fun l => (E.admits U ∅ l.url).isOk

/-- One turn of the loop over the links in `_handle`. -/
def offer (s : EngineState) (item : FrontierItem) (link : Link) : Except PyError EngineState := do
  if ← E.admits U s.seedDomains link.url then return s.add (child item link)
  return s

/-- `_handle` after `pipeline.process` has returned, up to the loop. -/
def afterProcess (s : EngineState) (i : ℕ) (item : FrontierItem) (r : ProcessResult) :
    EngineState :=
  { s with processed := if r.fetched then s.processed + 1 else s.processed }.setTask i
    { item := item
      stage := if r.duplicate || decide (item.depth ≥ E.maxDepth) then .finishing
        else .linking r.links }

/-- The body of `_worker` right after `frontier.get`: past the page budget the
item is only marked as done. -/
def afterGet (s : EngineState) (item : FrontierItem) (f : MemoryFrontier) : EngineState :=
  if (s.processed : ℤ) ≥ E.maxPages then
    { s with
      frontier := f
      tasks := s.tasks ++ [{ item := item, stage := .finishing }]
      taken := s.taken ++ [item] }
  else
    { s with
      frontier := f
      tasks := s.tasks ++ [{ item := item, stage := .fetching }]
      taken := s.taken ++ [item]
      visits := s.visits ++ [item] }

/-- One step of one worker. -/
def step (s : EngineState) : Act → Option EngineState
  | .get =>
      -- a worker that holds no item waits in `get`
      if s.aborted = none ∧ s.tasks.length < E.concurrency then
        s.frontier.get.map fun p => E.afterGet s p.1 p.2
      else none
  | .result i =>
      match s.tasks[i]? with
      | some ⟨item, .fetching⟩ =>
          match site item with
          | .error _ => some (s.setTask i ⟨item, .finishing⟩)
          | .ok r => some (E.afterProcess s i item r)
      | _ => none
  | .link i =>
      match s.tasks[i]? with
      | some ⟨item, .linking []⟩ => some (s.setTask i ⟨item, .finishing⟩)
      | some ⟨item, .linking (l :: rest)⟩ =>
          match E.offer U s item l with
          -- the exception leaves the loop, and `_worker` logs it
          | .error _ => some (s.setTask i ⟨item, .finishing⟩)
          | .ok t => some (t.setTask i ⟨item, .linking rest⟩)
      | _ => none
  | .done i =>
      match s.tasks[i]? with
      | some ⟨item, .finishing⟩ =>
          s.frontier.taskDone.map fun f =>
            { s with
              frontier := f
              tasks := s.tasks.eraseIdx i
              finished := s.finished ++ [item] }
      | _ => none

/-- What `run` reads off a seed: its canonical URL with the registered domain, or
nothing if the seed does not normalize. -/
def readSeed (raw : String) : Except PyError (Option (String × String)) := do
  let some url ← U.normalizeUrl raw | return none
  return some (url, ← U.registeredDomain url)

/-- One turn of the seeding loop of `run`: seeds that do not normalize are dropped. -/
def seed (crawlId : Option ℤ) (s : EngineState) (raw : String) : Except PyError EngineState := do
  let some (url, domain) ← readSeed U raw | return s
  return { s with seedDomains := insert domain s.seedDomains }.add
    { url := url, depth := 0, crawlId := crawlId }

/-- The seeding loop of `run`. -/
def seedAll (crawlId : Option ℤ) (s : EngineState) : List String → EngineState
  | [] => s
  | raw :: seeds =>
      match seed U crawlId s raw with
      | .error e => { s with aborted := some e }
      | .ok t => seedAll crawlId t seeds

/-- The state in which the workers start, or in which a seed has ended `run`. -/
def start (seeds : List String) (crawlId : Option ℤ) : EngineState :=
  seedAll U crawlId {} seeds

/-- A run of the engine on a fresh frontier. -/
def machine (seeds : List String) (crawlId : Option ℤ) : Machine EngineState Act where
  init := start U seeds crawlId
  step := E.step U site

/-! ### What one step can do -/

variable {E U site} {s t : EngineState} {a : Act}

lemma isOk_admits (ds ds' : Finset String) (url : String) :
    (E.admits U ds url).isOk = (E.admits U ds' url).isOk := by
  rw [admits, admits]
  cases E.allowedDomains <;> cases U.registeredDomain url <;> split_ifs <;> rfl

@[simp] lemma followed_nil : E.followed U [] = [] := rfl

lemma followed_cons_of_ok {ds : Finset String} {l : Link} {b : Bool} (rest : List Link)
    (h : E.admits U ds l.url = .ok b) : E.followed U (l :: rest) = l :: E.followed U rest := by
  refine List.takeWhile_cons_of_pos ?_
  rw [isOk_admits ∅ ds, h]
  rfl

lemma followed_cons_of_error {ds : Finset String} {l : Link} {e : PyError} (rest : List Link)
    (h : E.admits U ds l.url = .error e) : E.followed U (l :: rest) = [] := by
  refine List.takeWhile_cons_of_neg ?_
  rw [isOk_admits ∅ ds, h]
  exact Bool.false_ne_true

/-- The steps, one by one.  The thread that moves splits the list of tasks. -/
inductive Moves (E : CrawlEngine) (U : UrlUtils) (site : Site) (s : EngineState) :
    Act → EngineState → Prop
  /-- An item is taken after the page budget was used up. -/
  | skip {item : FrontierItem} {rest : List FrontierItem}
      (hq : s.frontier.queue = item :: rest) (hc : s.tasks.length < E.concurrency)
      (hp : E.maxPages ≤ s.processed) (hrun : s.aborted = none) :
      Moves E U site s .get
        { s with
          frontier := { s.frontier with queue := rest }
          tasks := s.tasks ++ [⟨item, .finishing⟩]
          taken := s.taken ++ [item] }
  /-- An item is taken and handed to the pipeline. -/
  | visit {item : FrontierItem} {rest : List FrontierItem}
      (hq : s.frontier.queue = item :: rest) (hc : s.tasks.length < E.concurrency)
      (hp : (s.processed : ℤ) < E.maxPages) (hrun : s.aborted = none) :
      Moves E U site s .get
        { s with
          frontier := { s.frontier with queue := rest }
          tasks := s.tasks ++ [⟨item, .fetching⟩]
          taken := s.taken ++ [item]
          visits := s.visits ++ [item] }
  /-- The pipeline raises. -/
  | raised {item : FrontierItem} {pre post : List Task} {e : PyError}
      (hs : s.tasks = pre ++ ⟨item, .fetching⟩ :: post) (he : site item = .error e) :
      Moves E U site s (.result pre.length)
        { s with tasks := pre ++ ⟨item, .finishing⟩ :: post }
  /-- The pipeline returns and the links of the page are not followed. -/
  | leaf {item : FrontierItem} {pre post : List Task} {r : ProcessResult}
      (hs : s.tasks = pre ++ ⟨item, .fetching⟩ :: post) (hr : site item = .ok r)
      (hstop : r.duplicate = true ∨ E.maxDepth ≤ item.depth) :
      Moves E U site s (.result pre.length)
        { s with
          processed := if r.fetched then s.processed + 1 else s.processed
          tasks := pre ++ ⟨item, .finishing⟩ :: post }
  /-- The pipeline returns and the links of the page are followed. -/
  | expand {item : FrontierItem} {pre post : List Task} {r : ProcessResult}
      (hs : s.tasks = pre ++ ⟨item, .fetching⟩ :: post) (hr : site item = .ok r)
      (hdup : r.duplicate = false) (hd : item.depth < E.maxDepth) :
      Moves E U site s (.result pre.length)
        { s with
          processed := if r.fetched then s.processed + 1 else s.processed
          tasks := pre ++ ⟨item, .linking r.links⟩ :: post }
  /-- A link that is filtered out, or whose URL was seen before. -/
  | pass {item : FrontierItem} {pre post : List Task} {l : Link} {rest : List Link}
      (hs : s.tasks = pre ++ ⟨item, .linking (l :: rest)⟩ :: post)
      (hno : E.admits U s.seedDomains l.url = .ok false ∨
        E.admits U s.seedDomains l.url = .ok true ∧ l.url ∈ s.frontier.seen) :
      Moves E U site s (.link pre.length)
        { s with tasks := pre ++ ⟨item, .linking rest⟩ :: post }
  /-- A link to a new admissible URL. -/
  | enqueue {item : FrontierItem} {pre post : List Task} {l : Link} {rest : List Link}
      (hs : s.tasks = pre ++ ⟨item, .linking (l :: rest)⟩ :: post)
      (hadm : E.admits U s.seedDomains l.url = .ok true) (hnew : l.url ∉ s.frontier.seen) :
      Moves E U site s (.link pre.length)
        { s with
          frontier :=
            { queue := s.frontier.queue ++ [child item l]
              unfinished := s.frontier.unfinished + 1
              seen := insert l.url s.frontier.seen }
          tasks := pre ++ ⟨item, .linking rest⟩ :: post
          put := s.put ++ [child item l] }
  /-- A link whose URL does not parse: the loop over the links breaks off. -/
  | cut {item : FrontierItem} {pre post : List Task} {l : Link} {rest : List Link} {e : PyError}
      (hs : s.tasks = pre ++ ⟨item, .linking (l :: rest)⟩ :: post)
      (he : E.admits U s.seedDomains l.url = .error e) :
      Moves E U site s (.link pre.length)
        { s with tasks := pre ++ ⟨item, .finishing⟩ :: post }
  /-- The loop over the links is over. -/
  | exhausted {item : FrontierItem} {pre post : List Task}
      (hs : s.tasks = pre ++ ⟨item, .linking []⟩ :: post) :
      Moves E U site s (.link pre.length)
        { s with tasks := pre ++ ⟨item, .finishing⟩ :: post }
  /-- The item is marked as done. -/
  | done {item : FrontierItem} {pre post : List Task}
      (hs : s.tasks = pre ++ ⟨item, .finishing⟩ :: post) (hu : s.frontier.unfinished ≠ 0) :
      Moves E U site s (.done pre.length)
        { s with
          frontier := { s.frontier with unfinished := s.frontier.unfinished - 1 }
          tasks := pre ++ post
          finished := s.finished ++ [item] }

lemma moves_get (h : E.step U site s .get = some t) : Moves E U site s .get t := by
  simp only [step] at h
  split_ifs at h with hc
  obtain ⟨⟨item, f⟩, hget, rfl⟩ := Option.map_eq_some_iff.1 h
  obtain ⟨rest, hq, rfl⟩ := MemoryFrontier.get_eq_some_iff.1 hget
  by_cases hp : (s.processed : ℤ) ≥ E.maxPages
  · rw [afterGet, if_pos hp]
    exact .skip hq hc.2 hp hc.1
  · rw [afterGet, if_neg hp]
    exact .visit hq hc.2 (not_le.1 hp) hc.1

lemma moves_result {i : ℕ} (h : E.step U site s (.result i) = some t) :
    Moves E U site s (.result i) t := by
  simp only [step] at h
  split at h
  case h_2 => simp at h
  case h_1 item hi =>
    obtain ⟨pre, post, hs, rfl⟩ := exists_split_of_getElem? hi
    rcases hsite : site item with e | r
    · simp only [hsite, Option.some.injEq] at h
      subst h
      simpa [EngineState.setTask, hs] using Moves.raised (E := E) (U := U) hs hsite
    · simp only [hsite, Option.some.injEq] at h
      subst h
      by_cases hstop : r.duplicate = true ∨ E.maxDepth ≤ item.depth
      · simpa [afterProcess, EngineState.setTask, hs, hstop] using
          Moves.leaf (U := U) hs hsite hstop
      · simp only [not_or, Bool.not_eq_true, not_le] at hstop
        simpa [afterProcess, EngineState.setTask, hs, hstop, not_le.2 hstop.2] using
          Moves.expand (U := U) hs hsite hstop.1 hstop.2

lemma offer_eq (s : EngineState) (item : FrontierItem) (link : Link) :
    E.offer U s item link = (E.admits U s.seedDomains link.url).map fun admitted =>
      if admitted then s.add (child item link) else s := by
  rw [offer]
  cases E.admits U s.seedDomains link.url with
  | error e => rfl
  | ok admitted => cases admitted <;> rfl

/-- A worker in its loop over the links can go on. -/
lemma exists_step_link {i : ℕ} {item : FrontierItem} {rest : List Link}
    (hi : s.tasks[i]? = some ⟨item, .linking rest⟩) : ∃ t, E.step U site s (.link i) = some t := by
  cases rest with
  | nil => exact ⟨s.setTask i ⟨item, .finishing⟩, by simp only [step, hi]⟩
  | cons l rest =>
      rcases hoffer : E.offer U s item l with e | t
      · exact ⟨s.setTask i ⟨item, .finishing⟩, by simp only [step, hi, hoffer]⟩
      · exact ⟨t.setTask i ⟨item, .linking rest⟩, by simp only [step, hi, hoffer]⟩

lemma moves_link {i : ℕ} (h : E.step U site s (.link i) = some t) :
    Moves E U site s (.link i) t := by
  simp only [step] at h
  split at h
  case h_3 => simp at h
  case h_1 item hi =>
    obtain ⟨pre, post, hs, rfl⟩ := exists_split_of_getElem? hi
    simp only [Option.some.injEq] at h
    subst h
    have hm : Moves E U site s _ _ := .exhausted hs
    simpa [EngineState.setTask, hs] using hm
  case h_2 item l rest hi =>
    obtain ⟨pre, post, hs, rfl⟩ := exists_split_of_getElem? hi
    rcases hadm : E.admits U s.seedDomains l.url with e | admitted
    · simp only [offer_eq, hadm, Except.map, Option.some.injEq] at h
      subst h
      have hm : Moves E U site s _ _ := .cut hs hadm
      simpa [EngineState.setTask, hs] using hm
    · simp only [offer_eq, hadm, Except.map, Option.some.injEq] at h
      subst h
      cases admitted with
      | false =>
          have hm : Moves E U site s _ _ := .pass hs (Or.inl hadm)
          simpa [EngineState.setTask, hs] using hm
      | true =>
          by_cases hnew : l.url ∈ s.frontier.seen
          · have hadd := MemoryFrontier.add_of_mem (show (child item l).url ∈ _ from hnew)
            have hm : Moves E U site s _ _ := .pass hs (Or.inr ⟨hadm, hnew⟩)
            simpa [EngineState.add, EngineState.setTask, hadd, hs] using hm
          · have hadd := MemoryFrontier.add_of_notMem (show (child item l).url ∉ _ from hnew)
            have hm : Moves E U site s _ _ := .enqueue hs hadm hnew
            simpa [EngineState.add, EngineState.setTask, hadd, hs] using hm

lemma moves_done {i : ℕ} (h : E.step U site s (.done i) = some t) :
    Moves E U site s (.done i) t := by
  simp only [step] at h
  split at h
  case h_2 => simp at h
  case h_1 item hi =>
    obtain ⟨pre, post, hs, rfl⟩ := exists_split_of_getElem? hi
    obtain ⟨f, hf, rfl⟩ := Option.map_eq_some_iff.1 h
    simp only [MemoryFrontier.taskDone] at hf
    split_ifs at hf with hu
    simp only [Option.some.injEq] at hf
    subst hf
    have hm : Moves E U site s _ _ := .done hs hu
    simpa [hs] using hm

/-- **Inversion of a step.** -/
theorem moves_of_step (h : E.step U site s a = some t) : Moves E U site s a t := by
  cases a with
  | get => exact moves_get h
  | result i => exact moves_result h
  | link i => exact moves_link h
  | done i => exact moves_done h

end CrawlEngine

end WebCrawler
