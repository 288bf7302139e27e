import WebCrawler.Engine.Invariant

/-!
# Stopping a crawl

`CrawlEngine.run` with its `await`s: it seeds the frontier, creates the workers, awaits
`frontier.join`, cancels the workers and awaits their end with `gather`.
`SqlCrawlService.stop_crawl` cancels the task in which `run` is executed.  A
`CancelledError` is then raised at the `await` at which `run` stands, and it leaves `run`
there: the tasks that `run` has created are not cancelled with it.  Only `gather` passes
the cancellation on, and raises after all of them have ended.  A seed that raises ends
`run` before it has created any task.

A worker that was cancelled raises at its own `await` and ends, after `task_done` if it
holds an item.  A worker that was not cancelled goes on as in `Engine/Loop.lean`; what
the pipeline returns or raises is chosen at the step.  `sink.save_page` is the last
`await` of `pipeline.process`, so that a page is saved in the step in which the pipeline
returns with `stored`.

When `run` is cancelled in `join`, its workers stay behind (`worker_outlives_run`).  The
last two fields of a state record what they do after the end of `run`; these lists stay
empty in a run that is cancelled in `join` only when the workers are `Settled`
(`no_late_work`).
-/

namespace WebCrawler

open Lib

/-- The links that a worker has still to offer. -/
def Stage.pending : Stage → List Link
  | .linking rest => rest
  | _ => []

/-- The point at which `run` stands. -/
inductive RunPoint
  /-- In the seeding loop; the seeds still to be added are listed. -/
  | seeding (rest : List String)
  /-- Awaiting `frontier.join`. -/
  | joining
  /-- Awaiting `gather`; `stop` tells whether `run` was cancelled meanwhile. -/
  | gathering (stop : Bool)
  /-- It has returned. -/
  | returned (stats : CrawlStats)
  /-- It has raised, `CancelledError` or the exception of a seed. -/
  | raised
deriving DecidableEq, Repr

/-- Whether `run` has returned or raised. -/
def RunPoint.ended : RunPoint → Bool
  | .returned _ => true
  | .raised => true
  | _ => false

/-- The worker tasks of a run. -/
inductive Workers
  /-- They are not created yet. -/
  | absent
  /-- They are in their loops. -/
  | working
  /-- They were cancelled; so many of them have not ended yet. -/
  | cancelled (left : ℕ)
deriving DecidableEq, Repr

/-- A state of `run` together with its workers. -/
structure RunState where
  engine : EngineState := {}
  point : RunPoint
  workers : Workers := .absent
  /-- The items handed to `pipeline.process` after the end of `run`. -/
  lateStarts : List FrontierItem := []
  /-- The items whose page was saved after the end of `run`. -/
  lateSaves : List FrontierItem := []
deriving DecidableEq

/-- The steps of `run` and of its workers. -/
inductive RunAct
  /-- `run` goes on to its next `await`, or returns. -/
  | advance
  /-- `run` is cancelled at the `await` at which it stands. -/
  | cancel
  /-- A step of a worker, with what the pipeline returns or raises if it is asked. -/
  | work (a : Act) (out : Except PyError ProcessResult)
  /-- A cancelled worker that waits in `get` ends. -/
  | leave
  /-- A cancelled worker that holds an item ends. -/
  | unwind (i : ℕ)

namespace CrawlEngine

variable (E : CrawlEngine) (U : UrlUtils) (crawlId : Option ℤ)

/-- The item whose page is saved by a step of a worker. -/
def savedItem (e : EngineState) : Act → Except PyError ProcessResult → Option FrontierItem
  | .result i, .ok r =>
      match e.tasks[i]? with
      | some ⟨item, .fetching⟩ => if r.stored then some item else none
      | _ => none
  | _, _ => none

/-- A worker has made a step. -/
def afterWork (s : RunState) (a : Act) (out : Except PyError ProcessResult) (e : EngineState) :
    RunState :=
  { s with
    engine := e
    lateStarts :=
      if s.point.ended then s.lateStarts ++ e.visits.drop s.engine.visits.length
      else s.lateStarts
    lateSaves :=
      if s.point.ended then s.lateSaves ++ (savedItem s.engine a out).toList else s.lateSaves }

/-- `run` up to its next `await`. -/
def advance (s : RunState) : Option RunState :=
  match s.point with
  | .seeding (raw :: rest) =>
      match seed U crawlId s.engine raw with
      | .error e => some { s with engine := { s.engine with aborted := some e }, point := .raised }
      | .ok engine => some { s with engine := engine, point := .seeding rest }
  | .seeding [] => some { s with point := .joining, workers := .working }
  | .joining =>
      if s.engine.frontier.Joined then
        some { s with point := .gathering false, workers := .cancelled E.concurrency }
      else none
  | .gathering stop =>
      if s.workers = .cancelled 0 then
        some { s with point := if stop then .raised else .returned s.engine.stats }
      else none
  | .returned _ => none
  | .raised => none

/-- The cancellation of `run`.  Only `gather` waits for the workers. -/
def cancel (s : RunState) : Option RunState :=
  match s.point with
  | .seeding _ => some { s with point := .raised }
  | .joining => some { s with point := .raised }
  | .gathering _ => some { s with point := .gathering true }
  | .returned _ => none
  | .raised => none

/-- One step. -/
def runStep (s : RunState) : RunAct → Option RunState
  | .advance => E.advance U crawlId s
  | .cancel => cancel s
  | .work a out =>
      if s.workers = .working then
        (E.step U (fun _ => out) s.engine a).map fun e => afterWork s a out e
      else none
  | .leave =>
      match s.workers with
      | .cancelled (n + 1) =>
          if s.engine.tasks.length ≤ n then some { s with workers := .cancelled n } else none
      | _ => none
  | .unwind i =>
      match s.workers, s.engine.tasks[i]? with
      | .cancelled (n + 1), some task =>
          s.engine.frontier.taskDone.map fun f =>
            { s with
              engine :=
                { s.engine with
                  frontier := f
                  tasks := s.engine.tasks.eraseIdx i
                  finished := s.engine.finished ++ [task.item] }
              workers := .cancelled n }
      | _, _ => none

/-- `run` on a fresh frontier. -/
def runMachine (seeds : List String) : Machine RunState RunAct where
  init := { point := .seeding seeds }
  step := E.runStep U crawlId

/-- Nothing is left to do for the workers: none of them awaits the pipeline, and the page
budget is used up, or the queue is empty and no link that is still to be offered is
new. -/
def Settled (e : EngineState) : Prop :=
  (∀ task ∈ e.tasks, task.stage ≠ .fetching) ∧
    (E.maxPages ≤ e.processed ∨ E.concurrency = 0 ∨
      (e.frontier.queue = [] ∧ ∀ task ∈ e.tasks, ∀ l ∈ E.followed U task.stage.pending,
        E.admits U e.seedDomains l.url = .ok false ∨ l.url ∈ e.frontier.seen))

instance (e : EngineState) : Decidable (E.Settled U e) := inferInstanceAs (Decidable (_ ∧ _))

/-- `run` is cancelled in `join` only when the workers are settled. -/
def CancelledSettled (s : RunState) (a : RunAct) : Prop :=
  a = .cancel → s.point = .joining → E.Settled U s.engine

instance (s : RunState) (a : RunAct) : Decidable (E.CancelledSettled U s a) :=
  match a with
  | .cancel => decidable_of_iff (s.point = .joining → E.Settled U s.engine)
      ⟨fun h _ => h, fun h => h rfl⟩
  | .advance => isTrue (fun h => nomatch h)
  | .work _ _ => isTrue (fun h => nomatch h)
  | .leave => isTrue (fun h => nomatch h)
  | .unwind _ => isTrue (fun h => nomatch h)

variable {E U crawlId} {site : Site} {seeds : List String} {e e' : EngineState} {a : Act}
  {s t : RunState}

/-! ### Settled workers -/

/-- Pages are saved only by workers that await the pipeline. -/
lemma savedItem_eq_none (h : ∀ task ∈ e.tasks, task.stage ≠ .fetching) (a : Act)
    (out : Except PyError ProcessResult) : savedItem e a out = none := by
  cases a with
  | result i =>
      cases out with
      | error err => rfl
      | ok r =>
          simp only [savedItem]
          split
          case h_1 item hi => exact absurd rfl (h _ (List.mem_of_getElem? hi))
          case h_2 => rfl
  | get => rfl
  | link i => rfl
  | done i => rfl

/-- A settled worker goes on in its loop over the links, or leaves it. -/
lemma Settled.retask (h : E.Settled U e) {pre post : List Task} {item : FrontierItem}
    {rest : List Link} {st : Stage} (hs : e.tasks = pre ++ ⟨item, .linking rest⟩ :: post)
    (hst : st ≠ .fetching) (hsub : E.followed U st.pending ⊆ E.followed U rest) :
    E.Settled U { e with tasks := pre ++ ⟨item, st⟩ :: post } := by
  obtain ⟨hidle, hrest⟩ := h
  rw [hs] at hidle
  refine ⟨forall_mem_replace hidle hst, hrest.imp_right (Or.imp_right ?_)⟩
  rintro ⟨hnil, hlinks⟩
  rw [hs] at hlinks
  have hitem := hlinks ⟨item, .linking rest⟩ (by simp)
  exact ⟨hnil, forall_mem_replace hlinks fun l hl => hitem l (hsub hl)⟩

/-- Settled workers hand nothing to the pipeline, and stay settled. -/
lemma Settled.step (h : E.Settled U e) (hm : Moves E U site e a e') :
    E.Settled U e' ∧ e'.visits = e.visits := by
  have hidle := h.1
  cases hm with
  | skip hq hc hp => exact ⟨⟨forall_mem_append_singleton hidle (by simp), Or.inl hp⟩, rfl⟩
  | visit hq hc hp =>
      rcases h.2 with hbudget | hzero | ⟨hnil, -⟩
      · omega
      · omega
      · rw [hq] at hnil
        cases hnil
  | raised hs he => exact absurd rfl (hidle _ (hs ▸ List.mem_append_right _ List.mem_cons_self))
  | leaf hs hr hstop =>
      exact absurd rfl (hidle _ (hs ▸ List.mem_append_right _ List.mem_cons_self))
  | expand hs hr hdup hd =>
      exact absurd rfl (hidle _ (hs ▸ List.mem_append_right _ List.mem_cons_self))
  | @pass item pre post l rest hs hno =>
      have hfollowed : E.followed U (l :: rest) = l :: E.followed U rest :=
        hno.elim (followed_cons_of_ok rest) fun hno => followed_cons_of_ok rest hno.1
      refine ⟨h.retask hs (by simp) ?_, rfl⟩
      rw [hfollowed]
      exact List.subset_cons_self _ _
  | @enqueue item pre post l rest hs hadm hnew =>
      have hidle' := forall_mem_replace (c := ⟨item, .linking rest⟩) (hs ▸ hidle) (by simp)
      rcases h.2 with hbudget | hzero | ⟨-, hlinks⟩
      · exact ⟨⟨hidle', Or.inl hbudget⟩, rfl⟩
      · exact ⟨⟨hidle', Or.inr (Or.inl hzero)⟩, rfl⟩
      · -- the link is new, so that the worker was not settled
        have hlink := hlinks ⟨item, .linking (l :: rest)⟩ (by simp [hs]) l (by
          rw [Stage.pending, followed_cons_of_ok rest hadm]
          exact List.mem_cons_self)
        rcases hlink with hno | hold
        · exact absurd hadm (by simp [hno])
        · exact absurd hold hnew
  | cut hs he => exact ⟨h.retask hs (by simp) (List.nil_subset _), rfl⟩
  | exhausted hs => exact ⟨h.retask hs (by simp) (List.nil_subset _), rfl⟩
  | done hs hu =>
      refine ⟨⟨forall_mem_remove (hs ▸ hidle), h.2.imp_right (Or.imp_right ?_)⟩, rfl⟩
      rintro ⟨hnil, hlinks⟩
      exact ⟨hnil, forall_mem_remove (hs ▸ hlinks)⟩

/-! ### The invariant -/

/-- Nothing was done after the end of `run`, and nothing will be: workers that were not
cancelled are awaited by `run`, or they are settled. -/
structure NoLateWork (E : CrawlEngine) (U : UrlUtils) (s : RunState) : Prop where
  ledger : s.engine.Ledger
  starts : s.lateStarts = []
  saves : s.lateSaves = []
  aborted : s.engine.aborted ≠ none → s.point = .raised ∧ s.workers ≠ .working
  working : s.workers = .working →
    s.point = .joining ∨ (s.point = .raised ∧ E.Settled U s.engine)
  joining : s.point = .joining → s.workers = .working

namespace NoLateWork

lemma advance (h : NoLateWork E U s) (hst : E.advance U crawlId s = some t) :
    NoLateWork E U t := by
  cases hp : s.point with
  | seeding rest =>
      have hnot : s.workers ≠ .working := fun hw => by simpa [hp] using h.working hw
      have hab : s.engine.aborted = none := by
        by_contra hab
        exact absurd (h.aborted hab).1 (by simp [hp])
      cases rest with
      | nil =>
          simp only [CrawlEngine.advance, hp, Option.some.injEq] at hst
          subst hst
          exact ⟨h.ledger, h.starts, h.saves, fun hne => absurd hab hne, fun _ => Or.inl rfl,
            fun _ => rfl⟩
      | cons raw rest =>
          simp only [CrawlEngine.advance, hp] at hst
          rcases hseed : seed U crawlId s.engine raw with err | e
          · simp only [hseed, Option.some.injEq] at hst
            subst hst
            obtain ⟨h₁, h₂, h₃, h₄, h₅⟩ := h.ledger
            exact ⟨⟨h₁, h₂, h₃, h₄, h₅⟩, h.starts, h.saves, fun _ => ⟨rfl, hnot⟩,
              fun hw => absurd hw hnot, fun hj => absurd hj (by simp)⟩
          · simp only [hseed, Option.some.injEq] at hst
            subst hst
            refine ⟨ledger_seed h.ledger hseed, h.starts, h.saves, ?_,
              fun hw => absurd hw hnot, fun hj => absurd hj (by simp)⟩
            intro hne
            exact absurd ((aborted_seed hseed).trans hab) hne
  | joining =>
      simp only [CrawlEngine.advance, hp, Option.ite_none_right_eq_some, Option.some.injEq] at hst
      obtain ⟨-, rfl⟩ := hst
      exact ⟨h.ledger, h.starts, h.saves, fun hab => absurd (h.aborted hab).1 (by simp [hp]),
        fun hw => absurd hw (by simp), fun hj => absurd hj (by simp)⟩
  | gathering stop =>
      simp only [CrawlEngine.advance, hp, Option.ite_none_right_eq_some, Option.some.injEq] at hst
      obtain ⟨hw0, rfl⟩ := hst
      refine ⟨h.ledger, h.starts, h.saves, fun hab => absurd (h.aborted hab).1 (by simp [hp]),
        fun hw => absurd (hw0.symm.trans hw) (by simp), ?_⟩
      intro hj
      cases stop <;> exact absurd hj (by simp)
  | returned stats => simp [CrawlEngine.advance, hp] at hst
  | raised => simp [CrawlEngine.advance, hp] at hst

/-- In `join` the workers have to be settled. -/
lemma cancel (h : NoLateWork E U s) (hset : s.point = .joining → E.Settled U s.engine)
    (hst : CrawlEngine.cancel s = some t) : NoLateWork E U t := by
  cases hp : s.point with
  | seeding rest =>
      simp only [CrawlEngine.cancel, hp, Option.some.injEq] at hst
      subst hst
      refine ⟨h.ledger, h.starts, h.saves, fun hab => ⟨rfl, (h.aborted hab).2⟩, ?_,
        fun hj => absurd hj (by simp)⟩
      intro hw
      exact absurd (h.working hw) (by simp [hp])
  | joining =>
      simp only [CrawlEngine.cancel, hp, Option.some.injEq] at hst
      subst hst
      exact ⟨h.ledger, h.starts, h.saves, fun hab => ⟨rfl, (h.aborted hab).2⟩,
        fun _ => Or.inr ⟨rfl, hset hp⟩, fun hj => absurd hj (by simp)⟩
  | gathering stop =>
      simp only [CrawlEngine.cancel, hp, Option.some.injEq] at hst
      subst hst
      refine ⟨h.ledger, h.starts, h.saves, fun hab => absurd (h.aborted hab).1 (by simp [hp]),
        ?_, fun hj => absurd hj (by simp)⟩
      intro hw
      exact absurd (h.working hw) (by simp [hp])
  | returned stats => simp [CrawlEngine.cancel, hp] at hst
  | raised => simp [CrawlEngine.cancel, hp] at hst

/-- A worker that makes a step was started. -/
lemma running (h : NoLateWork E U s) (hw : s.workers = .working) : s.engine.aborted = none := by
  by_contra hab
  exact (h.aborted hab).2 hw

lemma work (h : NoLateWork E U s) (hw : s.workers = .working)
    {out : Except PyError ProcessResult} (hst : E.step U (fun _ => out) s.engine a = some e) :
    NoLateWork E U (afterWork s a out e) := by
  have hm := moves_of_step hst
  have hl := h.ledger.step hm
  have hab : e.aborted = none := hm.aborted_eq.trans (h.running hw)
  rcases h.working hw with hj | ⟨hr, hset⟩
  · have hend : s.point.ended = false := by rw [hj]; rfl
    exact ⟨hl, by simp [afterWork, hend, h.starts], by simp [afterWork, hend, h.saves],
      fun hne => absurd hab hne, fun _ => Or.inl hj, fun _ => hw⟩
  · -- the workers that stayed behind are settled
    obtain ⟨hset', hvisits⟩ := hset.step hm
    refine ⟨hl, ?_, ?_, fun hne => absurd hab hne, fun _ => Or.inr ⟨hr, hset'⟩, fun _ => hw⟩
    · simp [afterWork, h.starts, hvisits]
    · simp [afterWork, h.saves, savedItem_eq_none hset.1]

/-- Every step keeps the invariant. -/
lemma runStep (h : NoLateWork E U s) {b : RunAct} (hb : E.CancelledSettled U s b)
    (hst : E.runStep U crawlId s b = some t) : NoLateWork E U t := by
  cases b with
  | advance => exact h.advance hst
  | cancel => exact h.cancel (hb rfl) hst
  | work a out =>
      simp only [CrawlEngine.runStep, Option.ite_none_right_eq_some] at hst
      obtain ⟨hw, hst⟩ := hst
      obtain ⟨e, he, rfl⟩ := Option.map_eq_some_iff.1 hst
      exact h.work hw he
  | leave =>
      simp only [CrawlEngine.runStep] at hst
      split at hst
      case h_2 => simp at hst
      case h_1 n hw =>
        simp only [Option.ite_none_right_eq_some, Option.some.injEq] at hst
        obtain ⟨-, rfl⟩ := hst
        refine ⟨h.ledger, h.starts, h.saves, fun hab => ⟨(h.aborted hab).1, by simp⟩,
          fun hw' => absurd hw' (by simp), ?_⟩
        intro hj
        exact absurd (hw.symm.trans (h.joining hj)) (by simp)
  | unwind i =>
      simp only [CrawlEngine.runStep] at hst
      split at hst
      case h_2 => simp at hst
      case h_1 n task hw hi =>
        obtain ⟨f, hf, rfl⟩ := Option.map_eq_some_iff.1 hst
        obtain ⟨item, st⟩ := task
        obtain ⟨pre, post, hs, rfl⟩ := exists_split_of_getElem? hi
        simp only [MemoryFrontier.taskDone, Option.ite_none_left_eq_some, Option.some.injEq] at hf
        obtain ⟨-, rfl⟩ := hf
        refine ⟨?_, h.starts, h.saves, fun hab => ⟨(h.aborted hab).1, by simp⟩,
          fun hw' => absurd hw' (by simp), ?_⟩
        · simpa [hs] using h.ledger.finish hs
        · intro hj
          exact absurd (hw.symm.trans (h.joining hj)) (by simp)

end NoLateWork

/-! ### Workers that stay behind -/

/-- A step of a worker, whatever the pipeline answers. -/
def Works (E : CrawlEngine) (U : UrlUtils) (e e' : EngineState) : Prop :=
  ∃ a out, E.step U (fun _ => out) e a = some e'

/-- A worker can hand an item to the pipeline, or save a page. -/
def Harmful (E : CrawlEngine) (U : UrlUtils) (e : EngineState) : Prop :=
  ∃ a out e', E.step U (fun _ => out) e a = some e' ∧
    (e'.visits.drop e.visits.length ≠ [] ∨ savedItem e a out ≠ none)

/-- There is an item to be handed to the pipeline, and no worker awaits it. -/
structure Ready (E : CrawlEngine) (e : EngineState) : Prop where
  ledger : e.Ledger
  running : e.aborted = none
  idle : ∀ task ∈ e.tasks, task.stage ≠ .fetching
  budget : (e.processed : ℤ) < E.maxPages
  queue : e.frontier.queue ≠ []

/-- The number of steps up to the end of the work on an item. -/
def stepsLeft (task : Task) : ℕ :=
  match task.stage with
  | .fetching => 0
  | .linking rest => rest.length + 2
  | .finishing => 1

/-- The workers come closer to the end of their items, and the queue does not shrink. -/
lemma Ready.step (h : Ready E e) (hm : Moves E U site e a e') (ha : a ≠ .get) :
    Ready E e' ∧ (e'.tasks.map stepsLeft).sum < (e.tasks.map stepsLeft).sum := by
  have hidle := h.idle
  have hl := h.ledger.step hm
  have hab : e'.aborted = none := hm.aborted_eq.trans h.running
  cases hm with
  | skip hq hc hp => exact absurd rfl ha
  | visit hq hc hp => exact absurd rfl ha
  | raised hs he => exact absurd rfl (hidle _ (hs ▸ List.mem_append_right _ List.mem_cons_self))
  | leaf hs hr hstop =>
      exact absurd rfl (hidle _ (hs ▸ List.mem_append_right _ List.mem_cons_self))
  | expand hs hr hdup hd =>
      exact absurd rfl (hidle _ (hs ▸ List.mem_append_right _ List.mem_cons_self))
  | pass hs hno =>
      refine ⟨⟨hl, hab, forall_mem_replace (hs ▸ hidle) (by simp), h.budget, h.queue⟩, ?_⟩
      simp [hs, stepsLeft]
  | enqueue hs hadm hnew =>
      refine ⟨⟨hl, hab, forall_mem_replace (hs ▸ hidle) (by simp), h.budget, by simp⟩, ?_⟩
      simp [hs, stepsLeft]
  | cut hs he =>
      refine ⟨⟨hl, hab, forall_mem_replace (hs ▸ hidle) (by simp), h.budget, h.queue⟩, ?_⟩
      simp [hs, stepsLeft]
  | exhausted hs =>
      refine ⟨⟨hl, hab, forall_mem_replace (hs ▸ hidle) (by simp), h.budget, h.queue⟩, ?_⟩
      simp [hs, stepsLeft]
  | done hs hu =>
      refine ⟨⟨hl, hab, forall_mem_remove (hs ▸ hidle), h.budget, h.queue⟩, ?_⟩
      simp [hs, stepsLeft]

/-- A worker that does not await the pipeline can go on. -/
lemma exists_step_of_busy (U : UrlUtils) (site : Site) (h : Ready E e) (hne : e.tasks ≠ []) :
    ∃ a e', a ≠ .get ∧ E.step U site e a = some e' := by
  obtain ⟨⟨item, st⟩, ts, hts⟩ := List.exists_cons_of_ne_nil hne
  cases st with
  | fetching => exact absurd rfl (h.idle ⟨item, .fetching⟩ (by simp [hts]))
  | linking rest =>
      have hi : e.tasks[0]? = some ⟨item, .linking rest⟩ := by simp [hts]
      obtain ⟨e', hst⟩ : ∃ t, E.step U site e (.link 0) = some t := exists_step_link hi
      exact ⟨.link 0, e', by simp, hst⟩
  | finishing =>
      have hu : e.frontier.unfinished ≠ 0 := by
        have := h.ledger.unfinished_eq
        rw [hts, List.length_cons] at this
        omega
      exact ⟨.done 0, _, by simp, by simp [CrawlEngine.step, hts, MemoryFrontier.taskDone, hu]; rfl⟩

/-- A free worker hands the next item to the pipeline. -/
lemma harmful_of_free (h : Ready E e) (hfree : e.tasks.length < E.concurrency) :
    Harmful E U e := by
  obtain ⟨item, rest, hq⟩ := List.exists_cons_of_ne_nil h.queue
  have hst : E.step U (fun _ => .error { what := "" }) e .get =
      some (E.afterGet e item { e.frontier with queue := rest }) := by
    simp [CrawlEngine.step, MemoryFrontier.get, hq, hfree, h.running]
  refine ⟨.get, _, _, hst, Or.inl ?_⟩
  rw [afterGet, if_neg (not_le.2 h.budget)]
  simp

/-- Some worker becomes free after finitely many steps. -/
lemma exists_harmful_of_ready (hc : 0 < E.concurrency) (h : Ready E e) :
    ∃ e₁, Relation.ReflTransGen (Works E U) e e₁ ∧ Harmful E U e₁ := by
  induction hn : (e.tasks.map stepsLeft).sum using Nat.strong_induction_on generalizing e with
  | _ n ih =>
      by_cases hfree : e.tasks.length < E.concurrency
      · exact ⟨e, .refl, harmful_of_free h hfree⟩
      · have hne : e.tasks ≠ [] := by
          intro hnil
          rw [hnil, List.length_nil] at hfree
          omega
        obtain ⟨a, e', ha, hst⟩ :=
          exists_step_of_busy U (fun _ => .error { what := "" }) h hne
        obtain ⟨h', hlt⟩ := h.step (moves_of_step hst) ha
        obtain ⟨e₁, hsteps, hharm⟩ := ih _ (hn ▸ hlt) h' rfl
        exact ⟨e₁, .head ⟨a, _, hst⟩ hsteps, hharm⟩

/-- A link that is new is put on the queue. -/
lemma exists_harmful_of_link (hl : e.Ledger) (hrun : e.aborted = none)
    (hidle : ∀ task ∈ e.tasks, task.stage ≠ .fetching) (hbudget : (e.processed : ℤ) < E.maxPages)
    (hc : 0 < E.concurrency) {pre post : List Task} {item : FrontierItem} {rest : List Link}
    {l : Link} (hs : e.tasks = pre ++ ⟨item, .linking rest⟩ :: post)
    (hmem : l ∈ E.followed U rest) (hadm : E.admits U e.seedDomains l.url ≠ .ok false)
    (hnew : l.url ∉ e.frontier.seen) :
    ∃ e₁, Relation.ReflTransGen (Works E U) e e₁ ∧ Harmful E U e₁ := by
  induction rest generalizing e with
  | nil => exact absurd hmem List.not_mem_nil
  | cons l' rest ih =>
      rcases hfirst : E.admits U e.seedDomains l'.url with err | b
      · rw [followed_cons_of_error rest hfirst] at hmem
        exact absurd hmem List.not_mem_nil
      rw [followed_cons_of_ok rest hfirst] at hmem
      have hst : E.step U (fun _ => .error { what := "" }) e (.link pre.length) =
          some ((if b then e.add (child item l') else e).setTask pre.length
            ⟨item, .linking rest⟩) := by
        simp [CrawlEngine.step, hs, offer_eq, hfirst, Except.map]
      have hl' := hl.step (moves_of_step hst)
      -- the first link is put on the queue, or it is passed over
      by_cases hold : b = true → l'.url ∈ e.frontier.seen
      · have hsame : (if b then e.add (child item l') else e) = e := by
          split_ifs with hb
          · exact EngineState.add_of_mem (by simpa using hold hb)
          · rfl
        have htasks : (e.setTask pre.length ⟨item, .linking rest⟩) =
            { e with tasks := pre ++ ⟨item, .linking rest⟩ :: post } := by
          simp [EngineState.setTask, hs]
        rw [hsame, htasks] at hst hl'
        have hmem' : l ∈ E.followed U rest := by
          rcases List.mem_cons.1 hmem with rfl | hmem'
          · cases b with
            | false => exact absurd hfirst hadm
            | true => exact absurd (hold rfl) hnew
          · exact hmem'
        obtain ⟨e₁, hsteps, hharm⟩ :=
          ih hl' hrun (forall_mem_replace (hs ▸ hidle) (by simp)) hbudget rfl hmem' hadm hnew
        exact ⟨e₁, .head ⟨_, _, hst⟩ hsteps, hharm⟩
      · obtain ⟨rfl, hnew'⟩ := Classical.not_imp.1 hold
        have hadd : ((if true = true then e.add (child item l') else e).setTask pre.length
            ⟨item, .linking rest⟩) =
            { e with
              frontier :=
                { queue := e.frontier.queue ++ [child item l']
                  unfinished := e.frontier.unfinished + 1
                  seen := insert l'.url e.frontier.seen }
              tasks := pre ++ ⟨item, .linking rest⟩ :: post
              put := e.put ++ [child item l'] } := by
          rw [if_pos rfl, EngineState.add_of_notMem (by simpa using hnew')]
          simp [EngineState.setTask, hs]
        rw [hadd] at hst hl'
        have hready : Ready E _ :=
          ⟨hl', hrun, forall_mem_replace (hs ▸ hidle) (by simp), hbudget, by simp⟩
        obtain ⟨e₁, hsteps, hharm⟩ := exists_harmful_of_ready (U := U) hc hready
        exact ⟨e₁, .head ⟨_, _, hst⟩ hsteps, hharm⟩

/-- Workers that are not settled can do harm. -/
lemma exists_harmful_of_not_settled (hl : e.Ledger) (hrun : e.aborted = none)
    (h : ¬ E.Settled U e) :
    ∃ e₁, Relation.ReflTransGen (Works E U) e e₁ ∧ Harmful E U e₁ := by
  by_cases hidle : ∀ task ∈ e.tasks, task.stage ≠ .fetching
  · rw [Settled, not_and] at h
    have hrest := h hidle
    simp only [not_or, not_and, not_le] at hrest
    obtain ⟨hbudget, hc, hlinks⟩ := hrest
    by_cases hq : e.frontier.queue = []
    · have := hlinks hq
      push Not at this
      obtain ⟨⟨item, st⟩, htask, l, hmem, hadm, hnew⟩ := this
      cases st with
      | linking rest =>
          obtain ⟨pre, post, hs⟩ := List.append_of_mem htask
          exact exists_harmful_of_link hl hrun hidle hbudget (Nat.pos_of_ne_zero hc) hs hmem hadm
            hnew
      | fetching => exact absurd hmem List.not_mem_nil
      | finishing => exact absurd hmem List.not_mem_nil
    · exact exists_harmful_of_ready (Nat.pos_of_ne_zero hc) ⟨hl, hrun, hidle, hbudget, hq⟩
  · -- a worker awaits the pipeline, which may save its page
    push Not at hidle
    obtain ⟨⟨item, st⟩, htask, rfl⟩ := hidle
    obtain ⟨pre, post, hs⟩ := List.append_of_mem htask
    have hi : e.tasks[pre.length]? = some ⟨item, .fetching⟩ := by simp [hs]
    refine ⟨e, .refl, .result pre.length, .ok { item := item, fetched := true, stored := true },
      _, by simp only [CrawlEngine.step, hi]; rfl, Or.inr ?_⟩
    simp [savedItem, hi]

/-- The workers go on after `run` has raised. -/
lemma exists_run_of_works (crawlId : Option ℤ) (seeds : List String)
    (hw : s.workers = .working) (hp : s.point = .raised)
    (h : Relation.ReflTransGen (Works E U) s.engine e) :
    ∃ t, Relation.ReflTransGen (E.runMachine U crawlId seeds).Next s t ∧ t.engine = e ∧
      t.workers = .working ∧ t.point = .raised := by
  induction h with
  | refl => exact ⟨s, .refl, rfl, hw, hp⟩
  | tail _ hstep ih =>
      obtain ⟨t, hsteps, rfl, hw', hp'⟩ := ih
      obtain ⟨a, out, hst⟩ := hstep
      refine ⟨afterWork t a out _, hsteps.tail ⟨.work a out, ?_⟩, rfl, hw', hp'⟩
      simp [runMachine, runStep, hw', hst]

/-- What a worker can do, it does after the end of `run`. -/
lemma exists_late_of_not_settled (hl : s.engine.Ledger) (hrun : s.engine.aborted = none)
    (hw : s.workers = .working) (hp : s.point = .raised) (h : ¬ E.Settled U s.engine) :
    ∃ t, Relation.ReflTransGen (E.runMachine U crawlId seeds).Next s t ∧
      ¬ (t.lateStarts = [] ∧ t.lateSaves = []) := by
  obtain ⟨e₁, hsteps, a, out, e₂, hst, hharm⟩ := exists_harmful_of_not_settled hl hrun h
  obtain ⟨t, hrun, rfl, hw', hp'⟩ := exists_run_of_works crawlId seeds hw hp hsteps
  refine ⟨afterWork t a out e₂, hrun.tail ⟨.work a out, ?_⟩, ?_⟩
  · simp [runMachine, runStep, hw', hst]
  · have hend : t.point.ended = true := by rw [hp']; rfl
    rintro ⟨hstarts, hsaves⟩
    simp only [afterWork, hend, if_true, List.append_eq_nil_iff] at hstarts hsaves
    rcases hharm with hstart | hsave
    · exact hstart hstarts.2
    · exact hsave (Option.toList_eq_nil_iff.1 hsaves.2)

/-- **Stopping a crawl.**  In every run of `run` and its workers that is cancelled in
`join` only when the workers are settled, no item is handed to the pipeline and no page
is saved after `run` has returned or raised.  A cancellation in `join` that finds the
workers unsettled ends `run`, and they can go on to do either. -/
theorem no_late_work
    (h : (E.runMachine U crawlId seeds).ReachableBy (E.CancelledSettled U) s) :
    (s.lateStarts = [] ∧ s.lateSaves = []) ∧
      ∀ b t, E.runStep U crawlId s b = some t → ¬ E.CancelledSettled U s b →
        t.point.ended = true ∧
        ∃ t', Relation.ReflTransGen (E.runMachine U crawlId seeds).Next t t' ∧
          ¬ (t'.lateStarts = [] ∧ t'.lateSaves = []) := by
  have hinit : NoLateWork E U (E.runMachine U crawlId seeds).init :=
    ⟨EngineState.Ledger.empty, rfl, rfl, fun hab => absurd rfl hab,
      fun hw => absurd hw (by simp [runMachine]),
      fun hj => absurd hj (by simp [runMachine])⟩
  have hs : NoLateWork E U s :=
    Machine.ReachableBy.inv hinit (fun _ _ _ ih hb hst => ih.runStep hb hst) h
  refine ⟨⟨hs.starts, hs.saves⟩, ?_⟩
  intro b t hst hb
  simp only [CancelledSettled, Classical.not_imp] at hb
  obtain ⟨rfl, hj, hset⟩ := hb
  obtain rfl : { s with point := .raised } = t := by
    simpa [runStep, cancel, hj] using hst
  have hw := hs.joining hj
  exact ⟨rfl, exists_late_of_not_settled hs.ledger (hs.running hw) hw rfl hset⟩

/-- A page with a link that is not followed up, since the budget is used up. -/
theorem no_late_work_budget :
    ∃ s, (({ maxPages := 1, concurrency := 1 } : CrawlEngine).runMachine plainUrls none
        ["http://a.org/"]).ReachableBy
          (CancelledSettled { maxPages := 1, concurrency := 1 } plainUrls) s ∧
      s.point = .raised ∧ s.workers = .working ∧
      s.engine.taken.map (·.url) = ["http://a.org/", "http://a.org/b"] ∧
      s.lateStarts = [] ∧ s.lateSaves = [] := by
  have h := Machine.reachableBy_of_exec
    (M := ({ maxPages := 1, concurrency := 1 } : CrawlEngine).runMachine plainUrls none
      ["http://a.org/"])
    (P := CancelledSettled { maxPages := 1, concurrency := 1 } plainUrls)
    [.advance, .advance, .work .get (.error { what := "" }),
      .work (.result 0) (twoPages { url := "http://a.org/" }),
      .work (.link 0) (.error { what := "" }), .cancel, .work (.link 0) (.error { what := "" }),
      .work (.link 0) (.error { what := "" }), .work (.done 0) (.error { what := "" }),
      .work .get (.error { what := "" })] rfl
  exact ⟨_, h, rfl, rfl, rfl, (no_late_work h).1⟩

/-- **A worker outlives its run.**  `run` is cancelled in `join` while a worker awaits the
page of the seed; afterwards the page arrives and is saved, and the page to which it links
is handed to the pipeline. -/
theorem worker_outlives_run :
    ∃ s, (({} : CrawlEngine).runMachine plainUrls none
        ["http://a.org/"]).Reachable s ∧
      s.point = .raised ∧ s.lateSaves = [{ url := "http://a.org/" }] ∧
      s.lateStarts = [{ url := "http://a.org/b", depth := 1 }] :=
  ⟨_, Machine.reachableBy_of_exec
    [.advance, .advance, .work .get (.error { what := "" }), .cancel,
      .work (.result 0) (twoPages { url := "http://a.org/" }),
      .work (.link 0) (.error { what := "" }), .work .get (.error { what := "" })] rfl,
    rfl, rfl, rfl⟩

end CrawlEngine

end WebCrawler
