import WebCrawler.Api.CreateCrawl
import WebCrawler.Lib.Machine

/-!
# The status of a crawl that is stopped

Two writers change the column `status` of a crawl: `stop_crawl` of `crawler/api/service.py`
and the `finally` block of `execute_crawl` in `crawler/local_crawl.py`.  Each of them reads
and writes the row in one transaction.

`stop_crawl` first cancels the task of the crawl, if it is registered in `_RUNNING_CRAWLS`
(the API does so, `run.py` does not) and not done, and marks the row in a transaction only
if it is running or pending.  The `finally` block has no such condition: it writes the
outcome of the crawl over whatever the row says.

A cancelled task raises `CancelledError` at its next suspension, but the code that it awaits
may end or fail in other ways before; the machine leaves this open.
-/

namespace WebCrawler

open Lib

/-- The values of the column `status`. -/
inductive RowStatus
  | pending
  | running
  | stopped
  | completed
  | failed
deriving DecidableEq, Repr

/-- The status with which a crawl is stored. -/
def CrawlStatus.toRow : CrawlStatus → RowStatus
  | .running => .running
  | .failed => .failed

/-- The crawl is over. -/
def RowStatus.Terminal (status : RowStatus) : Prop :=
  status = .stopped ∨ status = .completed ∨ status = .failed

instance (status : RowStatus) : Decidable status.Terminal :=
  inferInstanceAs (Decidable (_ ∨ _ ∨ _))

/-- The transaction of `stop_crawl`: the status that it reports, if the crawl exists, and the
row that it leaves. -/
def stopRow (row : Option RowStatus) : Option RowStatus × Option RowStatus :=
  match row with
  | none => (none, none)
  | some status =>
      let status' := if status = .running ∨ status = .pending then .stopped else status
      (some status', some status')

/-- The transaction of the `finally` block of `execute_crawl`. -/
def writeOutcome (outcome : RowStatus) (row : Option RowStatus) : Option RowStatus :=
  row.map fun _ => outcome

/-- The point at which the task of a crawl stands. -/
inductive CrawlPoint
  /-- Created; its first step is still to come. -/
  | created
  /-- In the engine, or in the fetcher around it. -/
  | crawling
  /-- In the transaction that recomputes the degrees. -/
  | degrees
  /-- In the `finally` block, with the outcome. -/
  | closing (outcome : RowStatus)
  | ended
deriving DecidableEq, Repr

/-- A crawl with its row and the calls of `stop_crawl`. -/
structure CrawlRun where
  row : Option RowStatus := some (CrawlStatus.toRow .running)
  point : CrawlPoint := .created
  /-- The task has been cancelled. -/
  cancelling : Bool := false
  /-- The calls of `stop_crawl` before their transaction. -/
  stops : ℕ := 0
  /-- The statuses that were ever committed, in order. -/
  history : List RowStatus := [.running]
deriving DecidableEq, Repr

/-- The steps of the task and of the calls of `stop_crawl`. -/
inductive StatusAct
  /-- The task runs up to the engine. -/
  | start
  /-- The engine returns. -/
  | crawled
  /-- An exception leaves the engine or the fetcher. -/
  | raised
  /-- The degrees are recomputed, or this fails. -/
  | computed
  /-- `CancelledError` is raised in the task. -/
  | cancelled
  /-- The transaction of the `finally` block commits. -/
  | commit
  /-- The transaction of the `finally` block fails. -/
  | abort
  /-- `stop_crawl` up to its transaction. -/
  | stop
  /-- The transaction of `stop_crawl` commits. -/
  | commitStop
deriving DecidableEq, Repr

namespace CrawlRun

/-- A transaction commits a row. -/
def setRow (s : CrawlRun) (row : Option RowStatus) : CrawlRun :=
  { s with row := row, history := s.history ++ row.toList }

/-- Where `CancelledError` leads.  Before the first step the body does not run at all, and in
the `finally` block its transaction is given up. -/
def afterCancel : CrawlPoint → CrawlPoint
  | .created => .ended
  | .crawling => .closing .stopped
  | .degrees => .closing .stopped
  | .closing _ => .ended
  | .ended => .ended

/-- One step, for a crawl whose task is registered or not. -/
def step (registered : Bool) (s : CrawlRun) : StatusAct → Option CrawlRun
  | .start => if s.point = .created then some { s with point := .crawling } else none
  | .crawled => if s.point = .crawling then some { s with point := .degrees } else none
  | .raised => if s.point = .crawling then some { s with point := .closing .failed } else none
  | .computed => if s.point = .degrees then some { s with point := .closing .completed } else none
  | .cancelled =>
      if s.cancelling = true ∧ s.point ≠ .ended then
        some { s with point := afterCancel s.point, cancelling := false }
      else none
  | .commit =>
      match s.point with
      | .closing outcome => some { s.setRow (writeOutcome outcome s.row) with point := .ended }
      | _ => none
  | .abort =>
      match s.point with
      | .closing _ => some { s with point := .ended }
      | _ => none
  | .stop =>
      some { s with
        stops := s.stops + 1
        cancelling := s.cancelling || (registered && decide (s.point ≠ .ended)) }
  | .commitStop =>
      if 0 < s.stops then some { s.setRow (stopRow s.row).2 with stops := s.stops - 1 } else none

/-- A crawl from its creation on. -/
def machine (registered : Bool) : Machine CrawlRun StatusAct where
  init := {}
  step := step registered

/-- A status that ends the crawl and was ever committed is the one that the row still has. -/
def Monotone (s : CrawlRun) : Prop :=
  ∀ status ∈ s.history, status.Terminal → s.row = some status

/-- A commit of the `finally` block finds a row that is still open, or that has the very
status that it writes. -/
def NoLateWrite (s : CrawlRun) (a : StatusAct) : Prop :=
  a = .commit → ∀ status, s.row = some status → status.Terminal → s.point = .closing status

instance (s : CrawlRun) (a : StatusAct) : Decidable (s.NoLateWrite a) :=
  decidable_of_iff (a = .commit → ∀ status ∈ s.row, status.Terminal → s.point = .closing status)
    Iff.rfl

variable {registered : Bool} {s t : CrawlRun} {a : StatusAct}

/-! ### What one step can do to the row -/

/-- The steps as far as the row is concerned. -/
lemma row_of_step (h : step registered s a = some t) :
    (a ≠ .commit ∧ t.row = s.row ∧ t.history = s.history) ∨
    (a = .commitStop ∧ t.row = (stopRow s.row).2 ∧
      t.history = s.history ++ (stopRow s.row).2.toList) ∨
    ∃ outcome, a = .commit ∧ s.point = .closing outcome ∧ t.row = writeOutcome outcome s.row ∧
      t.history = s.history ++ (writeOutcome outcome s.row).toList := by
  cases a with
  | commitStop =>
      simp only [step] at h
      split_ifs at h
      obtain rfl := Option.some.inj h
      exact Or.inr (Or.inl ⟨rfl, rfl, rfl⟩)
  | commit =>
      simp only [step] at h
      split at h
      case h_2 => simp at h
      case h_1 outcome hpoint =>
        obtain rfl := Option.some.inj h
        exact Or.inr (Or.inr ⟨outcome, rfl, hpoint, rfl, rfl⟩)
  | abort =>
      simp only [step] at h
      split at h
      case h_2 => simp at h
      case h_1 outcome hpoint =>
        obtain rfl := Option.some.inj h
        exact Or.inl ⟨by simp, rfl, rfl⟩
  | stop =>
      obtain rfl := Option.some.inj h
      exact Or.inl ⟨by simp, rfl, rfl⟩
  | start | crawled | raised | computed | cancelled =>
      simp only [step] at h
      split_ifs at h
      obtain rfl := Option.some.inj h
      exact Or.inl ⟨by simp, rfl, rfl⟩

/-- The row is the status that was committed last. -/
def RowCommitted (s : CrawlRun) : Prop := ∀ status ∈ s.row, status ∈ s.history

/-- A transaction commits the row that it writes. -/
lemma rowCommitted_of_commit {row : Option RowStatus} {history : List RowStatus}
    (hrow : t.row = row) (hhist : t.history = history ++ row.toList) : t.RowCommitted := by
  intro status hstatus
  rw [hrow] at hstatus
  rw [hhist]
  exact List.mem_append_right _ (Option.mem_toList.2 hstatus)

lemma RowCommitted.step (h : s.RowCommitted) (hst : step registered s a = some t) :
    t.RowCommitted := by
  rcases row_of_step hst with ⟨-, hrow, hhist⟩ | ⟨-, hrow, hhist⟩ | ⟨outcome, -, -, hrow, hhist⟩
  · intro status hstatus
    rw [hrow] at hstatus
    rw [hhist]
    exact h status hstatus
  · exact rowCommitted_of_commit hrow hhist
  · exact rowCommitted_of_commit hrow hhist

/-- `stop_crawl` leaves a status that ends the crawl as it is. -/
lemma stopRow_of_terminal {status : RowStatus} (h : status.Terminal) :
    (stopRow (some status)).2 = some status := by
  rcases h with rfl | rfl | rfl
  · rfl
  · rfl
  · rfl

/-- The transaction of `stop_crawl` keeps the order of the statuses. -/
lemma Monotone.stopRow (h : s.Monotone) (hrow : t.row = (stopRow s.row).2)
    (hhist : t.history = s.history ++ (WebCrawler.stopRow s.row).2.toList) : t.Monotone := by
  intro status hmem hterm
  rw [hhist, List.mem_append, Option.mem_toList] at hmem
  rw [hrow]
  rcases hmem with hmem | hmem
  · rw [h status hmem hterm, stopRow_of_terminal hterm]
  · exact hmem

/-- The commit of the `finally` block keeps the order exactly when it does not overwrite the
end of the crawl. -/
lemma monotone_writeOutcome_iff {outcome : RowStatus} (hcommitted : s.RowCommitted)
    (h : s.Monotone) (hpoint : s.point = .closing outcome)
    (hrow : t.row = writeOutcome outcome s.row)
    (hhist : t.history = s.history ++ (writeOutcome outcome s.row).toList) :
    t.Monotone ↔ s.NoLateWrite .commit := by
  cases hs : s.row with
  | none =>
      rw [hs] at hrow hhist
      constructor
      · intro _ _ status hstatus
        rw [hs] at hstatus
        exact absurd hstatus (by simp)
      · intro _ status hmem hterm
        rw [hhist, List.mem_append, Option.mem_toList] at hmem
        rw [hrow]
        rcases hmem with hmem | hmem
        · exact absurd (h status hmem hterm) (by simp [hs])
        · exact hmem
  | some current =>
      rw [hs] at hrow hhist
      have hrow' : t.row = some outcome := hrow
      constructor
      · intro hmono _ status hstatus hterm
        have hmem : status ∈ t.history := by
          rw [hhist]
          exact List.mem_append_left _ (hcommitted status hstatus)
        have hsame := hmono status hmem hterm
        rw [hrow', Option.some.injEq] at hsame
        rw [hpoint, hsame]
      · intro hlate status hmem hterm
        rw [hhist, List.mem_append, Option.mem_toList] at hmem
        rw [hrow]
        rcases hmem with hmem | hmem
        · -- the row had this status already, so it is the outcome
          have hclosing := hlate rfl status (h status hmem hterm) hterm
          rw [hpoint, CrawlPoint.closing.injEq] at hclosing
          rw [hclosing]
          rfl
        · exact hmem

/-- One step keeps the order of the statuses exactly when it meets the condition. -/
lemma monotone_step_iff (hcommitted : s.RowCommitted) (h : s.Monotone)
    (hst : step registered s a = some t) : t.Monotone ↔ s.NoLateWrite a := by
  rcases row_of_step hst with ⟨ha, hrow, hhist⟩ | ⟨rfl, hrow, hhist⟩ |
    ⟨outcome, rfl, hpoint, hrow, hhist⟩
  · refine iff_of_true ?_ fun hc => absurd hc ha
    intro status hmem hterm
    rw [hhist] at hmem
    rw [hrow]
    exact h status hmem hterm
  · exact iff_of_true (h.stopRow hrow hhist) fun hc => absurd hc (by simp)
  · exact monotone_writeOutcome_iff hcommitted h hpoint hrow hhist

lemma rowCommitted_of_reachable (h : (machine registered).Reachable s) : s.RowCommitted := by
  refine Machine.ReachableBy.inv ?_ (fun s a t (ih : s.RowCommitted) _ hst =>
    ih.step (show step registered s a = some t from hst)) h
  intro status hstatus
  obtain rfl := Option.some.inj hstatus
  exact List.mem_singleton.2 rfl

/-- **The status of a crawl.**  As long as no commit of the `finally` block overwrites the end
of the crawl, a crawl that is over keeps its status; and a commit that does so changes it. -/
theorem status_monotone_of_noLateWrite (registered : Bool) (s : CrawlRun)
    (h : (machine registered).ReachableBy NoLateWrite s) :
    s.Monotone ∧ ∀ a t, step registered s a = some t → (t.Monotone ↔ s.NoLateWrite a) := by
  have hmono : s.Monotone := by
    refine Machine.ReachableBy.inv_of (J := RowCommitted)
      (fun s hs => rowCommitted_of_reachable hs.reachable) ?_
      (fun s a t hJ _ ih hlate hst => (monotone_step_iff hJ ih hst).2 hlate) h
    intro status hmem hterm
    obtain rfl := List.mem_singleton.1 hmem
    exact absurd hterm (by decide)
  exact ⟨hmono, fun a t hst =>
    monotone_step_iff (rowCommitted_of_reachable h.reachable) hmono hst⟩

/-- A crawl that is stopped after it has completed. -/
theorem status_monotone_completed :
    ∃ s, (machine true).ReachableBy NoLateWrite s ∧ s.row = some .completed ∧
      s.Monotone := by
  refine ⟨_, Machine.reachableBy_of_exec
    [.start, .crawled, .computed, .commit, .stop, .commitStop] rfl, rfl, ?_⟩
  exact (status_monotone_of_noLateWrite true _ (Machine.reachableBy_of_exec
    [.start, .crawled, .computed, .commit, .stop, .commitStop] rfl)).1

/-- A crawl of `run.py` that is stopped goes on, and its row changes from `stopped` to
`completed`. -/
theorem stopped_becomes_completed :
    ∃ s t, (machine false).Reachable s ∧ s.row = some .stopped ∧
      Relation.ReflTransGen (machine false).Next s t ∧ t.row = some .completed ∧
      ¬ t.Monotone := by
  refine ⟨_, _, Machine.reachableBy_of_exec [.start, .stop, .commitStop] rfl, rfl,
    ((Relation.ReflTransGen.single ⟨.crawled, rfl⟩).tail ⟨.computed, rfl⟩).tail ⟨.commit, rfl⟩,
    rfl, ?_⟩
  intro hmono
  have hrow := hmono .stopped (by decide) (by decide)
  exact absurd hrow (by decide)

end CrawlRun

end WebCrawler
