import WebCrawler.Models
import WebCrawler.Lib.Heap

/-!
# The recrawl scheduler

`crawler/scheduler/recrawl.py`: the interval after which a page is crawled again, and a heap of
the entries that are pending, ordered by the times at which they are due.  The readings of the
clock are arguments, and times are exact rationals.

In a run the scheduler is called with arbitrary intervals and times.  What was scheduled is
either returned by some `pop_due` or still in the heap, and `pop_due` returns what is due and
nothing else (`SchedulerRun.recrawl_scheduler_spec`).
-/

namespace WebCrawler

open Lib Lib.Comparing

/-! ### The interval -/

/-- `RecrawlSettings`. -/
structure RecrawlSettings where
  minIntervalSeconds : ℚ := 3600
  maxIntervalSeconds : ℚ := 7 * 24 * 3600
  backoffFactor : ℚ := 2

namespace RecrawlSettings

variable (S : RecrawlSettings)

/-- `next_interval`. -/
def nextInterval (currentInterval : Option ℚ) (changed : Bool) : ℚ :=
  match currentInterval with
  | none => S.minIntervalSeconds
  | some current =>
      if changed then S.minIntervalSeconds
      else min (current * S.backoffFactor) S.maxIntervalSeconds

/-- The interval after a history of crawls, each of which found the page changed or not. -/
def intervalAfter (history : List Bool) : Option ℚ :=
  history.foldl (fun current changed => some (S.nextInterval current changed)) none

/-- The crawls at the end of a history that found the page unchanged. -/
def unchangedAtEnd (history : List Bool) : ℕ := (history.reverse.takeWhile (! ·)).length

variable {S}

lemma intervalAfter_snoc (history : List Bool) (changed : Bool) :
    S.intervalAfter (history ++ [changed]) =
      some (S.nextInterval (S.intervalAfter history) changed) := by
  rw [intervalAfter, List.foldl_append]
  rfl

lemma unchangedAtEnd_snoc (history : List Bool) (changed : Bool) :
    unchangedAtEnd (history ++ [changed]) = if changed then 0 else unchangedAtEnd history + 1 := by
  rw [unchangedAtEnd, List.reverse_append, List.reverse_singleton, List.singleton_append,
    List.takeWhile_cons]
  cases changed <;> rfl

/-- A step at the cap stays at the cap. -/
lemma min_mul_min {a b c : ℚ} (hb : 1 ≤ b) (hc : 0 ≤ c) : min (min c a * b) c = min c (a * b) := by
  have hcb : c ≤ c * b := le_mul_of_one_le_right hc hb
  rcases le_total c a with hca | hac
  · have : c * b ≤ a * b := mul_le_mul_of_nonneg_right hca (by linarith)
    rw [min_eq_left hca, min_eq_right hcb, min_eq_left (hcb.trans this)]
  · rw [min_eq_right hac, min_comm]

/-- **The interval in closed form.**  It has grown with every unchanged crawl since the first
crawl or the last change, and is capped. -/
theorem intervalAfter_eq (S : RecrawlSettings) (hmin : 0 < S.minIntervalSeconds)
    (hmax : S.minIntervalSeconds ≤ S.maxIntervalSeconds) (hbackoff : 1 ≤ S.backoffFactor)
    (first : Bool) (rest : List Bool) :
    S.intervalAfter (first :: rest) =
        some (min S.maxIntervalSeconds
          (S.minIntervalSeconds * S.backoffFactor ^ unchangedAtEnd rest)) ∧
      ∀ interval ∈ S.intervalAfter (first :: rest),
        S.minIntervalSeconds ≤ interval ∧ interval ≤ S.maxIntervalSeconds := by
  have heq : S.intervalAfter (first :: rest) = some (min S.maxIntervalSeconds
      (S.minIntervalSeconds * S.backoffFactor ^ unchangedAtEnd rest)) := by
    induction rest using List.reverseRecOn with
    | nil =>
        have hzero : unchangedAtEnd [] = 0 := rfl
        rw [hzero, pow_zero, mul_one, min_eq_right hmax]
        rfl
    | append_singleton rest changed ih =>
        rw [← List.cons_append, intervalAfter_snoc, ih, unchangedAtEnd_snoc]
        cases changed with
        | true =>
            rw [if_pos rfl, pow_zero, mul_one, min_eq_right hmax]
            rfl
        | false =>
            rw [if_neg Bool.false_ne_true, pow_succ, ← mul_assoc]
            exact congrArg some (min_mul_min hbackoff (hmin.le.trans hmax))
  refine ⟨heq, ?_⟩
  intro interval hinterval
  obtain rfl := Option.some.inj (heq.symm.trans hinterval)
  exact ⟨le_min hmax (le_mul_of_one_le_right hmin.le (one_le_pow₀ hbackoff)), min_le_left _ _⟩

/-- Three unchanged crawls after a change: the cap is reached. -/
theorem intervalAfter_eq_capped :
    let S : RecrawlSettings := { minIntervalSeconds := 100, maxIntervalSeconds := 700 }
    S.intervalAfter [false, true, false, false, false] = some (min 700 (100 * 2 ^ 3)) ∧
      ∀ interval ∈ S.intervalAfter [false, true, false, false, false],
        100 ≤ interval ∧ interval ≤ 700 := by
  intro S
  exact intervalAfter_eq S (by norm_num [S]) (by norm_num [S]) (by norm_num [S]) false
    [true, false, false, false]

end RecrawlSettings

/-! ### The heap of pending entries -/

/-- `RecrawlEntry`; entries are compared by `due_at` only. -/
structure RecrawlEntry where
  dueAt : ℚ
  url : String
  interval : ℚ := 0
  depth : ℤ := 0
  crawlId : Option ℤ := none
deriving DecidableEq, Repr

/-- `RecrawlScheduler`. -/
structure RecrawlScheduler where
  heap : List RecrawlEntry := []
deriving DecidableEq, Repr

namespace RecrawlScheduler

variable (s : RecrawlScheduler) (now : Option ℚ) (clock : ℚ)

/-- `schedule`: the entry, and the scheduler that holds it.  The clock is read if `now` is
not given. -/
def schedule (url : String) (interval : ℚ) (depth : ℤ) (crawlId : Option ℤ) :
    RecrawlEntry × RecrawlScheduler :=
  let entry : RecrawlEntry :=
    { dueAt := now.getD clock + interval, url, interval, depth, crawlId }
  (entry, { heap := (heappush s.heap entry).run (byKey RecrawlEntry.dueAt) })

def peek : Option RecrawlEntry := s.heap.head?

/-- `pop_due`: all entries whose due time has arrived, soonest first. -/
def popDue : List RecrawlEntry × RecrawlScheduler :=
  let moment := now.getD clock
  let r := (popWhile (·.dueAt ≤ moment) s.heap.length s.heap).run (byKey RecrawlEntry.dueAt)
  (r.1, { heap := r.2 })

def secondsUntilNext : Option ℚ := s.peek.map fun head => max 0 (head.dueAt - now.getD clock)

end RecrawlScheduler

namespace RecrawlScheduler

variable {s : RecrawlScheduler}

/-- **What `pop_due` returns**: the entries that are due, in the order of their times. -/
theorem popDue_spec (h : IsHeap RecrawlEntry.dueAt s.heap) (now : Option ℚ) (clock : ℚ) :
    IsHeap RecrawlEntry.dueAt (s.popDue now clock).2.heap ∧
      (s.popDue now clock).1.Pairwise (fun a b => a.dueAt ≤ b.dueAt) ∧
      (s.popDue now clock).1.Perm (s.heap.filter (·.dueAt ≤ now.getD clock)) ∧
      (s.popDue now clock).2.heap.Perm (s.heap.filter (now.getD clock < ·.dueAt)) := by
  obtain ⟨hheap, hperm, hsorted, hdue, hroot⟩ :=
    popWhile_spec (·.dueAt ≤ now.getD clock) s.heap.length le_rfl h
  replace hdue : ∀ e ∈ (s.popDue now clock).1, e.dueAt ≤ now.getD clock :=
    fun e he => of_decide_eq_true (hdue e he)
  replace hroot : ∀ e ∈ (s.popDue now clock).2.heap.head?, now.getD clock < e.dueAt :=
    fun e he => not_le.1 (of_decide_eq_false (hroot e he))
  change IsHeap RecrawlEntry.dueAt (s.popDue now clock).2.heap at hheap
  change ((s.popDue now clock).1 ++ (s.popDue now clock).2.heap).Perm s.heap at hperm
  -- nothing that is left is due, as the root is not
  have hlater : ∀ e ∈ (s.popDue now clock).2.heap, now.getD clock < e.dueAt := by
    intro e he
    obtain ⟨head, rest, hcons⟩ := List.exists_cons_of_ne_nil (List.ne_nil_of_mem he)
    rw [hcons] at hheap he hroot
    exact (hroot head rfl).trans_le (hheap.head_le he)
  refine ⟨hheap, hsorted, ?_, ?_⟩
  · refine .trans (.of_eq ?_) (hperm.filter _)
    rw [List.filter_append, List.filter_eq_self.2 fun e he => decide_eq_true (hdue e he),
      List.filter_eq_nil_iff.2 fun e he => by simpa using hlater e he, List.append_nil]
  · refine .trans (.of_eq ?_) (hperm.filter _)
    rw [List.filter_append, List.filter_eq_nil_iff.2 fun e he => by simpa using hdue e he,
      List.filter_eq_self.2 fun e he => decide_eq_true (hlater e he), List.nil_append]

/-- `peek` reports an entry that is due first. -/
lemma peek_spec (h : IsHeap RecrawlEntry.dueAt s.heap) (hne : s.heap ≠ []) :
    ∃ e ∈ s.heap, s.peek = some e ∧ ∀ e' ∈ s.heap, e.dueAt ≤ e'.dueAt := by
  obtain ⟨e, rest, hcons⟩ := List.exists_cons_of_ne_nil hne
  rw [peek, hcons]
  rw [hcons] at h
  exact ⟨e, List.mem_cons_self, rfl, fun e' he' => h.head_le he'⟩

end RecrawlScheduler

/-! ### Runs -/

/-- The calls that change a scheduler. -/
inductive SchedulerCall
  | schedule (url : String) (interval : ℚ) (depth : ℤ) (crawlId : Option ℤ) (now : Option ℚ)
      (clock : ℚ)
  | popDue (now : Option ℚ) (clock : ℚ)
deriving DecidableEq, Repr

/-- The entry that a call asks for. -/
def SchedulerCall.requested : SchedulerCall → Option RecrawlEntry
  | .schedule url interval depth crawlId now clock =>
      some { dueAt := now.getD clock + interval, url, interval, depth, crawlId }
  | .popDue _ _ => none

/-- A scheduler, the entries that `schedule` has returned and those that `pop_due` has. -/
structure SchedulerRun where
  scheduler : RecrawlScheduler := {}
  scheduled : List RecrawlEntry := []
  returned : List RecrawlEntry := []
deriving DecidableEq, Repr

namespace SchedulerRun

def apply (r : SchedulerRun) : SchedulerCall → SchedulerRun
  | .schedule url interval depth crawlId now clock =>
      let (entry, s) := r.scheduler.schedule now clock url interval depth crawlId
      { r with scheduler := s, scheduled := r.scheduled ++ [entry] }
  | .popDue now clock =>
      let (due, s) := r.scheduler.popDue now clock
      { r with scheduler := s, returned := r.returned ++ due }

/-- After a list of calls on a new scheduler. -/
def after (calls : List SchedulerCall) : SchedulerRun := calls.foldl apply {}

/-- The heap is in order, and holds what was scheduled and not returned. -/
structure Conserved (r : SchedulerRun) : Prop where
  isHeap : IsHeap RecrawlEntry.dueAt r.scheduler.heap
  perm : r.scheduled.Perm (r.returned ++ r.scheduler.heap)

variable {r : SchedulerRun}

lemma Conserved.apply (h : Conserved r) (c : SchedulerCall) : Conserved (r.apply c) := by
  cases c with
  | schedule url interval depth crawlId now clock =>
      obtain ⟨hheap, hperm⟩ := heappush_spec h.isHeap
        { dueAt := now.getD clock + interval, url, interval, depth, crawlId }
      refine ⟨hheap, (h.perm.append_right _).trans ?_⟩
      rw [List.append_assoc]
      exact ((List.perm_append_singleton _ _).trans hperm.symm).append_left _
  | popDue now clock =>
      obtain ⟨hheap, -, hdue, hlater⟩ := RecrawlScheduler.popDue_spec h.isHeap now clock
      have hsplit : ((r.scheduler.popDue now clock).1 ++
          (r.scheduler.popDue now clock).2.heap).Perm r.scheduler.heap :=
        (popWhile_spec _ _ le_rfl h.isHeap).2.1
      refine ⟨hheap, h.perm.trans ?_⟩
      change (r.returned ++ r.scheduler.heap).Perm
        (r.returned ++ (r.scheduler.popDue now clock).1 ++ (r.scheduler.popDue now clock).2.heap)
      rw [List.append_assoc]
      exact hsplit.symm.append_left _

lemma conserved_after (calls : List SchedulerCall) : Conserved (after calls) := by
  have hfold : ∀ r, Conserved r → Conserved (calls.foldl apply r) := by
    induction calls with
    | nil => exact fun r h => h
    | cons c calls ih => exact fun r h => ih _ (h.apply c)
  exact hfold {} ⟨fun i _ y hy => by simp at hy, .rfl⟩

/-- `schedule` returns the entry that it was asked for. -/
lemma scheduled_after (calls : List SchedulerCall) :
    (after calls).scheduled = calls.filterMap SchedulerCall.requested := by
  induction calls using List.reverseRecOn with
  | nil => rfl
  | append_singleton calls c ih =>
      rw [List.filterMap_append, ← ih, after, List.foldl_append]
      cases c with
      | schedule url interval depth crawlId now clock => rfl
      | popDue now clock => exact (List.append_nil _).symm

/-- **Nothing is lost and nothing returned twice.**  After any calls the entries that were
asked for are those that were returned and those in the heap; `pop_due` then returns the
pending entries that are due, in the order of their times, and keeps the others; `peek` and
`seconds_until_next` tell the least time that is pending. -/
theorem recrawl_scheduler_spec (calls : List SchedulerCall) :
    let r := after calls
    r.scheduled = calls.filterMap SchedulerCall.requested ∧
    (calls.filterMap SchedulerCall.requested).Perm (r.returned ++ r.scheduler.heap) ∧
    (∀ (now : Option ℚ) (clock : ℚ),
      (r.scheduler.popDue now clock).1.Perm
        (r.scheduler.heap.filter (·.dueAt ≤ now.getD clock)) ∧
      (r.scheduler.popDue now clock).1.Pairwise (fun a b => a.dueAt ≤ b.dueAt) ∧
      (r.scheduler.popDue now clock).2.heap.Perm
        (r.scheduler.heap.filter (now.getD clock < ·.dueAt))) ∧
    (r.scheduler.heap = [] → r.scheduler.peek = none ∧
      ∀ (now : Option ℚ) (clock : ℚ), r.scheduler.secondsUntilNext now clock = none) ∧
    (r.scheduler.heap ≠ [] → ∃ e ∈ r.scheduler.heap, r.scheduler.peek = some e ∧
      (∀ e' ∈ r.scheduler.heap, e.dueAt ≤ e'.dueAt) ∧
      ∀ (now : Option ℚ) (clock : ℚ),
        r.scheduler.secondsUntilNext now clock = some (max 0 (e.dueAt - now.getD clock))) := by
  intro r
  obtain ⟨hheap, hperm⟩ := conserved_after calls
  refine ⟨scheduled_after calls, scheduled_after calls ▸ hperm, ?_, ?_, ?_⟩
  · intro now clock
    obtain ⟨-, hsorted, hdue, hlater⟩ := RecrawlScheduler.popDue_spec hheap now clock
    exact ⟨hdue, hsorted, hlater⟩
  · intro hnil
    have hpeek : r.scheduler.peek = none := by rw [RecrawlScheduler.peek, hnil, List.head?_nil]
    exact ⟨hpeek, fun now clock => by rw [RecrawlScheduler.secondsUntilNext, hpeek]; rfl⟩
  · intro hne
    obtain ⟨e, he, hpeek, hleast⟩ := RecrawlScheduler.peek_spec hheap hne
    refine ⟨e, he, hpeek, hleast, ?_⟩
    intro now clock
    rw [RecrawlScheduler.secondsUntilNext, hpeek, Option.map_some]

end SchedulerRun

end WebCrawler
