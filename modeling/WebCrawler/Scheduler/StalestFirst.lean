import WebCrawler.Frontier.Messages
import WebCrawler.Pipeline.Recrawl
import WebCrawler.Scheduler.Recrawl

/-!
# The order of `crawler recrawl`

`_recrawl` of `crawler/cli.py` puts the answer of `select_stale`, stalest first, into the
heap of a scheduler and publishes what `pop_due` returns.  All intervals are 0, so that a row
carries its place only as the reading of the clock when it was scheduled.

The heap compares nothing else, and does not keep the order of equal readings.  The order is
kept if the readings differ wherever `heapq` asks whether an earlier row is less than a later
one (`Separated`); which pairs of places these are depends on the number of the rows only.
With four rows or more the second and the third are such a pair.
-/

namespace WebCrawler.Cli

open Lib Lib.Comparing

/-- A row of the answer of `select_stale`: `url`, `depth` and `crawl_id`. -/
abbrev StaleRow : Type := String × ℤ × Option ℤ

/-- The scheduler after the rows were scheduled, the row at the place `i` when the clock
showed `clock i`. -/
def scheduleStale (clock : ℕ → ℚ) (stale : List StaleRow) : RecrawlScheduler :=
  stale.zipIdx.foldl
    (fun scheduler row =>
      (scheduler.schedule none (clock row.2) row.1.1 0 row.1.2.1 row.1.2.2).2)
    {}

/-- `_recrawl`: the messages that are published, in their order. -/
def recrawl (clock : ℕ → ℚ) (stale : List StaleRow) : List FrontierMessage :=
  let due := ((scheduleStale clock stale).popDue none (clock stale.length)).1
  due.map fun entry => { url := entry.url, depth := entry.depth, crawlId := entry.crawlId }

/-- The message of a row. -/
def messageOf (row : StaleRow) : FrontierMessage :=
  { url := row.1, depth := row.2.1, crawlId := row.2.2 }

/-- The places that `heapq` compares when it pops `n` items that were pushed in order. -/
def heapQuestions (n : ℕ) : List (ℕ × ℕ) :=
  (popWhile (fun _ => true) n (List.range n)).asked (byKey id)

/-- The readings differ where an earlier place is compared with a later one. -/
def Separated (clock : ℕ → ℚ) (n : ℕ) : Prop :=
  ∀ q ∈ heapQuestions n, q.1 < q.2 → clock q.1 < clock q.2

/-! ### The places -/

section Places

/-- The row at a place. -/
def rowAt (stale : List StaleRow) (i : ℕ) : StaleRow := stale[i]?.getD ("", 0, none)

/-- The entry of the row at a place. -/
def entryAt (clock : ℕ → ℚ) (stale : List StaleRow) (i : ℕ) : RecrawlEntry :=
  { dueAt := clock i, url := (rowAt stale i).1, depth := (rowAt stale i).2.1,
    crawlId := (rowAt stale i).2.2 }

/-- The places of the rows in the order in which they are published. -/
def places (clock : ℕ → ℚ) (n : ℕ) : List ℕ :=
  ((popWhile (fun _ => true) n (List.range n)).run (byKey clock)).1

variable {clock : ℕ → ℚ} {stale : List StaleRow} {n : ℕ}

lemma map_rowAt (stale : List StaleRow) :
    (List.range stale.length).map (rowAt stale) = stale := by
  refine List.ext_getElem (by simp) fun i _ hi => ?_
  rw [List.getElem_map, List.getElem_range, rowAt, List.getElem?_eq_getElem hi, Option.getD_some]

lemma map_entryAt_append (row : StaleRow) :
    (List.range stale.length).map (entryAt clock (stale ++ [row])) =
      (List.range stale.length).map (entryAt clock stale) := by
  refine List.map_congr_left fun i hi => ?_
  rw [entryAt, entryAt, rowAt, rowAt, List.getElem?_append_left (List.mem_range.1 hi)]

/-- The rows stay in order when they are pushed. -/
lemma scheduleStale_heap (hclock : Monotone clock) (stale : List StaleRow) :
    (scheduleStale clock stale).heap =
      (List.range stale.length).map (entryAt clock stale) := by
  induction stale using List.reverseRecOn with
  | nil => rfl
  | append_singleton stale row ih =>
      have hlast : entryAt clock (stale ++ [row]) stale.length =
          { dueAt := (none : Option ℚ).getD (clock stale.length) + 0, url := row.1, interval := 0,
            depth := row.2.1, crawlId := row.2.2 } := by
        rw [entryAt, rowAt, List.getElem?_concat_length, Option.getD_some, add_zero]
        rfl
      rw [scheduleStale, List.zipIdx_append, List.foldl_append, ← scheduleStale,
        List.length_append, List.length_singleton, List.range_succ, List.map_append,
        map_entryAt_append, List.map_singleton, hlast, ← ih, zero_add]
      refine heappush_of_le (l := (scheduleStale clock stale).heap) RecrawlEntry.dueAt
        fun e he => ?_
      rw [ih] at he
      obtain ⟨i, hi, rfl⟩ := List.mem_map.1 he
      show clock i ≤ clock stale.length + 0
      rw [add_zero]
      exact hclock (List.mem_range.1 hi).le

lemma pairwise_range {K : Type*} [Preorder K] {key : ℕ → K} (hkey : Monotone key) (n : ℕ) :
    (List.range n).Pairwise fun i j => key i ≤ key j :=
  List.pairwise_lt_range.imp fun h => hkey h.le

/-- The rows are published in the order in which the heap gives their places. -/
lemma recrawl_eq (hclock : Monotone clock) (stale : List StaleRow) :
    recrawl clock stale = (places clock stale.length).map fun i => messageOf (rowAt stale i) := by
  rw [recrawl, RecrawlScheduler.popDue, scheduleStale_heap hclock]
  simp only [popWhile_map, List.length_map, List.length_range, Prod.map_fst, List.map_map]
  have hdue : (popWhile (fun i => decide ((entryAt clock stale i).dueAt ≤ clock stale.length))
      stale.length (List.range stale.length)).run (byKey clock) =
      (popWhile (fun _ => true) stale.length (List.range stale.length)).run (byKey clock) :=
    popWhile_congr _ (isHeap_of_pairwise (pairwise_range hclock _)) fun i hi =>
      decide_eq_true (hclock (List.mem_range.1 hi).le)
  exact congrArg (fun r => r.1.map fun i => messageOf (rowAt stale i)) hdue

/-- All places are popped, in the order of their keys. -/
lemma popWhile_range {K : Type*} [LinearOrder K] {key : ℕ → K} (hkey : Monotone key) (n : ℕ) :
    let r := (popWhile (fun _ => true) n (List.range n)).run (byKey key)
    r.2 = [] ∧ r.1.Perm (List.range n) ∧ r.1.Pairwise fun i j => key i ≤ key j := by
  have hspec := popWhile_of_forall key (fun _ => true) (fun _ _ => rfl)
    (isHeap_of_pairwise (pairwise_range hkey n))
  rwa [List.length_range] at hspec

/-- By place the places come in order. -/
lemma popWhile_places (n : ℕ) :
    (popWhile (fun _ => true) n (List.range n)).run (byKey id) = (List.range n, []) := by
  obtain ⟨hnil, hperm, hsorted⟩ := popWhile_range monotone_id n
  have hrange := hperm.eq_of_pairwise (fun i j _ _ => le_antisymm) hsorted
    (pairwise_range monotone_id n)
  exact Prod.ext hrange hnil

/-- **Separated readings** stand for the places. -/
lemma places_of_separated (hclock : Monotone clock) (h : Separated clock n) :
    places clock n = List.range n := by
  have hrun : (popWhile (fun _ => true) n (List.range n)).run (byKey clock) =
      (popWhile (fun _ => true) n (List.range n)).run (byKey id) := by
    refine run_congr _ _ fun q hq => ?_
    by_cases hlt : q.1 < q.2
    · rw [byKey_of_lt (h q hq hlt), byKey_of_lt (show id q.1 < id q.2 from hlt)]
    · have hle := not_lt.1 hlt
      rw [Bool.eq_false_of_not_eq_true (byKey_of_le (hclock hle)),
        Bool.eq_false_of_not_eq_true (byKey_of_le (show id q.2 ≤ id q.1 from hle))]
  rw [places, hrun, popWhile_places]

/-- Readings that differ everywhere leave one order only. -/
lemma places_of_strictMonoOn (hclock : Monotone clock)
    (h : StrictMonoOn clock (Set.Iio n)) : places clock n = List.range n := by
  obtain ⟨-, hperm, hsorted⟩ := popWhile_range hclock n
  refine hperm.eq_of_pairwise (fun i j hi hj hij hji => ?_) hsorted (pairwise_range hclock n)
  have hi' : i < n := List.mem_range.1 (hperm.mem_iff.1 hi)
  exact h.injOn hi' (List.mem_range.1 hj) (le_antisymm hij hji)

/-- Up to three places no earlier one is compared with a later one. -/
lemma separated_of_le_three (clock : ℕ → ℚ) (hn : n ≤ 3) : Separated clock n := by
  have hnone : ∀ n ≤ 3, ∀ q ∈ heapQuestions n, ¬ q.1 < q.2 := by decide
  exact fun q hq hlt => absurd hlt (hnone n hn q hq)

/-- The third place comes second if its reading is that of the second one. -/
lemma places_tie (hclock : Monotone clock) (htie : clock 2 ≤ clock 1) (hn : 4 ≤ n) :
    ∃ more, places clock n = 0 :: 2 :: more := by
  obtain ⟨n, rfl⟩ := Nat.exists_eq_add_of_le' hn
  have hrange : List.range (n + 4) = 0 :: (1 :: 2 :: (List.range n).map (· + 3) ++ [n + 3]) := by
    rw [List.range_succ, List.range_succ_eq_map, List.range_succ_eq_map, List.range_succ_eq_map]
    simp [Function.comp_def]
  rw [places, hrange]
  refine popWhile_second (byKey_of_le htie) (fun z hz => byKey_of_le (hclock ?_)) (n + 2)
  rcases List.mem_cons.1 hz with rfl | hz
  · omega
  · rcases List.mem_cons.1 hz with rfl | hz
    · omega
    · obtain ⟨i, hi, rfl⟩ := List.mem_map.1 hz
      have := List.mem_range.1 hi
      omega

end Places

/-! ### The order that is published -/

section Published

variable {t : Tables} {now olderThan : ℚ} {limit : ℕ} {clock : ℕ → ℚ} {stale : List StaleRow}

lemma selectStale_nodup (h : t.SelectStale now olderThan limit stale) :
    (stale.map (·.1)).Nodup := by
  obtain ⟨rows, hperm, -, rfl⟩ := h
  have hurls : ((t.staleRows now olderThan).map (·.url)).Nodup :=
    t.document_urls.sublist (List.filter_sublist.map _)
  rw [List.map_map]
  exact ((hperm.map _).nodup_iff.2 hurls).sublist ((List.take_sublist limit rows).map _)

lemma map_messageOf_rowAt (stale : List StaleRow) :
    ((List.range stale.length).map fun i => messageOf (rowAt stale i)) = stale.map messageOf := by
  conv_rhs => rw [← map_rowAt stale, List.map_map]
  rfl

/-- Every row is published once. -/
lemma recrawl_perm (hclock : Monotone clock) (stale : List StaleRow) :
    (recrawl clock stale).Perm (stale.map messageOf) := by
  rw [recrawl_eq hclock, ← map_messageOf_rowAt]
  exact (popWhile_range hclock stale.length).2.1.map _

/-- The order of the answer is the order of the places. -/
lemma recrawl_of_places (hclock : Monotone clock)
    (h : places clock stale.length = List.range stale.length) :
    recrawl clock stale = stale.map messageOf := by
  rw [recrawl_eq hclock, h, map_messageOf_rowAt]

/-- Four rows or more with a tie of the second and the third are not published in order. -/
lemma recrawl_ne_of_tie (hnodup : (stale.map (·.1)).Nodup) (hclock : Monotone clock)
    (hlen : 4 ≤ stale.length) (htie : clock 2 ≤ clock 1) :
    recrawl clock stale ≠ stale.map messageOf := by
  intro heq
  obtain ⟨more, hmore⟩ := places_tie hclock htie hlen
  have hurls : ((recrawl clock stale).map (·.url))[1]? = some (rowAt stale 2).1 := by
    rw [recrawl_eq hclock, hmore]
    rfl
  rw [heq, List.map_map] at hurls
  -- the second URL is that of the third row
  have hthird : (stale.map (·.1))[2]? = some (rowAt stale 2).1 := by
    rw [List.getElem?_map, rowAt, List.getElem?_eq_getElem (by omega)]
    rfl
  have hplace := (List.getElem?_inj (by simpa using (by omega : 1 < stale.length)) hnodup).1
    ((show (stale.map (·.1))[1]? = _ from hurls).trans hthird.symm)
  omega

/-- **Stalest first?**  Every row is published once.  The order is that of the answer if the
readings are separated or all different, and only if the second and the third differ when there
are more than three rows.  No clock breaks the order of up to three rows, and some clock breaks
that of more. -/
theorem recrawl_stalest_first (t : Tables) (now olderThan : ℚ) (limit : ℕ)
    (stale : List StaleRow) (hstale : t.SelectStale now olderThan limit stale) :
    (∀ clock : ℕ → ℚ, Monotone clock →
      (recrawl clock stale).Perm (stale.map messageOf) ∧
      (Separated clock stale.length → recrawl clock stale = stale.map messageOf) ∧
      (StrictMonoOn clock (Set.Iio stale.length) →
        recrawl clock stale = stale.map messageOf) ∧
      (recrawl clock stale = stale.map messageOf → 4 ≤ stale.length → clock 1 < clock 2)) ∧
    ((∀ clock : ℕ → ℚ, Monotone clock → recrawl clock stale = stale.map messageOf) ↔
      stale.length ≤ 3) := by
  refine ⟨fun clock hclock => ⟨recrawl_perm hclock stale, fun hsep => ?_, fun hstrict => ?_,
    fun heq hlen => ?_⟩, fun hall => ?_, fun hlen clock hclock => ?_⟩
  · exact recrawl_of_places hclock (places_of_separated hclock hsep)
  · exact recrawl_of_places hclock (places_of_strictMonoOn hclock hstrict)
  · by_contra htie
    exact recrawl_ne_of_tie (selectStale_nodup hstale) hclock hlen (not_lt.1 htie) heq
  · by_contra hlen
    exact recrawl_ne_of_tie (selectStale_nodup hstale) (monotone_const (c := (0 : ℚ)))
      (not_le.1 hlen) le_rfl (hall _ monotone_const)
  · exact recrawl_of_places hclock
      (places_of_separated hclock (separated_of_le_three clock hlen))

/-- Four pages that were never crawled. -/
def fourPages : Tables :=
  { Tables.empty with
    documents := ["a", "b", "c", "d"].zipIdx.map fun page =>
      { id := page.2, url := page.1, registeredDomain := "example.com", firstSeen := 0 }
    document_ids := by decide
    document_urls := by decide
    edge_src := fun _ he => absurd he List.not_mem_nil }

/-- Their rows, as they are selected. -/
def fourRows : List StaleRow := [("a", 0, none), ("b", 0, none), ("c", 0, none), ("d", 0, none)]

lemma fourPages_selectStale : fourPages.SelectStale 0 0 100 fourRows :=
  ⟨fourPages.documents, by decide, by decide, by decide⟩

theorem recrawl_stalest_first_four :
    (∀ clock : ℕ → ℚ, Monotone clock →
      (recrawl clock fourRows).Perm (fourRows.map messageOf) ∧
      (Separated clock 4 → recrawl clock fourRows = fourRows.map messageOf) ∧
      (StrictMonoOn clock (Set.Iio 4) → recrawl clock fourRows = fourRows.map messageOf) ∧
      (recrawl clock fourRows = fourRows.map messageOf → 4 ≤ 4 → clock 1 < clock 2)) ∧
    ((∀ clock : ℕ → ℚ, Monotone clock → recrawl clock fourRows = fourRows.map messageOf) ↔
      4 ≤ 3) :=
  recrawl_stalest_first fourPages 0 0 100 fourRows fourPages_selectStale

/-- At equal readings the third page is published before the second. -/
theorem recrawl_equal_readings :
    fourPages.SelectStale 0 0 100 fourRows ∧ Monotone (fun _ : ℕ => (0 : ℚ)) ∧
      (recrawl (fun _ => 0) fourRows).map (·.url) = ["a", "c", "b", "d"] ∧
      recrawl (fun _ => 0) fourRows ≠ fourRows.map messageOf :=
  ⟨fourPages_selectStale, monotone_const, by decide +kernel, by decide +kernel⟩

end Published

end WebCrawler.Cli
