import Mathlib.Algebra.BigOperators.Group.List.Lemmas
import Mathlib.Data.List.Dedup
import Mathlib.Tactic

/-!
# Groups and ranks

Two clauses of a query.  `GROUP BY` with `count(*)` makes one entry of each key that occurs
(`groupCounts`); the numbers add up to that of the rows.  `ORDER BY … DESC LIMIT` takes the rows
of the highest rank (`IsTop`).  Among rows of the same rank the order is left open, so that the
answer is a relation; `top` is the one that keeps the order of the rows.
-/

namespace WebCrawler.Lib

variable {κ α : Type}

/-! ### Groups -/

section Groups

variable [DecidableEq κ] {keys keys' rows : List κ} {k : κ}

/-- Each key with the number of its rows. -/
def groupCounts (keys : List κ) : List (κ × ℕ) := keys.dedup.map fun k => (k, keys.count k)

lemma mem_groupCounts {n : ℕ} : (k, n) ∈ groupCounts keys ↔ 0 < n ∧ n = keys.count k := by
  simp only [groupCounts, List.mem_map, List.mem_dedup, Prod.mk.injEq]
  constructor
  · rintro ⟨k, hk, rfl, rfl⟩
    exact ⟨List.count_pos_iff.2 hk, rfl⟩
  · rintro ⟨hpos, rfl⟩
    exact ⟨k, List.count_pos_iff.1 hpos, rfl, rfl⟩

lemma mem_groupCounts_map {f : α → κ} {rows : List α} {n : ℕ} :
    (k, n) ∈ groupCounts (rows.map f) ↔ 0 < n ∧ n = rows.countP (f · = k) := by
  rw [mem_groupCounts, List.count_eq_countP, List.countP_map]
  rfl

lemma nodup_groupCounts (keys : List κ) : ((groupCounts keys).map Prod.fst).Nodup := by
  have hkeys : (groupCounts keys).map Prod.fst = keys.dedup := by
    rw [groupCounts, List.map_map]
    exact List.map_id _
  rw [hkeys]
  exact List.nodup_dedup keys

/-- The groups have as many rows as there are. -/
lemma sum_groupCounts (keys : List κ) : ((groupCounts keys).map Prod.snd).sum = keys.length := by
  rw [groupCounts, List.map_map]
  exact List.sum_map_count_dedup_eq_length keys

lemma groupCounts_perm (h : keys.Perm keys') : (groupCounts keys).Perm (groupCounts keys') := by
  have hcount : (fun k => (k, keys.count k)) = fun k => (k, keys'.count k) := by
    funext k
    rw [h.count_eq]
  rw [groupCounts, groupCounts, hcount]
  exact h.dedup.map _

lemma countP_mem_cons (hk : k ∉ keys) :
    rows.countP (· ∈ k :: keys) = rows.count k + rows.countP (· ∈ keys) := by
  induction rows with
  | nil => rfl
  | cons r rows ih =>
      rw [List.countP_cons, List.count_cons, List.countP_cons, ih]
      by_cases hr : r = k
      · subst hr
        simp [hk]
        omega
      · simp [hr]
        omega

/-- The rows with one of the given keys, key by key. -/
lemma sum_map_count (rows : List κ) (hkeys : keys.Nodup) :
    (keys.map fun k => rows.count k).sum = rows.countP (· ∈ keys) := by
  induction keys with
  | nil => simp
  | cons k keys ih =>
      obtain ⟨hk, hkeys⟩ := List.nodup_cons.1 hkeys
      rw [List.map_cons, List.sum_cons, ih hkeys, countP_mem_cons hk]

end Groups

/-! ### Ranks -/

section Ranks

variable {rank : α → ℕ} {rows result : List α} {limit : ℕ}

/-- The rows, those of the highest rank first. -/
def IsRanked (rank : α → ℕ) (rows result : List α) : Prop :=
  result.Perm rows ∧ result.Pairwise fun a b => rank b ≤ rank a

/-- The rows of the highest rank, at most as many as the limit. -/
def IsTop (rank : α → ℕ) (rows : List α) (limit : ℕ) (result : List α) : Prop :=
  ∃ ranked, IsRanked rank rows ranked ∧ result = ranked.take limit

/-- The ranked rows that keep the order of the rows of the same rank. -/
def ranked (rank : α → ℕ) (rows : List α) : List α := rows.mergeSort fun a b => rank b ≤ rank a

lemma isRanked_ranked (rank : α → ℕ) (rows : List α) : IsRanked rank rows (ranked rank rows) := by
  refine ⟨List.mergeSort_perm rows _, ?_⟩
  have h : (ranked rank rows).Pairwise fun a b => decide (rank b ≤ rank a) = true := by
    refine List.pairwise_mergeSort (fun a b c hab hbc => ?_) (fun a b => ?_) rows
    · exact decide_eq_true ((of_decide_eq_true hbc).trans (of_decide_eq_true hab))
    · simpa using le_total (rank b) (rank a)
  exact h.imp of_decide_eq_true

lemma isTop_ranked (rank : α → ℕ) (rows : List α) (limit : ℕ) :
    IsTop rank rows limit ((ranked rank rows).take limit) :=
  ⟨_, isRanked_ranked rank rows, rfl⟩

namespace IsTop

lemma length_eq (h : IsTop rank rows limit result) : result.length = min limit rows.length := by
  obtain ⟨ranked, hranked, rfl⟩ := h
  rw [List.length_take, hranked.1.length_eq]

lemma subset (h : IsTop rank rows limit result) : result ⊆ rows := by
  obtain ⟨ranked, hranked, rfl⟩ := h
  exact fun a ha => hranked.1.mem_iff.1 (List.mem_of_mem_take ha)

/-- What is left out has no higher rank than what is taken. -/
lemma le (h : IsTop rank rows limit result) {a b : α} (ha : a ∈ result) (hb : b ∈ rows)
    (hnot : b ∉ result) : rank b ≤ rank a := by
  obtain ⟨ranked, hranked, rfl⟩ := h
  have hb' : b ∈ ranked.drop limit := by
    have hmem : b ∈ ranked.take limit ++ ranked.drop limit := by
      rw [List.take_append_drop]
      exact hranked.1.mem_iff.2 hb
    exact (List.mem_append.1 hmem).resolve_left hnot
  have hsorted := hranked.2
  rw [← List.take_append_drop limit ranked, List.pairwise_append] at hsorted
  exact hsorted.2.2 a ha b hb'

end IsTop

end Ranks

end WebCrawler.Lib
