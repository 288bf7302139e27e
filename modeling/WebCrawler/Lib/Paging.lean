import Mathlib.Tactic

/-!
# Reading a list page by page while it grows

A list is read in pages of a fixed size, each from the list as it is at that moment, and entries
are added at its front between the reads.  Then later pages repeat entries, but no entry is passed
over: what is added in front moves the other entries towards the pages that are still to be read.
-/

namespace WebCrawler.Lib

variable {α : Type*}

/-- The page with a number, from 0. -/
def page (limit k : ℕ) (l : List α) : List α := (l.drop (k * limit)).take limit

/-- The page on which an entry is, by the number of entries before it. -/
lemma mem_page {limit k : ℕ} {front back : List α} {x : α} (hle : k * limit ≤ front.length)
    (hlt : front.length < (k + 1) * limit) : x ∈ page limit k (front ++ x :: back) := by
  have hsize : (k + 1) * limit = k * limit + limit := by ring
  rw [page, List.mem_take_iff_getElem]
  refine ⟨front.length - k * limit, ?_, ?_⟩
  · simp only [List.length_drop, List.length_append, List.length_cons]
    omega
  · rw [List.getElem_drop]
    simp [Nat.add_sub_cancel' hle]

/-- **No entry is passed over** if the last page that is read reaches the end. -/
theorem exists_mem_page {limit n : ℕ} {lists : ℕ → List α}
    (hgrows : ∀ i, lists i <:+ lists (i + 1)) (hlast : (lists n).length ≤ (n + 1) * limit) {x : α}
    (hx : x ∈ lists 0) : ∃ i ≤ n, x ∈ page limit i (lists i) := by
  obtain ⟨front, back, hsplit⟩ := List.append_of_mem hx
  -- what comes after the entry stays the same
  have hfronts : ∀ i, ∃ front, lists i = front ++ x :: back := by
    intro i
    induction i with
    | zero => exact ⟨front, hsplit⟩
    | succ i ih =>
        obtain ⟨front, hi⟩ := ih
        obtain ⟨new, hnew⟩ := hgrows i
        exact ⟨new ++ front, by rw [← hnew, hi, List.append_assoc]⟩
  choose fronts hfronts using hfronts
  have hmono : ∀ i, (fronts i).length ≤ (fronts (i + 1)).length := by
    intro i
    have hlength := (hgrows i).length_le
    rw [hfronts i, hfronts (i + 1), List.length_append, List.length_append] at hlength
    omega
  have hend : (fronts n).length < (n + 1) * limit := by
    rw [hfronts n, List.length_append, List.length_cons] at hlast
    omega
  -- the first page that ends behind the entry
  have hexists : ∃ i, (fronts i).length < (i + 1) * limit := ⟨n, hend⟩
  refine ⟨Nat.find hexists, Nat.find_min' hexists hend, ?_⟩
  rw [hfronts]
  refine mem_page ?_ (Nat.find_spec hexists)
  cases hfirst : Nat.find hexists with
  | zero => exact (Nat.zero_mul limit).trans_le (Nat.zero_le _)
  | succ i =>
      have hbefore := Nat.find_min hexists (m := i) (by omega)
      exact (not_lt.1 hbefore).trans (hmono i)

end WebCrawler.Lib
