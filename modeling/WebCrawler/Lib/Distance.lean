import Mathlib.Tactic

/-!
# Directed distances from a set of sources

The distance of a vertex from a set of sources along a binary relation, for
graphs that may be infinite: `Hops R S n v` says that some path of exactly `n`
edges leads from a source to `v`, and `IsDist R S n v` that the shortest such
path has `n` edges.

`IsDist.of_bounds` is the rule by which a search is shown to compute distances:
it records for each vertex the length of some path, and never more than the
length of any path.

A search may miss some of the edges.  `hops_iff_spans` says which edges it needs to find
the same vertices at the same distances.
-/

namespace WebCrawler.Lib

variable {α : Type*} {R R' : α → α → Prop} {S : Set α}

/-- A path of `n` edges leads from a source to the vertex. -/
inductive Hops (R : α → α → Prop) (S : Set α) : ℕ → α → Prop
  /-- A source is reached without any edge. -/
  | source {v : α} : v ∈ S → Hops R S 0 v
  /-- One more edge. -/
  | edge {n : ℕ} {u v : α} : Hops R S n u → R u v → Hops R S (n + 1) v

/-- The shortest path from a source to the vertex has `n` edges. -/
def IsDist (R : α → α → Prop) (S : Set α) (n : ℕ) (v : α) : Prop :=
  Hops R S n v ∧ ∀ m, Hops R S m v → n ≤ m

/-- The vertices within `d` edges of the sources. -/
def ball (R : α → α → Prop) (S : Set α) (d : ℤ) : Set α :=
  {v | ∃ n : ℕ, (n : ℤ) ≤ d ∧ Hops R S n v}

lemma IsDist.of_bounds {n : ℕ} {v : α} (hpath : Hops R S n v)
    (hmin : ∀ m, m < n → ¬ Hops R S m v) : IsDist R S n v :=
  ⟨hpath, fun m hm => not_lt.1 fun hlt => hmin m hlt hm⟩

lemma IsDist.unique {n m : ℕ} {v : α} (hn : IsDist R S n v) (hm : IsDist R S m v) : n = m :=
  le_antisymm (hn.2 m hm.1) (hm.2 n hn.1)

/-- If the sources are recorded with depth zero, and each edge out of a vertex
recorded with a depth below `d` leads to a vertex recorded at most one deeper,
then every vertex within `d` edges is recorded with at most its number of edges. -/
lemma Hops.recorded {d : ℤ} {rec : α → ℤ → Prop} (hS : ∀ v ∈ S, ∃ k ≤ 0, rec v k)
    (hstep : ∀ u v k, rec u k → k < d → R u v → ∃ k' ≤ k + 1, rec v k') {n : ℕ} {v : α}
    (h : Hops R S n v) (hn : (n : ℤ) ≤ d) : ∃ k ≤ (n : ℤ), rec v k := by
  induction h with
  | source hv => exact hS _ hv
  | @edge n u v _ hR ih =>
      push_cast at hn ⊢
      obtain ⟨k, hk, hu⟩ := ih (by omega)
      obtain ⟨k', hk', hv⟩ := hstep u v k hu (by omega) hR
      exact ⟨k', by omega, hv⟩

/-! ### Some of the edges -/

lemma Hops.mono (hsub : ∀ u v, R u v → R' u v) {n : ℕ} {v : α} (h : Hops R S n v) :
    Hops R' S n v := by
  induction h with
  | source hv => exact .source hv
  | edge _ hR ih => exact .edge ih (hsub _ _ hR)

lemma Hops.exists_source {n : ℕ} {v : α} (h : Hops R S n v) : ∃ u, u ∈ S := by
  induction h with
  | source hv => exact ⟨_, hv⟩
  | edge _ _ ih => exact ih

/-- Some path is the shortest one. -/
lemma Hops.exists_isDist {n : ℕ} {v : α} (h : Hops R S n v) : ∃ m ≤ n, IsDist R S m v := by
  classical
  have hex : ∃ m, Hops R S m v := ⟨n, h⟩
  exact ⟨Nat.find hex, Nat.find_min' hex h, Nat.find_spec hex, fun _ => Nat.find_min' hex⟩

/-- Each edge along `R'` out of a vertex at a distance `n` below `d` leads to a vertex within
`n + 1` edges along `R`. -/
def Spans (R R' : α → α → Prop) (S : Set α) (d : ℤ) : Prop :=
  ∀ (n : ℕ) (u v : α), IsDist R S n u → (n : ℤ) < d → R' u v → ∃ m ≤ n + 1, Hops R S m v

lemma Spans.hops {d : ℤ} (h : Spans R R' S d) {n : ℕ} {v : α} (hv : Hops R' S n v)
    (hn : (n : ℤ) ≤ d) : ∃ m ≤ n, Hops R S m v := by
  induction hv with
  | source hv => exact ⟨0, le_rfl, .source hv⟩
  | @edge n u v _ hR ih =>
      push_cast at hn
      obtain ⟨m, hm, hu⟩ := ih (by omega)
      obtain ⟨k, hk, hdist⟩ := hu.exists_isDist
      obtain ⟨m', hm', hv⟩ := h k u v hdist (by omega) hR
      exact ⟨m', by omega, hv⟩

lemma spans_of_subset {d : ℤ} (h : ∀ u v, R' u v → R u v) : Spans R R' S d :=
  fun n u v hdist _ hR => ⟨n + 1, le_rfl, .edge hdist.1 (h u v hR)⟩

/-- The edges of `R`, some of those of `R'`, reach every vertex within `d` edges as early. -/
lemma hops_iff_spans {d : ℤ} (hsub : ∀ u v, R u v → R' u v) :
    (∀ (n : ℕ) (v : α), (n : ℤ) ≤ d → Hops R' S n v → ∃ m ≤ n, Hops R S m v) ↔
      Spans R R' S d := by
  constructor
  · intro h n u v hdist hn hR
    exact h (n + 1) v (by push_cast; omega) (.edge (hdist.1.mono hsub) hR)
  · intro h n v hn hv
    exact h.hops hv hn

end WebCrawler.Lib
