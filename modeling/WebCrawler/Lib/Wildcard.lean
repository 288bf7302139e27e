import Mathlib.Tactic
import Mathlib.Data.List.Infix

/-!
# Patterns with wildcards

A pattern is a list of which an element stands for itself, for any single element or for any
list of elements, as in `LIKE` and in file globs.

A pattern between two wildcards for lists searches a list for a part that matches
(`matches_many_append_many`); without wildcards this part is the pattern itself
(`matches_map_lit`).
-/

namespace WebCrawler.Lib

/-- An element of a pattern. -/
inductive Wildcard (α : Type*)
  /-- The element itself. -/
  | lit (a : α)
  /-- Any single element. -/
  | one
  /-- Any number of elements. -/
  | many
deriving DecidableEq, Repr

namespace Wildcard

variable {α : Type*} [DecidableEq α]

/-- Whether a list matches a pattern. -/
def Matches : List (Wildcard α) → List α → Bool
  | [], l => l.isEmpty
  | .lit _ :: _, [] => false
  | .lit a :: p, x :: l => x = a && Matches p l
  | .one :: _, [] => false
  | .one :: p, _ :: l => Matches p l
  | .many :: p, l => l.tails.any (Matches p)

variable {p : List (Wildcard α)} {l : List α}

lemma matches_nil : Matches [] l = true ↔ l = [] := by
  rw [Matches, List.isEmpty_iff]

lemma matches_lit_cons {a : α} :
    Matches (.lit a :: p) l = true ↔ ∃ t, l = a :: t ∧ Matches p t := by
  cases l with
  | nil => simp [Matches]
  | cons x l =>
      rw [Matches, Bool.and_eq_true, decide_eq_true_eq]
      constructor
      · rintro ⟨rfl, h⟩
        exact ⟨l, rfl, h⟩
      · rintro ⟨t, heq, ht⟩
        obtain ⟨rfl, rfl⟩ := List.cons.inj heq
        exact ⟨rfl, ht⟩

lemma matches_one_cons :
    Matches (.one :: p) l = true ↔ ∃ a t, l = a :: t ∧ Matches p t := by
  cases l with
  | nil => simp [Matches]
  | cons x l => simp [Matches]

lemma matches_many_cons : Matches (.many :: p) l = true ↔ ∃ t, t <:+ l ∧ Matches p t := by
  rw [Matches, List.any_eq_true]
  simp only [List.mem_tails]

/-- A wildcard for lists at the end leaves the rest of the list open. -/
lemma matches_append_many :
    Matches (p ++ [.many]) l = true ↔ ∃ t, t <+: l ∧ Matches p t := by
  induction p generalizing l with
  | nil =>
      rw [List.nil_append, matches_many_cons]
      constructor
      · exact fun _ => ⟨[], List.nil_prefix, rfl⟩
      · exact fun _ => ⟨[], List.nil_suffix, rfl⟩
  | cons e p ih =>
      rw [List.cons_append]
      cases e with
      | lit a =>
          simp only [matches_lit_cons, ih]
          constructor
          · rintro ⟨s, rfl, t, hts, ht⟩
            exact ⟨a :: t, List.cons_prefix_cons.2 ⟨rfl, hts⟩, t, rfl, ht⟩
          · rintro ⟨_, ⟨u, rfl⟩, t, rfl, ht⟩
            exact ⟨t ++ u, rfl, t, List.prefix_append t u, ht⟩
      | one =>
          simp only [matches_one_cons, ih]
          constructor
          · rintro ⟨a, s, rfl, t, hts, ht⟩
            exact ⟨a :: t, List.cons_prefix_cons.2 ⟨rfl, hts⟩, a, t, rfl, ht⟩
          · rintro ⟨_, ⟨u, rfl⟩, a, t, rfl, ht⟩
            exact ⟨a, t ++ u, rfl, t, List.prefix_append t u, ht⟩
      | many =>
          simp only [matches_many_cons, ih]
          constructor
          · rintro ⟨s, ⟨u, rfl⟩, t, hts, ht⟩
            exact ⟨u ++ t, (List.prefix_append_right_inj u).2 hts, t, List.suffix_append u t, ht⟩
          · rintro ⟨_, ⟨v, rfl⟩, t, ⟨u, rfl⟩, ht⟩
            refine ⟨t ++ v, ?_, t, List.prefix_append t v, ht⟩
            rw [List.append_assoc]
            exact List.suffix_append u (t ++ v)

/-- **A search** for a part that matches. -/
theorem matches_many_append_many :
    Matches (.many :: (p ++ [.many])) l = true ↔ ∃ t, t <:+: l ∧ Matches p t := by
  simp only [matches_many_cons, matches_append_many, List.infix_iff_prefix_suffix]
  constructor
  · rintro ⟨s, hs, t, hts, ht⟩
    exact ⟨t, ⟨s, hts, hs⟩, ht⟩
  · rintro ⟨t, ⟨s, hts, hs⟩, ht⟩
    exact ⟨s, hs, t, hts, ht⟩

/-- A pattern without wildcards. -/
lemma matches_map_lit (w : List α) : Matches (w.map .lit) l = true ↔ l = w := by
  induction w generalizing l with
  | nil => exact matches_nil
  | cons a w ih =>
      rw [List.map_cons, matches_lit_cons]
      constructor
      · rintro ⟨t, rfl, ht⟩
        rw [ih.1 ht]
      · rintro rfl
        exact ⟨w, rfl, ih.2 rfl⟩

end Wildcard

end WebCrawler.Lib
