import WebCrawler.Lib.Machine
import Mathlib.Data.Multiset.DershowitzManna

/-!
# Machines that come to rest

A measure that all steps decrease, apart from some exceptional ones, as when the environment
hands in work again.  Then a run is infinite only if exceptional steps happen again and again
(`Descends.frequently`), and without them every state runs into one in which nothing is left to
do (`Descends.exists_rest`).

For a machine that works on many items the measure is a multiset of weights, in which a step
replaces an item by lighter ones (`lighter_of_replace`).
-/

namespace WebCrawler.Lib

namespace Machine

variable {σ α β : Type*} {M : Machine σ α} {E : α → Prop} {r : β → β → Prop} {μ : σ → β}

/-- All steps apart from the exceptional ones decrease a well-founded measure. -/
structure Descends (M : Machine σ α) (E : α → Prop) (r : β → β → Prop) (μ : σ → β) : Prop where
  wf : WellFounded r
  step : ∀ s a t, M.Reachable s → ¬ E a → M.step s a = some t → r (μ t) (μ s)

/-- More steps may be exceptional. -/
lemma Descends.mono (E' : α → Prop) (h : M.Descends E r μ) (hE : ∀ a, E a → E' a) :
    M.Descends E' r μ :=
  ⟨h.wf, fun s a t hs ha hst => h.step s a t hs (fun ha' => ha (hE a ha')) hst⟩

/-- `t` comes right after `s`, by a step that is not exceptional. -/
def NextBut (M : Machine σ α) (E : α → Prop) (s t : σ) : Prop := ∃ a, ¬ E a ∧ M.step s a = some t

/-- **In an infinite run the exceptional steps never stop.** -/
theorem Descends.frequently (h : M.Descends E r μ) {run : ℕ → σ} {acts : ℕ → α}
    (h0 : M.Reachable (run 0)) (hrun : ∀ n, M.step (run n) (acts n) = some (run (n + 1))) (n : ℕ) :
    ∃ m, n ≤ m ∧ E (acts m) := by
  by_contra hnone
  push Not at hnone
  have hreach : ∀ k, M.Reachable (run k) := by
    intro k
    induction k with
    | zero => exact h0
    | succ k ih => exact ih.step (hrun k)
  -- from the n-th state on the measure goes down for ever
  refine (wellFounded_iff_isEmpty_descending_chain.1 h.wf).false ⟨fun k => μ (run (n + k)), ?_⟩
  exact fun k => h.step _ _ _ (hreach (n + k)) (hnone (n + k) (Nat.le_add_right n k)) (hrun (n + k))

/-- **Without exceptional steps the machine comes to rest.** -/
theorem Descends.exists_rest (h : M.Descends E r μ) {s : σ} (hs : M.Reachable s) :
    ∃ t, Relation.ReflTransGen (M.NextBut E) s t ∧ ∀ t', ¬ M.NextBut E t t' := by
  obtain ⟨b, hb⟩ : ∃ b, μ s = b := ⟨_, rfl⟩
  induction b using h.wf.induction generalizing s with
  | _ b ih =>
      by_cases hnext : ∃ t, M.NextBut E s t
      · obtain ⟨t, a, ha, hst⟩ := hnext
        obtain ⟨t', hsteps, hrest⟩ := ih _ (hb ▸ h.step s a t hs ha hst) (hs.step hst) rfl
        exact ⟨t', .head ⟨a, ha, hst⟩ hsteps, hrest⟩
      · push Not at hnext
        exact ⟨s, .refl, hnext⟩

end Machine

/-- An item is replaced by lighter ones. -/
lemma lighter_of_replace {ω : Type*} [Preorder ω] {X Y : Multiset ω} {z : ω}
    (h : ∀ y ∈ Y, y < z) : Multiset.IsDershowitzMannaLT (X + Y) (X + {z}) :=
  ⟨X, Y, {z}, by simp, rfl, rfl, fun y hy => ⟨z, by simp, h y hy⟩⟩

end WebCrawler.Lib
