import Mathlib.Tactic

/-!
# Seen-sets

A seen-set answers whether a key is new and takes note of it, in one step.  The exact
seen-set is a finite set; an approximate one may take a new key for an old one, but
never the other way round.
-/

namespace WebCrawler.Lib

/-- A set of keys with states in `σ`. -/
structure SeenSet (σ κ : Type) where
  /-- Adds a key and tells whether it was absent. -/
  checkAndAdd : σ → κ → Bool × σ
  /-- The keys that count as present. -/
  Mem : σ → κ → Prop
  fst_iff : ∀ s k, (checkAndAdd s k).1 = true ↔ ¬ Mem s k
  mem_self : ∀ s k, Mem (checkAndAdd s k).2 k
  mem_mono : ∀ s k k', Mem s k' → Mem (checkAndAdd s k).2 k'

namespace SeenSet

/-- The exact seen-set. -/
def exact (κ : Type) [DecidableEq κ] : SeenSet (Finset κ) κ where
  checkAndAdd s k := (decide (k ∉ s), insert k s)
  Mem s k := k ∈ s
  fst_iff s k := by simp
  mem_self s k := Finset.mem_insert_self k s
  mem_mono s k k' h := Finset.mem_insert_of_mem h

/-! ### Sequences of calls -/

variable {σ κ : Type} (S : SeenSet σ κ)

/-- The state after calls on the given keys. -/
def after (s : σ) (keys : List κ) : σ := keys.foldl (fun s k => (S.checkAndAdd s k).2) s

/-- The answers of the calls. -/
def verdicts : σ → List κ → List Bool
  | _, [] => []
  | s, k :: keys => (S.checkAndAdd s k).1 :: verdicts (S.checkAndAdd s k).2 keys

/-- The keys that were taken for new ones, in order. -/
def novel : σ → List κ → List κ
  | _, [] => []
  | s, k :: keys =>
      if (S.checkAndAdd s k).1 then k :: novel (S.checkAndAdd s k).2 keys
      else novel (S.checkAndAdd s k).2 keys

@[simp] lemma after_nil (s : σ) : S.after s [] = s := rfl

@[simp] lemma after_cons (s : σ) (k : κ) (keys : List κ) :
    S.after s (k :: keys) = S.after (S.checkAndAdd s k).2 keys := rfl

/-- One more call at the end of the sequence. -/
lemma after_append_singleton (s : σ) (keys : List κ) (k : κ) :
    S.after s (keys ++ [k]) = (S.checkAndAdd (S.after s keys) k).2 := by
  simp [after]

lemma verdicts_append_singleton (s : σ) (keys : List κ) (k : κ) :
    S.verdicts s (keys ++ [k]) = S.verdicts s keys ++ [(S.checkAndAdd (S.after s keys) k).1] := by
  induction keys generalizing s with
  | nil => rfl
  | cons k' keys ih => simp [verdicts, ih]

lemma count_verdicts (s : σ) (keys : List κ) :
    (S.verdicts s keys).count true = (S.novel s keys).length := by
  induction keys generalizing s with
  | nil => rfl
  | cons k keys ih =>
      rw [verdicts, novel]
      cases h : (S.checkAndAdd s k).1 with
      | true => simp [ih]
      | false => simp [ih]

lemma novel_sublist (s : σ) (keys : List κ) : (S.novel s keys).Sublist keys := by
  induction keys generalizing s with
  | nil => exact List.Sublist.refl _
  | cons k keys ih =>
      rw [novel]
      split_ifs with h
      · exact (ih _).cons_cons k
      · exact (ih _).cons k

/-- What is present stays so. -/
lemma mem_after_of_mem {s : σ} {k : κ} (h : S.Mem s k) (keys : List κ) :
    S.Mem (S.after s keys) k := by
  induction keys generalizing s with
  | nil => exact h
  | cons k' keys ih => exact ih (S.mem_mono s k' k h)

/-- There are no false negatives. -/
lemma mem_after {k : κ} {keys : List κ} (hk : k ∈ keys) (s : σ) : S.Mem (S.after s keys) k := by
  induction keys generalizing s with
  | nil => exact absurd hk List.not_mem_nil
  | cons k' keys ih =>
      rcases List.mem_cons.1 hk with rfl | hk
      · exact S.mem_after_of_mem (S.mem_self s k) keys
      · exact ih hk _

lemma fst_of_mem {s : σ} {k : κ} (h : S.Mem s k) : (S.checkAndAdd s k).1 = false := by
  rw [Bool.eq_false_iff, ne_eq, S.fst_iff]
  exact not_not.2 h

/-- Only absent keys are taken for new ones. -/
lemma not_mem_of_mem_novel {s : σ} {k : κ} {keys : List κ} (hk : k ∈ S.novel s keys) :
    ¬ S.Mem s k := by
  induction keys generalizing s with
  | nil => exact absurd hk List.not_mem_nil
  | cons k' keys ih =>
      rw [novel] at hk
      intro hmem
      split_ifs at hk with h
      · rcases List.mem_cons.1 hk with rfl | hk
        · exact (S.fst_iff s k).1 h hmem
        · exact ih hk (S.mem_mono s k' k hmem)
      · exact ih hk (S.mem_mono s k' k hmem)

/-- A key is taken for a new one at most once. -/
theorem nodup_novel (s : σ) (keys : List κ) : (S.novel s keys).Nodup := by
  induction keys generalizing s with
  | nil => exact List.nodup_nil
  | cons k keys ih =>
      rw [novel]
      split_ifs with h
      · exact List.nodup_cons.2
          ⟨fun hk => S.not_mem_of_mem_novel hk (S.mem_self s k), ih _⟩
      · exact ih _

/-- In a record of calls with their right answers, the keys with the answer `true`. -/
lemma map_filter_eq_novel {ρ : Type} {key : ρ → κ} {verdict : ρ → Bool} {l : List ρ} {s : σ}
    (h : l.map verdict = S.verdicts s (l.map key)) :
    (l.filter verdict).map key = S.novel s (l.map key) := by
  induction l generalizing s with
  | nil => rfl
  | cons r l ih =>
      simp only [List.map_cons, verdicts, List.cons.injEq] at h
      rw [List.map_cons, novel, List.filter_cons, ← h.1, ← ih h.2]
      cases verdict r <;> rfl

/-- So there are at most as many new keys as different ones. -/
theorem count_verdicts_le [DecidableEq κ] (s : σ) (keys : List κ) :
    (S.verdicts s keys).count true ≤ keys.toFinset.card := by
  rw [S.count_verdicts, ← List.toFinset_card_of_nodup (S.nodup_novel s keys)]
  refine Finset.card_le_card fun k hk => ?_
  rw [List.mem_toFinset] at hk ⊢
  exact (S.novel_sublist s keys).subset hk

end SeenSet

/-! ### First occurrences -/

section FirstByKey

variable {κ α : Type} [DecidableEq κ]

/-- The pairs whose key has not occurred before. -/
def firstByKey : List (κ × α) → List (κ × α)
  | [] => []
  | a :: l => a :: (firstByKey l).filter (·.1 ≠ a.1)

lemma firstByKey_sublist (l : List (κ × α)) : (firstByKey l).Sublist l := by
  induction l with
  | nil => exact List.Sublist.refl _
  | cons a l ih => exact (List.filter_sublist.trans ih).cons_cons a

/-- The pairs that are left are those before which the key does not occur. -/
lemma mem_firstByKey_iff {l : List (κ × α)} {a : κ × α} :
    a ∈ firstByKey l ↔ ∃ l₁ l₂, l = l₁ ++ a :: l₂ ∧ a.1 ∉ l₁.map Prod.fst := by
  induction l with
  | nil => simp [firstByKey]
  | cons b l ih =>
      rw [firstByKey, List.mem_cons, List.mem_filter, ih]
      constructor
      · rintro (rfl | ⟨⟨l₁, l₂, rfl, hnew⟩, hne⟩)
        · exact ⟨[], l, rfl, List.not_mem_nil⟩
        · refine ⟨b :: l₁, l₂, rfl, ?_⟩
          rw [List.map_cons, List.mem_cons, not_or]
          exact ⟨of_decide_eq_true hne, hnew⟩
      · rintro ⟨l₁, l₂, heq, hnew⟩
        cases l₁ with
        | nil => exact Or.inl (List.cons.inj heq).1.symm
        | cons b' l₁ =>
            obtain ⟨rfl, rfl⟩ := List.cons.inj heq
            rw [List.map_cons, List.mem_cons, not_or] at hnew
            exact Or.inr ⟨⟨l₁, l₂, rfl, hnew.2⟩, decide_eq_true hnew.1⟩

lemma nodup_keys_firstByKey (l : List (κ × α)) : ((firstByKey l).map Prod.fst).Nodup := by
  induction l with
  | nil => exact List.nodup_nil
  | cons a l ih =>
      rw [firstByKey, List.map_cons, List.nodup_cons]
      refine ⟨?_, (List.filter_sublist.map _).nodup ih⟩
      simp [List.mem_map, List.mem_filter]

/-- One more pair at the end. -/
lemma firstByKey_append_singleton (l : List (κ × α)) (a : κ × α) :
    firstByKey (l ++ [a]) =
      if a.1 ∈ l.map Prod.fst then firstByKey l else firstByKey l ++ [a] := by
  induction l with
  | nil => rfl
  | cons b l ih =>
      rw [List.cons_append, firstByKey, ih, firstByKey, List.map_cons]
      by_cases hmem : a.1 ∈ l.map Prod.fst
      · rw [if_pos hmem, if_pos (List.mem_cons_of_mem _ hmem)]
      · by_cases hself : a.1 = b.1
        · rw [if_neg hmem, if_pos (hself ▸ List.mem_cons_self), List.filter_append]
          simp [hself]
        · rw [if_neg hmem, if_neg (by simpa [hself] using hmem), List.filter_append]
          simp [hself]

end FirstByKey

end WebCrawler.Lib
