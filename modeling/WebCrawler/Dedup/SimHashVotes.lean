import WebCrawler.Dedup.SimHash
import Mathlib.Algebra.Order.BigOperators.Group.Multiset

/-!
# What a SimHash depends on

The loops of `simhash_text` in closed form.  The entry of the vector for a bit is the sum of
the votes of the tokens, each as often as it occurs, and the fingerprint has the bits with a
positive sum (`testBit_simhashText`).

So the fingerprint is a function of the multiset of the tokens, and of their relative
frequencies only; and if few tokens are changed then a bit can only change if the votes for it
were close (`simhashText_locality`).
-/

namespace WebCrawler

/-! ### Sums over multisets -/

section Sums

variable {α : Type*} {f : α → ℤ}

/-- A sum of terms of size at most one. -/
lemma abs_sum_map_le_card (hf : ∀ x, |f x| ≤ 1) (s : Multiset α) : |(s.map f).sum| ≤ s.card := by
  induction s using Multiset.induction_on with
  | empty => simp
  | cons x s ih =>
      rw [Multiset.map_cons, Multiset.sum_cons, Multiset.card_cons, Nat.cast_succ, add_comm]
      exact (abs_add_le _ _).trans (add_le_add ih (hf x))

/-- **Changes of a multiset** change the sum by no more than one for each element. -/
lemma abs_sum_sub_sum_le [DecidableEq α] (hf : ∀ x, |f x| ≤ 1) (s t : Multiset α) :
    |(s.map f).sum - (t.map f).sum| ≤ ((s - t) + (t - s)).card := by
  have hs : (s.map f).sum = ((s - t).map f).sum + ((s ∩ t).map f).sum := by
    rw [← Multiset.sum_add, ← Multiset.map_add, Multiset.sub_add_inter]
  have ht : (t.map f).sum = ((t - s).map f).sum + ((s ∩ t).map f).sum := by
    rw [← Multiset.sum_add, ← Multiset.map_add, Multiset.inter_comm, Multiset.sub_add_inter]
  rw [hs, ht, add_sub_add_right_eq_sub, Multiset.card_add, Nat.cast_add]
  exact (abs_sub _ _).trans (add_le_add (abs_sum_map_le_card hf _) (abs_sum_map_le_card hf _))

end Sums

/-! ### The counter -/

lemma nodup_eraseDups (l : List String) : l.eraseDups.Nodup := by
  induction hn : l.length using Nat.strong_induction_on generalizing l with
  | _ n ih =>
      cases l with
      | nil => exact List.nodup_nil
      | cons x l =>
          rw [List.eraseDups_cons, List.nodup_cons]
          refine ⟨?_, ih _ ?_ _ rfl⟩
          · intro hx
            have := (List.mem_filter.1 (List.mem_eraseDups.1 hx)).2
            simp at this
          · have := List.length_filter_le (fun b => !b == x) l
            rw [List.length_cons] at hn
            omega

/-- A sum over the entries of a counter is one over the tokens. -/
lemma sum_counter (tokens : List String) (f : String → ℤ) :
    ((counter tokens).map fun entry => entry.2 * f entry.1).sum = (tokens.map f).sum := by
  have hset : tokens.eraseDups.toFinset = tokens.toFinset := by
    ext token
    rw [List.mem_toFinset, List.mem_toFinset, List.mem_eraseDups]
  calc ((counter tokens).map fun entry => entry.2 * f entry.1).sum
      = (tokens.eraseDups.map fun token => (tokens.count token : ℤ) * f token).sum := by
        rw [counter, List.map_map]
        rfl
    _ = ∑ token ∈ tokens.toFinset, (tokens.count token : ℤ) * f token := by
        rw [← List.sum_toFinset _ (nodup_eraseDups tokens), hset]
    _ = (tokens.map f).sum := by
        rw [Finset.sum_list_map_count]
        exact Finset.sum_congr rfl fun token _ => (nsmul_eq_mul _ _).symm

namespace Tokenizer

variable (T : Tokenizer)

/-- The vector after the votes of all tokens. -/
def voteTotals (tokens : List String) (bits : ℕ) : List ℤ :=
  (counter tokens).foldl T.vote (List.replicate bits 0)

/-- What one token votes for a bit. -/
def ballot (i : ℕ) (token : String) : ℤ := if (T.tokenHash token).testBit i then 1 else -1

variable {T}

lemma abs_ballot (i : ℕ) (token : String) : |T.ballot i token| ≤ 1 := by
  rw [ballot]
  split_ifs <;> norm_num

/-- One turn of the voting loop, at one bit. -/
lemma getElem?_vote (vector : List ℤ) (entry : String × ℕ) (i : ℕ) :
    (T.vote vector entry)[i]? = vector[i]?.map (· + entry.2 * T.ballot i entry.1) := by
  rw [vote, List.getElem?_mapIdx]
  refine congrArg (fun g => Option.map g vector[i]?) (funext ?_)
  intro x
  rw [ballot]
  split_ifs <;> ring

lemma getElem?_foldl_vote (entries : List (String × ℕ)) (vector : List ℤ) (i : ℕ) :
    (entries.foldl T.vote vector)[i]? =
      vector[i]?.map (· + (entries.map fun entry => entry.2 * T.ballot i entry.1).sum) := by
  induction entries generalizing vector with
  | nil => simp
  | cons entry entries ih =>
      rw [List.foldl_cons, ih, getElem?_vote, Option.map_map, List.map_cons, List.sum_cons]
      refine congrArg (fun g => Option.map g vector[i]?) (funext ?_)
      intro x
      rw [Function.comp_apply, add_assoc]

/-- **The total of a bit** is the sum of the votes. -/
lemma voteTotals_getD (tokens : List String) {bits i : ℕ} (hi : i < bits) :
    (T.voteTotals tokens bits).getD i 0 = ((tokens : Multiset String).map (T.ballot i)).sum := by
  rw [List.getD_eq_getElem?_getD, voteTotals, getElem?_foldl_vote, sum_counter,
    List.getElem?_replicate_of_lt hi, Multiset.map_coe, Multiset.sum_coe]
  exact zero_add _

/-- The loop that sets the bits. -/
lemma testBit_foldl_or (p : ℕ → Prop) [DecidablePred p] (bits i : ℕ) :
    ((List.range bits).foldl (fun n i => if p i then n ||| 1 <<< i else n) 0).testBit i =
      decide (i < bits ∧ p i) := by
  induction bits with
  | zero => simp
  | succ bits ih =>
      rw [List.range_succ, List.foldl_append, List.foldl_cons, List.foldl_nil]
      split_ifs with hp
      · rw [Nat.testBit_or, ih, Nat.one_shiftLeft, Nat.testBit_two_pow]
        by_cases hi : bits = i
        · subst hi
          simp [hp]
        · have hlt : i < bits ↔ i < bits + 1 := by omega
          simp [hi, hlt]
      · rw [ih, decide_eq_decide]
        refine and_congr_left fun hpi => ⟨fun hi => by omega, ?_⟩
        intro hi
        have : i ≠ bits := by
          rintro rfl
          exact hp hpi
        omega

/-- **The bits of a fingerprint** are those with more votes for them than against them. -/
lemma testBit_simhashText (text : String) (bits i : ℕ) :
    (T.simhashText text bits).testBit i =
      decide (i < bits ∧ 0 < ((T.tokens text : Multiset String).map (T.ballot i)).sum) := by
  rw [simhashText]
  by_cases hnil : T.tokens text = []
  · simp [hnil]
  · simp only [if_neg hnil, testBit_foldl_or, gt_iff_lt]
    refine decide_eq_decide.2 (and_congr_right ?_)
    intro hi
    rw [← voteTotals_getD (T.tokens text) hi]
    rfl

lemma voteTotals_getD_of_le (tokens : List String) {bits i : ℕ} (hi : bits ≤ i) :
    (T.voteTotals tokens bits).getD i 0 = 0 := by
  have hlength : ∀ (entries : List (String × ℕ)) (vector : List ℤ),
      (entries.foldl T.vote vector).length = vector.length := by
    intro entries
    induction entries with
    | nil => exact fun _ => rfl
    | cons entry entries ih =>
        intro vector
        rw [List.foldl_cons, ih, vote, List.length_mapIdx]
  have hend : (T.voteTotals tokens bits).length ≤ i := by
    rw [voteTotals, hlength, List.length_replicate]
    exact hi
  rw [List.getD_eq_getElem?_getD, List.getElem?_eq_none hend, Option.getD_none]

/-- A bit is set if its total is positive. -/
lemma testBit_eq_total (text : String) (bits i : ℕ) :
    (T.simhashText text bits).testBit i =
      decide (0 < (T.voteTotals (T.tokens text) bits).getD i 0) := by
  rw [testBit_simhashText, decide_eq_decide]
  rcases lt_or_ge i bits with hi | hi
  · rw [voteTotals_getD _ hi, and_iff_right hi]
  · rw [voteTotals_getD_of_le _ hi]
    omega

/-- **Small changes move few bits.**  A bit is set if its total is positive.  If the tokens of two
texts differ in `d` places then a bit in which the fingerprints differ had a total of at most `d`
in both; texts with the same tokens, in whatever order, have the same fingerprint. -/
theorem simhashText_locality (T : Tokenizer) (a b : String) (bits : ℕ) :
    let A : Multiset String := T.tokens a
    let B : Multiset String := T.tokens b
    let d : ℕ := ((A - B) + (B - A)).card
    (∀ text i, (T.simhashText text bits).testBit i =
      decide (0 < (T.voteTotals (T.tokens text) bits).getD i 0)) ∧
    (∀ i, (T.simhashText a bits).testBit i ≠ (T.simhashText b bits).testBit i →
      |(T.voteTotals (T.tokens a) bits).getD i 0| ≤ d ∧
        |(T.voteTotals (T.tokens b) bits).getD i 0| ≤ d) ∧
    (A = B → T.simhashText a bits = T.simhashText b bits) := by
  intro A B d
  refine ⟨fun text i => testBit_eq_total text bits i, ?_,
    fun heq => Nat.eq_of_testBit_eq ?_⟩
  · intro i hne
    rw [testBit_simhashText, testBit_simhashText, ne_eq, decide_eq_decide, and_congr_right_iff,
      Classical.not_imp] at hne
    obtain ⟨hi, hsign⟩ := hne
    rw [voteTotals_getD _ hi, voteTotals_getD _ hi]
    -- one total is positive and the other is not, and they are no further apart than `d`
    have hclose := abs_le.1 (abs_sum_sub_sum_le (abs_ballot (T := T) i) A B)
    rw [abs_le, abs_le]
    change ¬ (0 < (A.map (T.ballot i)).sum ↔ 0 < (B.map (T.ballot i)).sum) at hsign
    change (-(d : ℤ) ≤ (A.map (T.ballot i)).sum ∧ (A.map (T.ballot i)).sum ≤ d) ∧
      -(d : ℤ) ≤ (B.map (T.ballot i)).sum ∧ (B.map (T.ballot i)).sum ≤ d
    change -(d : ℤ) ≤ _ ∧ _ ≤ (d : ℤ) at hclose
    omega
  · intro i
    rw [testBit_simhashText, testBit_simhashText]
    exact congrArg (fun s : Multiset String => decide (i < bits ∧ 0 < (s.map (T.ballot i)).sum)) heq

/-- Two tokens of three vote for the lowest bit, and one for the next. -/
example : (⟨fun text => text.toList.map String.singleton,
    fun token => if token = "c" then 2 else 1⟩ : Tokenizer).simhashText "abc" 4 = 1 := by
  decide +kernel

/-- **Only the relative frequencies count**, and of them only for each bit the side that has more
votes. -/
theorem simhashText_frequencies (T : Tokenizer) (bits : ℕ) :
    (∀ (s t : String) (a b : ℕ), 0 < a → 0 < b →
      (∀ token, a * (T.tokens s).count token = b * (T.tokens t).count token) →
      T.simhashText s bits = T.simhashText t bits) ∧
    (∀ text i, (T.simhashText text bits).testBit i =
      decide (i < bits ∧ 0 < ((T.tokens text : Multiset String).map (T.ballot i)).sum)) ∧
    ∀ text, T.simhashText text bits < 2 ^ bits := by
  refine ⟨fun s t a b ha hb hcount => Nat.eq_of_testBit_eq ?_,
    fun text i => testBit_simhashText text bits i, ?_⟩
  · intro i
    have hscale : a • (T.tokens s : Multiset String) = b • (T.tokens t : Multiset String) := by
      ext token
      rw [Multiset.count_nsmul, Multiset.count_nsmul, Multiset.coe_count, Multiset.coe_count]
      exact hcount token
    have hsum := congrArg (fun u : Multiset String => (u.map (T.ballot i)).sum) hscale
    simp only [Multiset.map_nsmul, Multiset.sum_nsmul, nsmul_eq_mul] at hsum
    have hsign : 0 < ((T.tokens s : Multiset String).map (T.ballot i)).sum ↔
        0 < ((T.tokens t : Multiset String).map (T.ballot i)).sum := by
      rw [← mul_pos_iff_of_pos_left (Nat.cast_pos.2 ha), hsum,
        mul_pos_iff_of_pos_left (Nat.cast_pos.2 hb)]
    rw [testBit_simhashText, testBit_simhashText, decide_eq_decide, hsign]
  · intro text
    refine Nat.lt_pow_two_of_testBit _ ?_
    intro i hi
    rw [testBit_simhashText]
    exact decide_eq_false fun h => absurd h.1 (not_lt.2 hi)

end Tokenizer

end WebCrawler
