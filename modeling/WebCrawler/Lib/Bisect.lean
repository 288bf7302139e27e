import Mathlib.Tactic
import Mathlib.Data.List.TakeWhile

/-!
# Binary search in sorted lists

Python's `bisect` module.  Both searches look for the first element that fails a test
which holds exactly on an initial part of the list: `bisect_left` tests for elements
below the given one, `bisect_right` for elements not above it.  `bisect_eq` says what
the common loop returns; `insort` and the removal of an element found by `bisect_left`
are then an insertion into a sorted list and `List.erase`.

The last section is about the cyclic order: the next element of a set clockwise, which is
the first one above the given point, or the least one if there is none above.
-/

namespace WebCrawler.Lib

/-! ### The loop -/

section Loop

variable {α : Type*} (p : α → Bool) (l : List α)

/-- The loop `while lo < hi` with the test `p` on the middle element. -/
def bisectLoop : ℕ → ℕ → ℕ → ℕ
  | 0, lo, _ => lo
  | fuel + 1, lo, hi =>
      if lo < hi then
        let mid := (lo + hi) / 2
        match l[mid]? with
        | some v => if p v then bisectLoop fuel (mid + 1) hi else bisectLoop fuel lo mid
        | none => lo
      else lo

/-- The search in the whole list. -/
def bisect : ℕ := bisectLoop p l l.length 0 l.length

variable {p l}

/-- The test holds exactly on the elements before the index. -/
def Splits (p : α → Bool) (l : List α) (k : ℕ) : Prop :=
  ∀ i v, l[i]? = some v → (p v = true ↔ i < k)

/-- The index between the bounds that splits the list is found as soon as there is a turn
for each index between them. -/
lemma bisectLoop_eq {k : ℕ} (hk : Splits p l k) (fuel lo hi : ℕ) (hlo : lo ≤ k) (hhi : k ≤ hi)
    (hlen : hi ≤ l.length) (hfuel : hi - lo ≤ fuel) : bisectLoop p l fuel lo hi = k := by
  induction fuel generalizing lo hi with
  | zero =>
      rw [bisectLoop]
      omega
  | succ fuel ih =>
      rw [bisectLoop]
      split_ifs with hlt
      · have hmid : (lo + hi) / 2 < l.length := by omega
        have hiff := hk ((lo + hi) / 2) _ (List.getElem?_eq_getElem hmid)
        -- the half that does not hold the index is thrown away
        simp only [List.getElem?_eq_getElem hmid]
        split_ifs with hp
        · have : (lo + hi) / 2 < k := hiff.1 hp
          exact ih _ _ (by omega) hhi hlen (by omega)
        · have : ¬ (lo + hi) / 2 < k := mt hiff.2 hp
          exact ih _ _ hlo (by omega) (by omega) (by omega)
      · omega

/-- A test that fails on everything behind an element on which it fails splits the list
behind the initial part on which it holds. -/
lemma splits_length_takeWhile (h : l.Pairwise fun a b => p b = true → p a = true) :
    Splits p l (l.takeWhile p).length := by
  induction l with
  | nil =>
      intro i v hv
      simp at hv
  | cons a l ih =>
      obtain ⟨ha, hl⟩ := List.pairwise_cons.1 h
      intro i v hv
      cases hp : p a with
      | true =>
          rw [List.takeWhile_cons, if_pos hp, List.length_cons]
          cases i with
          | zero =>
              obtain rfl : a = v := by simpa using hv
              simp [hp]
          | succ i =>
              rw [ih hl i v (by simpa using hv)]
              omega
      | false =>
          have hnot : p v ≠ true := by
            cases i with
            | zero =>
                obtain rfl : a = v := by simpa using hv
                simp [hp]
            | succ i =>
                have hmem : v ∈ l := List.mem_of_getElem? (by simpa using hv)
                intro hpv
                rw [ha v hmem hpv] at hp
                exact Bool.noConfusion hp
          simp [hp, hnot]

/-- **What the search returns.** -/
theorem bisect_eq (h : l.Pairwise fun a b => p b = true → p a = true) :
    bisect p l = (l.takeWhile p).length := by
  refine bisectLoop_eq (splits_length_takeWhile h) _ _ _ (Nat.zero_le _) ?_ le_rfl (by omega)
  exact (List.takeWhile_sublist p).length_le

lemma getElem?_length_takeWhile (p : α → Bool) (l : List α) :
    l[(l.takeWhile p).length]? = (l.dropWhile p).head? := by
  induction l with
  | nil => rfl
  | cons a l ih =>
      cases hp : p a with
      | true => simp [hp, ih]
      | false => simp [hp]

lemma insertIdx_length_takeWhile (p : α → Bool) (l : List α) (x : α) :
    l.insertIdx (l.takeWhile p).length x = l.takeWhile p ++ x :: l.dropWhile p := by
  induction l with
  | nil => simp
  | cons a l ih =>
      cases hp : p a with
      | true => simp [hp, ih]
      | false => simp [hp]

end Loop

/-! ### Sorted lists -/

section Sorted

variable {α : Type*} [LinearOrder α] (l : List α) (x : α)

/-- `bisect.bisect_left(l, x)`. -/
def bisectLeft : ℕ := bisect (fun v => decide (v < x)) l

/-- `bisect.bisect(l, x)`, that is, `bisect.bisect_right(l, x)`. -/
def bisectRight : ℕ := bisect (fun v => !decide (x < v)) l

/-- `bisect.insort(l, x)`. -/
def insort : List α := l.insertIdx (bisectRight l x) x

variable {l x}

lemma bisectLeft_eq (hl : l.Pairwise (· ≤ ·)) :
    bisectLeft l x = (l.takeWhile fun v => decide (v < x)).length := by
  refine bisect_eq (hl.imp fun {a b} hab hb => ?_)
  exact decide_eq_true (lt_of_le_of_lt hab (of_decide_eq_true hb))

lemma bisectRight_eq (hl : l.Pairwise (· ≤ ·)) :
    bisectRight l x = (l.takeWhile fun v => !decide (x < v)).length := by
  refine bisect_eq (hl.imp fun {a b} hab hb => ?_)
  simp only [Bool.not_eq_true', decide_eq_false_iff_not, not_lt] at hb ⊢
  exact le_trans hab hb

/-- Inserting into a sorted list leaves a sorted list. -/
lemma pairwise_insort (hl : l.Pairwise (· ≤ ·)) : (insort l x).Pairwise (· ≤ ·) := by
  rw [insort, bisectRight_eq hl, insertIdx_length_takeWhile]
  have hbefore : ∀ a ∈ l.takeWhile fun v => !decide (x < v), a ≤ x := by
    intro a ha
    simpa using List.mem_takeWhile_imp ha
  have hafter : ∀ b ∈ l.dropWhile fun v => !decide (x < v), x ≤ b := by
    intro b hb
    have hsorted : (l.dropWhile fun v => !decide (x < v)).Pairwise (· ≤ ·) :=
      hl.sublist (List.dropWhile_sublist _)
    cases hdrop : l.dropWhile fun v => !decide (x < v) with
    | nil => exact absurd (hdrop ▸ hb) List.not_mem_nil
    | cons c rest =>
        have hc := List.head_dropWhile_not (fun v => !decide (x < v)) (l := l) (by simp [hdrop])
        simp only [hdrop, List.head_cons, Bool.not_eq_false', decide_eq_true_iff] at hc
        rw [hdrop] at hb hsorted
        rcases List.mem_cons.1 hb with rfl | hb
        · exact hc.le
        · exact hc.le.trans ((List.pairwise_cons.1 hsorted).1 b hb)
  have hsplit := hl
  rw [← List.takeWhile_append_dropWhile (p := fun v => !decide (x < v)) (l := l),
    List.pairwise_append] at hsplit
  refine List.pairwise_append.2 ⟨hsplit.1, List.pairwise_cons.2 ⟨hafter, hsplit.2.1⟩, ?_⟩
  intro a ha b hb
  rcases List.mem_cons.1 hb with rfl | hb
  · exact hbefore a ha
  · exact hsplit.2.2 a ha b hb

lemma count_insort (hl : l.Pairwise (· ≤ ·)) (y : α) :
    (insort l x).count y = l.count y + if x = y then 1 else 0 := by
  rw [insort, bisectRight_eq hl, insertIdx_length_takeWhile, List.count_append, List.count_cons]
  conv_rhs => rw [← List.takeWhile_append_dropWhile (p := fun v => !decide (x < v)) (l := l)]
  rw [List.count_append]
  simp only [beq_iff_eq]
  omega

variable (l x)

/-- The element is looked up with `bisect_left` and popped if it is there. -/
def popSorted : List α :=
  if l[bisectLeft l x]? = some x then l.eraseIdx (bisectLeft l x) else l

variable {l x}

/-- In a sorted list this removes one occurrence of the element. -/
lemma popSorted_eq (hl : l.Pairwise (· ≤ ·)) : popSorted l x = l.erase x := by
  rw [popSorted, bisectLeft_eq hl]
  induction l with
  | nil => simp
  | cons a l ih =>
      obtain ⟨ha, hl⟩ := List.pairwise_cons.1 hl
      by_cases hax : a < x
      · have hne : a ≠ x := hax.ne
        have htake : ((a :: l).takeWhile fun v => decide (v < x)).length =
            (l.takeWhile fun v => decide (v < x)).length + 1 := by
          simp [hax]
        rw [htake, List.getElem?_cons_succ, List.eraseIdx_cons_succ,
          List.erase_cons_tail (by simpa using hne), ← ih hl]
        split_ifs <;> rfl
      · have htake : ((a :: l).takeWhile fun v => decide (v < x)).length = 0 := by
          simp [hax]
        rw [htake, List.getElem?_cons_zero, List.eraseIdx_cons_zero]
        by_cases heq : a = x
        · rw [if_pos (congrArg some heq), heq, List.erase_cons_head]
        · -- everything in the list is above the element
          have hlt : x < a := lt_of_le_of_ne (not_lt.1 hax) (Ne.symm heq)
          have hnot : x ∉ a :: l := by
            intro hx
            rcases List.mem_cons.1 hx with rfl | hx
            · exact heq rfl
            · exact absurd (ha x hx) (not_le.2 hlt)
          rw [if_neg (by simpa using heq), List.erase_of_not_mem hnot]

end Sorted

/-! ### The cyclic order -/

section Clockwise

variable {α : Type*} [LinearOrder α] {S T : Set α} {h x y : α}

/-- The first element of the set strictly above the point, or the least element if there
is none above. -/
def IsNext (S : Set α) (h x : α) : Prop :=
  x ∈ S ∧ ((h < x ∧ ∀ y ∈ S, h < y → x ≤ y) ∨ ((∀ y ∈ S, y ≤ h) ∧ ∀ y ∈ S, x ≤ y))

/-- The next element is unique. -/
lemma IsNext.unique (hx : IsNext S h x) (hy : IsNext S h y) : x = y := by
  obtain ⟨hxS, ⟨hhx, hx⟩ | ⟨hall, hx⟩⟩ := hx
  · obtain ⟨hyS, ⟨hhy, hy⟩ | ⟨hall, -⟩⟩ := hy
    · exact le_antisymm (hx y hyS hhy) (hy x hxS hhx)
    · exact absurd hhx (not_lt.2 (hall x hxS))
  · obtain ⟨hyS, ⟨hhy, -⟩ | ⟨-, hy⟩⟩ := hy
    · exact absurd hhy (not_lt.2 (hall y hyS))
    · exact le_antisymm (hx y hyS) (hy x hxS)

/-- Points other than the next one may go. -/
lemma IsNext.subset (hx : IsNext S h x) (hTS : T ⊆ S) (hxT : x ∈ T) : IsNext T h x := by
  refine ⟨hxT, hx.2.imp ?_ ?_⟩
  · rintro ⟨hlt, hmin⟩
    exact ⟨hlt, fun y hy => hmin y (hTS hy)⟩
  · rintro ⟨hall, hmin⟩
    exact ⟨fun y hy => hall y (hTS hy), fun y hy => hmin y (hTS hy)⟩

/-- The element at the index that `bisect_right` returns, or the first one if that index is
behind the end, is the next one clockwise. -/
lemma isNext_bisectRight {l : List α} (hl : l.Pairwise (· ≤ ·)) (hne : l ≠ []) (h : α) :
    ∃ x, l[if bisectRight l h = l.length then 0 else bisectRight l h]? = some x ∧
      IsNext {y | y ∈ l} h x := by
  rw [bisectRight_eq hl]
  have hmem : ∀ y ∈ l, h < y → y ∈ l.dropWhile fun v => !decide (h < v) := by
    intro y hy hlt
    rw [← List.takeWhile_append_dropWhile (p := fun v => !decide (h < v)) (l := l),
      List.mem_append] at hy
    refine hy.resolve_left fun hbefore => ?_
    have : ¬ h < y := by simpa using List.mem_takeWhile_imp hbefore
    exact this hlt
  have hlen : l.length = (l.takeWhile fun v => !decide (h < v)).length +
      (l.dropWhile fun v => !decide (h < v)).length := by
    rw [← List.length_append, List.takeWhile_append_dropWhile]
  cases hdrop : l.dropWhile fun v => !decide (h < v) with
  | nil =>
      -- nothing is above: the first element is the least one
      rw [hdrop] at hlen hmem
      rw [if_pos (by simpa using hlen.symm)]
      cases l with
      | nil => exact absurd rfl hne
      | cons a l =>
          refine ⟨a, rfl, List.mem_cons_self, Or.inr ⟨fun y hy => ?_, fun y hy => ?_⟩⟩
          · by_contra hlt
            exact absurd (hmem y hy (not_le.1 hlt)) List.not_mem_nil
          · rcases List.mem_cons.1 hy with rfl | hy
            · exact le_rfl
            · exact (List.pairwise_cons.1 hl).1 y hy
  | cons c rest =>
      have hc := List.head_dropWhile_not (fun v => !decide (h < v)) (l := l) (by simp [hdrop])
      simp only [hdrop, List.head_cons, Bool.not_eq_false', decide_eq_true_iff] at hc
      have hsorted : (c :: rest).Pairwise (· ≤ ·) := hdrop ▸ hl.sublist (List.dropWhile_sublist _)
      rw [hdrop] at hlen hmem
      rw [if_neg (by simp only [List.length_cons] at hlen; omega)]
      have hget : l[(l.takeWhile fun v => !decide (h < v)).length]? = some c := by
        rw [getElem?_length_takeWhile, hdrop]
        rfl
      refine ⟨c, hget, List.mem_of_getElem? hget, Or.inl ⟨hc, fun y hy hlt => ?_⟩⟩
      rcases List.mem_cons.1 (hmem y hy hlt) with rfl | hy
      · exact le_rfl
      · exact (List.pairwise_cons.1 hsorted).1 y hy

end Clockwise

end WebCrawler.Lib
