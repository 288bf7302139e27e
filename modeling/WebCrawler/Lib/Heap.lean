import WebCrawler.Lib.Comparing
import Mathlib.Data.List.Perm.Basic

/-!
# Binary heaps

Python's `heapq` module: a heap is a list in which the element at `i` has its children at
`2 * i + 1` and `2 * i + 2`, and no element is less than its parent.  `heappush` sifts the new
element down towards the root.  `heappop` moves the last element to the root: the smaller
children move up until a leaf is free, and the element is sifted down from there.

The functions ask for `<` only.  For a test that compares keys in a linear order, ties of keys
permitted, the heap order is kept, the elements are kept, and what is popped has a least key
(`heappush_spec`, `heappop_spec`).
-/

namespace WebCrawler.Lib

open Comparing

variable {α : Type}

/-! ### The functions -/

/-- `_siftdown`: the parents move down from `pos` until the new item fits. -/
def siftDown : ℕ → List α → α → ℕ → Comparing α (List α)
  | 0, heap, newitem, pos => pure (heap.set pos newitem)
  | fuel + 1, heap, newitem, pos =>
      if pos = 0 then pure (heap.set pos newitem)
      else
        match heap[(pos - 1) / 2]? with
        | none => pure (heap.set pos newitem)
        | some parent => do
            if ← less newitem parent then
              siftDown fuel (heap.set pos parent) newitem ((pos - 1) / 2)
            else pure (heap.set pos newitem)

/-- The first loop of `_siftup`: the smaller child moves up until `pos` has no child. -/
def bubbleUp : ℕ → List α → ℕ → Comparing α (List α × ℕ)
  | 0, heap, pos => pure (heap, pos)
  | fuel + 1, heap, pos =>
      match heap[2 * pos + 1]?, heap[2 * pos + 2]? with
      | none, _ => pure (heap, pos)
      | some left, none => bubbleUp fuel (heap.set pos left) (2 * pos + 1)
      | some left, some right => do
          if ← less left right then bubbleUp fuel (heap.set pos left) (2 * pos + 1)
          else bubbleUp fuel (heap.set pos right) (2 * pos + 2)

/-- `_siftup(heap, 0)` for a new item at the root. -/
def siftUp (heap : List α) (newitem : α) : Comparing α (List α) := do
  let (heap, pos) ← bubbleUp heap.length heap 0
  siftDown pos heap newitem pos

/-- `heapq.heappush`. -/
def heappush (heap : List α) (item : α) : Comparing α (List α) :=
  siftDown heap.length (heap ++ [item]) item heap.length

/-- `heapq.heappop`; an empty heap has nothing to pop. -/
def heappop (heap : List α) : Comparing α (Option (α × List α)) :=
  match heap.getLast?, heap.dropLast with
  | none, _ => pure none
  | some lastelt, [] => pure (some (lastelt, []))
  | some lastelt, returnitem :: rest => do
      let heap ← siftUp (returnitem :: rest) lastelt
      pure (some (returnitem, heap))

/-- The loop that pops while the root is `due`: what was popped, and the heap that is left. -/
def popWhile (due : α → Bool) : ℕ → List α → Comparing α (List α × List α)
  | 0, heap => pure ([], heap)
  | _, [] => pure ([], [])
  | fuel + 1, head :: rest =>
      if due head then do
        match ← heappop (head :: rest) with
        | none => pure ([], head :: rest)
        | some (item, heap) =>
            let (popped, heap) ← popWhile due fuel heap
            pure (item :: popped, heap)
      else pure ([], head :: rest)

/-! ### The order of a heap -/

section Order

variable {K : Type*} [LinearOrder K] (key : α → K)

/-- The test that compares keys. -/
def byKey (x y : α) : Bool := decide (key x < key y)

variable {key} in
lemma byKey_of_lt {x y : α} (h : key x < key y) : byKey key x y = true := decide_eq_true h

variable {key} in
lemma byKey_of_le {x y : α} (h : key y ≤ key x) : ¬ byKey key x y = true :=
  fun hlt => not_lt.2 h (of_decide_eq_true hlt)

/-- The element at `i` has no larger key than the one at `j`. -/
def Below (l : List α) (i j : ℕ) : Prop := ∀ x ∈ l[i]?, ∀ y ∈ l[j]?, key x ≤ key y

/-- No element has a smaller key than its parent. -/
def IsHeap (l : List α) : Prop := ∀ i, 0 < i → Below key l ((i - 1) / 2) i

/-- The same, but for the element at `pos`, which is still to be set. -/
structure HeapHole (l : List α) (pos : ℕ) : Prop where
  lt_length : pos < l.length
  off : ∀ i, 0 < i → i ≠ pos → (i - 1) / 2 ≠ pos → Below key l ((i - 1) / 2) i
  /-- The children of `pos` are not below its parent. -/
  across : 0 < pos → ∀ i, 0 < i → (i - 1) / 2 = pos → Below key l ((pos - 1) / 2) i

variable {key} {l : List α} {pos i j : ℕ} {x y : α}

lemma Below.trans (h : Below key l i j) (hx : l[j]? = some x) (hxy : key x ≤ key y) :
    ∀ z ∈ l[i]?, key z ≤ key y :=
  fun z hz => (h z hz x hx).trans hxy

/-- The elements that were not set. -/
lemma below_set_of_ne (hi : i ≠ pos) (hj : j ≠ pos) :
    Below key (l.set pos x) i j ↔ Below key l i j := by
  rw [Below, Below, List.getElem?_set_ne (Ne.symm hi), List.getElem?_set_ne (Ne.symm hj)]

lemma below_set_left (hpos : pos < l.length) (hj : j ≠ pos) :
    Below key (l.set pos x) pos j ↔ ∀ y ∈ l[j]?, key x ≤ key y := by
  rw [Below, List.getElem?_set_self hpos, List.getElem?_set_ne (Ne.symm hj)]
  simp

lemma below_set_right (hpos : pos < l.length) (hi : i ≠ pos) :
    Below key (l.set pos x) i pos ↔ ∀ y ∈ l[i]?, key y ≤ key x := by
  rw [Below, List.getElem?_set_self hpos, List.getElem?_set_ne (Ne.symm hi)]
  simp

/-- An item fits if it lies between the parent and the children. -/
lemma HeapHole.isHeap_set (h : HeapHole key l pos)
    (hparent : 0 < pos → ∀ y ∈ l[(pos - 1) / 2]?, key y ≤ key x)
    (hchildren : ∀ i, 0 < i → (i - 1) / 2 = pos → ∀ y ∈ l[i]?, key x ≤ key y) :
    IsHeap key (l.set pos x) := by
  intro i hi
  by_cases hself : i = pos
  · subst hself
    exact (below_set_right h.lt_length (by omega)).2 (hparent hi)
  · by_cases hchild : (i - 1) / 2 = pos
    · rw [hchild]
      exact (below_set_left h.lt_length hself).2 (hchildren i hi hchild)
    · exact (below_set_of_ne hchild hself).2 (h.off i hi hself hchild)

/-- The parent moves down. -/
lemma HeapHole.down (h : HeapHole key l pos) (hpos : 0 < pos) {parent : α}
    (hparent : l[(pos - 1) / 2]? = some parent) :
    HeapHole key (l.set pos parent) ((pos - 1) / 2) where
  lt_length := by
    have := h.lt_length
    rw [List.length_set]
    omega
  off i hi hne hchild := by
    by_cases hself : i = pos
    · exact absurd (by rw [hself]) hchild
    · by_cases hgrand : (i - 1) / 2 = pos
      · rw [hgrand, below_set_left h.lt_length hself]
        exact h.across hpos i hi hgrand parent hparent
      · exact (below_set_of_ne hgrand hself).2 (h.off i hi hself hgrand)
  across hup i hi hchild := by
    have hroot : Below key l (((pos - 1) / 2 - 1) / 2) ((pos - 1) / 2) :=
      h.off _ hup (by omega) (by omega)
    by_cases hself : i = pos
    · rw [hself, below_set_right h.lt_length (by omega)]
      exact hroot.trans hparent le_rfl
    · rw [below_set_of_ne (by omega) hself]
      intro z hz y hy
      have hsibling := h.off i hi hself (by omega)
      rw [hchild] at hsibling
      exact (hroot z hz parent hparent).trans (hsibling parent hparent y hy)

/-- A child that is not above the other one moves up. -/
lemma HeapHole.up (h : HeapHole key l pos) {c : ℕ} {child : α} (hc : 0 < c)
    (hparent : (c - 1) / 2 = pos) (hchild : l[c]? = some child)
    (hleast : ∀ i, 0 < i → (i - 1) / 2 = pos → ∀ y ∈ l[i]?, key child ≤ key y) :
    HeapHole key (l.set pos child) c where
  lt_length := by
    rw [List.length_set]
    exact (List.getElem?_eq_some_iff.1 hchild).1
  off i hi hne hgrand := by
    by_cases hself : i = pos
    · subst hself
      rw [below_set_right h.lt_length (by omega)]
      exact fun z hz => h.across hi c hc hparent z hz child hchild
    · by_cases hsibling : (i - 1) / 2 = pos
      · rw [hsibling, below_set_left h.lt_length hself]
        exact hleast i hi hsibling
      · exact (below_set_of_ne hsibling hself).2 (h.off i hi hself hsibling)
  across _ i hi hgrand := by
    rw [hparent, below_set_left h.lt_length (by omega)]
    intro y hy
    have hedge := h.off i hi (by omega) (by omega)
    rw [hgrand] at hedge
    exact hedge child hchild y hy

/-- The root has a least key. -/
lemma IsHeap.root_le (h : IsHeap key l) (i : ℕ) : Below key l 0 i := by
  induction i using Nat.strong_induction_on with
  | _ i ih =>
      intro x hx y hy
      by_cases hi : i = 0
      · subst hi
        rw [Option.mem_unique hx hy]
      · have hlen : (i - 1) / 2 < l.length := by
          have := (List.getElem?_eq_some_iff.1 hy).1
          omega
        have hparent := List.getElem?_eq_getElem hlen
        exact (ih _ (by omega) x hx _ hparent).trans (h i (by omega) _ hparent y hy)

lemma IsHeap.head_le {l : List α} (h : IsHeap key (x :: l)) (hy : y ∈ x :: l) :
    key x ≤ key y := by
  obtain ⟨i, hi⟩ := List.mem_iff_getElem?.1 hy
  exact h.root_le i x rfl y hi

/-! ### What the functions do -/

/-- An element that moves leaves its place to the new one. -/
lemma set_set_perm_set (hpos : pos < l.length) (hne : j ≠ pos) (hj : l[j]? = some y) :
    ((l.set pos y).set j x).Perm (l.set pos x) := by
  obtain ⟨hlen, rfl⟩ := List.getElem?_eq_some_iff.1 hj
  have hswap := List.set_set_perm (show pos < (l.set pos x).length by simpa)
    (show j < (l.set pos x).length by simpa)
  rwa [List.getElem_set_ne (Ne.symm hne), List.getElem_set_self, List.set_set] at hswap

/-- An item that is above nothing stays. -/
lemma siftDown_eq_set {lt : α → α → Bool} (h : ∀ y ∈ l, ¬ lt x y = true) (fuel : ℕ) :
    (siftDown fuel l x pos).run lt = l.set pos x := by
  cases fuel with
  | zero => rfl
  | succ fuel =>
      rw [siftDown]
      by_cases hpos : pos = 0
      · rw [if_pos hpos]
        rfl
      · rw [if_neg hpos]
        cases hparent : l[(pos - 1) / 2]? with
        | none => rfl
        | some parent =>
            simp only [run_ite_less]
            rw [if_neg (h parent (List.mem_of_getElem? hparent))]
            rfl

lemma siftDown_spec (fuel : ℕ) (hfuel : pos ≤ fuel) (h : HeapHole key l pos)
    (hchildren : ∀ i, 0 < i → (i - 1) / 2 = pos → ∀ y ∈ l[i]?, key x ≤ key y) :
    IsHeap key ((siftDown fuel l x pos).run (byKey key)) ∧
      ((siftDown fuel l x pos).run (byKey key)).Perm (l.set pos x) := by
  induction fuel generalizing l pos with
  | zero =>
      have hpos : ¬ 0 < pos := by omega
      exact ⟨h.isHeap_set (fun hup => absurd hup hpos) hchildren, .rfl⟩
  | succ fuel ih =>
      rw [siftDown]
      by_cases hpos : pos = 0
      · rw [if_pos hpos]
        exact ⟨h.isHeap_set (fun hup => absurd hpos hup.ne') hchildren, .rfl⟩
      · have hlen := h.lt_length
        have hparent := List.getElem?_eq_getElem (l := l) (show (pos - 1) / 2 < l.length by omega)
        rw [if_neg hpos, hparent]
        simp only [run_ite_less]
        by_cases hlt : key x < key l[(pos - 1) / 2]
        · -- the parent moves down, and is not above the children of the new place
          rw [if_pos (byKey_of_lt hlt)]
          have hbelow : ∀ i, 0 < i → (i - 1) / 2 = (pos - 1) / 2 →
              ∀ y ∈ (l.set pos l[(pos - 1) / 2])[i]?, key x ≤ key y := by
            intro i hi hchild y hy
            by_cases hself : i = pos
            · rw [hself, List.getElem?_set_self hlen] at hy
              exact (Option.some.inj hy) ▸ hlt.le
            · rw [List.getElem?_set_ne (Ne.symm hself)] at hy
              have hsibling := h.off i hi hself (by omega)
              rw [hchild] at hsibling
              exact hlt.le.trans (hsibling _ hparent y hy)
          obtain ⟨hheap, hperm⟩ := ih (by omega) (h.down (by omega) hparent) hbelow
          exact ⟨hheap, hperm.trans (set_set_perm_set hlen (by omega) hparent)⟩
        · rw [if_neg (byKey_of_le (not_lt.1 hlt))]
          refine ⟨h.isHeap_set (fun _ y hy => ?_) hchildren, .rfl⟩
          rw [hparent] at hy
          exact (Option.some.inj hy) ▸ not_lt.1 hlt

/-- The loop comes to a place without children. -/
lemma bubbleUp_spec (fuel : ℕ) (hfuel : l.length ≤ pos + fuel) (h : HeapHole key l pos) :
    let r := (bubbleUp fuel l pos).run (byKey key)
    HeapHole key r.1 r.2 ∧ r.1.length = l.length ∧
      (∀ i, 0 < i → (i - 1) / 2 = r.2 → r.1[i]? = none) ∧
      ∀ x, (r.1.set r.2 x).Perm (l.set pos x) := by
  induction fuel generalizing l pos with
  | zero =>
      have := h.lt_length
      omega
  | succ fuel ih =>
      have hlen := h.lt_length
      -- one more round, from a child that moves up
      have hround : ∀ (c : ℕ) (child : α), 0 < c → (c - 1) / 2 = pos → l[c]? = some child →
          (∀ i, 0 < i → (i - 1) / 2 = pos → ∀ y ∈ l[i]?, key child ≤ key y) →
          let r := (bubbleUp fuel (l.set pos child) c).run (byKey key)
          HeapHole key r.1 r.2 ∧ r.1.length = l.length ∧
            (∀ i, 0 < i → (i - 1) / 2 = r.2 → r.1[i]? = none) ∧
            ∀ x, (r.1.set r.2 x).Perm (l.set pos x) := by
        intro c child hc hparent hchild hleast
        obtain ⟨hhole, hlength, hleaf, hperm⟩ :=
          ih (by rw [List.length_set]; omega) (h.up hc hparent hchild hleast)
        exact ⟨hhole, hlength.trans List.length_set, hleaf, fun x =>
          (hperm x).trans (set_set_perm_set hlen (by omega) hchild)⟩
      rw [bubbleUp]
      cases hleft : l[2 * pos + 1]? with
      | none =>
          refine ⟨h, rfl, fun i hi hchild => ?_, fun x => .rfl⟩
          show l[i]? = none
          replace hchild : (i - 1) / 2 = pos := hchild
          rw [List.getElem?_eq_none_iff] at hleft ⊢
          omega
      | some left =>
          cases hright : l[2 * pos + 2]? with
          | none =>
              refine hround _ left (by omega) (by omega) hleft fun i hi hchild y hy => ?_
              obtain rfl | rfl : i = 2 * pos + 1 ∨ i = 2 * pos + 2 := by omega
              · exact (Option.mem_unique hleft hy) ▸ le_rfl
              · rw [hright] at hy
                cases hy
          | some right =>
              simp only [run_ite_less]
              by_cases hlt : key left < key right
              · rw [if_pos (byKey_of_lt hlt)]
                refine hround _ left (by omega) (by omega) hleft fun i hi hchild y hy => ?_
                obtain rfl | rfl : i = 2 * pos + 1 ∨ i = 2 * pos + 2 := by omega
                · exact (Option.mem_unique hleft hy) ▸ le_rfl
                · exact (Option.mem_unique hright hy) ▸ hlt.le
              · rw [if_neg (byKey_of_le (not_lt.1 hlt))]
                refine hround _ right (by omega) (by omega) hright fun i hi hchild y hy => ?_
                obtain rfl | rfl : i = 2 * pos + 1 ∨ i = 2 * pos + 2 := by omega
                · exact (Option.mem_unique hleft hy) ▸ not_lt.1 hlt
                · exact (Option.mem_unique hright hy) ▸ le_rfl

lemma siftUp_spec (h : IsHeap key (x :: l)) :
    IsHeap key ((siftUp (x :: l) y).run (byKey key)) ∧
      ((siftUp (x :: l) y).run (byKey key)).Perm (y :: l) := by
  have hhole : HeapHole key (x :: l) 0 :=
    ⟨Nat.succ_pos _, fun i hi _ _ => h i hi, fun hpos => absurd hpos (lt_irrefl 0)⟩
  obtain ⟨hhole', -, hleaf, hperm⟩ := bubbleUp_spec (x :: l).length (by omega) hhole
  simp only [siftUp, run_bind]
  obtain ⟨hheap, hperm'⟩ := siftDown_spec (x := y) _ le_rfl hhole' fun i hi hchild z hz => by
    rw [hleaf i hi hchild] at hz
    cases hz
  exact ⟨hheap, hperm'.trans (hperm y)⟩

/-- **A push** keeps the order and adds the item. -/
theorem heappush_spec (h : IsHeap key l) (item : α) :
    IsHeap key ((heappush l item).run (byKey key)) ∧
      ((heappush l item).run (byKey key)).Perm (item :: l) := by
  have hnone : ∀ i, 0 < i → (i - 1) / 2 = l.length → (l ++ [item])[i]? = none := by
    intro i hi hchild
    rw [List.getElem?_eq_none_iff, List.length_append, List.length_singleton]
    omega
  have hhole : HeapHole key (l ++ [item]) l.length := by
    refine ⟨by simp, fun i hi hne _ => ?_, fun _ i hi hchild y hy z hz => ?_⟩
    · intro y hy z hz
      have hlen : i < (l ++ [item]).length := (List.getElem?_eq_some_iff.1 hz).1
      rw [List.length_append, List.length_singleton] at hlen
      rw [List.getElem?_append_left (by omega)] at hy hz
      exact h i hi y hy z hz
    · rw [hnone i hi hchild] at hz
      cases hz
  obtain ⟨hheap, hperm⟩ := siftDown_spec l.length le_rfl hhole fun i hi hchild z hz => by
    rw [hnone i hi hchild] at hz
    cases hz
  refine ⟨hheap, hperm.trans ?_⟩
  rw [List.set_append_right _ _ le_rfl, Nat.sub_self]
  exact List.perm_append_singleton item l

lemma heappop_concat (lt : α → α → Bool) (x : α) (l : List α) (last : α) :
    (heappop (x :: (l ++ [last]))).run lt = some (x, (siftUp (x :: l) last).run lt) := by
  rw [heappop, ← List.cons_append, List.getLast?_concat, List.dropLast_concat]
  simp only [run_bind, run_pure]

/-- **A pop** gives an element with a least key, and keeps the order and the others. -/
theorem heappop_spec (h : IsHeap key (x :: l)) :
    ∃ heap, (heappop (x :: l)).run (byKey key) = some (x, heap) ∧ IsHeap key heap ∧
      heap.Perm l ∧ ∀ y ∈ l, key x ≤ key y := by
  have hleast : ∀ y ∈ l, key x ≤ key y := fun y hy => h.head_le (List.mem_cons_of_mem _ hy)
  rcases List.eq_nil_or_concat l with rfl | ⟨rest, last, rfl⟩
  · exact ⟨[], rfl, fun i _ y hy => by simp at hy, .rfl, hleast⟩
  · have hfront : IsHeap key (x :: rest) := by
      intro i hi y hy z hz
      have hlen : i < (x :: rest).length := (List.getElem?_eq_some_iff.1 hz).1
      refine h i hi y ?_ z ?_
      · rw [List.concat_eq_append, ← List.cons_append, List.getElem?_append_left (by omega)]
        exact hy
      · rw [List.concat_eq_append, ← List.cons_append, List.getElem?_append_left hlen]
        exact hz
    obtain ⟨hheap, hperm⟩ := siftUp_spec (y := last) hfront
    refine ⟨(siftUp (x :: rest) last).run (byKey key), ?_, hheap, ?_, hleast⟩
    · rw [List.concat_eq_append, heappop_concat]
    · rw [List.concat_eq_append]
      exact hperm.trans (List.perm_append_singleton last rest).symm

/-- **The loop** pops in the order of the keys, until the root is not due. -/
theorem popWhile_spec (due : α → Bool) (fuel : ℕ) (hfuel : l.length ≤ fuel) (h : IsHeap key l) :
    let r := (popWhile due fuel l).run (byKey key)
    IsHeap key r.2 ∧ (r.1 ++ r.2).Perm l ∧ r.1.Pairwise (fun a b => key a ≤ key b) ∧
      (∀ x ∈ r.1, due x = true) ∧ ∀ x ∈ r.2.head?, due x = false := by
  induction fuel generalizing l with
  | zero =>
      obtain rfl := List.length_eq_zero_iff.1 (Nat.le_zero.1 hfuel)
      exact ⟨h, .rfl, .nil, by simp [popWhile], by simp [popWhile]⟩
  | succ fuel ih =>
      cases l with
      | nil => exact ⟨h, .rfl, .nil, by simp [popWhile], by simp [popWhile]⟩
      | cons head rest =>
          rw [popWhile]
          by_cases hdue : due head = true
          · obtain ⟨heap, hpop, hheap, hperm, hleast⟩ := heappop_spec h
            obtain ⟨hheap', hperm', hsorted, hall, hroot⟩ :=
              ih (by rw [hperm.length_eq]; exact Nat.le_of_succ_le_succ hfuel) hheap
            rw [if_pos hdue, run_bind, hpop]
            simp only [run_bind, run_pure]
            refine ⟨hheap', (hperm'.trans hperm).cons head, ?_, ?_, hroot⟩
            · refine List.pairwise_cons.2 ⟨fun x hx => hleast x ?_, hsorted⟩
              exact hperm.mem_iff.1 (hperm'.mem_iff.1 (List.mem_append_left _ hx))
            · exact List.forall_mem_cons.2 ⟨hdue, hall⟩
          · rw [if_neg hdue]
            exact ⟨h, .rfl, .nil, by simp, by simpa using hdue⟩

variable (key) in
/-- If everything is due then nothing is left. -/
lemma popWhile_of_forall (due : α → Bool) (hdue : ∀ x ∈ l, due x = true) (h : IsHeap key l) :
    let r := (popWhile due l.length l).run (byKey key)
    r.2 = [] ∧ r.1.Perm l ∧ r.1.Pairwise fun a b => key a ≤ key b := by
  intro r
  obtain ⟨-, hperm, hsorted, -, hroot⟩ := popWhile_spec due l.length le_rfl h
  have hnil : r.2 = [] := by
    cases hr : r.2 with
    | nil => rfl
    | cons x rest =>
        have hx : x ∈ r.2 := by
          rw [hr]
          exact List.mem_cons_self
        have htrue := hdue x (hperm.mem_iff.1 (List.mem_append_right _ hx))
        have hfalse := hroot x (Option.mem_def.2 (congrArg List.head? hr))
        rw [htrue] at hfalse
        exact absurd hfalse (by simp)
  refine ⟨hnil, ?_, hsorted⟩
  have hall : (r.1 ++ r.2).Perm l := hperm
  rwa [hnil, List.append_nil] at hall

/-- Only the elements of the heap are tested. -/
lemma popWhile_congr {due due' : α → Bool} (fuel : ℕ) (h : IsHeap key l)
    (hdue : ∀ x ∈ l, due x = due' x) :
    (popWhile due fuel l).run (byKey key) = (popWhile due' fuel l).run (byKey key) := by
  induction fuel generalizing l with
  | zero => rfl
  | succ fuel ih =>
      cases l with
      | nil => rfl
      | cons head rest =>
          obtain ⟨heap, hpop, hheap, hperm, -⟩ := heappop_spec h
          have hrest := ih hheap fun x hx => hdue x (List.mem_cons_of_mem _ (hperm.mem_iff.1 hx))
          rw [popWhile, popWhile, hdue head List.mem_cons_self]
          cases due' head with
          | false => rfl
          | true =>
              rw [if_pos rfl, if_pos rfl, run_bind, run_bind, hpop]
              simp only [run_bind, hrest]

variable (key) in
/-- Items that come in order stay where they are pushed. -/
lemma heappush_of_le {item : α} (h : ∀ y ∈ l, key y ≤ key item) :
    (heappush l item).run (byKey key) = l ++ [item] := by
  rw [heappush, siftDown_eq_set, List.set_append_right _ _ le_rfl, Nat.sub_self]
  · rfl
  · intro y hy
    refine byKey_of_le ?_
    rcases List.mem_append.1 hy with hy | hy
    · exact h y hy
    · rw [List.mem_singleton.1 hy]

/-- A list in the order of the keys is a heap. -/
lemma isHeap_of_pairwise (h : l.Pairwise fun a b => key a ≤ key b) : IsHeap key l := by
  intro i hi x hx y hy
  obtain ⟨hlt, rfl⟩ := List.getElem?_eq_some_iff.1 hx
  obtain ⟨hlt', rfl⟩ := List.getElem?_eq_some_iff.1 hy
  exact List.pairwise_iff_getElem.1 h _ _ hlt hlt' (by omega)

end Order

/-! ### Ties

Of two children that are equal the right one moves up. -/

section Ties

variable {lt : α → α → Bool} {l : List α} {x y left right : α}

variable (lt) in
lemma bubbleUp_head (fuel : ℕ) {pos : ℕ} (hpos : 0 < pos) :
    let r := (bubbleUp fuel l pos).run lt
    0 < r.2 ∧ r.1.head? = l.head? ∧ ∀ z ∈ r.1, z ∈ l := by
  induction fuel generalizing l pos with
  | zero => exact ⟨hpos, rfl, fun z hz => hz⟩
  | succ fuel ih =>
      -- a child that moves up, below the root
      have hround : ∀ (c : ℕ) (child : α), 0 < c → l[c]? = some child →
          let r := (bubbleUp fuel (l.set pos child) c).run lt
          0 < r.2 ∧ r.1.head? = l.head? ∧ ∀ z ∈ r.1, z ∈ l := by
        intro c child hc hchild
        obtain ⟨hplace, hhead, hmem⟩ := ih (l := l.set pos child) hc
        refine ⟨hplace, hhead.trans ?_, fun z hz => ?_⟩
        · rw [List.head?_eq_getElem?, List.head?_eq_getElem?, List.getElem?_set_ne hpos.ne']
        · rcases List.mem_or_eq_of_mem_set (hmem z hz) with h | rfl
          · exact h
          · exact List.mem_of_getElem? hchild
      rw [bubbleUp]
      cases hleft : l[2 * pos + 1]? with
      | none => exact ⟨hpos, rfl, fun z hz => hz⟩
      | some left =>
          cases hright : l[2 * pos + 2]? with
          | none => exact hround _ left (Nat.succ_pos _) hleft
          | some right =>
              simp only [run_ite_less]
              by_cases hlt : lt left right = true
              · rw [if_pos hlt]
                exact hround _ left (Nat.succ_pos _) hleft
              · rw [if_neg hlt]
                exact hround _ right (Nat.succ_pos _) hright

/-- The new root, if the left child is not above the right one. -/
lemma siftUp_head (hlt : ¬ lt left right = true)
    (hlast : ∀ z ∈ left :: right :: l, ¬ lt y z = true) :
    ((siftUp (x :: left :: right :: l) y).run lt).head? = some right := by
  obtain ⟨hplace, hhead, hmem⟩ := bubbleUp_head lt (left :: right :: l).length
    (l := right :: left :: right :: l) (Nat.succ_pos 1)
  have hfirst : (bubbleUp (x :: left :: right :: l).length (x :: left :: right :: l) 0).run lt =
      (bubbleUp (left :: right :: l).length (right :: left :: right :: l) 2).run lt := by
    rw [List.length_cons, bubbleUp]
    change (do
      if ← less left right then
        bubbleUp (left :: right :: l).length (left :: left :: right :: l) 1
      else bubbleUp (left :: right :: l).length (right :: left :: right :: l) 2).run lt = _
    rw [run_ite_less, if_neg hlt]
  simp only [siftUp, run_bind]
  rw [hfirst, siftDown_eq_set, List.head?_eq_getElem?, List.getElem?_set_ne hplace.ne',
    ← List.head?_eq_getElem?, hhead]
  · rfl
  · intro z hz
    rcases List.mem_cons.1 (hmem z hz) with rfl | hz
    · exact hlast z (by simp)
    · exact hlast z hz

/-- The second item that is popped then. -/
lemma popWhile_second (hlt : ¬ lt left right = true)
    (hlast : ∀ z ∈ left :: right :: l, ¬ lt y z = true) (fuel : ℕ) :
    ∃ more, ((popWhile (fun _ => true) (fuel + 2) (x :: (left :: right :: l ++ [y]))).run lt).1 =
      x :: right :: more := by
  obtain ⟨heap, hheap⟩ := List.head?_eq_some_iff.1 (siftUp_head (x := x) hlt hlast)
  have hpop : ∃ heap', (heappop (right :: heap)).run lt = some (right, heap') := by
    rcases List.eq_nil_or_concat heap with rfl | ⟨rest, last, rfl⟩
    · exact ⟨[], rfl⟩
    · exact ⟨_, List.concat_eq_append ▸ heappop_concat lt right rest last⟩
  obtain ⟨heap', hpop⟩ := hpop
  refine ⟨((popWhile (fun _ => true) fuel heap').run lt).1, ?_⟩
  rw [popWhile, if_pos rfl, run_bind, heappop_concat, hheap]
  simp only [run_bind, run_pure]
  rw [popWhile, if_pos rfl, run_bind, hpop]
  simp only [run_bind, run_pure]

end Ties

/-! ### Renaming

The functions know the elements by the answers only, so that they commute with a map. -/

section Renaming

variable {β : Type} (f : α → β) (lt : β → β → Bool)

lemma siftDown_map (fuel : ℕ) (l : List α) (x : α) (pos : ℕ) :
    (siftDown fuel (l.map f) (f x) pos).run lt =
      ((siftDown fuel l x pos).run (Function.onFun lt f)).map f := by
  induction fuel generalizing l pos with
  | zero => exact List.map_set.symm
  | succ fuel ih =>
      rw [siftDown, siftDown, List.getElem?_map]
      by_cases hpos : pos = 0
      · rw [if_pos hpos, if_pos hpos]
        exact List.map_set.symm
      · rw [if_neg hpos, if_neg hpos]
        cases l[(pos - 1) / 2]? with
        | none => exact List.map_set.symm
        | some parent =>
            simp only [Option.map_some, run_ite_less, ← List.map_set]
            by_cases hlt : lt (f x) (f parent) = true
            · rw [if_pos hlt, if_pos (show Function.onFun lt f x parent = true from hlt)]
              exact ih _ _
            · rw [if_neg hlt, if_neg (show ¬ Function.onFun lt f x parent = true from hlt)]
              rfl

lemma bubbleUp_map (fuel : ℕ) (l : List α) (pos : ℕ) :
    (bubbleUp fuel (l.map f) pos).run lt =
      ((bubbleUp fuel l pos).run (Function.onFun lt f)).map (List.map f) id := by
  induction fuel generalizing l pos with
  | zero => rfl
  | succ fuel ih =>
      rw [bubbleUp, bubbleUp, List.getElem?_map, List.getElem?_map]
      cases l[2 * pos + 1]? with
      | none => rfl
      | some left =>
          cases l[2 * pos + 2]? with
          | none =>
              simp only [Option.map_some, Option.map_none, ← List.map_set]
              exact ih _ _
          | some right =>
              simp only [Option.map_some, run_ite_less, ← List.map_set]
              by_cases hlt : lt (f left) (f right) = true
              · rw [if_pos hlt, if_pos (show Function.onFun lt f left right = true from hlt)]
                exact ih _ _
              · rw [if_neg hlt, if_neg (show ¬ Function.onFun lt f left right = true from hlt)]
                exact ih _ _

lemma siftUp_map (l : List α) (x : α) :
    (siftUp (l.map f) (f x)).run lt = ((siftUp l x).run (Function.onFun lt f)).map f := by
  simp only [siftUp, run_bind, bubbleUp_map, List.length_map, Prod.map_fst, Prod.map_snd, id,
    siftDown_map]

lemma heappop_map (l : List α) :
    (heappop (l.map f)).run lt =
      ((heappop l).run (Function.onFun lt f)).map (Prod.map f (List.map f)) := by
  rw [heappop, heappop, List.getLast?_map, ← List.map_dropLast]
  cases l.getLast? with
  | none => rfl
  | some last =>
      cases l.dropLast with
      | nil => rfl
      | cons x rest =>
          have hsift := siftUp_map f lt (x :: rest) last
          simp only [Option.map_some, List.map_cons, run_bind, run_pure] at hsift ⊢
          rw [hsift]
          rfl

/-- **The loop commutes with a map.** -/
theorem popWhile_map (due : β → Bool) (fuel : ℕ) (l : List α) :
    (popWhile due fuel (l.map f)).run lt =
      ((popWhile (fun x => due (f x)) fuel l).run (Function.onFun lt f)).map
        (List.map f) (List.map f) := by
  induction fuel generalizing l with
  | zero => rfl
  | succ fuel ih =>
      cases l with
      | nil => rfl
      | cons x rest =>
          have hpop := heappop_map f lt (x :: rest)
          rw [List.map_cons] at hpop ⊢
          rw [popWhile, popWhile]
          cases hdue : due (f x) with
          | false => rfl
          | true =>
              rw [if_pos rfl, if_pos rfl, run_bind, run_bind, hpop]
              cases (heappop (x :: rest)).run (Function.onFun lt f) with
              | none => rfl
              | some popped =>
                  simp only [Option.map_some, Prod.map, run_bind, ih, run_pure]
                  rfl

end Renaming

end WebCrawler.Lib
