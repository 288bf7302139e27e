import Mathlib.Tactic

/-!
# Dictionaries in insertion order, and recency

`OrderedDict` is a dictionary that remembers the order of its keys: a new key goes to the
end, a key that is assigned again keeps its place, and a key can be moved to the end.

For a list of accesses, `since k l` are the accesses after the last one to `k`.  The same
function reads the order of a dictionary: `since k d.keys` are the keys behind `k`.  A cache
that moves what it accesses to the end keeps the two related, and `mem_drop_iff` says which
keys survive when the front is cut off.
-/

namespace WebCrawler.Lib

variable {K V : Type*} [DecidableEq K]

/-! ### Recency -/

/-- The entries of a list after the last occurrence of `k`, the latest first. -/
def since (k : K) (l : List K) : List K := l.reverse.takeWhile (· ≠ k)

lemma since_snoc (k x : K) (l : List K) :
    since k (l ++ [x]) = if x = k then [] else x :: since k l := by
  rw [since, List.reverse_append, List.reverse_singleton, List.singleton_append,
    List.takeWhile_cons]
  split_ifs with h₁ h₂ h₂
  · simp [h₂] at h₁
  · rfl
  · rfl
  · simp [h₂] at h₁

/-- What comes after the last occurrence, read off a list that is split there. -/
lemma since_split {k : K} {pre post : List K} (h : k ∉ post) :
    since k (pre ++ k :: post) = post.reverse := by
  have hpost : ∀ x ∈ post.reverse, decide (x ≠ k) = true := by
    intro x hx
    exact decide_eq_true fun hxk => h (hxk ▸ List.mem_reverse.1 hx)
  rw [since, List.reverse_append, List.reverse_cons, List.append_assoc, List.singleton_append,
    List.takeWhile_append_of_pos hpost, List.takeWhile_cons_of_neg (by simp), List.append_nil]

/-- Leaving out another entry leaves it out of the entries after `k`. -/
lemma since_filter {k x : K} (hne : x ≠ k) (l : List K) :
    since k (l.filter (· ≠ x)) = (since k l).filter (· ≠ x) := by
  rw [since, since, ← List.filter_reverse]
  induction l.reverse with
  | nil => rfl
  | cons y l ih =>
      by_cases hyx : y = x
      · rw [hyx, List.filter_cons_of_neg (by simp), List.takeWhile_cons_of_pos (by simpa using hne),
          List.filter_cons_of_neg (by simp), ih]
      · rw [List.filter_cons_of_pos (by simpa using hyx)]
        by_cases hyk : y = k
        · rw [List.takeWhile_cons_of_neg (by simpa using hyk),
            List.takeWhile_cons_of_neg (by simpa using hyk), List.filter_nil]
        · rw [List.takeWhile_cons_of_pos (by simpa using hyk),
            List.takeWhile_cons_of_pos (by simpa using hyk),
            List.filter_cons_of_pos (by simpa using hyx), ih]

lemma nodup_since {k : K} {l : List K} (h : l.Nodup) : (since k l).Nodup :=
  (List.takeWhile_sublist _).nodup (List.nodup_reverse.2 h)

omit [DecidableEq K] in
/-- A list without repetitions, split at one of its entries. -/
lemma exists_split {k : K} {l : List K} (hl : l.Nodup) (h : k ∈ l) :
    ∃ pre post, l = pre ++ k :: post ∧ k ∉ pre ∧ k ∉ post := by
  obtain ⟨pre, post, rfl⟩ := List.append_of_mem h
  refine ⟨pre, post, rfl, ?_, ?_⟩
  · intro hk
    exact (List.nodup_append.1 hl).2.2 k hk k (by simp) rfl
  · exact (List.nodup_cons.1 (List.nodup_append.1 hl).2.1).1

/-- An entry has fewer entries behind it than there are. -/
lemma length_since_lt {k : K} {l : List K} (hl : l.Nodup) (h : k ∈ l) :
    (since k l).length < l.length := by
  obtain ⟨pre, post, rfl, -, hpost⟩ := exists_split hl h
  rw [since_split hpost, List.length_reverse, List.length_append, List.length_cons]
  omega

/-- **What survives at the end.**  After the first `n` entries are dropped, those are left that
have few enough entries behind them. -/
lemma mem_drop_iff {k : K} {l : List K} (hl : l.Nodup) (h : k ∈ l) (n : ℕ) :
    k ∈ l.drop n ↔ (since k l).length < l.length - n := by
  obtain ⟨pre, post, rfl, hpre, hpost⟩ := exists_split hl h
  rw [since_split hpost, List.drop_append, List.mem_append]
  have hdrop : k ∉ pre.drop n := fun hk => hpre (List.mem_of_mem_drop hk)
  rw [or_iff_right hdrop]
  rw [List.length_reverse, List.length_append, List.length_cons]
  rcases le_or_gt n pre.length with hn | hn
  · rw [Nat.sub_eq_zero_of_le hn, List.drop_zero]
    refine iff_of_true (List.mem_cons_self) ?_
    omega
  · obtain ⟨m, hm⟩ : ∃ m, n - pre.length = m + 1 := ⟨n - pre.length - 1, by omega⟩
    rw [hm, List.drop_succ_cons]
    refine iff_of_false (fun hk => hpost (List.mem_of_mem_drop hk)) ?_
    omega

/-- Dropping from the front does not change what is behind an entry that is left. -/
lemma since_drop {k : K} {l : List K} (hl : l.Nodup) {n : ℕ} (h : k ∈ l.drop n) :
    since k (l.drop n) = since k l := by
  obtain ⟨pre, post, hsplit, -, hpost⟩ := exists_split ((List.drop_sublist n l).nodup hl) h
  have hl' : l = (l.take n ++ pre) ++ k :: post := by
    rw [List.append_assoc, ← hsplit, List.take_append_drop]
  rw [hsplit, since_split hpost, hl', since_split hpost]

/-- The list with `k` moved to its end, or added there. -/
def toEnd (k : K) (l : List K) : List K := l.filter (· ≠ k) ++ [k]

lemma mem_toEnd {k x : K} {l : List K} : x ∈ toEnd k l ↔ x ∈ l ∨ x = k := by
  rw [toEnd, List.mem_append, List.mem_filter, List.mem_singleton]
  by_cases h : x = k
  · simp [h]
  · simp [h]

lemma nodup_toEnd {k : K} {l : List K} (h : l.Nodup) : (toEnd k l).Nodup := by
  refine List.nodup_append.2 ⟨h.filter _, by simp, ?_⟩
  rintro x hx y hy rfl
  obtain rfl : x = k := by simpa using hy
  simp at hx

lemma since_toEnd {k x : K} (hne : x ≠ k) (l : List K) :
    since k (toEnd x l) = x :: (since k l).filter (· ≠ x) := by
  rw [toEnd, since_snoc, if_neg hne, since_filter hne]

/-- If what is behind `k` was accessed after it, this is so after one more access. -/
lemma since_toEnd_subset {k x : K} {l acc : List K} (h : k ∈ l → since k l ⊆ since k acc)
    (hk : k ∈ toEnd x l) : since k (toEnd x l) ⊆ since k (acc ++ [x]) := by
  rw [since_snoc]
  split_ifs with hne
  · rw [toEnd, since_snoc, if_pos hne]
    exact List.nil_subset _
  · rw [since_toEnd hne]
    have hkl : k ∈ l := (mem_toEnd.1 hk).resolve_right (Ne.symm hne)
    exact List.cons_subset_cons _ fun y hy => h hkl (List.mem_filter.1 hy).1

/-- If what was accessed after `k` is behind it, this is so after one more access. -/
lemma since_subset_toEnd {k x : K} {l acc : List K} (h : k ∈ l → since k acc ⊆ since k l)
    (hk : k ∈ toEnd x l) : since k (acc ++ [x]) ⊆ since k (toEnd x l) := by
  rw [since_snoc]
  split_ifs with hne
  · exact List.nil_subset _
  · rw [since_toEnd hne]
    have hkl : k ∈ l := (mem_toEnd.1 hk).resolve_right (Ne.symm hne)
    intro y hy
    by_cases hyx : y = x
    · exact hyx ▸ List.mem_cons_self
    · have hy' : y ∈ since k acc := (List.mem_cons.1 hy).resolve_left hyx
      exact List.mem_cons_of_mem _ (List.mem_filter.2 ⟨h hkl hy', by simpa using hyx⟩)

/-- Drops first entries as long as there are more than `n`. -/
def dropWhileOver {α : Type*} (n : ℕ) : List α → List α
  | [] => []
  | x :: l => if (x :: l).length > n then dropWhileOver n l else x :: l

/-- The last `n` entries are left. -/
lemma dropWhileOver_eq {α : Type*} (n : ℕ) (l : List α) :
    dropWhileOver n l = l.drop (l.length - n) := by
  induction l with
  | nil => rw [dropWhileOver, List.drop_nil]
  | cons x l ih =>
      rw [dropWhileOver]
      split_ifs with h
      · rw [List.length_cons] at h
        rw [ih, List.length_cons, show l.length + 1 - n = (l.length - n) + 1 by omega,
          List.drop_succ_cons]
      · rw [Nat.sub_eq_zero_of_le (not_lt.1 h), List.drop_zero]

/-! ### Ordered dictionaries -/

/-- A dictionary with its keys in order. -/
@[ext] structure OrderedDict (K V : Type*) where
  /-- The keys and their values, the oldest first. -/
  items : List (K × V) := []
  nodup_keys : (items.map Prod.fst).Nodup := by simp

namespace OrderedDict

def empty : OrderedDict K V := {}

variable (d : OrderedDict K V) (k : K)

/-- The keys in order. -/
def keys (d : OrderedDict K V) : List K := d.items.map Prod.fst

/-- The value of a key. -/
def get? : Option V := (d.items.find? (·.1 = k)).map (·.2)

/-- `del d[k]`. -/
def erase : OrderedDict K V where
  items := d.items.filter (·.1 ≠ k)
  nodup_keys := (List.filter_sublist.map Prod.fst).nodup d.nodup_keys

/-- `d[k] = v` for a key that is not there. -/
def push (v : V) (hnew : k ∉ d.keys) : OrderedDict K V where
  items := d.items ++ [(k, v)]
  nodup_keys := by
    rw [List.map_append, List.nodup_append]
    refine ⟨d.nodup_keys, by simp, ?_⟩
    rintro x hx y hy rfl
    obtain rfl : x = k := by simpa using hy
    exact hnew hx

lemma notMem_keys_erase : k ∉ (d.erase k).keys := by
  simp [keys, erase]

/-- `d.move_to_end(k)`, for a key that is there. -/
def moveToEnd : OrderedDict K V :=
  match d.get? k with
  | none => d
  | some v => (d.erase k).push k v (d.notMem_keys_erase k)

/-- `d[k] = v`: a key that is there keeps its place. -/
def set (v : V) : OrderedDict K V :=
  if hnew : k ∈ d.keys then
    { items := d.items.map fun e => if e.1 = k then (k, v) else e
      nodup_keys := by
        have hkeys : (fun e : K × V => (if e.1 = k then (k, v) else e).1) = Prod.fst := by
          funext e
          split_ifs with h
          · exact h.symm
          · rfl
        rw [List.map_map, Function.comp_def, hkeys]
        exact d.nodup_keys }
  else d.push k v hnew

/-- `while len(d) > n: d.popitem(last=False)`. -/
def popWhileOver (n : ℕ) (d : OrderedDict K V) : OrderedDict K V where
  items := dropWhileOver n d.items
  nodup_keys := by
    rw [dropWhileOver_eq]
    exact ((List.drop_sublist _ _).map Prod.fst).nodup d.nodup_keys

variable {d k}

lemma get?_eq_some {v : V} : d.get? k = some v ↔ (k, v) ∈ d.items := by
  rw [get?, Option.map_eq_some_iff]
  constructor
  · rintro ⟨⟨k', v'⟩, hfind, rfl⟩
    obtain rfl : k' = k := by simpa using List.find?_some hfind
    exact List.mem_of_find?_eq_some hfind
  · intro hmem
    cases hfind : d.items.find? (·.1 = k) with
    | none => exact absurd (List.find?_eq_none.1 hfind _ hmem) (by simp)
    | some e =>
        have hkey : e.1 = k := by simpa using List.find?_some hfind
        have he := List.inj_on_of_nodup_map d.nodup_keys (List.mem_of_find?_eq_some hfind) hmem hkey
        exact ⟨e, rfl, by rw [he]⟩

lemma get?_eq_none : d.get? k = none ↔ k ∉ d.keys := by
  rw [get?, Option.map_eq_none_iff, List.find?_eq_none, keys, List.mem_map]
  constructor
  · rintro h ⟨e, he, hkey⟩
    exact h e he (decide_eq_true hkey)
  · intro h e he hkey
    exact h ⟨e, he, of_decide_eq_true hkey⟩

omit [DecidableEq K] in
lemma keys_nodup (d : OrderedDict K V) : d.keys.Nodup := d.nodup_keys

omit [DecidableEq K] in
lemma exists_mem_items (h : k ∈ d.keys) : ∃ v, (k, v) ∈ d.items := by
  obtain ⟨⟨k', v⟩, hmem, rfl⟩ := List.mem_map.1 h
  exact ⟨v, hmem⟩

omit [DecidableEq K] in
lemma mem_keys {v : V} (h : (k, v) ∈ d.items) : k ∈ d.keys := List.mem_map.2 ⟨_, h, rfl⟩

@[simp] lemma keys_erase : (d.erase k).keys = d.keys.filter (· ≠ k) := by
  rw [keys, keys, erase, List.filter_map]
  rfl

omit [DecidableEq K] in
@[simp] lemma keys_push {v : V} {hnew : k ∉ d.keys} : (d.push k v hnew).keys = d.keys ++ [k] := by
  simp [keys, push]

lemma keys_moveToEnd (h : k ∈ d.keys) : (d.moveToEnd k).keys = toEnd k d.keys := by
  rw [moveToEnd]
  cases hget : d.get? k with
  | none => exact absurd h (get?_eq_none.1 hget)
  | some v => rw [keys_push, keys_erase, toEnd]

lemma mem_items_moveToEnd {e : K × V} : e ∈ (d.moveToEnd k).items ↔ e ∈ d.items := by
  rw [moveToEnd]
  cases hget : d.get? k with
  | none => rfl
  | some v =>
      have hmem := get?_eq_some.1 hget
      simp only [push, erase, List.mem_append, List.mem_filter, List.mem_singleton]
      constructor
      · rintro (⟨he, -⟩ | rfl)
        · exact he
        · exact hmem
      · intro he
        by_cases hkey : e.1 = k
        · exact Or.inr (List.inj_on_of_nodup_map d.nodup_keys he hmem hkey)
        · exact Or.inl ⟨he, by simpa using hkey⟩

lemma length_moveToEnd : (d.moveToEnd k).items.length = d.items.length := by
  have hnodup : ∀ d : OrderedDict K V, d.items.Nodup := fun d => d.nodup_keys.of_map
  exact ((List.perm_ext_iff_of_nodup (hnodup _) (hnodup _)).2
    fun _ => mem_items_moveToEnd).length_eq

/-- Moving a key to the end and assigning it puts it there with the new value. -/
lemma items_set_moveToEnd {v : V} (h : k ∈ d.keys) :
    ((d.moveToEnd k).set k v).items = (d.erase k).items ++ [(k, v)] := by
  have hk : k ∈ (d.moveToEnd k).keys := by
    rw [keys_moveToEnd h]
    exact mem_toEnd.2 (Or.inr rfl)
  rw [set, dif_pos hk, moveToEnd]
  cases hget : d.get? k with
  | none => exact absurd h (get?_eq_none.1 hget)
  | some w =>
      have herase : (d.erase k).items.map (fun e => if e.1 = k then (k, v) else e) =
          (d.erase k).items := by
        refine (List.map_congr_left fun e he => ?_).trans (List.map_id _)
        rw [if_neg (by simpa using (List.mem_filter.1 he).2), id]
      simp [push, herase]

lemma items_set_of_notMem {v : V} (h : k ∉ d.keys) : (d.set k v).items = d.items ++ [(k, v)] := by
  rw [set, dif_neg h, push]

lemma erase_of_notMem (h : k ∉ d.keys) : (d.erase k).items = d.items := by
  rw [erase, List.filter_eq_self]
  intro e he
  exact decide_eq_true fun hkey => h (List.mem_map.2 ⟨e, he, hkey⟩)

omit [DecidableEq K] in
lemma items_popWhileOver (n : ℕ) (d : OrderedDict K V) :
    (d.popWhileOver n).items = d.items.drop (d.items.length - n) :=
  dropWhileOver_eq n d.items

end OrderedDict

end WebCrawler.Lib
