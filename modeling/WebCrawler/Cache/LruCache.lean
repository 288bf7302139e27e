import WebCrawler.Lib.OrderedDict

/-!
# The LRU cache

`LruCache` of `crawler/cache/lru.py`, which holds the parsed robots rules.  An entry carries
the time at which it was stored; a lookup that finds an entry older than `ttl` deletes it, and
one that finds a fresh entry moves its key to the end.  Values are never `None`, so that a
lookup that returns `None` has found nothing.

A run is a list of timed calls.  What the cache is for is said over the calls alone: the value
of a key is that of its last `put` (`lastPut`), and a key is kept as long as fewer than
`capacity` distinct other keys were accessed after it (`accessed`).  The invariant `Kept` ties
the order of the dictionary to the order of the accesses.
-/

namespace WebCrawler

open Lib

/-- The parameters of a cache. -/
structure LruCache where
  capacity : ℕ
  ttl : Option ℚ := none
  /-- The constructor raises `ValueError` otherwise. -/
  capacity_pos : 0 < capacity := by decide

/-- The entries of a cache: the value of a key, and when it was stored. -/
abbrev LruData (K V : Type) : Type := OrderedDict K (V × ℚ)

/-- A call on a cache. -/
inductive LruOp (K V : Type)
  | get (key : K)
  | put (key : K) (value : V)
  /-- `key in cache`. -/
  | contains (key : K)
deriving DecidableEq, Repr

namespace LruCache

variable {K V : Type} [DecidableEq K] (C : LruCache)

/-- An entry stored at a time is still valid. -/
def Fresh (now storedAt : ℚ) : Prop := ∀ ttl ∈ C.ttl, now - storedAt ≤ ttl

instance (now storedAt : ℚ) : Decidable (C.Fresh now storedAt) :=
  match h : C.ttl with
  | none => isTrue fun ttl httl => by simp [h] at httl
  | some ttl => decidable_of_iff (now - storedAt ≤ ttl) (by simp [Fresh, h])

/-- `get`: the value, if there is a fresh one, and the entries that it leaves. -/
def get (now : ℚ) (key : K) (d : LruData K V) : Option V × LruData K V :=
  match d.get? key with
  | none => (none, d)
  | some (value, storedAt) =>
      if C.Fresh now storedAt then (some value, d.moveToEnd key) else (none, d.erase key)

/-- `put`. -/
def put (now : ℚ) (key : K) (value : V) (d : LruData K V) : LruData K V :=
  let d := if key ∈ d.keys then d.moveToEnd key else d
  (d.set key (value, now)).popWhileOver C.capacity

/-- `__contains__`. -/
def contains (now : ℚ) (key : K) (d : LruData K V) : Bool × LruData K V :=
  ((C.get now key d).1.isSome, (C.get now key d).2)

/-- `__len__`. -/
def len (d : LruData K V) : ℕ := d.items.length

/-- The entries after a call. -/
def step (now : ℚ) (d : LruData K V) : LruOp K V → LruData K V
  | .get key => (C.get now key d).2
  | .put key value => C.put now key value d
  | .contains key => (C.contains now key d).2

/-- The key that a call accesses: it is put, or it is looked up with success. -/
def accesses (now : ℚ) (d : LruData K V) : LruOp K V → Option K
  | .get key => if (C.get now key d).1.isSome then some key else none
  | .put key _ => some key
  | .contains key => if (C.contains now key d).1 then some key else none

/-- The entries after a run, and the keys that it has accessed, in order. -/
def run (calls : List (ℚ × LruOp K V)) : LruData K V × List K :=
  calls.foldl (fun s c => (C.step c.1 s.1 c.2, s.2 ++ (C.accesses c.1 s.1 c.2).toList)) ({}, [])

/-- The last `put` of a key: its value and its time. -/
def lastPut (key : K) (calls : List (ℚ × LruOp K V)) : Option (V × ℚ) :=
  calls.foldl (fun last c =>
    match c.2 with
    | .put key' value => if key' = key then some (value, c.1) else last
    | _ => last) none

/-- The number of distinct keys accessed since the last access to `key`. -/
def distinctSince (key : K) (accessed : List K) : ℕ := (since key accessed).toFinset.card

variable {C} {now : ℚ} {key : K} {value : V} {d : LruData K V}

/-! ### What one call does -/

/-- A lookup: nothing is there, a fresh entry is there, or one that has expired. -/
lemma get_cases (C : LruCache) (now : ℚ) (key : K) (d : LruData K V) :
    (key ∉ d.keys ∧ C.get now key d = (none, d)) ∨
      (∃ v t, (key, (v, t)) ∈ d.items ∧ C.Fresh now t ∧
        C.get now key d = (some v, d.moveToEnd key)) ∨
      ∃ v t, (key, (v, t)) ∈ d.items ∧ ¬ C.Fresh now t ∧ C.get now key d = (none, d.erase key) := by
  rw [get]
  cases hget : d.get? key with
  | none => exact Or.inl ⟨OrderedDict.get?_eq_none.1 hget, rfl⟩
  | some e =>
      obtain ⟨v, t⟩ := e
      have hmem := OrderedDict.get?_eq_some.1 hget
      by_cases hfresh : C.Fresh now t
      · exact Or.inr (Or.inl ⟨v, t, hmem, hfresh, if_pos hfresh⟩)
      · exact Or.inr (Or.inr ⟨v, t, hmem, hfresh, if_neg hfresh⟩)

/-- A fresh entry is found. -/
lemma get_of_mem {t : ℚ} (hmem : (key, (value, t)) ∈ d.items) (hfresh : C.Fresh now t) :
    (C.get now key d).1 = some value := by
  rw [get, OrderedDict.get?_eq_some.2 hmem]
  exact congrArg Prod.fst (if_pos hfresh)

/-- A lookup adds nothing. -/
lemma mem_items_of_get {e : K × (V × ℚ)} (he : e ∈ (C.get now key d).2.items) : e ∈ d.items := by
  rcases get_cases C now key d with ⟨-, hget⟩ | ⟨v, t, -, -, hget⟩ | ⟨v, t, -, -, hget⟩
  · rwa [hget] at he
  · rw [hget] at he
    exact OrderedDict.mem_items_moveToEnd.1 he
  · rw [hget] at he
    exact (List.mem_filter.1 he).1

/-- After a lookup that finds nothing, nothing is there. -/
lemma notMem_keys_of_get (h : (C.get now key d).1 = none) : key ∉ (C.get now key d).2.keys := by
  rcases get_cases C now key d with ⟨hkey, hget⟩ | ⟨v, t, -, -, hget⟩ | ⟨v, t, -, -, hget⟩
  · rwa [hget]
  · rw [hget] at h
    exact absurd h (by simp)
  · rw [hget]
    exact OrderedDict.notMem_keys_erase d key

/-- What is found was stored, and is fresh. -/
lemma mem_of_get (h : (C.get now key d).1 = some value) :
    ∃ t, (key, (value, t)) ∈ d.items ∧ C.Fresh now t := by
  rcases get_cases C now key d with ⟨-, hget⟩ | ⟨v, t, hmem, hfresh, hget⟩ | ⟨v, t, -, -, hget⟩
  · rw [hget] at h
    exact absurd h (by simp)
  · rw [hget] at h
    obtain rfl := Option.some.inj h
    exact ⟨t, hmem, hfresh⟩
  · rw [hget] at h
    exact absurd h (by simp)

/-- A `put` writes its entry at the end and cuts off what is too much at the front. -/
lemma items_put :
    (C.put now key value d).items =
      ((d.erase key).items ++ [(key, (value, now))]).drop
        (((d.erase key).items ++ [(key, (value, now))]).length - C.capacity) := by
  have hset : ((if key ∈ d.keys then d.moveToEnd key else d).set key (value, now)).items =
      (d.erase key).items ++ [(key, (value, now))] := by
    split_ifs with h
    · exact OrderedDict.items_set_moveToEnd h
    · rw [OrderedDict.items_set_of_notMem h, OrderedDict.erase_of_notMem h]
  rw [put, OrderedDict.items_popWhileOver, hset]

/-- The keys after a `put`. -/
lemma keys_put :
    (C.put now key value d).keys =
      (toEnd key d.keys).drop ((toEnd key d.keys).length - C.capacity) := by
  have hkeys : ((d.erase key).items ++ [(key, (value, now))]).map Prod.fst = toEnd key d.keys := by
    rw [List.map_append, toEnd, ← OrderedDict.keys_erase]
    rfl
  rw [OrderedDict.keys, items_put, List.map_drop, ← hkeys, List.length_map]

/-- An entry after a `put` was there before, or was put. -/
lemma mem_items_of_put {e : K × (V × ℚ)} (he : e ∈ (C.put now key value d).items) :
    e ∈ d.items ∨ e = (key, (value, now)) := by
  rw [items_put] at he
  refine (List.mem_append.1 (List.mem_of_mem_drop he)).imp (fun he => ?_) List.mem_singleton.1
  exact (List.mem_filter.1 he).1

/-! ### The invariant -/

/-- The entries of a cache and what was done with it: `last` is the last `put` of each key,
`acc` lists the keys that were accessed. -/
structure Kept (C : LruCache) (now : ℚ) (last : K → Option (V × ℚ)) (acc : List K)
    (d : LruData K V) : Prop where
  length_le : d.items.length ≤ C.capacity
  /-- An entry is that of the last `put`. -/
  stored : ∀ k e, (k, e) ∈ d.items → last k = some e
  /-- What is behind a key was accessed after it. -/
  behind : ∀ k ∈ d.keys, since k d.keys ⊆ since k acc
  /-- A fresh entry with few accesses after it is there. -/
  kept : ∀ k e, last k = some e → C.Fresh now e.2 → distinctSince k acc < C.capacity →
    (k, e) ∈ d.items
  /-- Without expiry, what was accessed after a key is behind it. -/
  full : C.ttl = none → ∀ k ∈ d.keys, since k acc ⊆ since k d.keys

section Kept

variable {now' : ℚ} {last : K → Option (V × ℚ)} {acc : List K}

lemma Fresh.mono {t : ℚ} (hle : now ≤ now') (h : C.Fresh now' t) : C.Fresh now t := by
  intro ttl httl
  have := h ttl httl
  linarith

lemma kept_nil (C : LruCache) (now : ℚ) :
    C.Kept now (fun _ : K => (none : Option (V × ℚ))) [] {} where
  length_le := Nat.zero_le _
  stored := by simp
  behind := by simp [OrderedDict.keys]
  kept := by simp
  full := by simp [OrderedDict.keys]

/-- Time passes. -/
lemma Kept.mono (h : C.Kept now last acc d) (hle : now ≤ now') : C.Kept now' last acc d :=
  { h with kept := fun k e hlast hfresh => h.kept k e hlast (hfresh.mono hle) }

/-- One more access to another key can only add to the distinct ones. -/
lemma distinctSince_le_snoc {k : K} (hne : key ≠ k) (acc : List K) :
    distinctSince k acc ≤ distinctSince k (acc ++ [key]) := by
  rw [distinctSince, distinctSince, since_snoc, if_neg hne]
  exact Finset.card_le_card fun x hx => by
    rw [List.mem_toFinset] at hx ⊢
    exact List.mem_cons_of_mem _ hx

/-- A lookup has found its key. -/
lemma Kept.hit (h : C.Kept now last acc d) (hkey : key ∈ d.keys) :
    C.Kept now last (acc ++ [key]) (d.moveToEnd key) where
  length_le := OrderedDict.length_moveToEnd.trans_le h.length_le
  stored k e he := h.stored k e (OrderedDict.mem_items_moveToEnd.1 he)
  behind k hk := by
    rw [OrderedDict.keys_moveToEnd hkey] at hk ⊢
    exact since_toEnd_subset (h.behind k) hk
  kept := by
    intro k e hlast hfresh hfew
    rw [OrderedDict.mem_items_moveToEnd]
    by_cases hne : key = k
    · subst hne
      obtain ⟨⟨k', e'⟩, he', rfl⟩ := List.mem_map.1 hkey
      have hstored := h.stored _ _ he'
      rw [hlast] at hstored
      rwa [Option.some.inj hstored]
    · exact h.kept k e hlast hfresh ((distinctSince_le_snoc hne acc).trans_lt hfew)
  full httl k hk := by
    rw [OrderedDict.keys_moveToEnd hkey] at hk ⊢
    exact since_subset_toEnd (h.full httl k) hk

/-- A lookup has found an entry that has expired. -/
lemma Kept.expire (h : C.Kept now last acc d) {e : V × ℚ} (he : (key, e) ∈ d.items)
    (hexp : ¬ C.Fresh now e.2) : C.Kept now last acc (d.erase key) where
  length_le := (List.length_filter_le _ _).trans h.length_le
  stored k e he := h.stored k e (List.mem_filter.1 he).1
  behind := by
    intro k hk
    rw [OrderedDict.keys_erase] at hk ⊢
    obtain ⟨hk, hne⟩ := List.mem_filter.1 hk
    rw [since_filter (by simpa using Ne.symm (of_decide_eq_true hne))]
    exact fun x hx => h.behind k hk (List.mem_filter.1 hx).1
  kept := by
    intro k e' hlast hfresh hfew
    refine List.mem_filter.2 ⟨h.kept k e' hlast hfresh hfew, decide_eq_true ?_⟩
    rintro rfl
    have hstored := h.stored _ _ he
    rw [hlast] at hstored
    exact hexp (Option.some.inj hstored ▸ hfresh)
  full httl := by
    -- without a time to live nothing expires
    exact absurd (fun ttl hmem => by simp [httl] at hmem) hexp

/-- A key survives a `put` if few enough keys are behind it. -/
lemma mem_keys_put {k : K} (hk : k ∈ toEnd key d.keys)
    (hlen : (since k (toEnd key d.keys)).length < C.capacity) :
    k ∈ (C.put now key value d).keys := by
  rw [keys_put, mem_drop_iff (nodup_toEnd d.keys_nodup) hk]
  have := length_since_lt (nodup_toEnd d.keys_nodup) hk
  omega

/-- What was put is there. -/
lemma mem_keys_put_self : key ∈ (C.put now key value d).keys := by
  refine mem_keys_put (mem_toEnd.2 (Or.inr rfl)) ?_
  rw [toEnd, since_snoc, if_pos rfl]
  exact C.capacity_pos

lemma Kept.stored_put (h : C.Kept now last acc d) {k : K} {e : V × ℚ}
    (he : (k, e) ∈ (C.put now key value d).items) :
    Function.update last key (some (value, now)) k = some e := by
  rw [items_put] at he
  rcases List.mem_append.1 (List.mem_of_mem_drop he) with he | he
  · obtain ⟨he, hne⟩ := List.mem_filter.1 he
    rw [Function.update_of_ne (by simpa using hne)]
    exact h.stored k e he
  · obtain ⟨rfl, rfl⟩ := Prod.mk.inj (List.mem_singleton.1 he)
    rw [Function.update_self]

/-- An entry that is fresh and has few accesses after it survives a `put`. -/
lemma Kept.kept_put (h : C.Kept now last acc d) {k : K} {e : V × ℚ}
    (hlast : Function.update last key (some (value, now)) k = some e) (hfresh : C.Fresh now e.2)
    (hfew : distinctSince k (acc ++ [key]) < C.capacity) :
    (k, e) ∈ (C.put now key value d).items := by
  have hk : k ∈ toEnd key d.keys := by
    rw [mem_toEnd]
    by_cases hne : k = key
    · exact Or.inr hne
    · rw [Function.update_of_ne hne] at hlast
      have hfew' := (distinctSince_le_snoc (Ne.symm hne) acc).trans_lt hfew
      exact Or.inl (OrderedDict.mem_keys (h.kept k e hlast hfresh hfew'))
  -- what is behind the key was accessed after it
  have hlen : (since k (toEnd key d.keys)).length < C.capacity := by
    rw [← List.toFinset_card_of_nodup (nodup_since (nodup_toEnd d.keys_nodup))]
    refine lt_of_le_of_lt (Finset.card_le_card fun x hx => ?_) hfew
    rw [List.mem_toFinset] at hx ⊢
    exact since_toEnd_subset (h.behind k) hk hx
  have hput : k ∈ (C.put now key value d).keys := mem_keys_put hk hlen
  obtain ⟨e', he'⟩ := OrderedDict.exists_mem_items hput
  have hstored := h.stored_put he'
  rw [hlast] at hstored
  rwa [Option.some.inj hstored]

/-- A `put`. -/
lemma Kept.put (h : C.Kept now last acc d) (key : K) (value : V) :
    C.Kept now (Function.update last key (some (value, now))) (acc ++ [key])
      (C.put now key value d) where
  length_le := by
    rw [items_put, List.length_drop]
    omega
  stored k e he := h.stored_put he
  behind := by
    intro k hk
    rw [keys_put] at hk ⊢
    rw [since_drop (nodup_toEnd d.keys_nodup) hk]
    exact since_toEnd_subset (h.behind k) (List.mem_of_mem_drop hk)
  kept k e hlast hfresh hfew := h.kept_put hlast hfresh hfew
  full httl := by
    intro k hk
    rw [keys_put] at hk ⊢
    rw [since_drop (nodup_toEnd d.keys_nodup) hk]
    exact since_subset_toEnd (h.full httl k) (List.mem_of_mem_drop hk)

/-- A lookup, with or without success. -/
lemma Kept.get (h : C.Kept now last acc d) (key : K) :
    C.Kept now last (acc ++ (if (C.get now key d).1.isSome then some key else none).toList)
      (C.get now key d).2 := by
  rcases get_cases C now key d with ⟨-, hget⟩ | ⟨v, t, hmem, -, hget⟩ | ⟨v, t, hmem, hexp, hget⟩
  · rw [hget]
    simpa using h
  · rw [hget]
    exact h.hit (OrderedDict.mem_keys hmem)
  · rw [hget]
    simpa using h.expire hmem hexp

end Kept

/-! ### Runs -/

lemma run_snoc (C : LruCache) (calls : List (ℚ × LruOp K V)) (c : ℚ × LruOp K V) :
    C.run (calls ++ [c]) =
      (C.step c.1 (C.run calls).1 c.2,
        (C.run calls).2 ++ (C.accesses c.1 (C.run calls).1 c.2).toList) := by
  rw [run, List.foldl_append]
  rfl

/-- The last `put` of each key after one more call. -/
lemma lastPut_snoc (calls : List (ℚ × LruOp K V)) (c : ℚ × LruOp K V) :
    (fun k => lastPut k (calls ++ [c])) =
      match c.2 with
      | .put key value => Function.update (fun k => lastPut k calls) key (some (value, c.1))
      | _ => fun k => lastPut k calls := by
  obtain ⟨now, op⟩ := c
  funext k
  rw [lastPut, List.foldl_append]
  cases op with
  | get key => rfl
  | contains key => rfl
  | put key value =>
      by_cases hne : k = key
      · subst hne
        simp
      · simp only [Function.update_of_ne hne]
        exact if_neg (Ne.symm hne)

/-- The times of the calls do not decrease. -/
def InOrder (calls : List (ℚ × LruOp K V)) : Prop := calls.Pairwise fun c c' => c.1 ≤ c'.1

instance (calls : List (ℚ × LruOp K V)) : Decidable (InOrder calls) :=
  inferInstanceAs (Decidable (List.Pairwise _ _))

/-- **Every run keeps the invariant**, at every time from its last call on. -/
lemma kept_run (C : LruCache) (calls : List (ℚ × LruOp K V)) (horder : InOrder calls)
    (hnow : ∀ c ∈ calls, c.1 ≤ now) :
    C.Kept now (fun k => lastPut k calls) (C.run calls).2 (C.run calls).1 := by
  induction calls using List.reverseRecOn generalizing now with
  | nil => exact kept_nil C now
  | append_singleton calls c ih =>
      obtain ⟨horder, -, hlast⟩ := List.pairwise_append.1 horder
      have hkept := ih horder fun c' hc' => hlast c' hc' c (by simp)
      refine Kept.mono ?_ (hnow c (by simp))
      rw [run_snoc, lastPut_snoc]
      obtain ⟨t, op⟩ := c
      cases op with
      | get key => exact hkept.get key
      | contains key => exact hkept.get key
      | put key value => exact hkept.put key value

/-- **What the cache is for.**  In every run at most `capacity` entries are held, under
different keys.  What a lookup returns is the value of the last `put`, and not too old.  The
last `put` is returned if it is not too old and fewer than `capacity` other keys were accessed
after its key.  Without a time to live, a key after which `capacity` others were accessed is
gone. -/
theorem lru_spec (C : LruCache) (now : ℚ) (calls : List (ℚ × LruOp K V)) (horder : InOrder calls)
    (hnow : ∀ c ∈ calls, c.1 ≤ now) :
    let d := (C.run calls).1
    let accessed := (C.run calls).2
    len d ≤ C.capacity ∧ d.keys.Nodup ∧ ∀ key : K,
      (∀ value, (C.get now key d).1 = some value →
        ∃ t, lastPut key calls = some (value, t) ∧ ∀ ttl ∈ C.ttl, now - t ≤ ttl) ∧
      (∀ value t, lastPut key calls = some (value, t) → (∀ ttl ∈ C.ttl, now - t ≤ ttl) →
        distinctSince key accessed < C.capacity → (C.get now key d).1 = some value) ∧
      (C.ttl = none → C.capacity ≤ distinctSince key accessed →
        key ∉ d.keys ∧ (C.get now key d).1 = none ∧ (C.contains now key d).1 = false) := by
  have h := kept_run C calls horder hnow
  refine ⟨h.length_le, OrderedDict.keys_nodup _, fun key => ⟨?_, ?_, ?_⟩⟩
  · intro value hget
    obtain ⟨t, hmem, hfresh⟩ := mem_of_get hget
    exact ⟨t, h.stored key _ hmem, hfresh⟩
  · intro value t hlast hfresh hfew
    exact get_of_mem (h.kept key (value, t) hlast hfresh hfew) hfresh
  · intro httl hmany
    have habsent : key ∉ (C.run calls).1.keys := by
      intro hkey
      -- all that was accessed after the key is behind it, which is too much
      have hsub : (since key (C.run calls).2).toFinset ⊆
          (since key (C.run calls).1.keys).toFinset := fun x hx => by
        rw [List.mem_toFinset] at hx ⊢
        exact h.full httl key hkey hx
      have hcard := Finset.card_le_card hsub
      rw [List.toFinset_card_of_nodup (nodup_since (OrderedDict.keys_nodup _))] at hcard
      have hlt := length_since_lt (OrderedDict.keys_nodup _) hkey
      have hlen : (C.run calls).1.keys.length ≤ C.capacity := by
        rw [OrderedDict.keys, List.length_map]
        exact h.length_le
      rw [distinctSince] at hmany
      omega
    have hget : (C.get now key (C.run calls).1).1 = none := by
      rcases get_cases C now key (C.run calls).1 with ⟨-, hget⟩ | ⟨v, t, hmem, -⟩ | ⟨v, t, hmem, -⟩
      · rw [hget]
      · exact absurd (OrderedDict.mem_keys hmem) habsent
      · exact absurd (OrderedDict.mem_keys hmem) habsent
    refine ⟨habsent, hget, ?_⟩
    rw [contains, hget]
    rfl

/-- The run of a cache with room for two: `a` is looked up before `c` is put, which evicts `b`. -/
def threeKeys : List (ℚ × LruOp String ℕ) :=
  [(0, .put "a" 1), (1, .put "b" 2), (2, .get "a"), (3, .put "c" 3)]

/-- A key after which one other was accessed is there; one after which two others were accessed
is gone. -/
theorem lru_spec_threeKeys :
    let C : LruCache := { capacity := 2 }
    (C.get 4 "a" (C.run threeKeys).1).1 = some 1 ∧ "b" ∉ (C.run threeKeys).1.keys := by
  have h := lru_spec { capacity := 2 } 4 threeKeys (by decide) (by decide)
  exact ⟨(h.2.2 "a").2.1 1 0 rfl (by simp) (by decide), ((h.2.2 "b").2.2 rfl (by decide)).1⟩

end LruCache

end WebCrawler
