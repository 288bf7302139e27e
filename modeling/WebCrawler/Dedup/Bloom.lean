import WebCrawler.Models
import WebCrawler.Lib.SeenSet

/-!
# The Bloom filter

`crawler/dedup/bloom.py`.  The filter is a bit set stored in a `bytearray`, here the
list of its bytes.  The 32-bit MurmurHash3 of a key and a seed is a parameter.
-/

namespace WebCrawler

open Lib

/-- `mmh3.hash(key, seed, signed=False)`. -/
abbrev Murmur : Type := String → UInt32 → UInt32

/-- The `k` indices of a key: `h1 + i * h2` modulo `m`, with `h2` odd. -/
def bloomIndices (hash : Murmur) (key : String) (m k : ℕ) : List ℕ :=
  let h1 := hash key 0
  let h2 := (hash key h1).toNat ||| 1
  (List.range k).map fun i => (h1.toNat + i * h2) % m

/-- The bit with a given index in a bytearray. -/
def isSet (bytes : List ℕ) (idx : ℕ) : Bool := (bytes.getD (idx / 8) 0).testBit (idx % 8)

/-- One turn of the loop in `check_and_add`: sets a bit and notes if it was not set. -/
def setBit (state : Bool × List ℕ) (idx : ℕ) : Bool × List ℕ :=
  let byte := state.2.getD (idx / 8) 0
  let mask := 1 <<< (idx % 8)
  if byte &&& mask = 0 then (true, state.2.set (idx / 8) (byte ||| mask)) else state

/-- A Bloom filter whose sizes are already computed. -/
structure BloomFilter where
  m : ℕ
  k : ℕ
  bytes : List ℕ
  count : ℕ := 0
  m_pos : 0 < m
  length_bytes : bytes.length = (m + 7) / 8

lemma and_one_shiftLeft_eq_zero_iff (n i : ℕ) : n &&& 1 <<< i = 0 ↔ n.testBit i = false := by
  rw [Nat.one_shiftLeft]
  constructor
  · intro h
    have := congrArg (Nat.testBit · i) h
    simpa [Nat.testBit_and, Nat.testBit_two_pow_self] using this
  · intro h
    refine Nat.eq_of_testBit_eq fun j => ?_
    by_cases hj : i = j
    · simp [← hj, h]
    · simp [Nat.testBit_two_pow_of_ne hj]

/-- Whether a bit was clear before the turn. -/
lemma setBit_fst (state : Bool × List ℕ) (idx : ℕ) :
    (setBit state idx).1 = (state.1 || !isSet state.2 idx) := by
  rw [setBit, isSet]
  by_cases h : state.2.getD (idx / 8) 0 &&& 1 <<< (idx % 8) = 0
  · simp only [if_pos h]
    rw [(and_one_shiftLeft_eq_zero_iff _ _).1 h]
    simp
  · simp only [if_neg h]
    rw [and_one_shiftLeft_eq_zero_iff, Bool.not_eq_false] at h
    rw [h]
    simp

lemma length_setBit (state : Bool × List ℕ) (idx : ℕ) :
    (setBit state idx).2.length = state.2.length := by
  rw [setBit]
  split_ifs <;> simp

/-- The bits that are set after the turn. -/
lemma isSet_setBit {state : Bool × List ℕ} {idx : ℕ} (hidx : idx / 8 < state.2.length) (j : ℕ) :
    isSet (setBit state idx).2 j = (isSet state.2 j || decide (j = idx)) := by
  rw [setBit]
  by_cases h : state.2.getD (idx / 8) 0 &&& 1 <<< (idx % 8) = 0
  · simp only [if_pos h, isSet]
    by_cases hbyte : j / 8 = idx / 8
    · rw [hbyte, List.getD_eq_getElem?_getD, List.getElem?_set_self hidx, Option.getD_some,
        Nat.testBit_or, Nat.one_shiftLeft, Nat.testBit_two_pow]
      congr 2
      rw [eq_iff_iff]
      omega
    · have hne : j ≠ idx := by
        rintro rfl
        exact hbyte rfl
      simp [List.getElem?_set_ne (Ne.symm hbyte), hne]
  · simp only [if_neg h]
    rw [and_one_shiftLeft_eq_zero_iff, Bool.not_eq_false] at h
    by_cases hj : j = idx
    · simp [hj, isSet, ← h]
    · simp [hj]

/-- The loop in `check_and_add`. -/
lemma foldl_setBit {l : List ℕ} {q : Bool × List ℕ} (hl : ∀ i ∈ l, i / 8 < q.2.length) :
    (l.foldl setBit q).2.length = q.2.length ∧
    (l.foldl setBit q).1 = (q.1 || l.any fun i => !isSet q.2 i) ∧
      ∀ j, isSet (l.foldl setBit q).2 j = (isSet q.2 j || decide (j ∈ l)) := by
  induction l generalizing q with
  | nil => simp
  | cons i l ih =>
      have hi : i / 8 < q.2.length := hl i (by simp)
      have htail : ∀ j ∈ l, j / 8 < (setBit q i).2.length := by
        intro j hj
        rw [length_setBit]
        exact hl j (by simp [hj])
      obtain ⟨hlen, hfst, hsnd⟩ := ih htail
      refine ⟨hlen.trans (length_setBit q i), ?_, fun j => ?_⟩
      · -- a bit that this turn sets was clear before the turn
        rw [List.foldl_cons, hfst, setBit_fst, List.any_cons, Bool.or_assoc]
        congr 1
        rw [Bool.eq_iff_iff]
        simp only [Bool.or_eq_true, Bool.not_eq_true', List.any_eq_true, isSet_setBit hi]
        constructor
        · rintro (h | ⟨j, hj, hclear⟩)
          · exact Or.inl h
          · simp only [Bool.or_eq_false_iff] at hclear
            exact Or.inr ⟨j, hj, hclear.1⟩
        · rintro (h | ⟨j, hj, hclear⟩)
          · exact Or.inl h
          · by_cases hji : j = i
            · exact Or.inl (hji ▸ hclear)
            · exact Or.inr ⟨j, hj, by simp [hclear, hji]⟩
      · rw [List.foldl_cons, hsnd, isSet_setBit hi]
        simp [Bool.or_assoc]

namespace BloomFilter

variable (hash : Murmur) (f : BloomFilter)

/-- `key in filter`. -/
def contains (key : String) : Bool := (bloomIndices hash key f.m f.k).all (isSet f.bytes)

variable {hash f}

lemma index_lt {key : String} {i : ℕ} (h : i ∈ bloomIndices hash key f.m f.k) :
    i / 8 < f.bytes.length := by
  obtain ⟨j, -, rfl⟩ := List.mem_map.1 h
  have := Nat.mod_lt ((hash key 0).toNat + j * ((hash key (hash key 0)).toNat ||| 1)) f.m_pos
  rw [f.length_bytes]
  omega

variable (hash f)

/-- Adds a key and tells whether it was absent. -/
def checkAndAdd (key : String) : Bool × BloomFilter :=
  let state := (bloomIndices hash key f.m f.k).foldl setBit (false, f.bytes)
  (state.1,
    { f with
      bytes := state.2
      count := if state.1 then f.count + 1 else f.count
      length_bytes :=
        (foldl_setBit (q := (false, f.bytes)) fun _ => index_lt).1.trans f.length_bytes })

/-- The verdict of `check_and_add`. -/
lemma checkAndAdd_fst (key : String) :
    (f.checkAndAdd hash key).1 = !f.contains hash key := by
  have h := (foldl_setBit (l := bloomIndices hash key f.m f.k) (q := (false, f.bytes))
    fun _ => index_lt).2.1
  rw [checkAndAdd, contains, h, Bool.false_or, List.not_all_eq_any_not]

/-- The bits after `check_and_add`. -/
lemma isSet_checkAndAdd (key : String) (j : ℕ) :
    isSet (f.checkAndAdd hash key).2.bytes j =
      (isSet f.bytes j || decide (j ∈ bloomIndices hash key f.m f.k)) :=
  (foldl_setBit (q := (false, f.bytes)) fun _ => index_lt).2.2 j

/-- The Bloom filter is a seen-set. -/
def seenSet : SeenSet BloomFilter String where
  checkAndAdd f key := f.checkAndAdd hash key
  Mem f key := f.contains hash key = true
  fst_iff f key := by simp [checkAndAdd_fst]
  mem_self f key := by
    refine List.all_eq_true.2 fun i hi => ?_
    have hi' : i ∈ bloomIndices hash key f.m f.k := hi
    simp [isSet_checkAndAdd, hi']
  mem_mono f key key' h := by
    refine List.all_eq_true.2 fun i hi => ?_
    have hset := List.all_eq_true.1 h i hi
    simp [isSet_checkAndAdd, hset]

end BloomFilter

end WebCrawler
