import WebCrawler.Dedup.Bloom

/-!
# Runs of the Bloom filter

What holds of a filter that starts empty, after any sequence of `check_and_add` calls
and for any hash function.  `setBit` and `isSet` read a byte outside of the bytearray as
zero and ignore a write there; the code would raise.  So the file first gives the
accesses with their checks, and shows that no check ever fails.
-/

namespace WebCrawler

open Lib

/-! ### Accesses with their checks -/

/-- `bits[i]`. -/
def readByte (bytes : List ℕ) (i : ℕ) : Except PyError ℕ :=
  match bytes[i]? with
  | some byte => .ok byte
  | none => .error { what := "bytearray index out of range" }

/-- `bits[i] = value`. -/
def writeByte (bytes : List ℕ) (i value : ℕ) : Except PyError (List ℕ) :=
  if i < bytes.length then
    if value < 256 then .ok (bytes.set i value)
    else .error { what := "byte must be in range(0, 256)" }
  else .error { what := "bytearray index out of range" }

/-- One turn of the loop in `check_and_add`, with checked accesses. -/
def setBitChecked (state : Bool × List ℕ) (idx : ℕ) : Except PyError (Bool × List ℕ) := do
  let byte ← readByte state.2 (idx / 8)
  let mask := 1 <<< (idx % 8)
  if byte &&& mask = 0 then
    let bytes ← writeByte state.2 (idx / 8) (byte ||| mask)
    pure (true, bytes)
  else pure state

/-- The generator expression in `__contains__`, with checked accesses. -/
def containsChecked (bytes : List ℕ) : List ℕ → Except PyError Bool
  | [] => pure true
  | idx :: indices => do
      let byte ← readByte bytes (idx / 8)
      if byte >>> (idx % 8) &&& 1 = 0 then pure false else containsChecked bytes indices

/-- All bytes are in the range of a byte. -/
def AreBytes (bytes : List ℕ) : Prop := ∀ byte ∈ bytes, byte < 256

lemma readByte_eq_ok {bytes : List ℕ} {i : ℕ} (hi : i < bytes.length) :
    readByte bytes i = .ok (bytes.getD i 0) := by
  rw [readByte, List.getD_eq_getElem?_getD, List.getElem?_eq_getElem hi]
  rfl

lemma getD_lt {bytes : List ℕ} (h : AreBytes bytes) (i : ℕ) : bytes.getD i 0 < 256 := by
  rw [List.getD_eq_getElem?_getD]
  cases hi : bytes[i]? with
  | none => exact (by norm_num)
  | some byte => exact h byte (List.mem_of_getElem? hi)

/-- A byte with one more bit is a byte. -/
lemma or_mask_lt {byte : ℕ} (h : byte < 256) (idx : ℕ) : byte ||| 1 <<< (idx % 8) < 256 := by
  have hmask : 1 <<< (idx % 8) < 2 ^ 8 := by
    rw [Nat.one_shiftLeft]
    exact Nat.pow_lt_pow_right (by norm_num) (Nat.mod_lt _ (by norm_num))
  exact Nat.or_lt_two_pow (n := 8) h hmask

lemma setBitChecked_eq_ok {state : Bool × List ℕ} {idx : ℕ} (hidx : idx / 8 < state.2.length)
    (hbytes : AreBytes state.2) : setBitChecked state idx = .ok (setBit state idx) := by
  have hlt := or_mask_lt (getD_lt hbytes (idx / 8)) idx
  rw [setBitChecked, readByte_eq_ok hidx, setBit]
  by_cases hclear : state.2.getD (idx / 8) 0 &&& 1 <<< (idx % 8) = 0
  · have hwrite : writeByte state.2 (idx / 8) (state.2.getD (idx / 8) 0 ||| 1 <<< (idx % 8)) =
        .ok (state.2.set (idx / 8) (state.2.getD (idx / 8) 0 ||| 1 <<< (idx % 8))) := by
      rw [writeByte, if_pos hidx, if_pos hlt]
    show (if state.2.getD (idx / 8) 0 &&& 1 <<< (idx % 8) = 0 then _ else _) = _
    rw [if_pos hclear, hwrite, if_pos hclear]
    rfl
  · show (if state.2.getD (idx / 8) 0 &&& 1 <<< (idx % 8) = 0 then _ else _) = _
    rw [if_neg hclear, if_neg hclear]
    rfl

lemma areBytes_setBit {state : Bool × List ℕ} (h : AreBytes state.2) (idx : ℕ) :
    AreBytes (setBit state idx).2 := by
  rw [setBit]
  split_ifs with hclear
  · intro byte hbyte
    rcases List.mem_or_eq_of_mem_set hbyte with hbyte | rfl
    · exact h byte hbyte
    · exact or_mask_lt (getD_lt h _) idx
  · exact h

/-- The loop in `check_and_add` raises nothing. -/
lemma foldlM_setBitChecked {indices : List ℕ} {state : Bool × List ℕ}
    (hindices : ∀ i ∈ indices, i / 8 < state.2.length) (hbytes : AreBytes state.2) :
    indices.foldlM setBitChecked state = .ok (indices.foldl setBit state) ∧
      AreBytes (indices.foldl setBit state).2 := by
  induction indices generalizing state with
  | nil => exact ⟨rfl, hbytes⟩
  | cons idx indices ih =>
      have hidx : idx / 8 < state.2.length := hindices idx (by simp)
      have htail : ∀ i ∈ indices, i / 8 < (setBit state idx).2.length := by
        intro i hi
        rw [length_setBit]
        exact hindices i (by simp [hi])
      rw [List.foldlM_cons, setBitChecked_eq_ok hidx hbytes, List.foldl_cons]
      exact ih htail (areBytes_setBit hbytes idx)

lemma containsChecked_eq_ok {bytes : List ℕ} {indices : List ℕ}
    (hindices : ∀ i ∈ indices, i / 8 < bytes.length) :
    containsChecked bytes indices = .ok (indices.all (isSet bytes)) := by
  induction indices with
  | nil => rfl
  | cons idx indices ih =>
      have hbit : (bytes.getD (idx / 8) 0 >>> (idx % 8) &&& 1 = 0) ↔ isSet bytes idx = false := by
        rw [isSet, Nat.testBit, Nat.and_comm]
        simp
      rw [containsChecked, readByte_eq_ok (hindices idx (by simp)), List.all_cons]
      show (if bytes.getD (idx / 8) 0 >>> (idx % 8) &&& 1 = 0 then _ else _) = _
      cases hset : isSet bytes idx with
      | false => rw [if_pos (hbit.2 hset), Bool.false_and]; rfl
      | true =>
          rw [if_neg (by rw [hbit, hset]; simp), Bool.true_and]
          exact ih fun i hi => hindices i (by simp [hi])

/-! ### The bits that are set -/

namespace BloomFilter

/-- The filter that the constructor makes once it has computed the sizes. -/
def empty (m k : ℕ) (hm : 1 ≤ m) : BloomFilter where
  m := m
  k := k
  bytes := List.replicate ((m + 7) / 8) 0
  m_pos := hm
  length_bytes := List.length_replicate

/-- The bits of the bytearray that are set. -/
def setBits (f : BloomFilter) : Finset ℕ :=
  (Finset.range (8 * f.bytes.length)).filter fun j => isSet f.bytes j = true

variable {hash : Murmur} {f : BloomFilter} {key : String}

lemma mem_setBits {j : ℕ} : j ∈ f.setBits ↔ isSet f.bytes j = true := by
  rw [setBits, Finset.mem_filter, Finset.mem_range]
  refine ⟨fun h => h.2, fun h => ⟨?_, h⟩⟩
  by_contra hge
  have hnone : f.bytes[j / 8]? = none := List.getElem?_eq_none (by omega)
  rw [isSet, List.getD_eq_getElem?_getD, hnone] at h
  simp at h

/-- A call adds the bits of its key. -/
lemma setBits_checkAndAdd :
    (f.checkAndAdd hash key).2.setBits = f.setBits ∪ (bloomIndices hash key f.m f.k).toFinset := by
  ext j
  rw [Finset.mem_union, mem_setBits, mem_setBits, List.mem_toFinset, isSet_checkAndAdd,
    Bool.or_eq_true, decide_eq_true_iff]

/-- A key is in the filter if its bits are set. -/
lemma contains_iff :
    f.contains hash key = true ↔ (bloomIndices hash key f.m f.k).toFinset ⊆ f.setBits := by
  rw [contains, List.all_eq_true]
  constructor
  · intro h j hj
    exact mem_setBits.2 (h j (List.mem_toFinset.1 hj))
  · intro h j hj
    exact mem_setBits.1 (h (List.mem_toFinset.2 hj))

/-- The verdict `true` stands for at least one new bit and at most `k` of them, the
verdict `false` for none. -/
lemma card_setBits_checkAndAdd (hash : Murmur) (f : BloomFilter) (key : String) :
    if (f.checkAndAdd hash key).1 = true then
      f.setBits.card < (f.checkAndAdd hash key).2.setBits.card ∧
        (f.checkAndAdd hash key).2.setBits.card ≤ f.setBits.card + f.k
    else (f.checkAndAdd hash key).2.setBits = f.setBits := by
  rw [checkAndAdd_fst, setBits_checkAndAdd]
  cases hc : f.contains hash key with
  | true =>
      simp only [Bool.not_true, Bool.false_eq_true, if_false]
      exact Finset.union_eq_left.2 (contains_iff.1 hc)
  | false =>
      simp only [Bool.not_false, if_true]
      constructor
      · refine Finset.card_lt_card (Finset.ssubset_iff_subset_ne.2
          ⟨Finset.subset_union_left, fun heq => ?_⟩)
        have hsub := Finset.union_eq_left.1 heq.symm
        rw [contains_iff.2 hsub] at hc
        exact Bool.noConfusion hc
      · have hindices : (bloomIndices hash key f.m f.k).toFinset.card ≤ f.k := by
          refine (List.toFinset_card_le _).trans ?_
          simp [bloomIndices]
        exact (Finset.card_union_le _ _).trans (by omega)

/-! ### Runs -/

/-- What the calls keep of the filter: its sizes, its bytes are bytes, and the number of
keys it has counted agrees with its bits. -/
structure Sound (m k : ℕ) (f : BloomFilter) : Prop where
  m_eq : f.m = m
  k_eq : f.k = k
  areBytes : AreBytes f.bytes
  count_le : f.count ≤ f.setBits.card
  card_le : f.setBits.card ≤ k * f.count

variable {m k : ℕ} {hm : 1 ≤ m}

lemma sound_empty (m k : ℕ) (hm : 1 ≤ m) : Sound m k (empty m k hm) := by
  have hclear : (empty m k hm).setBits = ∅ := by
    refine Finset.eq_empty_of_forall_notMem fun j hj => ?_
    have hset := mem_setBits.1 hj
    rw [isSet, empty, List.getD_eq_getElem?_getD, List.getElem?_replicate] at hset
    split_ifs at hset <;> simp at hset
  refine ⟨rfl, rfl, ?_, ?_, ?_⟩
  · intro byte hbyte
    rw [List.eq_of_mem_replicate hbyte]
    norm_num
  · exact Nat.zero_le _
  · rw [hclear, Finset.card_empty]
    exact Nat.zero_le _

lemma count_checkAndAdd (hash : Murmur) (f : BloomFilter) (key : String) :
    (f.checkAndAdd hash key).2.count = f.count + (if (f.checkAndAdd hash key).1 then 1 else 0) := by
  rw [checkAndAdd]
  dsimp only
  split_ifs <;> rfl

lemma Sound.checkAndAdd (h : Sound m k f) : Sound m k (f.checkAndAdd hash key).2 := by
  have hbits := card_setBits_checkAndAdd hash f key
  have hcount := count_checkAndAdd hash f key
  obtain ⟨rfl, rfl, hbytes, hle, hcard⟩ := h
  refine ⟨rfl, rfl, (foldlM_setBitChecked (fun _ => index_lt) hbytes).2, ?_, ?_⟩
  · split_ifs at hbits hcount with hnew
    · omega
    · rw [hbits, hcount]
      omega
  · split_ifs at hbits hcount with hnew
    · rw [hcount, Nat.mul_add, Nat.mul_one]
      omega
    · rw [hbits, hcount]
      omega

lemma sound_after (hash : Murmur) (keys : List String) :
    Sound m k ((seenSet hash).after (empty m k hm) keys) := by
  induction keys using List.reverseRecOn with
  | nil => exact sound_empty m k hm
  | append_singleton keys key ih =>
      rw [SeenSet.after_append_singleton]
      exact ih.checkAndAdd

/-- The filter counts the verdicts `true`. -/
lemma count_after (hash : Murmur) (keys : List String) :
    ((seenSet hash).after (empty m k hm) keys).count =
      ((seenSet hash).verdicts (empty m k hm) keys).count true := by
  induction keys using List.reverseRecOn with
  | nil => rfl
  | append_singleton keys key ih =>
      rw [SeenSet.after_append_singleton, SeenSet.verdicts_append_singleton, List.count_append,
        ← ih]
      show (checkAndAdd hash _ key).2.count = _ + List.count true [(checkAndAdd hash _ key).1]
      rw [count_checkAndAdd]
      cases (checkAndAdd hash ((seenSet hash).after (empty m k hm) keys) key).1 <;> rfl

/-- **The Bloom filter has no false negatives, and its answers and its length agree with
its bits.**  After any sequence of calls on a filter that was empty: no access raises; the
next verdict is `true` exactly if the key is not in the filter; the keys of the sequence
are in the filter and get the verdict `false` from now on; and the length is the number
of verdicts `true`, at least the number of set bits over `k`, and at most the numbers of
set bits and of different keys. -/
theorem bloomFilter_run (hm : 1 ≤ m) (hash : Murmur) (keys : List String) :
    let f := (seenSet hash).after (empty m k hm) keys
    f.bytes.length = (m + 7) / 8 ∧
      (∀ key, (bloomIndices hash key f.m f.k).foldlM setBitChecked (false, f.bytes) =
          .ok ((f.checkAndAdd hash key).1, (f.checkAndAdd hash key).2.bytes) ∧
        containsChecked f.bytes (bloomIndices hash key f.m f.k) = .ok (f.contains hash key) ∧
        ((f.checkAndAdd hash key).1 = true ↔ f.contains hash key = false)) ∧
      (∀ key ∈ keys, f.contains hash key = true ∧ (f.checkAndAdd hash key).1 = false) ∧
      f.count = ((seenSet hash).verdicts (empty m k hm) keys).count true ∧
      f.setBits.card ≤ k * f.count ∧ f.count ≤ f.setBits.card ∧
      f.count ≤ keys.toFinset.card := by
  intro f
  have hsound : Sound m k f := sound_after hash keys
  have hcount : f.count = ((seenSet hash).verdicts (empty m k hm) keys).count true :=
    count_after hash keys
  refine ⟨?_, fun key => ⟨?_, ?_, ?_⟩, fun key hkey => ?_, hcount, hsound.card_le,
    hsound.count_le, ?_⟩
  · rw [f.length_bytes, hsound.m_eq]
  · exact (foldlM_setBitChecked (fun _ => index_lt) hsound.areBytes).1
  · exact containsChecked_eq_ok fun _ => index_lt
  · rw [checkAndAdd_fst, Bool.not_eq_true']
  · have hmem : (seenSet hash).Mem f key := (seenSet hash).mem_after hkey _
    exact ⟨hmem, (seenSet hash).fst_of_mem hmem⟩
  · rw [hcount]
    exact (seenSet hash).count_verdicts_le _ keys

/-- A hash that looks at the length of the key only. -/
def lengthMurmur : Murmur := fun key seed => UInt32.ofNat key.length + seed

/-- Two of the three calls add a key; the two keys have one bit in common. -/
theorem bloomFilter_run_three_keys :
    let f := (seenSet lengthMurmur).after (empty 20 3 (by decide)) ["a", "bb", "a"]
    f.count = 2 ∧ f.setBits = {1, 2, 4, 7, 12} ∧ f.bytes.length = 3 ∧
      f.contains lengthMurmur "a" = true ∧ (f.checkAndAdd lengthMurmur "a").1 = false ∧
      f.setBits.card ≤ 3 * f.count ∧ f.count ≤ f.setBits.card := by
  obtain ⟨hlen, -, hkeys, -, hcard, hcount, -⟩ :=
    bloomFilter_run (m := 20) (k := 3) (by decide) lengthMurmur ["a", "bb", "a"]
  refine ⟨rfl, ?_, hlen, ?_, ?_, hcard, hcount⟩
  · decide
  · exact (hkeys "a" (by simp)).1
  · exact (hkeys "a" (by simp)).2

end BloomFilter

end WebCrawler
