import WebCrawler.Dedup.DedupService

/-!
# The bands lose no near-duplicate

`InMemoryContentDedup` compares a fingerprint only with those that share a band with
it.  When the threshold is below the number of bands nothing is lost by that: two
fingerprints that differ in fewer bits than there are bands agree on some band, since
the bands are disjoint ranges of bits.  So the index answers as the reference does,
which compares a fingerprint with every accepted one.

The bits above `bands * (bits / bands)` belong to no band.  They count for the Hamming
distance, which only makes the distance larger.
-/

namespace WebCrawler

open Lib

/-! ### Bits that differ -/

/-- The set bits of a number are those that `bitCount` counts. -/
lemma card_le_bitCount {n : ℕ} {s : Finset ℕ} (hs : ∀ i ∈ s, n.testBit i = true) :
    s.card ≤ bitCount n := by
  have hsub : s ⊆ ((List.range (n.log2 + 1)).filter n.testBit).toFinset := by
    intro i hi
    have hlt : i < n.log2 + 1 := by
      by_contra hge
      have hpow : n < 2 ^ i :=
        lt_of_lt_of_le Nat.lt_log2_self (Nat.pow_le_pow_right (by norm_num) (not_lt.1 hge))
      have hclear := Nat.testBit_lt_two_pow hpow
      rw [hs i hi] at hclear
      exact Bool.noConfusion hclear
    simp [hlt, hs i hi]
  calc s.card ≤ ((List.range (n.log2 + 1)).filter n.testBit).toFinset.card :=
        Finset.card_le_card hsub
    _ ≤ ((List.range (n.log2 + 1)).filter n.testBit).length := List.toFinset_card_le _
    _ = bitCount n := by rw [bitCount, List.countP_eq_length_filter]

/-- The value of one band. -/
def bandValue (fingerprint bandSize band : ℕ) : ℕ :=
  (fingerprint >>> (band * bandSize)) &&& (1 <<< bandSize - 1)

/-- The bits of a band are a range of the bits of the fingerprint. -/
lemma testBit_bandValue (fingerprint bandSize band j : ℕ) :
    (bandValue fingerprint bandSize band).testBit j =
      (fingerprint.testBit (band * bandSize + j) && decide (j < bandSize)) := by
  rw [bandValue, Nat.testBit_and, Nat.testBit_shiftRight, Nat.one_shiftLeft,
    Nat.testBit_two_pow_sub_one]

/-- Two different values of a band differ in one of its bits. -/
lemma exists_testBit_of_bandValue_ne {a b bandSize band : ℕ}
    (h : bandValue a bandSize band ≠ bandValue b bandSize band) :
    ∃ j < bandSize, (a ^^^ b).testBit (band * bandSize + j) = true := by
  by_contra hall
  push Not at hall
  refine h (Nat.eq_of_testBit_eq fun j => ?_)
  rw [testBit_bandValue, testBit_bandValue]
  by_cases hj : j < bandSize
  · have hbit := hall j hj
    rw [Nat.testBit_xor] at hbit
    have heq : a.testBit (band * bandSize + j) = b.testBit (band * bandSize + j) := by
      simpa using hbit
    rw [heq]
  · simp [hj]

/-- **Pigeonhole.**  Two fingerprints that differ in fewer bits than there are bands
have a band in common. -/
lemma exists_bandValue_eq {a b bands : ℕ} (bandSize : ℕ) (h : hammingDistance a b < bands) :
    ∃ band < bands, bandValue a bandSize band = bandValue b bandSize band := by
  by_contra hall
  push Not at hall
  -- a differing bit in each band: different bands give different bits
  have hdiff : ∀ band : Fin bands, ∃ j < bandSize,
      (a ^^^ b).testBit (band * bandSize + j) = true :=
    fun band => exists_testBit_of_bandValue_ne (hall band band.isLt)
  choose offset hoffset hbit using hdiff
  let place : Fin bands → ℕ := fun band => band * bandSize + offset band
  have hinj : Function.Injective place := by
    intro band band' heq
    have hdiv : ∀ c : Fin bands, place c / bandSize = c := by
      intro c
      have hpos : 0 < bandSize := lt_of_le_of_lt (Nat.zero_le _) (hoffset c)
      show (c * bandSize + offset c) / bandSize = c
      rw [Nat.add_comm, Nat.add_mul_div_right _ _ hpos, Nat.div_eq_of_lt (hoffset c), Nat.zero_add]
    refine Fin.ext ?_
    rw [← hdiv band, ← hdiv band', heq]
  have hcard : bands ≤ hammingDistance a b := by
    calc bands = (Finset.univ.image place).card := by
          rw [Finset.card_image_of_injective _ hinj, Finset.card_univ, Fintype.card_fin]
      _ ≤ bitCount (a ^^^ b) := by
          refine card_le_bitCount fun i hi => ?_
          obtain ⟨band, -, rfl⟩ := Finset.mem_image.1 hi
          exact hbit band
  omega

/-! ### The reference -/

/-- Some accepted fingerprint is within the threshold. -/
def NearAccepted (threshold : ℤ) (accepted : List ℕ) (fingerprint : ℕ) : Prop :=
  ∃ other ∈ accepted, (hammingDistance fingerprint other : ℤ) ≤ threshold

instance (threshold : ℤ) (accepted : List ℕ) (fingerprint : ℕ) :
    Decidable (NearAccepted threshold accepted fingerprint) :=
  inferInstanceAs (Decidable (∃ other ∈ accepted, _))

/-- The dedup without an index: the state is the list of accepted fingerprints, all of
them are compared, and a fingerprint is accepted if it is not a duplicate. -/
def naiveIsDuplicate (threshold : ℤ) (fingerprint : ℕ) : StateM (List ℕ) Bool := fun accepted =>
  if NearAccepted threshold accepted fingerprint then (true, accepted)
  else (false, accepted ++ [fingerprint])

/-- Any two fingerprints of the list are more than the threshold apart. -/
def Apart (threshold : ℤ) (accepted : List ℕ) : Prop :=
  accepted.Pairwise fun f other => threshold < (hammingDistance f other : ℤ)

lemma hammingDistance_comm (a b : ℕ) : hammingDistance a b = hammingDistance b a := by
  rw [hammingDistance, hammingDistance, Nat.xor_comm]

/-- A fingerprint far from all the accepted ones joins them. -/
lemma Apart.append {threshold : ℤ} {accepted : List ℕ} {fingerprint : ℕ}
    (h : Apart threshold accepted) (hfar : ¬ NearAccepted threshold accepted fingerprint) :
    Apart threshold (accepted ++ [fingerprint]) := by
  refine List.pairwise_append.2 ⟨h, List.pairwise_singleton _ _, ?_⟩
  intro other hother f hf
  obtain rfl := List.mem_singleton.1 hf
  rw [hammingDistance_comm]
  by_contra hle
  exact hfar ⟨other, hother, not_lt.1 hle⟩

/-- What is apart has no repetitions. -/
lemma Apart.nodup {threshold : ℤ} {accepted : List ℕ} (h : Apart threshold accepted)
    (hthreshold : 0 ≤ threshold) : accepted.Nodup := by
  refine List.Pairwise.imp (fun {f g} hlt heq => ?_) h
  subst heq
  rw [hammingDistance_self] at hlt
  exact absurd hlt (not_lt.2 (by exact_mod_cast hthreshold))

/-- The reference only accepts what is far from everything accepted before. -/
lemma apart_naive {threshold : ℤ} (fingerprint : ℕ) (accepted : List ℕ)
    (h : Apart threshold accepted) :
    Apart threshold ((naiveIsDuplicate threshold fingerprint).run accepted).2 := by
  show Apart threshold (naiveIsDuplicate threshold fingerprint accepted).2
  rw [naiveIsDuplicate]
  split_ifs with hnear
  · exact h
  · exact h.append hnear

/-! ### The keys of a fingerprint -/

/-- The bands of a fingerprint with their values. -/
def bandKeys (bands bits fingerprint : ℕ) : List (ℕ × ℕ) :=
  InMemoryContentDedup.keys ((List.range bands).map (bandValue fingerprint (bits / bands)))

section BandKeys

variable {bands bits : ℕ}

lemma bandValues_eq_ok (hbands : 1 ≤ bands) (fingerprint : ℕ) :
    bandValues fingerprint bands bits =
      .ok ((List.range bands).map (bandValue fingerprint (bits / bands))) := by
  rw [bandValues, if_neg (by omega)]
  rfl

lemma mem_bandKeys {fingerprint : ℕ} {key : ℕ × ℕ} :
    key ∈ bandKeys bands bits fingerprint ↔
      key.1 < bands ∧ key.2 = bandValue fingerprint (bits / bands) key.1 := by
  obtain ⟨band, value⟩ := key
  simp only [bandKeys, InMemoryContentDedup.keys, List.mem_map, Prod.exists, Prod.mk.injEq,
    List.mem_zipIdx_iff_getElem?]
  constructor
  · rintro ⟨value', band', hget, rfl, rfl⟩
    obtain ⟨hlt, rfl⟩ := List.getElem?_eq_some_iff.1 hget
    simp only [List.length_map, List.length_range] at hlt
    exact ⟨hlt, by simp⟩
  · rintro ⟨hlt, rfl⟩
    exact ⟨_, band, by simp [hlt], rfl, rfl⟩

/-- Two fingerprints within a threshold below the number of bands share a key. -/
lemma exists_mem_bandKeys (bits : ℕ) {threshold : ℤ} {a b : ℕ} (hthreshold : threshold < bands)
    (h : (hammingDistance a b : ℤ) ≤ threshold) :
    ∃ key, key ∈ bandKeys bands bits a ∧ key ∈ bandKeys bands bits b := by
  have hlt : hammingDistance a b < bands := by
    have := lt_of_le_of_lt h hthreshold
    exact_mod_cast this
  obtain ⟨band, hband, heq⟩ := exists_bandValue_eq (bits / bands) hlt
  exact ⟨(band, bandValue a (bits / bands) band), mem_bandKeys.2 ⟨hband, rfl⟩,
    mem_bandKeys.2 ⟨hband, heq⟩⟩

end BandKeys

/-! ### The index answers as the reference -/

namespace InMemoryContentDedup

variable (D : InMemoryContentDedup)

/-- The buckets index the accepted fingerprints: a fingerprint is in a bucket exactly if
it is accepted and the bucket is the one of a band of it. -/
def Indexes (b : Buckets) (accepted : List ℕ) : Prop :=
  ∀ key x, x ∈ b.bucket key ↔ x ∈ accepted ∧ key ∈ bandKeys D.bands D.bits x

variable {D}

lemma indexes_empty : D.Indexes ∅ [] := by
  intro key x
  simp [Buckets.bucket]

/-- Registering a fingerprint is accepting it. -/
lemma Indexes.register {b : Buckets} {accepted : List ℕ} (h : D.Indexes b accepted)
    (fingerprint : ℕ) :
    D.Indexes (b.register (bandKeys D.bands D.bits fingerprint) fingerprint)
      (accepted ++ [fingerprint]) := by
  intro key x
  rw [Buckets.mem_bucket_register, h key x, List.mem_append, List.mem_singleton]
  constructor
  · rintro (⟨hx, hkey⟩ | ⟨hkey, rfl⟩)
    · exact ⟨Or.inl hx, hkey⟩
    · exact ⟨Or.inr rfl, hkey⟩
  · rintro ⟨hx | rfl, hkey⟩
    · exact Or.inl ⟨hx, hkey⟩
    · exact Or.inr ⟨hkey, rfl⟩

/-- With the threshold below the number of bands, a near accepted fingerprint is always
among the candidates. -/
lemma Indexes.near_iff {b : Buckets} {accepted : List ℕ} (h : D.Indexes b accepted)
    (hthreshold : D.threshold < D.bands) (fingerprint : ℕ) :
    D.Near b (bandKeys D.bands D.bits fingerprint) fingerprint ↔
      NearAccepted D.threshold accepted fingerprint := by
  constructor
  · rintro ⟨other, hother, hle⟩
    obtain ⟨key, -, hmem⟩ := List.mem_flatMap.1 hother
    exact ⟨other, ((h key other).1 hmem).1, hle⟩
  · rintro ⟨other, hother, hle⟩
    obtain ⟨key, hkey, hkey'⟩ := exists_mem_bandKeys D.bits hthreshold hle
    exact ⟨other, List.mem_flatMap.2 ⟨key, hkey, (h key other).2 ⟨hother, hkey'⟩⟩, hle⟩

/-- One call, with the index and with the reference. -/
lemma Indexes.step {b : Buckets} {accepted : List ℕ} (h : D.Indexes b accepted)
    (hbands : 1 ≤ D.bands) (hthreshold : D.threshold < D.bands) (fingerprint : ℕ) :
    ∃ b', (D.isDuplicate fingerprint).run b =
        .ok ((naiveIsDuplicate D.threshold fingerprint).run accepted).1 b' ∧
      D.Indexes b' ((naiveIsDuplicate D.threshold fingerprint).run accepted).2 := by
  have hiff := h.near_iff hthreshold fingerprint
  show ∃ b', D.isDuplicate fingerprint b =
      .ok (naiveIsDuplicate D.threshold fingerprint accepted).1 b' ∧
    D.Indexes b' (naiveIsDuplicate D.threshold fingerprint accepted).2
  rw [isDuplicate, bandValues_eq_ok hbands fingerprint, naiveIsDuplicate]
  by_cases hnear : NearAccepted D.threshold accepted fingerprint
  · rw [if_pos hnear]
    exact ⟨b, if_pos (hiff.2 hnear), h⟩
  · rw [if_neg hnear]
    exact ⟨_, if_neg (mt hiff.1 hnear), h.register fingerprint⟩

/-- **The index is exact below the number of bands.**  On any sequence of fingerprints
the calls return what the reference answers and leave an index of what it has accepted,
which is pairwise more than the threshold apart. -/
theorem mapM_isDuplicate_eq_naive (D : InMemoryContentDedup) (hbands : 1 ≤ D.bands)
    (hthreshold : D.threshold < D.bands) (fingerprints : List ℕ) :
    let naive := (fingerprints.mapM (naiveIsDuplicate D.threshold)).run []
    (∃ b, (fingerprints.mapM D.isDuplicate).run ∅ = .ok naive.1 b ∧ D.Indexes b naive.2) ∧
      Apart D.threshold naive.2 :=
  ⟨run_mapM_of_simulation
      (fun fingerprint _ _ h => Indexes.step h hbands hthreshold fingerprint) fingerprints
      indexes_empty,
    mapM_state_inv apart_naive fingerprints List.Pairwise.nil⟩

/-- Three bands of two bits and two bits that belong to no band, threshold two: the
second fingerprint differs from the first one in two bits, the third one in three. -/
theorem mapM_isDuplicate_three_bands :
    (∃ b, ([0, 129, 194].mapM (isDuplicate ⟨3, 8, 2⟩)).run ∅ = .ok [false, true, false] b ∧
      Indexes ⟨3, 8, 2⟩ b [0, 194]) ∧ Apart 2 [0, 194] :=
  mapM_isDuplicate_eq_naive ⟨3, 8, 2⟩ (by decide) (by decide) [0, 129, 194]

end InMemoryContentDedup

end WebCrawler
