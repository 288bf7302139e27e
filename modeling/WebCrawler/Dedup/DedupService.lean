import WebCrawler.Dedup.SimHash
import WebCrawler.Lib.Effects
import Mathlib.Data.List.AList

/-!
# Near-duplicate detection

`InMemoryContentDedup` of `crawler/dedup/dedup_service.py`: fingerprints are indexed
by their bands, and a fingerprint is a duplicate if one of those that share a band
with it is within the Hamming threshold.  A fingerprint that is not a duplicate is
added to the bucket of each of its bands.
-/

namespace WebCrawler

/-- The buckets of the index: the fingerprints registered under a band and its value. -/
abbrev Buckets : Type := AList fun _ : ℕ × ℕ => List ℕ

namespace Buckets

/-- `buckets.get(key, ())`. -/
def bucket (b : Buckets) (key : ℕ × ℕ) : List ℕ := (b.lookup key).getD []

/-- `buckets.setdefault(key, []).append(fingerprint)`. -/
def append (b : Buckets) (key : ℕ × ℕ) (fingerprint : ℕ) : Buckets :=
  b.insert key (b.bucket key ++ [fingerprint])

/-- Appends the fingerprint to the buckets of all the keys. -/
def register (b : Buckets) (keys : List (ℕ × ℕ)) (fingerprint : ℕ) : Buckets :=
  keys.foldl (fun b key => b.append key fingerprint) b

/-- The fingerprints found in the buckets of the keys. -/
def candidates (b : Buckets) (keys : List (ℕ × ℕ)) : List ℕ := keys.flatMap b.bucket

lemma mem_bucket_append {b : Buckets} {key key' : ℕ × ℕ} {f x : ℕ} :
    x ∈ (b.append key f).bucket key' ↔ x ∈ b.bucket key' ∨ (key' = key ∧ x = f) := by
  by_cases h : key' = key
  · subst h
    simp [append, bucket, AList.lookup_insert]
  · simp [append, bucket, AList.lookup_insert_ne h, h]

/-- What the buckets hold after a registration. -/
lemma mem_bucket_register {b : Buckets} {keys : List (ℕ × ℕ)} {key : ℕ × ℕ} {f x : ℕ} :
    x ∈ (b.register keys f).bucket key ↔ x ∈ b.bucket key ∨ (key ∈ keys ∧ x = f) := by
  have hfold := Lib.foldl_iff (P := fun b : Buckets => x ∈ b.bucket key)
    (Q := fun k => key = k ∧ x = f) (fun _ _ => mem_bucket_append) keys b
  rw [register, hfold]
  simp

/-- A registered fingerprint is a candidate of its own bands. -/
lemma mem_candidates_register {b : Buckets} {keys : List (ℕ × ℕ)} {f : ℕ} (hne : keys ≠ []) :
    f ∈ (b.register keys f).candidates keys := by
  obtain ⟨key, hkey⟩ := List.exists_mem_of_ne_nil keys hne
  exact List.mem_flatMap.2 ⟨key, hkey, mem_bucket_register.2 (Or.inr ⟨hkey, rfl⟩)⟩

end Buckets

/-- The arguments of `InMemoryContentDedup`. -/
structure InMemoryContentDedup where
  bands : ℕ := 4
  bits : ℕ := 64
  threshold : ℤ := 3
deriving DecidableEq, Repr

namespace InMemoryContentDedup

variable (D : InMemoryContentDedup)

/-- `enumerate(values)`: each value with the number of its band. -/
def keys (values : List ℕ) : List (ℕ × ℕ) := values.zipIdx.map fun p => (p.2, p.1)

/-- Some fingerprint in the buckets of the keys is within the threshold. -/
def Near (b : Buckets) (keys : List (ℕ × ℕ)) (fingerprint : ℕ) : Prop :=
  ∃ other ∈ b.candidates keys, (hammingDistance fingerprint other : ℤ) ≤ D.threshold

instance (b : Buckets) (keys : List (ℕ × ℕ)) (fingerprint : ℕ) :
    Decidable (D.Near b keys fingerprint) :=
  inferInstanceAs (Decidable (∃ other ∈ b.candidates keys, _))

/-- Whether a registered fingerprint lies within the threshold; if not, the fingerprint
is registered. -/
def isDuplicate (fingerprint : ℕ) : EStateM PyError Buckets Bool := fun b =>
  match bandValues fingerprint D.bands D.bits with
  | .error e => .error e b
  | .ok values =>
      if D.Near b (keys values) fingerprint then .ok true b
      else .ok false (b.register (keys values) fingerprint)

/-- The page of the fingerprint is new to the index. -/
def Fresh (b : Buckets) (fingerprint : ℕ) : Prop :=
  ∀ values, bandValues fingerprint D.bands D.bits = .ok values →
    ¬ D.Near b (keys values) fingerprint

lemma keys_ne_nil {values : List ℕ} (h : values ≠ []) : keys values ≠ [] := by
  simpa [keys] using h

variable {D} {b b' : Buckets} {fingerprint : ℕ}

/-- The verdict on a fingerprint, and the index that it leaves behind. -/
lemma isDuplicate_eq_ok {dup : Bool} (h : (D.isDuplicate fingerprint).run b = .ok dup b') :
    ∃ values, bandValues fingerprint D.bands D.bits = .ok values ∧
      ((dup = true ∧ D.Near b (keys values) fingerprint ∧ b' = b) ∨
        (dup = false ∧ ¬ D.Near b (keys values) fingerprint ∧
          b' = b.register (keys values) fingerprint)) := by
  have h' : D.isDuplicate fingerprint b = .ok dup b' := h
  rw [isDuplicate] at h'
  cases hv : bandValues fingerprint D.bands D.bits with
  | error e => simp [hv] at h'
  | ok values =>
      simp only [hv] at h'
      split_ifs at h' with hn
      · obtain ⟨rfl, rfl⟩ := EStateM.Result.ok.inj h'
        exact ⟨values, rfl, Or.inl ⟨rfl, hn, rfl⟩⟩
      · obtain ⟨rfl, rfl⟩ := EStateM.Result.ok.inj h'
        exact ⟨values, rfl, Or.inr ⟨rfl, hn, rfl⟩⟩

/-- The verdict is `false` exactly for a fresh fingerprint. -/
lemma fresh_iff {dup : Bool} (h : (D.isDuplicate fingerprint).run b = .ok dup b') :
    D.Fresh b fingerprint ↔ dup = false := by
  obtain ⟨values, hv, ⟨rfl, hn, -⟩ | ⟨rfl, hn, -⟩⟩ := isDuplicate_eq_ok h
  · exact ⟨fun hf => absurd hn (hf values hv), by simp⟩
  · refine ⟨fun _ => rfl, fun _ values' hv' => ?_⟩
    rw [hv, Except.ok.injEq] at hv'
    exact hv' ▸ hn

/-- The second verdict on one fingerprint: `true` if the first one was, or if the
threshold is not negative. -/
lemma isDuplicate_again {dup dup' : Bool} {b'' : Buckets}
    (h : (D.isDuplicate fingerprint).run b = .ok dup b')
    (h' : (D.isDuplicate fingerprint).run b' = .ok dup' b'') :
    dup' = (dup || decide (0 ≤ D.threshold)) := by
  obtain ⟨values, hv, hcase⟩ := isDuplicate_eq_ok h
  obtain ⟨values', hv', hcase'⟩ := isDuplicate_eq_ok h'
  rw [hv, Except.ok.injEq] at hv'
  subst hv'
  rcases hcase with ⟨rfl, hn, rfl⟩ | ⟨rfl, hn, rfl⟩
  · rcases hcase' with ⟨rfl, -, -⟩ | ⟨rfl, hn', -⟩
    · simp
    · exact absurd hn hn'
  · -- the first call has put the fingerprint into its own buckets
    have hne : values ≠ [] := by
      obtain ⟨hlen, hb⟩ := length_of_bandValues hv
      rintro rfl
      exact hb hlen.symm
    have hself := Buckets.mem_candidates_register (b := b) (f := fingerprint) (keys_ne_nil hne)
    rcases hcase' with ⟨rfl, ⟨other, -, hle⟩, -⟩ | ⟨rfl, hn', -⟩
    · have : (0 : ℤ) ≤ D.threshold := le_trans (by positivity) hle
      simp [this]
    · have hneg : ¬ (0 : ℤ) ≤ D.threshold := by
        intro hnn
        exact hn' ⟨fingerprint, hself, by simpa using hnn⟩
      simp [hneg]

end InMemoryContentDedup

end WebCrawler
