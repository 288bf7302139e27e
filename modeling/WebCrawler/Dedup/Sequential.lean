import WebCrawler.Dedup.RedisDedup

/-!
# One call at a time

`RedisContentDedup` is `InMemoryContentDedup` with the buckets in Redis.  Its calls read and
write the sets one command at a time, so that they may see the index of a moment that another call
has passed; and the sets expire, where the buckets in memory stay.  As long as no set expires, the
first difference is the only one: where each call has returned before the next one begins, the
verdicts are those of the class in memory (`sequential_eq_memory`), whatever the threshold and the
number of bands, so also where the bands lose near fingerprints.

Both classes compare a fingerprint with the accepted ones that share a band with it.  A bucket of
the one is a bucket of the other, since the key of a Redis set determines the band and its value.
-/

namespace WebCrawler

open Lib

namespace InMemoryContentDedup

variable (D : InMemoryContentDedup)

/-- Calls of `is_duplicate`, one after the other: the fingerprints that got the verdict `false`,
and those that got the verdict `true`. -/
def sort (fingerprints : List ℕ) : EStateM PyError Buckets (List ℕ × List ℕ) :=
  fingerprints.foldlM
    (fun sorted fingerprint => do
      if ← D.isDuplicate fingerprint then pure (sorted.1, sorted.2 ++ [fingerprint])
      else pure (sorted.1 ++ [fingerprint], sorted.2))
    ([], [])

/-- An accepted fingerprint within the threshold shares a band. -/
def SharesBand (accepted : List ℕ) (fingerprint : ℕ) : Prop :=
  ∃ other ∈ accepted, (∃ key ∈ bandKeys D.bands D.bits fingerprint,
    key ∈ bandKeys D.bands D.bits other) ∧ (hammingDistance fingerprint other : ℤ) ≤ D.threshold

variable {D}

lemma Indexes.near_iff_sharesBand {b : Buckets} {accepted : List ℕ} (h : D.Indexes b accepted)
    (fingerprint : ℕ) :
    D.Near b (bandKeys D.bands D.bits fingerprint) fingerprint ↔
      D.SharesBand accepted fingerprint := by
  constructor
  · rintro ⟨other, hother, hle⟩
    obtain ⟨key, hkey, hmem⟩ := List.mem_flatMap.1 hother
    obtain ⟨haccepted, hkey'⟩ := (h key other).1 hmem
    exact ⟨other, haccepted, ⟨key, hkey, hkey'⟩, hle⟩
  · rintro ⟨other, haccepted, ⟨key, hkey, hkey'⟩, hle⟩
    exact ⟨other, List.mem_flatMap.2 ⟨key, hkey, (h key other).2 ⟨haccepted, hkey'⟩⟩, hle⟩

/-- One more call. -/
lemma sort_snoc (hbands : 1 ≤ D.bands) {done accepted rejected : List ℕ} {b : Buckets}
    (h : (D.sort done).run ∅ = .ok (accepted, rejected) b) (hb : D.Indexes b accepted)
    (fingerprint : ℕ) :
    (D.SharesBand accepted fingerprint →
      (D.sort (done ++ [fingerprint])).run ∅ = .ok (accepted, rejected ++ [fingerprint]) b) ∧
    (¬ D.SharesBand accepted fingerprint →
      ∃ b', (D.sort (done ++ [fingerprint])).run ∅ = .ok (accepted ++ [fingerprint], rejected) b' ∧
        D.Indexes b' (accepted ++ [fingerprint])) := by
  have hnear := hb.near_iff_sharesBand fingerprint
  have hrun : ∀ dup b', (D.isDuplicate fingerprint).run b = .ok dup b' →
      (D.sort (done ++ [fingerprint])).run ∅ =
        .ok (if dup then (accepted, rejected ++ [fingerprint])
          else (accepted ++ [fingerprint], rejected)) b' := by
    intro dup b' hdup
    rw [sort, List.foldlM_append]
    refine run_bind_eq_ok.2 ⟨_, b, h, ?_⟩
    rw [List.foldlM_cons]
    refine run_bind_eq_ok.2 ⟨_, b', run_bind_eq_ok.2 ⟨dup, b', hdup, ?_⟩, rfl⟩
    cases dup
    · rfl
    · rfl
  constructor
  · intro hshares
    refine hrun true b ?_
    show D.isDuplicate fingerprint b = _
    rw [isDuplicate, bandValues_eq_ok hbands fingerprint]
    exact if_pos (hnear.2 hshares)
  · intro hshares
    refine ⟨_, hrun false _ ?_, hb.register fingerprint⟩
    show D.isDuplicate fingerprint b = _
    rw [isDuplicate, bandValues_eq_ok hbands fingerprint]
    exact if_neg (mt hnear.1 hshares)

end InMemoryContentDedup

namespace RedisContentDedup

variable (D : RedisContentDedup)

/-- The class in memory with the same arguments. -/
def inMemory : InMemoryContentDedup := ⟨D.bands, D.bits, D.threshold⟩

/-- A call begins when no other is under way. -/
def Alone (s : DedupState) : DedupAct → Prop
  | .call _ => s.calls = []
  | _ => True

instance (s : DedupState) : ∀ a, Decidable (Alone s a)
  | .call _ => inferInstanceAs (Decidable (s.calls = []))
  | .smembers _ => inferInstanceAs (Decidable True)
  | .finish _ => inferInstanceAs (Decidable True)

/-- The fingerprints of the calls, in their order. -/
def fingerprintsOf (acts : List DedupAct) : List ℕ :=
  acts.filterMap fun
    | .call fingerprint => some fingerprint
    | _ => none

variable {D} {s t : DedupState} {a : DedupAct}

/-! ### The keys of the sets -/

/-- The key of a set determines the band and its value. -/
lemma bucketKey_inj {band value band' value' : ℕ} :
    D.bucketKey band value = D.bucketKey band' value' ↔ band = band' ∧ value = value' := by
  have hdigits : ∀ n : ℕ, (toString n).toList = Nat.toDigits 10 n := fun _ => Nat.toList_repr
  have hcolon : ∀ n : ℕ, ':' ∉ Nat.toDigits 10 n := fun _ hmem =>
    absurd (Nat.isDigit_of_mem_toDigits (by norm_num) (by norm_num) hmem) (by decide)
  have hinj : ∀ n m : ℕ, Nat.toDigits 10 n = Nat.toDigits 10 m → n = m := by
    intro n m h
    -- reading the digits gives the number back
    calc n = Nat.ofDigitChars 10 (Nat.toDigits 10 n) 0 := Nat.ofDigitChars_ten_toDigits.symm
      _ = Nat.ofDigitChars 10 (Nat.toDigits 10 m) 0 := by rw [h]
      _ = m := Nat.ofDigitChars_ten_toDigits
  constructor
  · intro h
    have hlists := congrArg String.toList h
    simp only [bucketKey, String.toList_append, List.append_assoc, List.append_cancel_left_eq,
      hdigits] at hlists
    have hcolons : Nat.toDigits 10 band ++ ':' :: Nat.toDigits 10 value =
        Nat.toDigits 10 band' ++ ':' :: Nat.toDigits 10 value' := hlists
    obtain ⟨hband, -, hvalue⟩ :=
      (List.append_cons_inj_of_notMem (hcolon band) (hcolon value)).1 hcolons
    exact ⟨hinj _ _ hband, hinj _ _ hvalue⟩
  · rintro ⟨rfl, rfl⟩
    rfl

/-- A fingerprint is in a set that a call has to read exactly if it is accepted and shares a
band. -/
lemma mem_keysOf_iff {f g : ℕ} :
    (∃ key ∈ D.keysOf f, key ∈ D.keysOf g) ↔
      ∃ key ∈ bandKeys D.bands D.bits f, key ∈ bandKeys D.bands D.bits g := by
  constructor
  · rintro ⟨key, hf, hg⟩
    obtain ⟨p, hp, rfl⟩ := List.mem_map.1 hf
    obtain ⟨q, hq, heq⟩ := List.mem_map.1 hg
    obtain ⟨hband, hvalue⟩ := bucketKey_inj.1 heq
    have hqp : q = p := Prod.ext hband hvalue
    exact ⟨p, hp, hqp ▸ hq⟩
  · rintro ⟨p, hp, hq⟩
    exact ⟨D.bucketKey p.1 p.2, List.mem_map_of_mem hp, List.mem_map_of_mem hq⟩

/-! ### One call at a time -/

/-- What a call has read so far, if the sets are as they were at its beginning. -/
def HasRead (s : DedupState) (call : DedupCall) : Prop :=
  ∃ read, call.keys = read ++ call.unread ∧
    ∀ x, x ∈ call.candidates ↔ ∃ key ∈ read, x ∈ s.sets.smembers key

variable (D)

/-- Between two steps of a run of single calls: the calls that have returned are those in memory,
and the one under way, if there is one, is the last of them. -/
structure Follows (fingerprints : List ℕ) (s : DedupState) : Prop where
  indexed : D.Indexed s
  sorted : ∃ done b, (D.inMemory.sort done).run ∅ = .ok (s.accepted, s.rejected) b ∧
    D.inMemory.Indexes b s.accepted ∧
    ((s.calls = [] ∧ fingerprints = done) ∨
      ∃ call, s.calls = [call] ∧ fingerprints = done ++ [call.fingerprint] ∧ HasRead s call)

variable {D}

lemma follows_init : D.Follows [] D.machine.init where
  indexed := indexed_of_reachable .init
  sorted := ⟨[], ∅, rfl, InMemoryContentDedup.indexes_empty, Or.inl ⟨rfl, rfl⟩⟩

/-- What a call has read when it decides is what shares a band with its fingerprint. -/
lemma HasRead.near_iff {call : DedupCall} (hread : HasRead s call) (hs : D.Indexed s)
    (hcall : call ∈ s.calls) (hunread : call.unread = []) :
    D.Near call.fingerprint call.candidates ↔
      D.inMemory.SharesBand s.accepted call.fingerprint := by
  obtain ⟨read, hkeys, hcandidates⟩ := hread
  rw [hunread, List.append_nil, hs.keys_eq call hcall] at hkeys
  subst hkeys
  constructor
  · rintro ⟨other, hother, hle⟩
    obtain ⟨key, hkey, hmem⟩ := (hcandidates other).1 hother
    obtain ⟨haccepted, hkey'⟩ := (hs.mem_iff key other).1 hmem
    exact ⟨other, haccepted, mem_keysOf_iff.1 ⟨key, hkey, hkey'⟩, hle⟩
  · rintro ⟨other, haccepted, hshares, hle⟩
    obtain ⟨key, hkey, hkey'⟩ := mem_keysOf_iff.2 hshares
    exact ⟨other, (hcandidates other).2 ⟨key, hkey, (hs.mem_iff key other).2 ⟨haccepted, hkey'⟩⟩,
      hle⟩

/-- The fingerprint of a call that begins. -/
def began : DedupAct → List ℕ
  | .call fingerprint => [fingerprint]
  | _ => []

/-- If the calls under way are one, the call that moves is it. -/
lemma eq_of_split {pre post : List DedupCall} {call call' : DedupCall}
    (h : s.calls = pre ++ call :: post) (h' : s.calls = [call']) :
    pre = [] ∧ post = [] ∧ call' = call := by
  have hsplit : [call'] = pre ++ call :: post := h' ▸ h
  cases pre with
  | nil =>
      obtain ⟨rfl, rfl⟩ := List.cons.inj hsplit
      exact ⟨rfl, rfl, rfl⟩
  | cons c pre => simp at hsplit

lemma Follows.step {fingerprints : List ℕ} (hbands : 1 ≤ D.bands) (h : D.Follows fingerprints s)
    (halone : Alone s a) (hstep : D.step s a = some t) :
    D.Follows (fingerprints ++ began a) t := by
  have hmoves := moves_of_step hstep
  refine ⟨h.indexed.step hmoves, ?_⟩
  have hs := h.indexed
  obtain ⟨done, b, hsort, hb, hcase⟩ := h.sorted
  cases hmoves with
  | @raise fingerprint =>
      -- with a band the call does not raise
      rw [RedisContentDedup.step, bandValues_eq_ok hbands] at hstep
      have hlength := congrArg (fun s : DedupState => s.calls.length) (Option.some.inj hstep)
      simp at hlength
  | @call fingerprint values hvalues =>
      obtain ⟨-, rfl⟩ | ⟨call, hcalls, -⟩ := hcase
      · have hcalls : s.calls = [] := halone
        refine ⟨fingerprints, b, hsort, hb, Or.inr ⟨_, by rw [hcalls]; rfl, rfl, [], rfl, ?_⟩⟩
        simp
      · exact absurd (hcalls.symm.trans halone) (by simp)
  | @smembers pre post fingerprint keys unread key candidates hcalls =>
      obtain ⟨hnil, -⟩ | ⟨call, hcalls', rfl, read, hkeys, hread⟩ := hcase
      · exact absurd (hcalls.symm.trans hnil) (by simp)
      · obtain ⟨rfl, rfl, rfl⟩ := eq_of_split hcalls hcalls'
        refine ⟨done, b, hsort, hb, Or.inr ⟨_, rfl, by simp [began], read ++ [key], ?_, ?_⟩⟩
        · simpa using hkeys
        · intro x
          rw [Finset.mem_union, hread x]
          simp [or_and_right, exists_or]
  | @reject pre post fingerprint keys candidates hcalls hnear =>
      obtain ⟨hnil, -⟩ | ⟨call, hcalls', rfl, hread⟩ := hcase
      · exact absurd (hcalls.symm.trans hnil) (by simp)
      · obtain ⟨rfl, rfl, rfl⟩ := eq_of_split hcalls hcalls'
        have hshares := (hread.near_iff hs (by simp [hcalls]) rfl).1 hnear
        have hsnoc := (InMemoryContentDedup.sort_snoc hbands hsort hb fingerprint).1 hshares
        exact ⟨done ++ [fingerprint], b, hsnoc, hb, Or.inl ⟨rfl, by simp [began]⟩⟩
  | @accept pre post fingerprint keys candidates hcalls hfar =>
      obtain ⟨hnil, -⟩ | ⟨call, hcalls', rfl, hread⟩ := hcase
      · exact absurd (hcalls.symm.trans hnil) (by simp)
      · obtain ⟨rfl, rfl, rfl⟩ := eq_of_split hcalls hcalls'
        have hshares := mt (hread.near_iff hs (by simp [hcalls]) rfl).2 hfar
        obtain ⟨b', hsnoc, hb'⟩ :=
          (InMemoryContentDedup.sort_snoc hbands hsort hb fingerprint).2 hshares
        exact ⟨done ++ [fingerprint], b', hsnoc, hb', Or.inl ⟨rfl, by simp [began]⟩⟩

lemma Follows.exec (hbands : 1 ≤ D.bands) {acts : List DedupAct} {fingerprints : List ℕ}
    (h : D.Follows fingerprints s) (he : D.machine.exec Alone s acts = some t) :
    D.Follows (fingerprints ++ fingerprintsOf acts) t := by
  induction acts generalizing s fingerprints with
  | nil =>
      obtain rfl := Option.some.inj he
      simpa [fingerprintsOf] using h
  | cons a acts ih =>
      rw [Machine.exec] at he
      split_ifs at he with halone
      obtain ⟨s', hs', he'⟩ := Option.bind_eq_some_iff.1 he
      have hfollows := ih (h.step hbands halone hs') he'
      have happend : fingerprintsOf (a :: acts) = began a ++ fingerprintsOf acts := by
        cases a <;> rfl
      rwa [happend, ← List.append_assoc]

/-- **The shared index is the one in memory, as long as the calls do not overlap.**  In every run
in which a call begins only when no other is under way, after the last one has returned, the
fingerprints with the verdict `false` and those with the verdict `true` are the ones of the class
in memory on the same calls in the same order, for any threshold and any number of bands. -/
theorem sequential_eq_memory (D : RedisContentDedup) (hbands : 1 ≤ D.bands)
    (acts : List DedupAct) {s : DedupState} (h : D.machine.exec Alone D.machine.init acts = some s)
    (hcalls : s.calls = []) :
    ∃ b, (D.inMemory.sort (fingerprintsOf acts)).run ∅ = .ok (s.accepted, s.rejected) b := by
  obtain ⟨done, b, hsort, -, ⟨-, rfl⟩ | ⟨call, hcall, -⟩⟩ := (follows_init.exec hbands h).sorted
  · exact ⟨b, hsort⟩
  · exact absurd (hcall.symm.trans hcalls) (by simp)

/-- With one band of all bits a fingerprint in a different value of it is not compared: two that
differ in one bit are both accepted, in Redis as in memory. -/
theorem sequential_eq_memory_oneBand :
    ∃ b, ((inMemory { bands := 1 }).sort [5, 4, 5]).run ∅ = .ok ([5, 4], [5]) b :=
  sequential_eq_memory { bands := 1 } (le_refl 1)
    [.call 5, .smembers 0, .finish 0, .call 4, .smembers 0, .finish 0, .call 5, .smembers 0,
      .finish 0] rfl rfl

end RedisContentDedup

end WebCrawler
