import WebCrawler.Dedup.Lsh
import WebCrawler.Lib.Machine

/-!
# Near-duplicate detection shared by the workers

`RedisContentDedup` of `crawler/dedup/dedup_service.py`.  The buckets are Redis sets.  A
call reads the sets of its bands one command at a time, then decides by what it has
read, and if no fingerprint is near it adds its own to all the sets in one transaction.
Any number of calls are under way, and each command is a step.  The entries of the sets
do not expire here.

The check and the registration are different steps.  A near fingerprint that another
call registers after this one has read the bucket is not seen, and both get the verdict
`false`.  The verdicts are right exactly as long as that does not happen:
`accepted_apart_iff`.
-/

namespace WebCrawler

open Lib

/-- The Redis sets by their keys.  The members are the decimal texts of the fingerprints,
here the numbers themselves. -/
abbrev RedisSets : Type := AList fun _ : String => Finset ℕ

namespace RedisSets

/-- The command `SMEMBERS`: an absent key is an empty set. -/
def smembers (sets : RedisSets) (key : String) : Finset ℕ := (sets.lookup key).getD ∅

/-- The command `SADD`. -/
def sadd (sets : RedisSets) (key : String) (member : ℕ) : RedisSets :=
  sets.insert key (insert member (sets.smembers key))

/-- The transaction at the end of a call: one `SADD` for each key. -/
def register (sets : RedisSets) (keys : List String) (member : ℕ) : RedisSets :=
  keys.foldl (fun sets key => sets.sadd key member) sets

lemma mem_smembers_sadd {sets : RedisSets} {key key' : String} {f x : ℕ} :
    x ∈ (sets.sadd key f).smembers key' ↔ x ∈ sets.smembers key' ∨ (key' = key ∧ x = f) := by
  by_cases h : key' = key
  · subst h
    simp [sadd, smembers, AList.lookup_insert, or_comm]
  · simp [sadd, smembers, AList.lookup_insert_ne h, h]

/-- What the sets hold after a registration. -/
lemma mem_smembers_register {sets : RedisSets} {keys : List String} {key : String} {f x : ℕ} :
    x ∈ (sets.register keys f).smembers key ↔
      x ∈ sets.smembers key ∨ (key ∈ keys ∧ x = f) := by
  have hfold := foldl_iff (P := fun sets : RedisSets => x ∈ sets.smembers key)
    (Q := fun k => key = k ∧ x = f) (fun _ _ => mem_smembers_sadd) keys sets
  rw [register, hfold]
  simp

end RedisSets

/-- The arguments of `RedisContentDedup`, the time to live apart. -/
structure RedisContentDedup where
  bands : ℕ := 4
  bits : ℕ := 64
  threshold : ℤ := 3
  /-- The argument `namespace`. -/
  keyspace : String := "lsh"
deriving DecidableEq, Repr

/-- A call of `is_duplicate` that has not returned yet. -/
structure DedupCall where
  fingerprint : ℕ
  /-- The keys of the buckets, one for each band. -/
  keys : List String
  /-- The keys that the loop has not come to yet. -/
  unread : List String
  candidates : Finset ℕ := ∅
deriving DecidableEq

/-- The sets, the calls under way, and the fingerprints whose calls have returned. -/
structure DedupState where
  sets : RedisSets := ∅
  calls : List DedupCall := []
  /-- The fingerprints that got the verdict `false`. -/
  accepted : List ℕ := []
  /-- The fingerprints that got the verdict `true`. -/
  rejected : List ℕ := []

/-- A worker calls `is_duplicate`; the call at a position sends its next `SMEMBERS`; the
call at a position has read all its buckets and decides. -/
inductive DedupAct
  | call (fingerprint : ℕ)
  | smembers (i : ℕ)
  | finish (i : ℕ)
deriving DecidableEq, Repr

namespace RedisContentDedup

variable (D : RedisContentDedup)

def bucketKey (band value : ℕ) : String :=
  D.keyspace ++ ":" ++ toString band ++ ":" ++ toString value

/-- The keys of the buckets for the values of the bands. -/
def bucketKeys (values : List ℕ) : List String :=
  (InMemoryContentDedup.keys values).map fun p => D.bucketKey p.1 p.2

/-- Some candidate is within the threshold. -/
def Near (fingerprint : ℕ) (candidates : Finset ℕ) : Prop :=
  ∃ other ∈ candidates, (hammingDistance fingerprint other : ℤ) ≤ D.threshold

instance (fingerprint : ℕ) (candidates : Finset ℕ) : Decidable (D.Near fingerprint candidates) :=
  inferInstanceAs (Decidable (∃ other ∈ candidates, _))

def step (s : DedupState) : DedupAct → Option DedupState
  | .call fingerprint =>
      match bandValues fingerprint D.bands D.bits with
      -- the call raises before its first command
      | .error _ => some s
      | .ok values =>
          let keys := D.bucketKeys values
          some { s with calls := s.calls ++ [{ fingerprint, keys, unread := keys }] }
  | .smembers i =>
      match s.calls[i]? with
      | some ⟨fingerprint, keys, key :: unread, candidates⟩ =>
          let call := ⟨fingerprint, keys, unread, candidates ∪ s.sets.smembers key⟩
          some { s with calls := s.calls.set i call }
      | _ => none
  | .finish i =>
      match s.calls[i]? with
      | some ⟨fingerprint, keys, [], candidates⟩ =>
          if D.Near fingerprint candidates then
            some { s with
              calls := s.calls.eraseIdx i
              rejected := s.rejected ++ [fingerprint] }
          else
            some { s with
              sets := s.sets.register keys fingerprint
              calls := s.calls.eraseIdx i
              accepted := s.accepted ++ [fingerprint] }
      | _ => none

/-- The calls of all workers. -/
def machine : Machine DedupState DedupAct := ⟨{}, D.step⟩

/-- A call that is about to register its fingerprint has missed nothing: what was added
to its buckets after it had read them is not within the threshold. -/
def MissesNothing (s : DedupState) : DedupAct → Prop
  | .finish i =>
      ∀ call ∈ s.calls[i]?, ¬ D.Near call.fingerprint call.candidates →
        ∀ key ∈ call.keys, ¬ D.Near call.fingerprint (s.sets.smembers key \ call.candidates)
  | _ => True

instance (s : DedupState) (a : DedupAct) : Decidable (D.MissesNothing s a) :=
  match a with
  | .finish i => inferInstanceAs (Decidable (∀ call ∈ s.calls[i]?, _))
  | .call _ => inferInstanceAs (Decidable True)
  | .smembers _ => inferInstanceAs (Decidable True)

/-! ### What a step does -/

/-- The steps, with the call that moves split off. -/
inductive Moves (s : DedupState) : DedupAct → DedupState → Prop
  | raise {fingerprint : ℕ} : Moves s (.call fingerprint) s
  | call {fingerprint : ℕ} {values : List ℕ}
      (hvalues : bandValues fingerprint D.bands D.bits = .ok values) :
      Moves s (.call fingerprint) { s with
        calls := s.calls ++ [{ fingerprint, keys := D.bucketKeys values,
                               unread := D.bucketKeys values }] }
  | smembers {pre post : List DedupCall} {fingerprint : ℕ} {keys unread : List String}
      {key : String} {candidates : Finset ℕ}
      (hcalls : s.calls = pre ++ ⟨fingerprint, keys, key :: unread, candidates⟩ :: post) :
      Moves s (.smembers pre.length) { s with
        calls := pre ++ ⟨fingerprint, keys, unread, candidates ∪ s.sets.smembers key⟩ :: post }
  | reject {pre post : List DedupCall} {fingerprint : ℕ} {keys : List String}
      {candidates : Finset ℕ}
      (hcalls : s.calls = pre ++ ⟨fingerprint, keys, [], candidates⟩ :: post)
      (hnear : D.Near fingerprint candidates) :
      Moves s (.finish pre.length) { s with
        calls := pre ++ post
        rejected := s.rejected ++ [fingerprint] }
  | accept {pre post : List DedupCall} {fingerprint : ℕ} {keys : List String}
      {candidates : Finset ℕ}
      (hcalls : s.calls = pre ++ ⟨fingerprint, keys, [], candidates⟩ :: post)
      (hfar : ¬ D.Near fingerprint candidates) :
      Moves s (.finish pre.length) { s with
        sets := s.sets.register keys fingerprint
        calls := pre ++ post
        accepted := s.accepted ++ [fingerprint] }

variable {D} {s t : DedupState} {a : DedupAct}

lemma moves_of_step (h : D.step s a = some t) : D.Moves s a t := by
  cases a with
  | call fingerprint =>
      simp only [step] at h
      split at h
      · obtain rfl := Option.some.inj h
        exact .raise
      · next values hvalues =>
          obtain rfl := Option.some.inj h
          exact .call hvalues
  | smembers i =>
      simp only [step] at h
      split at h
      · next fingerprint keys key unread candidates hget =>
          obtain ⟨pre, post, hcalls, rfl⟩ := exists_split_of_getElem? hget
          obtain rfl := Option.some.inj h
          have hset : s.calls.set pre.length
                ⟨fingerprint, keys, unread, candidates ∪ s.sets.smembers key⟩ =
              pre ++ ⟨fingerprint, keys, unread, candidates ∪ s.sets.smembers key⟩ :: post := by
            rw [hcalls]
            simp
          rw [hset]
          exact .smembers hcalls
      · exact absurd h (by simp)
  | finish i =>
      simp only [step] at h
      split at h
      · next fingerprint keys candidates hget =>
          obtain ⟨pre, post, hcalls, rfl⟩ := exists_split_of_getElem? hget
          have herase : s.calls.eraseIdx pre.length = pre ++ post := by
            rw [hcalls, eraseIdx_append_cons]
          rw [herase] at h
          split_ifs at h with hnear
          · obtain rfl := Option.some.inj h
            exact .reject hcalls hnear
          · obtain rfl := Option.some.inj h
            exact .accept hcalls hnear
      · exact absurd h (by simp)

/-! ### The sets index the accepted fingerprints -/

variable (D)

/-- The keys of the buckets of a fingerprint. -/
def keysOf (fingerprint : ℕ) : List String :=
  (bandKeys D.bands D.bits fingerprint).map fun p => D.bucketKey p.1 p.2

/-- The calls look where their fingerprints belong, and a fingerprint is in a set exactly
if it is accepted and the set is the one of a band of it. -/
structure Indexed (s : DedupState) : Prop where
  keys_eq : ∀ call ∈ s.calls, call.keys = D.keysOf call.fingerprint
  mem_iff : ∀ key x, x ∈ s.sets.smembers key ↔ x ∈ s.accepted ∧ key ∈ D.keysOf x

variable {D}

lemma bucketKeys_eq {fingerprint : ℕ} {values : List ℕ}
    (h : bandValues fingerprint D.bands D.bits = .ok values) :
    D.bucketKeys values = D.keysOf fingerprint := by
  have hbands : 1 ≤ D.bands := Nat.one_le_iff_ne_zero.2 (length_of_bandValues h).2
  rw [bandValues_eq_ok hbands] at h
  obtain rfl := Except.ok.inj h
  rfl

lemma Indexed.step (h : D.Indexed s) (hstep : D.Moves s a t) : D.Indexed t := by
  obtain ⟨hkeys, hmem⟩ := h
  cases hstep with
  | raise => exact ⟨hkeys, hmem⟩
  | call hvalues =>
      exact ⟨forall_mem_append_singleton hkeys (bucketKeys_eq hvalues), hmem⟩
  | @smembers pre post fingerprint keys unread key candidates hcalls =>
      rw [hcalls] at hkeys
      have hkeysOf : keys = D.keysOf fingerprint :=
        hkeys ⟨fingerprint, keys, key :: unread, candidates⟩ (by simp)
      exact ⟨forall_mem_replace hkeys hkeysOf, hmem⟩
  | reject hcalls hnear =>
      rw [hcalls] at hkeys
      exact ⟨forall_mem_remove hkeys, hmem⟩
  | @accept pre post fingerprint keys candidates hcalls hfar =>
      rw [hcalls] at hkeys
      have hkeysOf : keys = D.keysOf fingerprint :=
        hkeys ⟨fingerprint, keys, [], candidates⟩ (by simp)
      refine ⟨forall_mem_remove hkeys, fun key x => ?_⟩
      rw [RedisSets.mem_smembers_register, hmem key x, List.mem_append, List.mem_singleton, hkeysOf]
      constructor
      · rintro (⟨hx, hkey⟩ | ⟨hkey, rfl⟩)
        · exact ⟨Or.inl hx, hkey⟩
        · exact ⟨Or.inr rfl, hkey⟩
      · rintro ⟨hx | rfl, hkey⟩
        · exact Or.inl ⟨hx, hkey⟩
        · exact Or.inr ⟨hkey, rfl⟩

lemma indexed_of_reachable (h : D.machine.Reachable s) : D.Indexed s := by
  refine h.inv ⟨by simp [machine], fun key x => ?_⟩
    fun s a t hs _ hst => hs.step (moves_of_step hst)
  simp [machine, RedisSets.smembers]

/-! ### When the verdicts are right -/

/-- Near fingerprints have a bucket in common. -/
lemma exists_mem_keysOf {f g : ℕ} (hthreshold : D.threshold < D.bands)
    (h : (hammingDistance f g : ℤ) ≤ D.threshold) : ∃ key, key ∈ D.keysOf f ∧ key ∈ D.keysOf g := by
  obtain ⟨key, hf, hg⟩ := exists_mem_bandKeys D.bits hthreshold h
  exact ⟨_, List.mem_map_of_mem hf, List.mem_map_of_mem hg⟩

/-- What an accepting call has missed is what is accepted and near. -/
lemma Indexed.nearAccepted_iff (h : D.Indexed s) (hthreshold : D.threshold < D.bands)
    {call : DedupCall} (hcall : call ∈ s.calls) (hfar : ¬ D.Near call.fingerprint call.candidates) :
    NearAccepted D.threshold s.accepted call.fingerprint ↔
      ∃ key ∈ call.keys, D.Near call.fingerprint (s.sets.smembers key \ call.candidates) := by
  rw [h.keys_eq call hcall]
  constructor
  · rintro ⟨other, hother, hle⟩
    obtain ⟨key, hkey, hkey'⟩ := exists_mem_keysOf hthreshold hle
    have hnew : other ∉ call.candidates := fun hseen => hfar ⟨other, hseen, hle⟩
    have hset : other ∈ s.sets.smembers key := (h.mem_iff key other).2 ⟨hother, hkey'⟩
    exact ⟨key, hkey, other, Finset.mem_sdiff.2 ⟨hset, hnew⟩, hle⟩
  · rintro ⟨key, -, other, hother, hle⟩
    exact ⟨other, ((h.mem_iff key other).1 (Finset.mem_sdiff.1 hother).1).1, hle⟩

/-- One step keeps the accepted fingerprints apart exactly if it misses nothing. -/
lemma Indexed.apart_iff (h : D.Indexed s) (hthreshold : D.threshold < D.bands)
    (hapart : Apart D.threshold s.accepted) (hstep : D.Moves s a t) :
    Apart D.threshold t.accepted ↔ D.MissesNothing s a := by
  cases hstep with
  | raise => exact iff_of_true hapart trivial
  | call hvalues => exact iff_of_true hapart trivial
  | smembers hcalls => exact iff_of_true hapart trivial
  | reject hcalls hnear =>
      refine iff_of_true hapart ?_
      intro call hget hfar
      simp only [hcalls, List.getElem?_append_right, le_refl, Nat.sub_self, List.getElem?_cons_zero,
        Option.mem_some_iff] at hget
      subst hget
      exact absurd hnear hfar
  | @accept pre post fingerprint keys candidates hcalls hfar =>
      have hmem : (⟨fingerprint, keys, [], candidates⟩ : DedupCall) ∈ s.calls := by simp [hcalls]
      have hiff := h.nearAccepted_iff hthreshold hmem hfar
      have hget : s.calls[pre.length]? = some ⟨fingerprint, keys, [], candidates⟩ := by
        simp [hcalls]
      constructor
      · intro happend call hcall _ key hkey hnear
        rw [hget, Option.mem_some_iff] at hcall
        subst hcall
        obtain ⟨other, hother, hle⟩ := hiff.2 ⟨key, hkey, hnear⟩
        have hlt := (List.pairwise_append.1 happend).2.2 other hother fingerprint (by simp)
        rw [hammingDistance_comm] at hlt
        exact absurd hle (not_le.2 hlt)
      · intro hmiss
        refine hapart.append fun hnear => ?_
        obtain ⟨key, hkey, hnear'⟩ := hiff.1 hnear
        exact hmiss _ hget hfar key hkey hnear'

/-- **When the verdicts of concurrent calls are right.**  In every run in which each call
that registers its fingerprint has missed no near one, the accepted fingerprints are
pairwise more than the threshold apart, so that none is accepted twice; and the first
registration that has missed a near fingerprint ends that. -/
theorem accepted_apart_iff (hthreshold : D.threshold < D.bands)
    (h : D.machine.ReachableBy D.MissesNothing s) :
    (Apart D.threshold s.accepted ∧ (0 ≤ D.threshold → s.accepted.Nodup)) ∧
      ∀ a t, D.step s a = some t → (Apart D.threshold t.accepted ↔ D.MissesNothing s a) := by
  have hapart : Apart D.threshold s.accepted := by
    refine h.inv_of (I := fun s : DedupState => Apart D.threshold s.accepted)
      (fun _ hr => indexed_of_reachable hr.reachable) List.Pairwise.nil ?_
    intro s a t hs _ ih hmiss hst
    exact (hs.apart_iff hthreshold ih (moves_of_step hst)).2 hmiss
  refine ⟨⟨hapart, hapart.nodup⟩, fun a t hst => ?_⟩
  exact (indexed_of_reachable h.reachable).apart_iff hthreshold hapart (moves_of_step hst)

/-- A run of `n` reads by the call at position `i`. -/
def readAll (i n : ℕ) : List DedupAct := List.replicate n (.smembers i)

/-- A fingerprint is accepted, and a second call on it, which reads the buckets afterwards,
gets the verdict `true`. -/
theorem accepted_apart_sequential :
    ∃ s, (machine {}).ReachableBy (MissesNothing {}) s ∧ s.accepted = [5] ∧ s.rejected = [5] ∧
      Apart 3 s.accepted ∧ s.accepted.Nodup := by
  have h : (machine {}).ReachableBy (MissesNothing {}) _ :=
    Machine.reachableBy_of_exec
      ([.call 5] ++ readAll 0 4 ++ [.finish 0, .call 5] ++ readAll 0 4 ++ [.finish 0]) rfl
  have happ := (accepted_apart_iff (by decide) h).1
  exact ⟨_, h, rfl, rfl, happ.1, happ.2 (by decide)⟩

/-- Two calls on one fingerprint, each of which reads all its buckets before the other
one registers: both get the verdict `false`. -/
theorem same_fingerprint_accepted_twice :
    ¬ ∀ s, (machine {}).Reachable s → Apart 3 s.accepted ∧ s.accepted.Nodup := by
  intro hall
  have h : (machine {}).Reachable _ :=
    Machine.reachableBy_of_exec
      ([.call 5, .call 5] ++ readAll 0 4 ++ readAll 1 4 ++ [.finish 0, .finish 0]) rfl
  have hnodup : ([5, 5] : List ℕ).Nodup := (hall _ h).2
  exact absurd hnodup (by decide)

end RedisContentDedup

end WebCrawler
