import WebCrawler.Dedup.BloomRuns
import WebCrawler.Lib.Machine

/-!
# The Bloom filter shared by the workers

`RedisBloomFilter` of `crawler/dedup/bloom.py` and its Lua script.  The bits live in one
Redis string, here the finite set of the positions that are set.  A worker computes the
indices of its key and sends them with the script; Redis runs one script at a time, in
an order of its own.  Whatever that order is, the answers are those of the filter in
memory when it gets the calls in the same order (`redisBloomFilter_verdicts`).

The sizes come from formulas over floating-point numbers, which are parameters.
-/

namespace WebCrawler

open Lib

/-! ### The constructors -/

/-- The floating-point parts of the sizing formulas; rates are elements of `P`. -/
structure Sizing (P : Type) where
  /-- `0.0 < p < 1.0`. -/
  inUnit : P → Bool
  /-- `math.ceil(-(n * math.log(p)) / (math.log(2) ** 2))`. -/
  bits : ℤ → P → Except PyError ℤ
  /-- `round((m / n) * math.log(2))`. -/
  hashes : ℤ → ℤ → Except PyError ℤ

section Constructors

variable {P : Type} (Z : Sizing P)

def optimalM (n : ℤ) (p : P) : Except PyError ℤ := do
  return max 8 (← Z.bits n p)

def optimalK (m n : ℤ) : Except PyError ℤ := do
  return max 1 (← Z.hashes m n)

lemma one_le_toNat_optimalM {n m : ℤ} {p : P} (h : optimalM Z n p = .ok m) : 1 ≤ m.toNat := by
  rw [optimalM] at h
  cases hbits : Z.bits n p with
  | error e => simp [hbits, bind, Except.bind] at h
  | ok bits =>
      simp only [hbits, bind, Except.bind, pure, Except.pure, Except.ok.injEq] at h
      omega

/-- `BloomFilter(n, p)`. -/
def BloomFilter.init (n : ℤ) (p : P) : Except PyError BloomFilter :=
  if n ≤ 0 then .error { what := "expected_insertions must be positive" }
  else if Z.inUnit p = false then .error { what := "false_positive_rate must be in (0, 1)" }
  else
    match hm : optimalM Z n p with
    | .error e => .error e
    | .ok m =>
        match optimalK Z m n with
        | .error e => .error e
        | .ok k => .ok (BloomFilter.empty m.toNat k.toNat (one_le_toNat_optimalM Z hm))

/-- The sizes of the filter in Redis. -/
structure RedisBloomFilter where
  m : ℕ
  k : ℕ
deriving DecidableEq, Repr

/-- `RedisBloomFilter(redis, key, n, p)`: the arguments are not checked. -/
def RedisBloomFilter.init (n : ℤ) (p : P) : Except PyError RedisBloomFilter := do
  let m ← optimalM Z n p
  let k ← optimalK Z m n
  return ⟨m.toNat, k.toNat⟩

/-- Equal arguments give equal sizes. -/
lemma init_eq_ok {n : ℤ} {p : P} {f : BloomFilter} {r : RedisBloomFilter}
    (hf : BloomFilter.init Z n p = .ok f) (hr : RedisBloomFilter.init Z n p = .ok r) :
    ∃ hm : 1 ≤ r.m, f = BloomFilter.empty r.m r.k hm := by
  rw [BloomFilter.init] at hf
  split_ifs at hf with hn hp
  split at hf
  · exact absurd hf (by simp)
  · next m hm =>
      cases hk : optimalK Z m n with
      | error e => simp [hk] at hf
      | ok k =>
          simp only [hk, Except.ok.injEq] at hf
          simp only [RedisBloomFilter.init, hm, hk, bind, Except.bind, pure, Except.pure,
            Except.ok.injEq] at hr
          subst hr
          exact ⟨one_le_toNat_optimalM Z hm, hf.symm⟩

end Constructors

/-! ### The script -/

/-- `redis.call('GETBIT', KEYS[1], idx)`. -/
def getbit (bits : Finset ℕ) (idx : ℕ) : ℕ := if idx ∈ bits then 1 else 0

/-- `redis.call('SETBIT', KEYS[1], idx, 1)`. -/
def setbit (bits : Finset ℕ) (idx : ℕ) : Finset ℕ := insert idx bits

/-- One turn of the loop, on the value of `all_set` and the bits. -/
def luaTurn (state : ℕ × Finset ℕ) (idx : ℕ) : ℕ × Finset ℕ :=
  if getbit state.2 idx = 0 then (0, setbit state.2 idx) else state

/-- The script `_LUA_BLOOM`. -/
def luaBloom (bits : Finset ℕ) (argv : List ℕ) : ℕ × Finset ℕ := argv.foldl luaTurn (1, bits)

lemma luaTurn_eq (state : ℕ × Finset ℕ) (idx : ℕ) :
    luaTurn state idx = (if idx ∈ state.2 then state.1 else 0, insert idx state.2) := by
  rw [luaTurn, getbit]
  by_cases h : idx ∈ state.2
  · rw [if_pos h, if_neg one_ne_zero, if_pos h, Finset.insert_eq_of_mem h]
  · rw [if_neg h, if_pos rfl, if_neg h, setbit]

/-- The flag stays as long as the bits are set, and all the bits get set. -/
lemma foldl_luaTurn (argv : List ℕ) (state : ℕ × Finset ℕ) :
    argv.foldl luaTurn state =
      (if argv.toFinset ⊆ state.2 then state.1 else 0, state.2 ∪ argv.toFinset) := by
  induction argv generalizing state with
  | nil => simp
  | cons idx argv ih =>
      rw [List.foldl_cons, ih, luaTurn_eq, List.toFinset_cons, Prod.mk.injEq]
      constructor
      · by_cases hidx : idx ∈ state.2
        · simp [hidx, Finset.insert_subset_iff]
        · simp [hidx, Finset.insert_subset_iff]
      · rw [Finset.insert_union, Finset.union_insert]

/-! ### Many workers -/

/-- A call whose script has not run yet. -/
structure BloomCall where
  worker : ℕ
  key : String
  indices : List ℕ
deriving DecidableEq, Repr

/-- A call whose script has run, with the value the script has returned. -/
structure BloomReply where
  worker : ℕ
  key : String
  allSet : ℕ
deriving DecidableEq, Repr

/-- The result of `check_and_add`: `int(all_set) == 0`. -/
def BloomReply.verdict (reply : BloomReply) : Bool := reply.allSet == 0

/-- The bits in Redis, the scripts that are waiting and the replies in execution order. -/
structure RedisBloomState where
  bits : Finset ℕ := ∅
  waiting : List BloomCall := []
  replies : List BloomReply := []
deriving DecidableEq

/-- A worker calls `check_and_add`; Redis runs the script of a waiting call. -/
inductive RedisBloomAct
  | send (worker : ℕ) (key : String)
  | run (i : ℕ)
deriving DecidableEq, Repr

namespace RedisBloomFilter

variable (r : RedisBloomFilter) (hash : Murmur)

def step (s : RedisBloomState) : RedisBloomAct → Option RedisBloomState
  | .send worker key =>
      some { s with waiting := s.waiting ++ [⟨worker, key, bloomIndices hash key r.m r.k⟩] }
  | .run i =>
      match s.waiting[i]? with
      | some ⟨worker, key, indices⟩ =>
          let result := luaBloom s.bits indices
          some
            { bits := result.2
              waiting := s.waiting.eraseIdx i
              replies := s.replies ++ [⟨worker, key, result.1⟩] }
      | none => none

/-- One filter and all its workers. -/
def machine : Machine RedisBloomState RedisBloomAct := ⟨{}, r.step hash⟩

/-- The filter in memory that gets the calls in the order in which the scripts ran, and
what it has in common with the bits in Redis. -/
structure Follows (f : BloomFilter) (s : RedisBloomState) : Prop where
  waiting : ∀ call ∈ s.waiting, call.indices = bloomIndices hash call.key r.m r.k
  sizes : ((BloomFilter.seenSet hash).after f (s.replies.map (·.key))).m = r.m ∧
    ((BloomFilter.seenSet hash).after f (s.replies.map (·.key))).k = r.k
  bits : s.bits = ((BloomFilter.seenSet hash).after f (s.replies.map (·.key))).setBits
  verdicts : s.replies.map (·.verdict) =
    (BloomFilter.seenSet hash).verdicts f (s.replies.map (·.key))

variable {r hash} {f : BloomFilter}

/-- A script and a call on the filter in memory with the same bits. -/
lemma luaBloom_eq (hash : Murmur) (f : BloomFilter) (key : String) :
    ((luaBloom f.setBits (bloomIndices hash key f.m f.k)).1 == 0) = (f.checkAndAdd hash key).1 ∧
      (luaBloom f.setBits (bloomIndices hash key f.m f.k)).2 =
        (f.checkAndAdd hash key).2.setBits := by
  rw [luaBloom, foldl_luaTurn, BloomFilter.setBits_checkAndAdd, BloomFilter.checkAndAdd_fst]
  refine ⟨?_, rfl⟩
  cases hc : f.contains hash key with
  | true => simp [BloomFilter.contains_iff.1 hc]
  | false =>
      have hnot : ¬ (bloomIndices hash key f.m f.k).toFinset ⊆ f.setBits := by
        rw [← BloomFilter.contains_iff, hc]
        exact Bool.false_ne_true
      simp [hnot]

lemma Follows.step {s t : RedisBloomState} {a : RedisBloomAct} (h : Follows r hash f s)
    (hst : r.step hash s a = some t) : Follows r hash f t := by
  obtain ⟨hwaiting, hsizes, hbits, hverdicts⟩ := h
  cases a with
  | send worker key =>
      obtain rfl := Option.some.inj hst
      exact ⟨forall_mem_append_singleton hwaiting rfl, hsizes, hbits, hverdicts⟩
  | run i =>
      simp only [RedisBloomFilter.step] at hst
      split at hst
      · next worker key indices hget =>
          obtain ⟨pre, post, hsplit, rfl⟩ := exists_split_of_getElem? hget
          obtain rfl := Option.some.inj hst
          rw [hsplit] at hwaiting
          have hindices : indices = bloomIndices hash key r.m r.k :=
            hwaiting ⟨worker, key, indices⟩ (by simp)
          have hlua := luaBloom_eq hash
            ((BloomFilter.seenSet hash).after f (s.replies.map (·.key))) key
          rw [hsizes.1, hsizes.2, ← hindices, ← hbits] at hlua
          refine ⟨?_, ?_, ?_, ?_⟩
          · show ∀ call ∈ s.waiting.eraseIdx pre.length, _
            rw [hsplit, eraseIdx_append_cons]
            exact forall_mem_remove hwaiting
          · rw [List.map_append, List.map_singleton, SeenSet.after_append_singleton]
            exact hsizes
          · rw [List.map_append, List.map_singleton, SeenSet.after_append_singleton]
            exact hlua.2
          · rw [List.map_append, List.map_append, List.map_singleton, List.map_singleton,
              SeenSet.verdicts_append_singleton, ← hverdicts]
            exact congrArg (fun v => _ ++ [v]) hlua.1
      · exact absurd hst (by simp)

lemma follows_of_reachable (hm : 1 ≤ r.m) {s : RedisBloomState}
    (h : (r.machine hash).Reachable s) : Follows r hash (BloomFilter.empty r.m r.k hm) s := by
  refine h.inv ⟨by simp [machine], ⟨rfl, rfl⟩, ?_, rfl⟩ fun s a t hs _ hst => hs.step hst
  -- the empty filter has no bit set
  refine (Finset.eq_empty_of_forall_notMem fun j hj => ?_).symm
  have hcard := (BloomFilter.sound_empty r.m r.k hm).card_le
  have hpos : 0 < (BloomFilter.empty r.m r.k hm).setBits.card := Finset.card_pos.2 ⟨j, hj⟩
  have hzero : (BloomFilter.empty r.m r.k hm).count = 0 := rfl
  rw [hzero, Nat.mul_zero] at hcard
  omega

/-- **The shared filter answers as the one in memory.**  Made with the same arguments, and
with the calls in the order in which Redis has run their scripts, the two give the same
verdicts; so a URL gets the verdict `true` at most once, whichever workers ask. -/
theorem redisBloomFilter_verdicts {P : Type} {Z : Sizing P} {n : ℤ} {p : P} {s : RedisBloomState}
    (hf : BloomFilter.init Z n p = .ok f) (hr : RedisBloomFilter.init Z n p = .ok r)
    (h : (r.machine hash).Reachable s) :
    s.replies.map (·.verdict) =
        (BloomFilter.seenSet hash).verdicts f (s.replies.map (·.key)) ∧
      ((s.replies.filter (·.verdict)).map (·.key)).Nodup := by
  obtain ⟨hm, rfl⟩ := init_eq_ok Z hf hr
  have hverdicts := (follows_of_reachable hm h).verdicts
  refine ⟨hverdicts, ?_⟩
  rw [(BloomFilter.seenSet hash).map_filter_eq_novel hverdicts]
  exact (BloomFilter.seenSet hash).nodup_novel _ _

/-- The sizes for ten insertions and a rate of one in a hundred. -/
def tenInsertions : Sizing ℚ where
  inUnit p := decide (0 < p ∧ p < 1)
  bits _ _ := .ok 96
  hashes _ _ := .ok 7

/-- Two workers ask for one URL and a third one for another; Redis runs the scripts in an
order of its own. -/
theorem redisBloomFilter_verdicts_three_workers :
    ∃ f s, BloomFilter.init tenInsertions 10 (1 / 100) = .ok f ∧
      (machine ⟨96, 7⟩ BloomFilter.lengthMurmur).Reachable s ∧
      s.replies = [⟨3, "bb", 0⟩, ⟨2, "a", 0⟩, ⟨1, "a", 1⟩] ∧
      [true, true, false] =
        (BloomFilter.seenSet BloomFilter.lengthMurmur).verdicts f ["bb", "a", "a"] ∧
      ["bb", "a"].Nodup := by
  have hf : BloomFilter.init tenInsertions 10 (1 / 100) =
      .ok (BloomFilter.empty 96 7 (by decide)) := by
    have hunit : tenInsertions.inUnit (1 / 100) ≠ false := by norm_num [tenInsertions]
    rw [BloomFilter.init, if_neg (by decide), if_neg hunit]
    rfl
  have h : (machine ⟨96, 7⟩ BloomFilter.lengthMurmur).Reachable _ :=
    Machine.reachableBy_of_exec [.send 1 "a", .send 2 "a", .send 3 "bb", .run 2, .run 1, .run 0] rfl
  have hres := redisBloomFilter_verdicts (r := ⟨96, 7⟩) hf rfl h
  exact ⟨_, _, hf, h, by decide, hres.1, by decide⟩

end RedisBloomFilter

end WebCrawler
