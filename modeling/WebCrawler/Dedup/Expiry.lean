import WebCrawler.Dedup.RedisDedup

/-!
# How long a near-duplicate is remembered

The sets of `RedisContentDedup` have a time to live: the transaction at the end of a call adds the
fingerprint to the sets of its bands and makes each of them expire `ttl_seconds` later.  A set that
more fingerprints fall into lives longer, and a fingerprint goes with its set.

So a fingerprint is remembered for `ttl_seconds` at least.  A call that begins after a near
fingerprint was registered gets the verdict `false` only if more than that time has passed since
(`remembered`), whatever other calls are under way, and however long it takes.
-/

namespace WebCrawler

open Lib

/-- The Redis sets with the times at which they expire. -/
abbrev ExpiringSets : Type := AList fun _ : String => ℚ × Finset ℕ

namespace ExpiringSets

/-- The command `SMEMBERS`: a set that has expired is empty. -/
def smembers (sets : ExpiringSets) (now : ℚ) (key : String) : Finset ℕ :=
  match sets.lookup key with
  | some (expiry, members) => if now ≤ expiry then members else ∅
  | none => ∅

/-- `SADD` and `EXPIRE`. -/
def sadd (sets : ExpiringSets) (now ttl : ℚ) (key : String) (member : ℕ) : ExpiringSets :=
  sets.insert key (now + ttl, insert member (sets.smembers now key))

/-- The transaction at the end of a call. -/
def register (sets : ExpiringSets) (now ttl : ℚ) (keys : List String) (member : ℕ) :
    ExpiringSets :=
  keys.foldl (fun sets key => sets.sadd now ttl key member) sets

/-- The set has the member, and does not expire before a time. -/
def Holds (sets : ExpiringSets) (key : String) (member : ℕ) (deadline : ℚ) : Prop :=
  ∃ expiry members, sets.lookup key = some (expiry, members) ∧ member ∈ members ∧ deadline ≤ expiry

variable {sets : ExpiringSets} {now ttl deadline : ℚ} {key key' : String} {keys : List String}
  {f x : ℕ}

lemma Holds.mem_smembers (h : sets.Holds key x deadline) (hle : now ≤ deadline) :
    x ∈ sets.smembers now key := by
  obtain ⟨expiry, members, hlookup, hmem, hexpiry⟩ := h
  rw [smembers, hlookup]
  simp only
  rw [if_pos (hle.trans hexpiry)]
  exact hmem

lemma holds_sadd_self : (sets.sadd now ttl key f).Holds key f (now + ttl) :=
  ⟨_, _, AList.lookup_insert _, Finset.mem_insert_self _ _, le_rfl⟩

/-- An addition only moves the expiry to a later time. -/
lemma Holds.sadd (h : sets.Holds key x deadline) (hnow : now ≤ deadline)
    (hle : deadline ≤ now + ttl) : (sets.sadd now ttl key' f).Holds key x deadline := by
  by_cases hkey : key = key'
  · subst hkey
    exact ⟨_, _, AList.lookup_insert _, Finset.mem_insert_of_mem (h.mem_smembers hnow), hle⟩
  · obtain ⟨expiry, members, hlookup, hmem, hexpiry⟩ := h
    exact ⟨expiry, members, by rw [ExpiringSets.sadd, AList.lookup_insert_ne hkey, hlookup], hmem,
      hexpiry⟩

lemma Holds.register (h : sets.Holds key x deadline) (hnow : now ≤ deadline)
    (hle : deadline ≤ now + ttl) : (sets.register now ttl keys f).Holds key x deadline := by
  induction keys generalizing sets with
  | nil => exact h
  | cons key' keys ih => exact ih (h.sadd hnow hle)

lemma holds_register_self (httl : 0 ≤ ttl) (hkey : key ∈ keys) :
    (sets.register now ttl keys f).Holds key f (now + ttl) := by
  induction keys generalizing sets with
  | nil => exact absurd hkey (by simp)
  | cons key' keys ih =>
      rcases List.mem_cons.1 hkey with rfl | hkey
      · have hadded : (sets.sadd now ttl key f).Holds key f (now + ttl) := holds_sadd_self
        exact hadded.register (by linarith) le_rfl
      · exact ih hkey

/-- What a set was given, whether it has expired or not. -/
def stored (sets : ExpiringSets) (key : String) : Finset ℕ :=
  ((sets.lookup key).map (·.2)).getD ∅

lemma smembers_subset_stored : sets.smembers now key ⊆ sets.stored key := by
  rw [smembers, stored]
  cases sets.lookup key with
  | none => exact Finset.Subset.refl _
  | some p =>
      simp only
      split_ifs
      · exact Finset.Subset.refl _
      · exact Finset.empty_subset _

lemma mem_stored_sadd (h : x ∈ (sets.sadd now ttl key' f).stored key) :
    x = f ∨ x ∈ sets.stored key := by
  by_cases hkey : key = key'
  · subst hkey
    rw [stored, sadd, AList.lookup_insert] at h
    exact (Finset.mem_insert.1 h).imp_right fun hx => smembers_subset_stored hx
  · rw [stored, sadd, AList.lookup_insert_ne hkey] at h
    exact Or.inr h

/-- What is stored is what was registered. -/
lemma mem_stored_register (h : x ∈ (sets.register now ttl keys f).stored key) :
    x = f ∨ x ∈ sets.stored key := by
  induction keys generalizing sets with
  | nil => exact Or.inr h
  | cons key' keys ih =>
      rcases ih h with rfl | hmem
      · exact Or.inl rfl
      · exact mem_stored_sadd hmem

end ExpiringSets

/-- A call of `is_duplicate`, with the fingerprints that had been registered before it began and
the times at which they were. -/
structure TimedCall extends DedupCall where
  before : List (ℕ × ℚ)

/-- A fingerprint that was registered, and the same of its call. -/
structure Registration where
  fingerprint : ℕ
  time : ℚ
  before : List (ℕ × ℚ)

/-- The sets, the calls under way and the verdicts. -/
structure ExpiringDedupState where
  now : ℚ := 0
  sets : ExpiringSets := ∅
  calls : List TimedCall := []
  /-- The calls with the verdict `false`. -/
  registered : List Registration := []
  /-- The fingerprints that got the verdict `true`. -/
  rejected : List ℕ := []

/-- Time passes, or a call takes a step. -/
inductive ExpiringDedupAct
  | advance (d : ℚ)
  | act (a : DedupAct)
deriving DecidableEq, Repr

/-- The arguments of `RedisContentDedup`. -/
structure ExpiringDedup extends RedisContentDedup where
  ttlSeconds : ℚ := 7 * 24 * 3600
  ttl_pos : 0 < ttlSeconds

namespace ExpiringDedup

variable (D : ExpiringDedup)

/-- The fingerprints that are registered, with their times. -/
def registrations (s : ExpiringDedupState) : List (ℕ × ℚ) :=
  s.registered.map fun r => (r.fingerprint, r.time)

def step (s : ExpiringDedupState) : ExpiringDedupAct → Option ExpiringDedupState
  | .advance d => if 0 ≤ d then some { s with now := s.now + d } else none
  | .act (.call fingerprint) =>
      match bandValues fingerprint D.bands D.bits with
      | .error _ => some s
      | .ok values =>
          let keys := D.bucketKeys values
          some { s with
            calls := s.calls ++ [{ fingerprint, keys, unread := keys, before := registrations s }] }
  | .act (.smembers i) =>
      match s.calls[i]? with
      | some ⟨⟨fingerprint, keys, key :: unread, candidates⟩, before⟩ =>
          let call := ⟨⟨fingerprint, keys, unread, candidates ∪ s.sets.smembers s.now key⟩, before⟩
          some { s with calls := s.calls.set i call }
      | _ => none
  | .act (.finish i) =>
      match s.calls[i]? with
      | some ⟨⟨fingerprint, keys, [], candidates⟩, before⟩ =>
          if D.Near fingerprint candidates then
            some { s with
              calls := s.calls.eraseIdx i
              rejected := s.rejected ++ [fingerprint] }
          else
            some { s with
              sets := s.sets.register s.now D.ttlSeconds keys fingerprint
              calls := s.calls.eraseIdx i
              registered := s.registered ++ [{ fingerprint, time := s.now, before }] }
      | _ => none

/-- The calls of all workers. -/
def machine : Machine ExpiringDedupState ExpiringDedupAct := ⟨{}, D.step⟩

/-! ### Between two steps -/

/-- What holds of a call under way: what was registered before it began and has not expired is
among the candidates, as far as the call has read. -/
structure CallOk (now : ℚ) (registered : List Registration) (call : TimedCall) : Prop where
  keys_eq : call.keys = D.keysOf call.fingerprint
  before : ∀ p ∈ call.before, ∃ r ∈ registered, (r.fingerprint, r.time) = p
  read : ∃ read, call.keys = read ++ call.unread ∧ ∀ p ∈ call.before, now ≤ p.2 + D.ttlSeconds →
    ∀ key ∈ read, key ∈ D.keysOf p.1 → p.1 ∈ call.candidates
  candidates : ∀ x ∈ call.candidates, ∃ r ∈ registered, r.fingerprint = x

/-- The sets hold what was registered in the last `ttl_seconds`, and nothing else. -/
structure Remembers (s : ExpiringDedupState) : Prop where
  times : ∀ r ∈ s.registered, r.time ≤ s.now
  holds : ∀ r ∈ s.registered, ∀ key ∈ D.keysOf r.fingerprint, s.now ≤ r.time + D.ttlSeconds →
    s.sets.Holds key r.fingerprint (r.time + D.ttlSeconds)
  stored : ∀ key, ∀ x ∈ s.sets.stored key, ∃ r ∈ s.registered, r.fingerprint = x
  calls : ∀ call ∈ s.calls, D.CallOk s.now s.registered call
  apart : ∀ r ∈ s.registered, ∀ p ∈ r.before,
    (hammingDistance r.fingerprint p.1 : ℤ) ≤ D.threshold → p.2 + D.ttlSeconds < r.time
  rejected : ∀ f ∈ s.rejected, ∃ r ∈ s.registered,
    (hammingDistance f r.fingerprint : ℤ) ≤ D.threshold

variable {D} {s t : ExpiringDedupState} {a : ExpiringDedupAct} {call : TimedCall}

/-- Time passes, and other calls register. -/
lemma CallOk.mono {now now' : ℚ} {registered registered' : List Registration}
    (h : D.CallOk now registered call) (hnow : now ≤ now') (hsub : registered ⊆ registered') :
    D.CallOk now' registered' call := by
  obtain ⟨read, hkeys, hread⟩ := h.read
  refine ⟨h.keys_eq, fun p hp => ?_, ⟨read, hkeys, fun p hp hle => hread p hp (hnow.trans hle)⟩,
    fun x hx => ?_⟩
  · obtain ⟨r, hr, heq⟩ := h.before p hp
    exact ⟨r, hsub hr, heq⟩
  · obtain ⟨r, hr, heq⟩ := h.candidates x hx
    exact ⟨r, hsub hr, heq⟩

/-- A call begins. -/
lemma callOk_new {fingerprint : ℕ} {values : List ℕ}
    (hvalues : bandValues fingerprint D.bands D.bits = .ok values) :
    D.CallOk s.now s.registered
      { fingerprint, keys := D.bucketKeys values, unread := D.bucketKeys values
        before := registrations s } where
  keys_eq := RedisContentDedup.bucketKeys_eq hvalues
  before p hp := by
    obtain ⟨r, hr, heq⟩ := List.mem_map.1 hp
    exact ⟨r, hr, heq⟩
  read := ⟨[], rfl, fun _ _ _ _ hkey => absurd hkey List.not_mem_nil⟩
  candidates x hx := absurd hx (Finset.notMem_empty x)

/-- A call reads its next set. -/
lemma Remembers.callOk_read (h : D.Remembers s) {fingerprint : ℕ} {keys unread : List String}
    {key : String} {candidates : Finset ℕ} {before : List (ℕ × ℚ)}
    (hcall : D.CallOk s.now s.registered
      ⟨⟨fingerprint, keys, key :: unread, candidates⟩, before⟩) :
    D.CallOk s.now s.registered
      ⟨⟨fingerprint, keys, unread, candidates ∪ s.sets.smembers s.now key⟩, before⟩ := by
  obtain ⟨read, hkeys, hread⟩ := hcall.read
  refine ⟨hcall.keys_eq, hcall.before, ⟨read ++ [key], by simpa using hkeys, ?_⟩, fun x hx => ?_⟩
  · intro p hp hlive key' hkey' hband
    rcases List.mem_append.1 hkey' with hkey' | hkey'
    · exact Finset.mem_union_left _ (hread p hp hlive key' hkey' hband)
    · obtain rfl := List.mem_singleton.1 hkey'
      obtain ⟨r, hr, rfl⟩ := hcall.before p hp
      exact Finset.mem_union_right _ ((h.holds r hr key' hband hlive).mem_smembers hlive)
  · rcases Finset.mem_union.1 hx with hx | hx
    · exact hcall.candidates x hx
    · exact h.stored key x (ExpiringSets.smembers_subset_stored hx)

/-- The verdict of a call that has read everything is `true` if a near fingerprint was registered
before it began and has not expired. -/
lemma CallOk.near (hthreshold : D.threshold < D.bands) {now : ℚ} {registered : List Registration}
    (h : D.CallOk now registered call) (hunread : call.unread = []) {p : ℕ × ℚ}
    (hp : p ∈ call.before) (hlive : now ≤ p.2 + D.ttlSeconds)
    (hnear : (hammingDistance call.fingerprint p.1 : ℤ) ≤ D.threshold) :
    D.Near call.fingerprint call.candidates := by
  obtain ⟨read, hkeys, hread⟩ := h.read
  rw [hunread, List.append_nil, h.keys_eq] at hkeys
  subst hkeys
  obtain ⟨key, hkey, hkey'⟩ := RedisContentDedup.exists_mem_keysOf hthreshold hnear
  exact ⟨p.1, hread p hp hlive key hkey hkey', hnear⟩

lemma Remembers.reject (h : D.Remembers s) {pre post : List TimedCall}
    (hcalls : s.calls = pre ++ call :: post) (hnear : D.Near call.fingerprint call.candidates) :
    D.Remembers { s with
      calls := pre ++ post
      rejected := s.rejected ++ [call.fingerprint] } := by
  have hcall := h.calls call (by simp [hcalls])
  refine ⟨h.times, h.holds, h.stored, forall_mem_remove (hcalls ▸ h.calls), h.apart, ?_⟩
  refine forall_mem_append_singleton h.rejected ?_
  obtain ⟨other, hother, hle⟩ := hnear
  obtain ⟨r, hr, rfl⟩ := hcall.candidates other hother
  exact ⟨r, hr, hle⟩

lemma Remembers.register (h : D.Remembers s) (hthreshold : D.threshold < D.bands)
    {pre post : List TimedCall} (hcalls : s.calls = pre ++ call :: post)
    (hunread : call.unread = []) (hfar : ¬ D.Near call.fingerprint call.candidates) :
    D.Remembers { s with
      sets := s.sets.register s.now D.ttlSeconds call.keys call.fingerprint
      calls := pre ++ post
      registered := s.registered ++
        [{ fingerprint := call.fingerprint, time := s.now, before := call.before }] } := by
  have hcall := h.calls call (by simp [hcalls])
  refine ⟨forall_mem_append_singleton h.times le_rfl, ?_, ?_, fun other hother => ?_, ?_, ?_⟩
  · refine forall_mem_append_singleton (fun r hr key hkey hlive => ?_) fun key hkey _ => ?_
    · have hlater : r.time + D.ttlSeconds ≤ s.now + D.ttlSeconds := by linarith [h.times r hr]
      exact (h.holds r hr key hkey hlive).register hlive hlater
    · rw [hcall.keys_eq]
      exact ExpiringSets.holds_register_self D.ttl_pos.le hkey
  · intro key x hx
    rcases ExpiringSets.mem_stored_register hx with rfl | hx
    · exact ⟨_, List.mem_append_right _ (List.mem_singleton_self _), rfl⟩
    · obtain ⟨r, hr, heq⟩ := h.stored key x hx
      exact ⟨r, List.mem_append_left _ hr, heq⟩
  · exact (forall_mem_remove (hcalls ▸ h.calls) other hother).mono le_rfl
      (List.subset_append_left _ _)
  · refine forall_mem_append_singleton h.apart fun p hp hnear => ?_
    by_contra hlive
    exact hfar (hcall.near hthreshold hunread hp (not_lt.1 hlive) hnear)
  · intro f hf
    obtain ⟨r, hr, hle⟩ := h.rejected f hf
    exact ⟨r, List.mem_append_left _ hr, hle⟩

lemma Remembers.step (h : D.Remembers s) (hthreshold : D.threshold < D.bands)
    (hstep : D.step s a = some t) : D.Remembers t := by
  rcases a with d | (fingerprint | i | i)
  · simp only [ExpiringDedup.step, Option.ite_none_right_eq_some, Option.some.injEq] at hstep
    obtain ⟨hd, rfl⟩ := hstep
    have hlater : s.now ≤ s.now + d := by linarith
    exact ⟨fun r hr => (h.times r hr).trans hlater,
      fun r hr key hkey hlive => h.holds r hr key hkey (hlater.trans hlive), h.stored,
      fun call hcall => (h.calls call hcall).mono hlater (List.Subset.refl _), h.apart, h.rejected⟩
  · simp only [ExpiringDedup.step] at hstep
    split at hstep
    · obtain rfl := Option.some.inj hstep
      exact h
    · next values hvalues =>
        obtain rfl := Option.some.inj hstep
        exact ⟨h.times, h.holds, h.stored,
          forall_mem_append_singleton h.calls (callOk_new hvalues), h.apart, h.rejected⟩
  · simp only [ExpiringDedup.step] at hstep
    split at hstep
    · next fingerprint keys key unread candidates before hget =>
        obtain ⟨pre, post, hcalls, rfl⟩ := exists_split_of_getElem? hget
        obtain rfl := Option.some.inj hstep
        have hmem : (⟨⟨fingerprint, keys, key :: unread, candidates⟩, before⟩ : TimedCall) ∈
            s.calls := by simp [hcalls]
        have hcall := h.callOk_read (h.calls _ hmem)
        refine ⟨h.times, h.holds, h.stored, fun call hother => ?_, h.apart, h.rejected⟩
        have hset : s.calls.set pre.length ⟨⟨fingerprint, keys, unread,
            candidates ∪ s.sets.smembers s.now key⟩, before⟩ = pre ++ ⟨⟨fingerprint, keys, unread,
            candidates ∪ s.sets.smembers s.now key⟩, before⟩ :: post := by
          rw [hcalls]
          simp
        rw [hset] at hother
        exact forall_mem_replace (hcalls ▸ h.calls) hcall call hother
    · exact absurd hstep (by simp)
  · simp only [ExpiringDedup.step] at hstep
    split at hstep
    · next fingerprint keys candidates before hget =>
        obtain ⟨pre, post, hcalls, rfl⟩ := exists_split_of_getElem? hget
        have herase : s.calls.eraseIdx pre.length = pre ++ post := by
          rw [hcalls, eraseIdx_append_cons]
        rw [herase] at hstep
        split_ifs at hstep with hnear
        · obtain rfl := Option.some.inj hstep
          exact h.reject hcalls hnear
        · obtain rfl := Option.some.inj hstep
          exact h.register hthreshold hcalls rfl hnear
    · exact absurd hstep (by simp)

lemma remembers_of_reachable (hthreshold : D.threshold < D.bands)
    (h : D.machine.Reachable s) : D.Remembers s := by
  refine h.inv ⟨nofun, nofun, ?_, nofun, nofun, nofun⟩ fun s a t hs _ hstep =>
    hs.step hthreshold hstep
  intro key x hx
  exact absurd hx (Finset.notMem_empty x)

/-- **A near-duplicate is remembered for `ttl_seconds`.**  In any run of any number of concurrent
calls, a fingerprint that was registered although a near one had been registered before its call
began was registered more than `ttl_seconds` after that one; and every fingerprint with the
verdict `true` is near a registered one. -/
theorem remembered (D : ExpiringDedup) (hthreshold : D.threshold < D.bands)
    {s : ExpiringDedupState} (h : D.machine.Reachable s) :
    (∀ r ∈ s.registered, ∀ p ∈ r.before,
      (hammingDistance r.fingerprint p.1 : ℤ) ≤ D.threshold → p.2 + D.ttlSeconds < r.time) ∧
    ∀ f ∈ s.rejected, ∃ r ∈ s.registered,
      (hammingDistance f r.fingerprint : ℤ) ≤ D.threshold :=
  ⟨(remembers_of_reachable hthreshold h).apart, (remembers_of_reachable hthreshold h).rejected⟩

lemma sevenDays_pos : (0 : ℚ) < 7 * 24 * 3600 := by norm_num

/-- The default arguments. -/
def sevenDays : ExpiringDedup where
  ttl_pos := sevenDays_pos

/-- A call on a fingerprint when no other is under way. -/
def callOn (fingerprint : ℕ) : List ExpiringDedupAct :=
  ([DedupAct.call fingerprint] ++ RedisContentDedup.readAll 0 4 ++ [DedupAct.finish 0]).map
    ExpiringDedupAct.act

/-- A near fingerprint is rejected on the same day and registered eight days later. -/
theorem remembered_eightDays :
    ∃ s, sevenDays.machine.Reachable s ∧ registrations s = [(5, 0), (4, 691200)] ∧ s.rejected = [4] ∧
      (∀ r ∈ s.registered, ∀ p ∈ r.before,
        (hammingDistance r.fingerprint p.1 : ℤ) ≤ 3 → p.2 + 7 * 24 * 3600 < r.time) ∧
      ∀ f ∈ s.rejected, ∃ r ∈ s.registered, (hammingDistance f r.fingerprint : ℤ) ≤ 3 := by
  have hexec : (sevenDays.machine.exec (fun _ _ => True) {}
      (callOn 5 ++ callOn 4 ++ [.advance 691200] ++ callOn 4)).map
        (fun s => (registrations s, s.rejected)) = some ([(5, 0), (4, 691200)], [4]) := by
    decide +kernel
  obtain ⟨s, hs, hfinal⟩ := Option.map_eq_some_iff.1 hexec
  obtain ⟨hregistered, hrejected⟩ := Prod.mk.inj hfinal
  have h : sevenDays.machine.Reachable s := Machine.reachableBy_of_exec _ hs
  have hboth := remembered sevenDays (by decide) h
  exact ⟨s, h, hregistered, hrejected, hboth.1, hboth.2⟩

end ExpiringDedup

end WebCrawler
