import WebCrawler.RateLimit.Local

/-!
# One sleep for each call

The machine of `LocalRateLimiter` lets a sleep end at any time.  Here a sleep lasts at least as
long as the loop of `acquire` asks for, and may last longer; the call still holds the lock of its
host, so nobody else polls the bucket meanwhile.

The time until which a call sleeps is therefore the time at which the bucket has its next token
(`Asleep`), and the poll after a sleep finds one.  So no call sleeps twice, a call has its token
after at most the time of one token, and the counter of the waits counts the calls that have
slept (`sleeps_once`).
-/

namespace WebCrawler

open Lib Lib.TokenBucket

/-- A limiter whose calls sleep. -/
structure SleeperState where
  limiter : LimiterState
  /-- The time at which the call that holds the lock of a host wakes up, if it sleeps. -/
  wake : AList fun _ : String => ℚ := ∅
  /-- The hosts of the calls that have slept and have found a token, in order. -/
  rested : List String := []
deriving DecidableEq

namespace LocalRateLimiter

variable (C : ℚ)

/-- The sleep of the call that holds the lock of the host is over. -/
def Awake (s : SleeperState) (host : String) : Prop :=
  ∀ wakeAt ∈ s.wake.lookup host, wakeAt ≤ s.limiter.clock

instance (s : SleeperState) (host : String) : Decidable (Awake s host) :=
  inferInstanceAs (Decidable (∀ wakeAt ∈ s.wake.lookup host, wakeAt ≤ s.limiter.clock))

/-- A step of the limiter, in which a call does not poll before it wakes up. -/
def sleeperStep (s : SleeperState) : LimiterAct → Option SleeperState
  | .poll host =>
      match s.limiter.holding.lookup host, step C s.limiter (.poll host) with
      | some rate, some limiter =>
          if Awake s host then
            match (pollLocal C s.limiter.clock rate (s.limiter.buckets.lookup host)).1 with
            | none => some {
                limiter := limiter
                wake := s.wake.erase host
                rested := if s.wake.lookup host = none then s.rested else s.rested ++ [host] }
            | some wait => some {
                limiter := limiter
                wake := s.wake.insert host (s.limiter.clock + wait)
                rested := s.rested }
          else none
      | _, _ => none
  | a => (step C s.limiter a).map fun limiter => { s with limiter := limiter }

/-- A limiter that is created at a time. -/
def sleeper (start : ℚ) : Machine SleeperState LimiterAct where
  init := { limiter := { clock := start } }
  step := sleeperStep C

variable {C} {s t : SleeperState} {a : LimiterAct} {host : String}

/-! ### What one step can do -/

/-- What a step does to the sleeps. -/
inductive SleeperMoves (C : ℚ) (s : SleeperState) : LimiterAct → SleeperState → Prop
  | other {a : LimiterAct} {limiter : LimiterState} (hpoll : ∀ host, a ≠ .poll host)
      (hmoves : Moves C s.limiter a limiter) :
      SleeperMoves C s a { s with limiter := limiter }
  /-- The poll finds a token, perhaps after a sleep. -/
  | grant {host : String} {rate : ℚ} {limiter : LimiterState} (hawake : Awake s host)
      (hmoves : Moves C s.limiter (.poll host) limiter)
      (hhold : s.limiter.holding.lookup host = some rate)
      (hfound : (pollLocal C s.limiter.clock rate (s.limiter.buckets.lookup host)).1 = none) :
      SleeperMoves C s (.poll host) {
        limiter := limiter
        wake := s.wake.erase host
        rested := if s.wake.lookup host = none then s.rested else s.rested ++ [host] }
  /-- The poll finds no token, and the call goes to sleep. -/
  | refuse {host : String} {rate wait : ℚ} {limiter : LimiterState} (hawake : Awake s host)
      (hmoves : Moves C s.limiter (.poll host) limiter)
      (hhold : s.limiter.holding.lookup host = some rate)
      (hwait : (pollLocal C s.limiter.clock rate (s.limiter.buckets.lookup host)).1 = some wait) :
      SleeperMoves C s (.poll host) {
        limiter := limiter
        wake := s.wake.insert host (s.limiter.clock + wait)
        rested := s.rested }

/-- **Inversion of a step.** -/
theorem sleeperMoves_of_step (h : sleeperStep C s a = some t) : SleeperMoves C s a t := by
  cases a with
  | poll host =>
      simp only [sleeperStep] at h
      split at h
      case h_1 rate limiter hhold hstep =>
        by_cases hawake : Awake s host
        · rw [if_pos hawake] at h
          split at h
          case h_1 hfound =>
            obtain rfl := Option.some.inj h
            exact .grant hawake (moves_of_step hstep) hhold hfound
          case h_2 wait hwait =>
            obtain rfl := Option.some.inj h
            exact .refuse hawake (moves_of_step hstep) hhold hwait
        · rw [if_neg hawake] at h
          simp at h
      case h_2 => simp at h
  | tick now =>
      obtain ⟨limiter, hstep, rfl⟩ := Option.map_eq_some_iff.1 h
      exact .other (by simp) (moves_of_step hstep)
  | acquire host rate =>
      obtain ⟨limiter, hstep, rfl⟩ := Option.map_eq_some_iff.1 h
      exact .other (by simp) (moves_of_step hstep)
  | lock i =>
      obtain ⟨limiter, hstep, rfl⟩ := Option.map_eq_some_iff.1 h
      exact .other (by simp) (moves_of_step hstep)

/-- A step with sleeps is a step of the limiter. -/
lemma SleeperMoves.moves (hm : SleeperMoves C s a t) : Moves C s.limiter a t.limiter := by
  cases hm with
  | other hpoll hmoves => exact hmoves
  | grant hawake hmoves hhold hfound => exact hmoves
  | refuse hawake hmoves hhold hwait => exact hmoves

lemma inv_of_reachable_sleeper {start : ℚ} (h : (sleeper C start).Reachable s) :
    Inv C s.limiter := by
  refine Machine.ReachableBy.inv (I := fun s : SleeperState => Inv C s.limiter) ?_
    (fun s a t (ih : Inv C s.limiter) _ hst => ih.step (sleeperMoves_of_step hst).moves) h
  have hstart : (machine C start).Reachable (machine C start).init := .init
  exact inv_of_reachable hstart

/-! ### The sleeps -/

/-- A call that sleeps holds the lock of its host until the bucket has a token, and the waits are
those of the calls that sleep or have slept. -/
structure Asleep (C : ℚ) (s : SleeperState) : Prop where
  due_eq : ∀ host wakeAt, s.wake.lookup host = some wakeAt → ∃ rate b,
    s.limiter.holding.lookup host = some rate ∧ s.limiter.buckets.lookup host = some b ∧
      due b rate = wakeAt
  waits_eq : s.limiter.rateLimitWaits = s.rested.length + s.wake.entries.length
  rested_sublist : s.rested.Sublist (s.limiter.granted.map (·.1))

/-- A refused call sleeps until the bucket that it leaves has a token. -/
lemma due_pollLocal {now rate wait : ℚ} {entry : Option (Bucket ℚ)}
    (h : (pollLocal C now rate entry).1 = some wait) :
    due (pollLocal C now rate entry).2 rate = now + wait := by
  simp only [pollLocal] at h ⊢
  split_ifs at h ⊢ with hfound
  rw [due, Option.some.inj h]

/-- The poll after a sleep finds a token. -/
lemma Asleep.found (h : Asleep C s) (hinv : Inv C s.limiter) (hC : 1 ≤ C) {rate wakeAt : ℚ}
    (hhold : s.limiter.holding.lookup host = some rate)
    (hwake : s.wake.lookup host = some wakeAt) :
    (pollLocal C s.limiter.clock rate (s.limiter.buckets.lookup host)).1 = none ↔
      wakeAt ≤ s.limiter.clock := by
  obtain ⟨rate', b, hhold', hb, hdue⟩ := h.due_eq host wakeAt hwake
  obtain rfl : rate = rate' := Option.some.inj (hhold.symm.trans hhold')
  rw [(pollLocal_eq hinv.ts_le).2, hb, ← hdue]
  exact grants_iff_due_le hC (hinv.holding_pos host rate hhold) (hinv.ts_le b hb)

/-- A step that is no poll wakes nobody up and takes no lock from anybody. -/
lemma Moves.frame {s t : LimiterState} {a : LimiterAct} (hm : Moves C s a t)
    (ha : ∀ host, a ≠ .poll host) :
    t.buckets = s.buckets ∧ t.rateLimitWaits = s.rateLimitWaits ∧ t.granted = s.granted ∧
      ∀ host rate, s.holding.lookup host = some rate → t.holding.lookup host = some rate := by
  cases hm with
  | tick hle => exact ⟨rfl, rfl, rfl, fun host rate hhold => hhold⟩
  | pass hrate => exact ⟨rfl, rfl, rfl, fun host rate hhold => hhold⟩
  | wait hrate => exact ⟨rfl, rfl, rfl, fun host rate hhold => hhold⟩
  | @lock host' rate' pre post hw hfree =>
      refine ⟨rfl, rfl, rfl, fun host rate hhold => ?_⟩
      have hne : host ≠ host' := by
        rintro rfl
        rw [hfree] at hhold
        exact absurd hhold (by simp)
      rw [AList.lookup_insert_ne hne]
      exact hhold
  | grant hhold hpoll => exact absurd rfl (ha _)
  | refuse hhold hpoll => exact absurd rfl (ha _)

/-- The number of entries after an entry is taken out. -/
lemma length_entries_erase {V : Type} {m : AList fun _ : String => V} {k : String} {v : V}
    (h : m.lookup k = some v) : (m.erase k).entries.length + 1 = m.entries.length := by
  have hmem : k ∈ m.keys := AList.mem_keys.1 (AList.lookup_isSome.1 (by rw [h]; rfl))
  have hlen := congrArg List.length (AList.keys_erase k m)
  rw [List.length_erase_of_mem hmem] at hlen
  have hpos := List.length_pos_of_mem hmem
  simp only [AList.keys, List.keys, List.length_map] at hlen hpos
  omega

lemma erase_of_lookup_eq_none {V : Type} {m : AList fun _ : String => V} {k : String}
    (h : m.lookup k = none) : (m.erase k).entries = m.entries :=
  List.kerase_of_notMem_keys fun hmem => AList.lookup_eq_none.1 h hmem

lemma Asleep.grant (h : Asleep C s) {rate : ℚ} (hhold : s.limiter.holding.lookup host = some rate)
    (b : Bucket ℚ) (polls : List (String × Poll ℚ)) (p : Poll ℚ) :
    Asleep C {
      limiter := { s.limiter with
        buckets := s.limiter.buckets.insert host b
        holding := s.limiter.holding.erase host
        polls := polls
        granted := s.limiter.granted ++ [(host, p)] }
      wake := s.wake.erase host
      rested := if s.wake.lookup host = none then s.rested else s.rested ++ [host] } := by
  refine ⟨fun host' wakeAt hwake => ?_, ?_, ?_⟩
  · have hne : host' ≠ host := by
      rintro rfl
      rw [AList.lookup_erase] at hwake
      exact absurd hwake (by simp)
    rw [AList.lookup_erase_ne hne] at hwake
    rw [AList.lookup_erase_ne hne, AList.lookup_insert_ne hne]
    exact h.due_eq host' wakeAt hwake
  · have hwaits := h.waits_eq
    cases hwake : s.wake.lookup host with
    | none =>
        rw [if_pos rfl, erase_of_lookup_eq_none hwake]
        exact hwaits
    | some wakeAt =>
        have hlen := length_entries_erase hwake
        rw [if_neg (by simp), List.length_append, List.length_singleton]
        show s.limiter.rateLimitWaits = s.rested.length + 1 + (s.wake.erase host).entries.length
        omega
  · rw [List.map_append, List.map_singleton]
    split_ifs
    · exact h.rested_sublist.trans (List.sublist_append_left _ _)
    · exact h.rested_sublist.append (List.Sublist.refl _)

lemma Asleep.refuse (h : Asleep C s) (hinv : Inv C s.limiter) (hC : 1 ≤ C) {rate wait : ℚ}
    (hawake : Awake s host) (hhold : s.limiter.holding.lookup host = some rate)
    (hwait : (pollLocal C s.limiter.clock rate (s.limiter.buckets.lookup host)).1 = some wait)
    (polls : List (String × Poll ℚ)) :
    Asleep C {
      limiter := { s.limiter with
        buckets := s.limiter.buckets.insert host
          (pollLocal C s.limiter.clock rate (s.limiter.buckets.lookup host)).2
        rateLimitWaits := s.limiter.rateLimitWaits + 1
        polls := polls }
      wake := s.wake.insert host (s.limiter.clock + wait)
      rested := s.rested } := by
  -- the call has not slept yet, since it would have found a token
  have hfresh : s.wake.lookup host = none := by
    cases hwake : s.wake.lookup host with
    | none => rfl
    | some wakeAt =>
        have hfound := (h.found hinv hC hhold hwake).2 (hawake wakeAt hwake)
        rw [hwait] at hfound
        exact absurd hfound (by simp)
  refine ⟨fun host' wakeAt hwake => ?_, ?_, h.rested_sublist⟩
  · by_cases heq : host' = host
    · subst heq
      rw [AList.lookup_insert, Option.some.injEq] at hwake
      refine ⟨rate, _, hhold, AList.lookup_insert _, ?_⟩
      rw [← hwake]
      exact due_pollLocal hwait
    · rw [AList.lookup_insert_ne heq] at hwake
      rw [AList.lookup_insert_ne heq]
      exact h.due_eq host' wakeAt hwake
  · have hlen : (s.wake.insert host (s.limiter.clock + wait)).entries.length =
        s.wake.entries.length + 1 := by
      rw [AList.entries_insert_of_notMem (AList.lookup_eq_none.1 hfresh), List.length_cons]
    have hwaits := h.waits_eq
    show s.limiter.rateLimitWaits + 1 =
      s.rested.length + (s.wake.insert host (s.limiter.clock + wait)).entries.length
    omega

lemma Asleep.other (h : Asleep C s) {limiter : LimiterState} (hpoll : ∀ host, a ≠ .poll host)
    (hm : Moves C s.limiter a limiter) : Asleep C { s with limiter := limiter } := by
  obtain ⟨hbuckets, hwaits, hgranted, hholding⟩ := hm.frame hpoll
  refine ⟨fun host wakeAt hwake => ?_, hwaits.trans h.waits_eq, ?_⟩
  · obtain ⟨rate, b, hhold, hb, hdue⟩ := h.due_eq host wakeAt hwake
    exact ⟨rate, b, hholding host rate hhold, by rw [hbuckets, hb], hdue⟩
  · rw [hgranted]
    exact h.rested_sublist

lemma Asleep.step (h : Asleep C s) (hinv : Inv C s.limiter) (hC : 1 ≤ C)
    (hm : SleeperMoves C s a t) : Asleep C t := by
  cases hm with
  | other hpoll hmoves => exact h.other hpoll hmoves
  | @grant host rate limiter hawake hmoves hhold hfound =>
      cases hmoves with
      | grant hhold' hpoll => exact h.grant hhold' _ _ _
      | refuse hhold' hpoll =>
          obtain rfl := Option.some.inj (hhold.symm.trans hhold')
          exact absurd hfound hpoll
  | @refuse host rate wait limiter hawake hmoves hhold hwait =>
      cases hmoves with
      | grant hhold' hpoll =>
          obtain rfl := Option.some.inj (hhold.symm.trans hhold')
          rw [hwait] at hpoll
          exact absurd hpoll (by simp)
      | refuse hhold' hpoll =>
          obtain rfl := Option.some.inj (hhold.symm.trans hhold')
          exact h.refuse hinv hC hawake hhold hwait _

lemma asleep_of_reachable (hC : 1 ≤ C) {start : ℚ} (h : (sleeper C start).Reachable s) :
    Asleep C s := by
  refine Machine.ReachableBy.inv_of (J := fun s : SleeperState => Inv C s.limiter)
    (fun s hs => inv_of_reachable_sleeper hs) ?_
    (fun s a t hJ _ (ih : Asleep C s) _ hst => ih.step hJ hC (sleeperMoves_of_step hst)) h
  exact ⟨fun host wakeAt hwake => by simp [sleeper] at hwake, rfl, List.Sublist.refl _⟩

/-- The poll of a call that has slept or sleeps. -/
lemma Asleep.sleeperStep_poll (h : Asleep C s) (hinv : Inv C s.limiter) (hC : 1 ≤ C)
    {rate wakeAt : ℚ} (hhold : s.limiter.holding.lookup host = some rate)
    (hwake : s.wake.lookup host = some wakeAt) :
    (¬ wakeAt ≤ s.limiter.clock → sleeperStep C s (.poll host) = none) ∧
      (wakeAt ≤ s.limiter.clock → ∃ t, sleeperStep C s (.poll host) = some t ∧
        t.limiter.granted = s.limiter.granted ++ [(host, ⟨s.limiter.clock, rate⟩)] ∧
        t.wake.lookup host = none) := by
  have hawake : Awake s host ↔ wakeAt ≤ s.limiter.clock := by
    rw [Awake, hwake]
    exact ⟨fun hall => hall wakeAt rfl, fun hle w hw => Option.some.inj hw ▸ hle⟩
  constructor
  · intro hearly
    simp only [sleeperStep, hhold, if_neg fun ha => hearly (hawake.1 ha)]
    split
    · rfl
    · rfl
  · intro hle
    have hfound := (h.found hinv hC hhold hwake).2 hle
    obtain ⟨found, b, hpoll⟩ : ∃ found b,
        pollLocal C s.limiter.clock rate (s.limiter.buckets.lookup host) = (found, b) := ⟨_, _, rfl⟩
    rw [hpoll] at hfound
    obtain rfl : found = none := hfound
    obtain ⟨limiter, hstep, hgranted⟩ : ∃ limiter,
        LocalRateLimiter.step C s.limiter (.poll host) = some limiter ∧
          limiter.granted = s.limiter.granted ++ [(host, ⟨s.limiter.clock, rate⟩)] := by
      simp only [LocalRateLimiter.step, hhold, hpoll]
      exact ⟨_, rfl, rfl⟩
    refine ⟨⟨limiter, s.wake.erase host, s.rested ++ [host]⟩, ?_, hgranted, AList.lookup_erase _ _⟩
    simp only [sleeperStep, hhold, hstep, hpoll, hwake, if_pos (hawake.2 hle)]
    rfl

/-- **A call sleeps at most once.**  In every run, with sleeps that last at least as long as
asked: a call that sleeps wakes up at most the time of a token after it has polled; it polls again
if and only if it is time, and it finds its token then; and the waits that are counted are one for
each call that sleeps and one for each granted call that has slept. -/
theorem sleeps_once (C start : ℚ) (hC : 1 ≤ C) (s : SleeperState)
    (h : (sleeper C start).Reachable s) :
    (∀ host wakeAt, s.wake.lookup host = some wakeAt → ∃ rate b,
      s.limiter.holding.lookup host = some rate ∧ s.limiter.buckets.lookup host = some b ∧
      wakeAt ≤ b.ts + 1 / rate ∧
      ((sleeperStep C s (.poll host)).isSome ↔ wakeAt ≤ s.limiter.clock) ∧
      ∀ t, sleeperStep C s (.poll host) = some t →
        t.limiter.granted = s.limiter.granted ++ [(host, ⟨s.limiter.clock, rate⟩)] ∧
          t.wake.lookup host = none) ∧
    s.limiter.rateLimitWaits = s.rested.length + s.wake.entries.length ∧
    s.rested.Sublist (s.limiter.granted.map (·.1)) := by
  have hinv := inv_of_reachable_sleeper h
  have hasleep := asleep_of_reachable hC h
  refine ⟨fun host wakeAt hwake => ?_, hasleep.waits_eq, hasleep.rested_sublist⟩
  obtain ⟨rate, b, hhold, hb, hdue⟩ := hasleep.due_eq host wakeAt hwake
  have hrate := hinv.holding_pos host rate hhold
  obtain ⟨hearly, hlate⟩ := hasleep.sleeperStep_poll hinv hC hhold hwake
  refine ⟨rate, b, hhold, hb, ?_, ?_⟩
  · have hbounded := bounded_bucket (C := C) (by linarith)
      (fun p hp => (hinv.polls_pos (host, p) (mem_pollsOf hp)).le) b
      (by rw [← hinv.buckets_eq, hb, Option.mem_some_iff])
    rw [← hdue, due]
    have hle : (1 - b.tokens) / rate ≤ 1 / rate :=
      div_le_div_of_nonneg_right (by linarith [hbounded.nonneg]) hrate.le
    linarith
  · by_cases hle : wakeAt ≤ s.limiter.clock
    · obtain ⟨t, hst, hgranted, hwoken⟩ := hlate hle
      refine ⟨iff_of_true (by rw [hst]; rfl) hle, fun t' hst' => ?_⟩
      obtain rfl : t = t' := Option.some.inj (hst.symm.trans hst')
      exact ⟨hgranted, hwoken⟩
    · refine ⟨iff_of_false (by rw [hearly hle]; simp) hle, fun t' hst' => ?_⟩
      rw [hearly hle] at hst'
      exact absurd hst' (by simp)

/-- Two calls for a host, of which the second goes to sleep. -/
def oneSleep : List LimiterAct :=
  [.acquire "a.org" 1, .lock 0, .poll "a.org", .acquire "a.org" 1, .lock 0, .poll "a.org"]

theorem sleeps_once_oneSleep :
    ∃ s, (sleeper 1 0).Reachable s ∧ s.wake.lookup "a.org" = some 1 ∧
      s.limiter.rateLimitWaits = s.rested.length + s.wake.entries.length ∧
      s.limiter.rateLimitWaits = 1 := by
  have hrun : ((sleeper 1 0).exec (fun _ _ => True) (sleeper 1 0).init oneSleep).map
      (fun s => (s.wake.lookup "a.org", s.limiter.rateLimitWaits)) = some (some 1, 1) := by
    decide +kernel
  obtain ⟨s, hs, heq⟩ := Option.map_eq_some_iff.1 hrun
  obtain ⟨hwake, hwaits⟩ := Prod.mk.inj heq
  have hreach : (sleeper 1 0).Reachable s := Machine.reachableBy_of_exec oneSleep hs
  exact ⟨s, hreach, hwake, (sleeps_once 1 0 le_rfl s hreach).2.1, hwaits⟩

end LocalRateLimiter

end WebCrawler
