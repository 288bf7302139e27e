import WebCrawler.Pipeline.Concurrency

/-!
# Caps without deadlock

What holds in every run of the machine of `Pipeline/Concurrency.lean`: the account of the
resources, from which the caps on the fetches in flight follow, and the rates of the calls at
the limiter.  The gate comes before the slots of the hosts, and these before the locks of the
robots cache and of the limiter (`rank_lt`), so that some call can always go on.  Each step
that is made then brings a call nearer to its end, but for the polls of the limiter, which
finds a token when enough time has passed.
-/

namespace WebCrawler

open Lib Lib.TokenBucket

namespace ConcurrentPipeline

variable {R : Type} {C : ConcurrentPipeline R} {s s' : ConcurrentState R} {t : ProcessCall}
  {r : Resource}

/-! ### Progress -/

/-- A call waits for something higher than what it holds. -/
lemma rank_lt {r' : Resource} (hwaits : r ∈ waitsFor t) (hholds : r' ∈ holds t) :
    r'.rank < r.rank := by
  rw [waitsFor] at hwaits
  rw [holds] at hholds
  cases hpoint : t.point with
  | allowed p =>
      rw [hpoint] at hwaits hholds
      cases p with
      | waiting => simp [pointHolds, parserHolds] at hholds
      | loading q => simp [pointWaits, parserWaits] at hwaits
  | slot =>
      simp only [hpoint, pointWaits, pointHolds, Option.mem_some_iff, List.mem_singleton]
        at hwaits hholds
      simp [← hwaits, hholds, Resource.rank]
  | crawlDelay p =>
      rw [hpoint] at hwaits hholds
      cases p with
      | waiting =>
          obtain rfl := Option.some.inj hwaits
          simp only [pointHolds, parserHolds, List.mem_cons, List.not_mem_nil, or_false] at hholds
          rcases hholds with rfl | rfl
          · simp [Resource.rank]
          · simp [Resource.rank]
      | loading q => simp [pointWaits, parserWaits] at hwaits
  | limiter refillPerSec =>
      simp only [hpoint, pointWaits, pointHolds, Option.mem_some_iff, List.mem_cons,
        List.not_mem_nil, or_false] at hwaits hholds
      rcases hholds with rfl | rfl
      · simp [← hwaits, Resource.rank]
      · simp [← hwaits, Resource.rank]
  | checks => simp [hpoint, pointWaits] at hwaits
  | gate => simp [hpoint, pointHolds] at hholds
  | polling refillPerSec => simp [hpoint, pointWaits] at hwaits
  | fetching => simp [hpoint, pointWaits] at hwaits
  | storing => simp [hpoint, pointWaits] at hwaits

end ConcurrentPipeline

/-- The distance of a point of `_load` to its end. -/
def LoadPoint.distance : LoadPoint → ℕ
  | .redisGet => 2
  | .fetching => 1
  | .redisSet _ => 0

/-- The distance of a point of `_parser` to its end. -/
def ParserPoint.distance : ParserPoint → ℕ
  | .waiting => 3
  | .loading p => p.distance

/-- The distance of a point to the end of the call. -/
def ProcessPoint.distance : ProcessPoint → ℕ
  | .allowed p => 12 + p.distance
  | .checks => 11
  | .gate => 10
  | .slot => 9
  | .crawlDelay p => 5 + p.distance
  | .limiter _ => 4
  | .polling _ => 3
  | .fetching => 2
  | .storing => 1

/-- A limiter is used with a positive rate only. -/
def ProcessPoint.Paced : ProcessPoint → Prop
  | .limiter refillPerSec => 0 < refillPerSec
  | .polling refillPerSec => 0 < refillPerSec
  | _ => True

namespace ConcurrentPipeline

variable {R : Type} {C : ConcurrentPipeline R} {s s' : ConcurrentState R} {t : ProcessCall}

/-! ### Where a step leads -/

lemma distance_withDelay (t : ProcessCall) (s : ConcurrentState R) (delay : Except PyError ℤ) :
    ∀ p ∈ (C.withDelay t s delay).1, p.distance ≤ 4 ∧ p.Paced := by
  cases delay with
  | error e => simp [withDelay]
  | ok delay =>
      simp only [withDelay]
      split_ifs with _ hrate
      · simp [ProcessPoint.distance, ProcessPoint.Paced]
      · simpa [ProcessPoint.distance, ProcessPoint.Paced] using hrate
      · simp [ProcessPoint.distance, ProcessPoint.Paced]

lemma distance_afterDelay (t : ProcessCall) (s : ConcurrentState R) (next : ParserNext R) :
    ∀ p ∈ (C.afterDelay t s next).1,
      p.Paced ∧ (p.distance ≤ 4 ∨ ∃ q, next = .waits q ∧ p = .crawlDelay q) := by
  cases next with
  | waits q =>
      intro p hp
      obtain rfl := Option.some.inj hp
      exact ⟨trivial, Or.inr ⟨q, rfl, rfl⟩⟩
  | returns rules => exact fun p hp => (distance_withDelay t s _ p hp).symm.imp_right Or.inl
  | raises e => exact fun p hp => (distance_withDelay t s _ p hp).symm.imp_right Or.inl

lemma parserDistance_le (q : ParserPoint) : q.distance ≤ 3 := by
  cases q with
  | waiting => exact le_rfl
  | loading q => cases q <;> simp [ParserPoint.distance, LoadPoint.distance]

lemma distance_enterSlot (t : ProcessCall) (s : ConcurrentState R) :
    ∀ p ∈ (C.enterSlot t s).1, p.distance < ProcessPoint.slot.distance ∧ p.Paced := by
  intro p hp
  rw [enterSlot] at hp
  split_ifs at hp
  · obtain ⟨hpaced, hle | ⟨q, -, rfl⟩⟩ := distance_afterDelay t _ _ p hp
    · exact ⟨hle.trans_lt (by decide), hpaced⟩
    · have := parserDistance_le q
      refine ⟨?_, hpaced⟩
      simp only [ProcessPoint.distance]
      omega
  · exact (distance_withDelay t s _ p hp).imp_left fun hle => hle.trans_lt (by decide)

lemma distance_afterAllowed (t : ProcessCall) (next : ParserNext R) :
    ∀ p ∈ C.afterAllowed t next, p = .checks ∨ ∃ q, next = .waits q ∧ p = .allowed q := by
  cases next with
  | waits q =>
      intro p hp
      obtain rfl := Option.some.inj hp
      exact Or.inr ⟨q, rfl, rfl⟩
  | returns rules =>
      intro p hp
      rw [afterAllowed] at hp
      split at hp
      · simp at hp
      · exact Or.inl (Option.some.inj hp).symm
  | raises e => exact fun p hp => Or.inl (Option.some.inj hp).symm

/-- A call whose load gives a text comes to its end. -/
lemma exists_proceed_of_load (P : RobotsCache R) (robots : RobotsState R) (o : Text)
    {p : LoadPoint} (answer : RobotsAnswer) {text : Text}
    (hload : P.load p answer = some (.inr text)) :
    ∃ answer next robots', P.proceed robots o (.loading p) answer = some (next, robots') ∧
      ∀ q, next = .waits q → q.distance < (ParserPoint.loading p).distance := by
  cases hparse : P.parse text with
  | ok rules =>
      exact ⟨answer, .returns rules, _, by rw [RobotsCache.proceed, hload]; simp [hparse]; rfl,
        by simp⟩
  | error e =>
      exact ⟨answer, .raises e, _, by rw [RobotsCache.proceed, hload]; simp [hparse]; rfl,
        by simp⟩

/-- A call of `_parser` whose lock is free can come nearer to its end. -/
lemma exists_proceed (P : RobotsCache R) (robots : RobotsState R) (o : Text) (p : ParserPoint)
    (hfree : p = .waiting → o ∉ robots.locked) :
    ∃ answer next robots', P.proceed robots o p answer = some (next, robots') ∧
      ∀ q, next = .waits q → q.distance < p.distance := by
  cases p with
  | waiting =>
      cases hlookup : P.lookup (robots.acquire o) o with
      | mk found robots' =>
          have hstep : P.proceed robots o .waiting .lock = _ := if_neg (hfree rfl)
          rw [hlookup] at hstep
          cases found with
          | some rules => exact ⟨.lock, _, _, hstep, by simp⟩
          | none =>
              refine ⟨.lock, _, _, hstep, fun q hq => ?_⟩
              obtain rfl := ParserNext.waits.inj hq
              rw [RobotsCache.loadStart]
              split_ifs
              · decide
              · decide
  | loading p =>
      cases p with
      | redisGet => exact exists_proceed_of_load P robots o (.redisGet (.ok (some []))) rfl
      | redisSet text => exact exists_proceed_of_load P robots o (.redisSet (.ok ())) rfl
      | fetching =>
          cases hredis : P.redis with
          | false =>
              have hload : P.load .fetching (.fetchText (.ok (200, []))) = some (.inr []) := by
                simp [RobotsCache.load, hredis]
              exact exists_proceed_of_load P robots o _ hload
          | true =>
              refine ⟨.fetchText (.ok (200, [])), .waits (.loading (.redisSet [])), robots, ?_, ?_⟩
              · simp [RobotsCache.proceed, RobotsCache.load, hredis]
              · intro q hq
                obtain rfl := ParserNext.waits.inj hq
                decide

/-- **A call that waits for nothing, or for something that is free, can go on**; it comes nearer
to its end unless it polls the limiter. -/
lemma exists_go (hable : ∀ r ∈ waitsFor t, 0 < C.free s r) :
    ∃ answer next s', C.go t s t.point answer = some (next, s') ∧
      ((∀ refillPerSec, t.point ≠ .polling refillPerSec) →
        ∀ p ∈ next, p.distance < t.point.distance) := by
  rw [waitsFor] at hable
  have hlock : ∀ p : ParserPoint, (∀ r ∈ parserWaits t.origin p, 0 < C.free s r) →
      p = .waiting → t.origin ∉ s.robots.locked := by
    rintro p hable rfl hlocked
    have hfree := hable _ rfl
    simp [free, RobotsState.freeLock, hlocked] at hfree
  cases hpoint : t.point with
  | allowed p =>
      rw [hpoint] at hable
      obtain ⟨answer, next, robots, hproceed, hdist⟩ :=
        exists_proceed C.robots s.robots t.origin p (hlock p hable)
      refine ⟨.robots answer, C.afterAllowed t next, { s with robots := robots }, ?_, ?_⟩
      · rw [go, hproceed]
        rfl
      · intro _ p' hp'
        rcases distance_afterAllowed t next p' hp' with rfl | ⟨q, hq, rfl⟩
        · simp only [ProcessPoint.distance]
          omega
        · have := hdist q hq
          simp only [ProcessPoint.distance]
          omega
  | checks => exact ⟨.checked true, some .gate, s, rfl, by simp [ProcessPoint.distance]⟩
  | gate =>
      have hgate : s.gate ≠ 0 := Nat.pos_iff_ne_zero.1 (hable .gate (by rw [hpoint]; rfl))
      exact ⟨.acquired, some .slot, _, by rw [go, if_neg hgate], by simp [ProcessPoint.distance]⟩
  | slot =>
      have hslot : C.slots s t.host ≠ 0 :=
        Nat.pos_iff_ne_zero.1 (hable (.slot t.host) (by rw [hpoint]; rfl))
      refine ⟨.acquired, (C.enterSlot t (C.acquireSlot s t.host)).1,
        (C.enterSlot t (C.acquireSlot s t.host)).2, ?_, fun _ p hp => ?_⟩
      · rw [go, if_neg hslot]
      · exact (distance_enterSlot t _ p hp).1
  | crawlDelay p =>
      rw [hpoint] at hable
      obtain ⟨answer, next, robots, hproceed, hdist⟩ :=
        exists_proceed C.robots s.robots t.origin p (hlock p hable)
      refine ⟨.robots answer, (C.afterDelay t { s with robots := robots } next).1,
        (C.afterDelay t { s with robots := robots } next).2, ?_, ?_⟩
      · rw [go, hproceed]
        rfl
      · intro _ p' hp'
        rcases (distance_afterDelay t _ _ p' hp').2 with hle | ⟨q, hq, rfl⟩
        · exact hle.trans_lt (show 4 < 5 + p.distance by omega)
        · have := hdist q hq
          simp only [ProcessPoint.distance]
          omega
  | limiter refillPerSec =>
      have hfree := hable (.limiter t.host) (by rw [hpoint]; rfl)
      have hlocked : t.host ∉ s.limiterLocks := by
        intro hlocked
        simp [free, hlocked] at hfree
      exact ⟨.acquired, some (.polling refillPerSec), _, by rw [go, if_neg hlocked],
        by simp [ProcessPoint.distance]⟩
  | polling refillPerSec =>
      exact ⟨.woken, _, _, rfl, fun h => absurd rfl (h refillPerSec)⟩
  | fetching => exact ⟨.fetched, some .storing, _, rfl, by simp [ProcessPoint.distance]⟩
  | storing => exact ⟨.stored, none, s, rfl, by simp⟩

/-- When enough time has passed a poll finds a token. -/
lemma exists_token {capacity refillPerSec : ℚ} (hcapacity : 1 ≤ capacity)
    (hrate : 0 < refillPerSec) (clock : ℚ) (entry : Option (Bucket ℚ)) :
    ∃ now, clock ≤ now ∧ (pollLocal capacity now refillPerSec entry).1 = none := by
  cases entry with
  | none =>
      refine ⟨clock, le_rfl, ?_⟩
      simp [pollLocal, hcapacity]
  | some b =>
      refine ⟨max clock (b.ts + (1 - b.tokens) / refillPerSec), le_max_left _ _, ?_⟩
      have hlate : b.ts + (1 - b.tokens) / refillPerSec ≤
          max clock (b.ts + (1 - b.tokens) / refillPerSec) := le_max_right _ _
      have hrefill : 1 - b.tokens ≤
          (max clock (b.ts + (1 - b.tokens) / refillPerSec) - b.ts) * refillPerSec := by
        rw [← div_le_iff₀ hrate]
        linarith
      rw [pollLocal, Option.getD_some, if_pos]
      exact le_min hcapacity (by linarith)

/-- A poll keeps the rate of the call. -/
lemma paced_afterPoll {refillPerSec : ℚ} (hrate : 0 < refillPerSec)
    (polled : Option ℚ × Bucket ℚ) : ∀ p ∈ (afterPoll t s refillPerSec polled).1, p.Paced := by
  obtain ⟨wait, b⟩ := polled
  cases wait with
  | none => simp [afterPoll, ProcessPoint.Paced]
  | some w => simpa [afterPoll, ProcessPoint.Paced] using hrate

/-- The step keeps the rates positive. -/
lemma paced_go {answer : ProcessAnswer} {next : Option ProcessPoint}
    (hgo : C.go t s t.point answer = some (next, s')) (hpaced : t.point.Paced) :
    ∀ p ∈ next, p.Paced := by
  unfold go at hgo
  split at hgo
  case h_1 p answer hpoint =>
    obtain ⟨⟨next', robots⟩, -, heq⟩ := Option.map_eq_some_iff.1 hgo
    obtain ⟨rfl, -⟩ := Prod.mk.inj heq
    intro p' hp'
    rcases distance_afterAllowed t next' p' hp' with rfl | ⟨q, -, rfl⟩
    · trivial
    · trivial
  case h_2 goesOn hpoint =>
    obtain ⟨rfl, -⟩ := Prod.mk.inj (Option.some.inj hgo)
    cases goesOn with
    | false => simp
    | true => simp [ProcessPoint.Paced]
  case h_3 hpoint =>
    split_ifs at hgo
    obtain ⟨rfl, -⟩ := Prod.mk.inj (Option.some.inj hgo)
    simp [ProcessPoint.Paced]
  case h_4 hpoint =>
    split_ifs at hgo
    have hnext : next = (C.enterSlot t (C.acquireSlot s t.host)).1 := by
      rw [Option.some.inj hgo]
    rw [hnext]
    exact fun p hp => (distance_enterSlot t _ p hp).2
  case h_5 p answer hpoint =>
    obtain ⟨⟨next', robots⟩, -, heq⟩ := Option.map_eq_some_iff.1 hgo
    rw [show next = (C.afterDelay t { s with robots := robots } next').1 from
      (congrArg Prod.fst heq).symm]
    exact fun p hp => (distance_afterDelay t _ _ p hp).1
  case h_6 refillPerSec hpoint =>
    split_ifs at hgo
    obtain ⟨rfl, -⟩ := Prod.mk.inj (Option.some.inj hgo)
    rw [hpoint] at hpaced
    rintro p hp
    obtain rfl := Option.some.inj hp
    exact hpaced
  case h_7 refillPerSec hpoint =>
    rw [hpoint] at hpaced
    have hpoll := paced_afterPoll (t := t) (s := s) hpaced
      (pollLocal C.capacity s.robots.clock refillPerSec (s.buckets.lookup t.host))
    rw [Option.some.inj hgo] at hpoll
    exact hpoll
  case h_8 hpoint =>
    obtain ⟨rfl, -⟩ := Prod.mk.inj (Option.some.inj hgo)
    simp [ProcessPoint.Paced]
  case h_9 hpoint =>
    obtain ⟨rfl, -⟩ := Prod.mk.inj (Option.some.inj hgo)
    simp
  case h_10 => simp at hgo

lemma paced_enter (t : ProcessCall) (s : ConcurrentState R) : ∀ p ∈ (C.enter t s).1, p.Paced := by
  rw [enter]
  split_ifs
  · intro p hp
    rcases distance_afterAllowed t _ p hp with rfl | ⟨q, -, rfl⟩
    · trivial
    · trivial
  · simp [ProcessPoint.Paced]

/-! ### Runs -/

/-- The steps, one by one. -/
inductive Steps (C : ConcurrentPipeline R) (s : ConcurrentRun R) :
    ConcurrentAct → ConcurrentRun R → Prop
  | tick {now : ℚ} : Steps C s (.tick now) { s with shared.robots.clock := now }
  /-- A call for a URL that cannot be split. -/
  | raise {url : Text} : Steps C s (.process url) s
  | process (t : ProcessCall) :
      Steps C s (.process t.url)
        ⟨(C.enter t s.shared).2, s.calls ++ callsOf t (C.enter t s.shared).1⟩
  | go {t : ProcessCall} {answer : ProcessAnswer} {next : Option ProcessPoint}
      {shared : ConcurrentState R} {pre post : List ProcessCall}
      (hcalls : s.calls = pre ++ t :: post)
      (hgo : C.go t s.shared t.point answer = some (next, shared)) :
      Steps C s (.go pre.length answer) ⟨shared, pre ++ callsOf t next ++ post⟩
  | abort {t : ProcessCall} {pre post : List ProcessCall} (hcalls : s.calls = pre ++ t :: post) :
      Steps C s (.abort pre.length) ⟨C.abort t s.shared t.point, pre ++ post⟩

/-- The step of a call that goes on. -/
lemma step_go {s : ConcurrentRun R} {answer : ProcessAnswer} {next : Option ProcessPoint}
    {shared : ConcurrentState R} {pre post : List ProcessCall}
    (hcalls : s.calls = pre ++ t :: post)
    (hgo : C.go t s.shared t.point answer = some (next, shared)) :
    C.step s (.go pre.length answer) = some ⟨shared, pre ++ callsOf t next ++ post⟩ := by
  simp [step, hcalls, hgo, List.drop_append]

/-- **Inversion of a step.** -/
theorem steps_of_step {s s' : ConcurrentRun R} {a : ConcurrentAct} (h : C.step s a = some s') :
    Steps C s a s' := by
  cases a with
  | tick now =>
      simp only [step] at h
      split_ifs at h with hle
      obtain rfl := Option.some.inj h
      exact .tick
  | process url =>
      simp only [step] at h
      split at h
      case h_1 e hurl =>
        obtain rfl := Option.some.inj h
        exact .raise
      case h_2 o hurl =>
        obtain rfl := Option.some.inj h
        exact .process { url, origin := o, host := C.hostOf url, point := .checks }
  | go i answer =>
      simp only [step] at h
      split at h
      case h_1 => simp at h
      case h_2 t hi =>
        obtain ⟨pre, post, hcalls, rfl⟩ := exists_split_of_getElem? hi
        split at h
        case h_1 => simp at h
        case h_2 next shared hgo =>
          obtain rfl := Option.some.inj h
          rw [hcalls, List.take_left, show (pre ++ t :: post).drop (pre.length + 1) = post by
            simp [List.drop_append]]
          exact .go hcalls hgo
  | abort i =>
      simp only [step] at h
      split at h
      case h_1 => simp at h
      case h_2 t hi =>
        obtain ⟨pre, post, hcalls, rfl⟩ := exists_split_of_getElem? hi
        obtain rfl := Option.some.inj h
        rw [hcalls, eraseIdx_append_cons]
        exact .abort hcalls

/-- The account of the resources, and the rates of the calls. -/
structure Inv (C : ConcurrentPipeline R) (s : ConcurrentRun R) : Prop where
  accounted : Accounted C.capacityOf (C.free s.shared) holds s.calls
  paced : ∀ t ∈ s.calls, t.point.Paced

/-- The calls of an account have taken what they hold. -/
lemma taken_of_mem {s : ConcurrentRun R}
    (h : Accounted C.capacityOf (C.free s.shared) holds s.calls) (ht : t ∈ s.calls) :
    Taken C s.shared t :=
  fun _ hr => h.free_lt ht hr

lemma paced_callsOf {next : Option ProcessPoint} (hnext : ∀ p ∈ next, p.Paced) :
    ∀ t' ∈ callsOf t next, t'.point.Paced := by
  intro t' ht'
  obtain ⟨p, hp, rfl⟩ := List.mem_map.1 ht'
  exact hnext p (Option.mem_toList.1 hp)

lemma Inv.step {s s' : ConcurrentRun R} {a : ConcurrentAct} (h : Inv C s) (hs : Steps C s a s') :
    Inv C s' := by
  cases hs with
  | tick =>
      refine ⟨fun r => ?_, h.paced⟩
      rw [← h.accounted r]
      cases r <;> rfl
  | raise => exact h
  | process t =>
      refine ⟨h.accounted.append fun r => free_enter t s.shared r, fun t' ht' => ?_⟩
      exact (List.mem_append.1 ht').elim (h.paced t') (paced_callsOf (paced_enter t s.shared) t')
  | @go t answer next shared pre post hcalls hgo =>
      have haccounted := h.accounted
      have hpaced := h.paced
      have ht : t ∈ s.calls := by
        rw [hcalls]
        exact List.mem_append_right _ List.mem_cons_self
      rw [hcalls] at haccounted hpaced
      refine ⟨haccounted.replace fun r => ?_, fun t' ht' => ?_⟩
      · rw [free_go hgo (taken_of_mem h.accounted ht) r, held_cons, held_nil, zero_add]
        rfl
      · rw [List.append_assoc, List.mem_append, List.mem_append] at ht'
        rcases ht' with ht' | ht' | ht'
        · exact hpaced t' (List.mem_append_left _ ht')
        · exact paced_callsOf (paced_go hgo (h.paced t ht)) t' ht'
        · exact hpaced t' (List.mem_append_right _ (List.mem_cons_of_mem _ ht'))
  | @abort t pre post hcalls =>
      have haccounted := h.accounted
      have hpaced := h.paced
      have ht : t ∈ s.calls := by
        rw [hcalls]
        exact List.mem_append_right _ List.mem_cons_self
      rw [hcalls] at haccounted hpaced
      refine ⟨haccounted.remove fun r => ?_, forall_mem_remove hpaced⟩
      rw [free_abort (taken_of_mem h.accounted ht) r, held_cons, held_nil, zero_add]
      rfl

lemma inv_of_reachable {start : ℚ} {s : ConcurrentRun R} (h : (machine C start).Reachable s) :
    Inv C s := by
  refine Machine.ReachableBy.inv ?_
    (fun s a t (ih : Inv C s) _ hst => ih.step (steps_of_step hst)) h
  refine ⟨fun r => ?_, nofun⟩
  cases r <;> rfl

/-- Some call can always go on. -/
lemma Inv.exists_able {s : ConcurrentRun R} (h : Inv C s) (hlimit : 1 ≤ C.limit)
    (hhost : 1 ≤ C.perHostConcurrency) (hne : s.calls ≠ []) :
    ∃ t ∈ s.calls, ∀ r ∈ waitsFor t, 0 < C.free s.shared r := by
  refine h.accounted.exists_able (fun r => ?_) waitsFor Resource.rank
    (fun t _ r hr r' hr' => rank_lt hr hr') hne
  cases r with
  | gate => exact hlimit
  | slot host => exact hhost
  | robots o => exact Nat.one_pos
  | limiter host => exact Nat.one_pos

/-- The distance of the calls to their ends. -/
def distanceOf (calls : List ProcessCall) : ℕ := (calls.map fun t => t.point.distance).sum

/-- A call that comes nearer to its end brings down the distance. -/
lemma distanceOf_lt {pre post : List ProcessCall} {next : Option ProcessPoint}
    (hnext : ∀ p ∈ next, p.distance < t.point.distance) :
    distanceOf (pre ++ callsOf t next ++ post) < distanceOf (pre ++ t :: post) := by
  have hpos : 0 < t.point.distance := by
    cases t.point <;> simp [ProcessPoint.distance]
  cases next with
  | none =>
      simp only [distanceOf, callsOf, Option.toList_none, List.map_nil, List.append_nil,
        List.map_append, List.sum_append, List.map_cons, List.sum_cons]
      omega
  | some p =>
      have := hnext p rfl
      simp only [distanceOf, callsOf, Option.toList_some, List.map_cons, List.map_nil,
        List.map_append, List.sum_append, List.sum_cons, List.sum_nil]
      omega

/-- A call that polls the limiter finds a token at some later time. -/
lemma exists_go_later {refillPerSec : ℚ} (hpoint : t.point = .polling refillPerSec)
    (hpaced : t.point.Paced) (hcapacity : 1 ≤ C.capacity) (s : ConcurrentState R) :
    ∃ now shared, s.robots.clock ≤ now ∧
      C.go t { s with robots.clock := now } t.point .woken = some (some .fetching, shared) := by
  rw [hpoint] at hpaced ⊢
  obtain ⟨now, hnow, htoken⟩ :=
    exists_token hcapacity hpaced s.robots.clock (s.buckets.lookup t.host)
  cases hpoll : pollLocal C.capacity now refillPerSec (s.buckets.lookup t.host) with
  | mk wait b =>
      rw [hpoll] at htoken
      obtain rfl : wait = none := htoken
      exact ⟨now, _, hnow, by rw [go, hpoll, afterPoll]⟩

/-- Some call can always come nearer to its end. -/
lemma Inv.exists_nearer {start : ℚ} {s : ConcurrentRun R} (h : Inv C s) (hlimit : 1 ≤ C.limit)
    (hhost : 1 ≤ C.perHostConcurrency) (hcapacity : 1 ≤ C.capacity) (hne : s.calls ≠ []) :
    ∃ s', Relation.ReflTransGen (machine C start).Next s s' ∧
      distanceOf s'.calls < distanceOf s.calls := by
  obtain ⟨t, ht, hable⟩ := h.exists_able hlimit hhost hne
  obtain ⟨pre, post, hcalls⟩ := List.append_of_mem ht
  by_cases hpolling : ∃ refillPerSec, t.point = .polling refillPerSec
  · -- the clock is set to a time at which the poll finds a token
    obtain ⟨refillPerSec, hpoint⟩ := hpolling
    obtain ⟨now, shared, hnow, hgo⟩ := exists_go_later hpoint (h.paced t ht) hcapacity s.shared
    let later : ConcurrentRun R := { s with shared.robots.clock := now }
    have htick : (machine C start).Next s later := ⟨.tick now, if_pos hnow⟩
    have hstep : (machine C start).Next later ⟨shared, pre ++ callsOf t (some .fetching) ++ post⟩ :=
      ⟨.go pre.length .woken, step_go (s := later) hcalls hgo⟩
    refine ⟨_, .tail (.single htick) hstep, ?_⟩
    rw [hcalls]
    refine distanceOf_lt fun p hp => ?_
    obtain rfl := Option.some.inj hp
    rw [hpoint]
    exact Nat.lt_succ_self 2
  · obtain ⟨answer, next, shared, hgo, hnearer⟩ := exists_go hable
    have hstep : (machine C start).Next s ⟨shared, pre ++ callsOf t next ++ post⟩ :=
      ⟨.go pre.length answer, step_go hcalls hgo⟩
    refine ⟨_, .single hstep, ?_⟩
    rw [hcalls]
    exact distanceOf_lt (hnearer fun refillPerSec hpoint => hpolling ⟨refillPerSec, hpoint⟩)

/-- All calls can always come to their ends. -/
lemma exists_finished {start : ℚ} (hlimit : 1 ≤ C.limit) (hhost : 1 ≤ C.perHostConcurrency)
    (hcapacity : 1 ≤ C.capacity) {s : ConcurrentRun R} (h : (machine C start).Reachable s) :
    ∃ s', Relation.ReflTransGen (machine C start).Next s s' ∧ s'.calls = [] := by
  induction hd : distanceOf s.calls using Nat.strong_induction_on generalizing s with
  | _ d ih =>
      by_cases hne : s.calls = []
      · exact ⟨s, .refl, hne⟩
      · obtain ⟨s₁, hrun, hlt⟩ :=
          (inv_of_reachable h).exists_nearer hlimit hhost hcapacity hne
        obtain ⟨s₂, hrun', hend⟩ := ih _ (hd ▸ hlt) (h.of_steps hrun) rfl
        exact ⟨s₂, hrun.trans hrun', hend⟩

/-- **Caps without deadlock.**  In every reachable state: at most `limit` page fetches are in
flight, and at most `perHostConcurrency` from a host; what is not free of the gate, of the
slots of the hosts, of the locks of the robots cache and of the limiter is held by calls that
are not finished; some call that is not finished can go on; and with a limiter that can hold a
token all of them can come to their ends. -/
theorem caps_without_deadlock (C : ConcurrentPipeline R) (hlimit : 1 ≤ C.limit)
    (hhost : 1 ≤ C.perHostConcurrency) (start : ℚ) (s : ConcurrentRun R)
    (h : (machine C start).Reachable s) :
    inFlight s ≤ C.limit ∧ (∀ host, inFlightOf host s ≤ C.perHostConcurrency) ∧
    (∀ r, C.free s.shared r + s.calls.countP (fun t => r ∈ holds t) = C.capacityOf r) ∧
    (s.calls ≠ [] → ∃ i answer s', C.step s (.go i answer) = some s') ∧
    (1 ≤ C.capacity →
      ∃ s', Relation.ReflTransGen (machine C start).Next s s' ∧ s'.calls = []) := by
  have hinv := inv_of_reachable h
  refine ⟨?_, fun host => ?_, hinv.accounted, fun hne => ?_, fun hcapacity =>
    exists_finished hlimit hhost hcapacity h⟩
  · refine le_trans (List.countP_mono_left fun t _ ht => ?_) (hinv.accounted.held_le .gate)
    have hpoint : t.point = .fetching := of_decide_eq_true ht
    simp [holds, hpoint, pointHolds]
  · refine le_trans (List.countP_mono_left fun t _ ht => ?_) (hinv.accounted.held_le (.slot host))
    obtain ⟨hpoint, rfl⟩ := of_decide_eq_true ht
    simp [holds, hpoint, pointHolds]
  · obtain ⟨t, ht, hable⟩ := hinv.exists_able hlimit hhost hne
    obtain ⟨pre, post, hcalls⟩ := List.append_of_mem ht
    obtain ⟨answer, next, shared, hgo, -⟩ := exists_go hable
    exact ⟨pre.length, answer, _, step_go hcalls hgo⟩

/-- A gate for one call, a slot for each host, and rules that allow everything. -/
def oneByOne : ConcurrentPipeline Text where
  limit := 1
  perHostConcurrency := 1
  robots :=
    { chk := ⟨fun _ => true, fun _ => true⟩, parse := .ok, cache := { capacity := 10000 }
      redis := false }
  canFetch _ _ := .ok true
  crawlDelay _ := .ok none
  hostOf url := (url.drop 7).takeWhile (· ≠ '/')

/-- The first of two calls fetches, the second waits for the gate. -/
def twoPages : List ConcurrentAct :=
  [.process "http://a.org/".toList, .process "http://a.org/b".toList, .go 0 (.robots .lock),
    .go 0 (.robots (.fetchText (.ok (200, [])))), .go 0 (.checked true), .go 0 .acquired,
    .go 0 .acquired, .go 0 .acquired, .go 0 .woken, .go 1 (.robots .lock), .go 1 (.checked true)]

theorem caps_without_deadlock_twoPages :
    ∃ s, (machine oneByOne 0).Reachable s ∧ s.calls.map (·.point) = [.fetching, .gate] ∧
      inFlight s ≤ 1 ∧ ∃ i answer s', oneByOne.step s (.go i answer) = some s' := by
  have hrun : ((machine oneByOne 0).exec (fun _ _ => True) (machine oneByOne 0).init
      twoPages).map (fun s => s.calls.map (·.point)) = some [.fetching, .gate] := by
    decide +kernel
  obtain ⟨s, hs, hpoints⟩ := Option.map_eq_some_iff.1 hrun
  have hreach : (machine oneByOne 0).Reachable s := Machine.reachableBy_of_exec twoPages hs
  obtain ⟨hcap, -, -, hprogress, -⟩ := caps_without_deadlock oneByOne le_rfl le_rfl 0 s hreach
  refine ⟨s, hreach, hpoints, hcap, hprogress fun hnil => ?_⟩
  rw [hnil] at hpoints
  exact absurd hpoints (by simp)

end ConcurrentPipeline

end WebCrawler
