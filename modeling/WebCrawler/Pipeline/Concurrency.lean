import WebCrawler.RateLimit.Local
import WebCrawler.Robots.RobotsCache

/-!
# Concurrent calls of `process`

`Pipeline.process` of `crawler/pipeline/pipeline.py`, with the gate of `Backpressure`, the
slots of `Politeness`, the robots cache and the local rate limiter, seen from the resources
that a call holds.  A call asks the robots cache, makes its checks, passes the gate, takes a
slot of its host, asks the robots cache for the crawl delay, waits for a token of the host,
fetches, leaves the slot and the gate, and stores the page.

The machine has any number of calls, each at a point where it waits; what comes between two
such points is one step.  A lock or a semaphore is acquired by any of its waiters when it is
free.  A call may be aborted at every point, by a cancellation or by an exception of what it
waits for; then it gives back what it holds.  What the answers contain and how the checks end
is arbitrary.
-/

namespace WebCrawler

open Lib Lib.TokenBucket

/-- What the calls of a pipeline have in common. -/
structure ConcurrentPipeline (R : Type) where
  /-- `Backpressure.limit`. -/
  limit : ℕ
  perHostConcurrency : ℕ
  respectRobots : Bool := true
  defaultCrawlDelayMs : ℤ := 1000
  robots : RobotsCache R
  /-- `can_fetch` of the rules, for a URL. -/
  canFetch : R → Text → Except PyError Bool
  /-- `crawl_delay` of the rules, in seconds; `⊤` for an infinity and for no number. -/
  crawlDelay : R → Except PyError (Option (WithTop ℚ))
  /-- `host_of`, for a URL that can be split. -/
  hostOf : Text → Text
  /-- `LocalRateLimiter.capacity`. -/
  capacity : ℚ := 1

/-- Where a call of `process` waits. -/
inductive ProcessPoint
  /-- In `politeness.allowed`. -/
  | allowed (p : ParserPoint)
  /-- For the budget, or for the validators. -/
  | checks
  /-- For the gate. -/
  | gate
  /-- For a slot of the host. -/
  | slot
  /-- In `robots.crawl_delay`, with a slot. -/
  | crawlDelay (p : ParserPoint)
  /-- For the lock of the limiter. -/
  | limiter (refillPerSec : ℚ)
  /-- In the sleep between two polls of the limiter. -/
  | polling (refillPerSec : ℚ)
  | fetching
  /-- After the fetch: parsing and storing the page. -/
  | storing
deriving DecidableEq, Repr

/-- A call of `process`. -/
structure ProcessCall where
  url : Text
  origin : Text
  host : Text
  point : ProcessPoint
deriving DecidableEq, Repr

/-- What a call waits for. -/
inductive ProcessAnswer
  | robots (answer : RobotsAnswer)
  /-- The checks end, and the call goes on or not. -/
  | checked (goesOn : Bool)
  /-- The semaphore or the lock. -/
  | acquired
  /-- The sleep ends. -/
  | woken
  | fetched
  | stored

/-- What the calls share. -/
structure ConcurrentState (R : Type) where
  robots : RobotsState R
  /-- `Backpressure._sem`: its value. -/
  gate : ℕ
  /-- `Politeness._semaphores`: the values of those that exist. -/
  semaphores : AList fun _ : Text => ℕ := ∅
  /-- The hosts whose lock in the limiter is held. -/
  limiterLocks : Finset Text := ∅
  /-- `LocalRateLimiter._state`. -/
  buckets : AList fun _ : Text => Bucket ℚ := ∅

/-- A pipeline with its calls. -/
structure ConcurrentRun (R : Type) where
  shared : ConcurrentState R
  /-- The calls that are not finished. -/
  calls : List ProcessCall := []

/-- The steps of the calls and of the clock. -/
inductive ConcurrentAct
  /-- Time passes. -/
  | tick (now : ℚ)
  /-- A call of `process`. -/
  | process (url : Text)
  /-- The `i`-th call gets its answer. -/
  | go (i : ℕ) (answer : ProcessAnswer)
  /-- The `i`-th call ends with an exception. -/
  | abort (i : ℕ)

namespace ConcurrentPipeline

variable {R : Type} (C : ConcurrentPipeline R)

/-- The value of the semaphore of a host. -/
def slots (s : ConcurrentState R) (host : Text) : ℕ :=
  (s.semaphores.lookup host).getD C.perHostConcurrency

def acquireSlot (s : ConcurrentState R) (host : Text) : ConcurrentState R :=
  { s with semaphores := s.semaphores.insert host (C.slots s host - 1) }

def releaseSlot (s : ConcurrentState R) (host : Text) : ConcurrentState R :=
  { s with semaphores := s.semaphores.insert host (C.slots s host + 1) }

/-- The end of `async with gate, slot`. -/
def leave (s : ConcurrentState R) (host : Text) : ConcurrentState R :=
  let s := C.releaseSlot s host
  { s with gate := s.gate + 1 }

/-- `_parser` has come to a point, or `allowed` is decided; a failure counts as permission. -/
def afterAllowed (t : ProcessCall) : ParserNext R → Option ProcessPoint
  | .waits p => some (.allowed p)
  | .returns rules =>
      match C.canFetch rules t.url with
      | .ok false => none
      | _ => some .checks
  | .raises _ => some .checks

/-- The delay for rules.  `int` raises for an infinity. -/
def delayMs (rules : R) : Except PyError ℤ :=
  match C.crawlDelay rules with
  | .ok (some ⊤) => .error { what := "OverflowError" }
  | .ok (some (some seconds)) => .ok (max C.defaultCrawlDelayMs (truncate (seconds * 1000)))
  | _ => .ok C.defaultCrawlDelayMs

/-- The call inside the slot once its delay is known. -/
def withDelay (t : ProcessCall) (s : ConcurrentState R) :
    Except PyError ℤ → Option ProcessPoint × ConcurrentState R
  | .error _ => (none, C.leave s t.host)
  | .ok delay =>
      if delay > 0 then
        let refillPerSec : ℚ := 1000 / delay
        -- without a rate `acquire` returns at once
        if refillPerSec ≤ 0 then (some .fetching, s) else (some (.limiter refillPerSec), s)
      else (some .fetching, s)

/-- `_parser` has come to a point, or the delay is known. -/
def afterDelay (t : ProcessCall) (s : ConcurrentState R) :
    ParserNext R → Option ProcessPoint × ConcurrentState R
  | .waits p => (some (.crawlDelay p), s)
  | .returns rules => C.withDelay t s (C.delayMs rules)
  | .raises _ => C.withDelay t s (.ok C.defaultCrawlDelayMs)

/-- The call with a slot, up to the next point. -/
def enterSlot (t : ProcessCall) (s : ConcurrentState R) : Option ProcessPoint × ConcurrentState R :=
  if C.respectRobots then
    let (next, robots) := C.robots.enter s.robots t.origin
    C.afterDelay t { s with robots := robots } next
  else C.withDelay t s (.ok C.defaultCrawlDelayMs)

/-- A call up to its first point. -/
def enter (t : ProcessCall) (s : ConcurrentState R) : Option ProcessPoint × ConcurrentState R :=
  if C.respectRobots then
    let (next, robots) := C.robots.enter s.robots t.origin
    (C.afterAllowed t next, { s with robots := robots })
  else (some .checks, s)

/-- A poll of the limiter has found a token, or the call sleeps again. -/
def afterPoll (t : ProcessCall) (s : ConcurrentState R) (refillPerSec : ℚ) :
    Option ℚ × Bucket ℚ → Option ProcessPoint × ConcurrentState R
  | (none, b) =>
      (some .fetching,
        { s with
          buckets := s.buckets.insert t.host b
          limiterLocks := s.limiterLocks.erase t.host })
  | (some _, b) => (some (.polling refillPerSec), { s with buckets := s.buckets.insert t.host b })

/-- A call from one point to the next, or to its end. -/
def go (t : ProcessCall) (s : ConcurrentState R) :
    ProcessPoint → ProcessAnswer → Option (Option ProcessPoint × ConcurrentState R)
  | .allowed p, .robots answer =>
      (C.robots.proceed s.robots t.origin p answer).map fun (next, robots) =>
        (C.afterAllowed t next, { s with robots := robots })
  | .checks, .checked goesOn => some (if goesOn then some .gate else none, s)
  | .gate, .acquired =>
      if s.gate = 0 then none else some (some .slot, { s with gate := s.gate - 1 })
  | .slot, .acquired =>
      if C.slots s t.host = 0 then none else some (C.enterSlot t (C.acquireSlot s t.host))
  | .crawlDelay p, .robots answer =>
      (C.robots.proceed s.robots t.origin p answer).map fun (next, robots) =>
        C.afterDelay t { s with robots := robots } next
  | .limiter refillPerSec, .acquired =>
      if t.host ∈ s.limiterLocks then none
      else
        some (some (.polling refillPerSec),
          { s with limiterLocks := insert t.host s.limiterLocks })
  | .polling refillPerSec, .woken =>
      some (afterPoll t s refillPerSec
        (pollLocal C.capacity s.robots.clock refillPerSec (s.buckets.lookup t.host)))
  | .fetching, .fetched => some (some .storing, C.leave s t.host)
  | .storing, .stored => some (none, s)
  | _, _ => none

/-- A call ends with an exception at a point. -/
def abort (t : ProcessCall) (s : ConcurrentState R) : ProcessPoint → ConcurrentState R
  | .allowed p => { s with robots := RobotsCache.cancel s.robots t.origin p }
  | .checks => s
  | .gate => s
  | .slot => { s with gate := s.gate + 1 }
  | .crawlDelay p => C.leave { s with robots := RobotsCache.cancel s.robots t.origin p } t.host
  | .limiter _ => C.leave s t.host
  | .polling _ => C.leave { s with limiterLocks := s.limiterLocks.erase t.host } t.host
  | .fetching => C.leave s t.host
  | .storing => s

/-- The call, if it is not finished. -/
def callsOf (t : ProcessCall) (next : Option ProcessPoint) : List ProcessCall :=
  next.toList.map fun p => { t with point := p }

/-- One step. -/
def step (s : ConcurrentRun R) : ConcurrentAct → Option (ConcurrentRun R)
  | .tick now =>
      if s.shared.robots.clock ≤ now then
        some { s with shared.robots.clock := now }
      else none
  | .process url =>
      match C.robots.origin url with
      -- the URL cannot be split, and `host_of` raises
      | .error _ => some s
      | .ok origin =>
          let t : ProcessCall := { url, origin, host := C.hostOf url, point := .checks }
          let (next, shared) := C.enter t s.shared
          some ⟨shared, s.calls ++ callsOf t next⟩
  | .go i answer =>
      match s.calls[i]? with
      | none => none
      | some t =>
          match C.go t s.shared t.point answer with
          | none => none
          | some (next, shared) =>
              some ⟨shared, s.calls.take i ++ callsOf t next ++ s.calls.drop (i + 1)⟩
  | .abort i =>
      match s.calls[i]? with
      | none => none
      | some t => some ⟨C.abort t s.shared t.point, s.calls.eraseIdx i⟩

/-- A pipeline that is created at a time. -/
def machine (start : ℚ) : Machine (ConcurrentRun R) ConcurrentAct where
  init := { shared := { robots := { clock := start }, gate := C.limit } }
  step := C.step

/-- The number of page fetches in flight. -/
def inFlight (s : ConcurrentRun R) : ℕ := s.calls.countP fun t => t.point = .fetching

/-- The number of page fetches from a host in flight. -/
def inFlightOf (host : Text) (s : ConcurrentRun R) : ℕ :=
  s.calls.countP fun t => t.point = .fetching ∧ t.host = host

/-! ### The resources -/

/-- What the calls acquire and release. -/
inductive Resource
  | gate
  | slot (host : Text)
  /-- The lock of an origin in the robots cache. -/
  | robots (origin : Text)
  /-- The lock of a host in the limiter. -/
  | limiter (host : Text)
deriving DecidableEq

/-- The order in which they are acquired. -/
def Resource.rank : Resource → ℕ
  | .gate => 0
  | .slot _ => 1
  | .robots _ => 2
  | .limiter _ => 2

/-- What a call of `_parser` holds. -/
def parserHolds (origin : Text) : ParserPoint → List Resource
  | .waiting => []
  | .loading _ => [.robots origin]

/-- What a call of `_parser` waits for. -/
def parserWaits (origin : Text) : ParserPoint → Option Resource
  | .waiting => some (.robots origin)
  | .loading _ => none

/-- What a call holds at a point. -/
def pointHolds (origin host : Text) : ProcessPoint → List Resource
  | .allowed p => parserHolds origin p
  | .slot => [.gate]
  | .crawlDelay p => .gate :: .slot host :: parserHolds origin p
  | .limiter _ => [.gate, .slot host]
  | .polling _ => [.gate, .slot host, .limiter host]
  | .fetching => [.gate, .slot host]
  | _ => []

/-- What a call waits for at a point. -/
def pointWaits (origin host : Text) : ProcessPoint → Option Resource
  | .allowed p => parserWaits origin p
  | .gate => some .gate
  | .slot => some (.slot host)
  | .crawlDelay p => parserWaits origin p
  | .limiter _ => some (.limiter host)
  | _ => none

def holds (t : ProcessCall) : List Resource := pointHolds t.origin t.host t.point

def waitsFor (t : ProcessCall) : Option Resource := pointWaits t.origin t.host t.point

/-- How often a resource can be acquired. -/
def capacityOf : Resource → ℕ
  | .gate => C.limit
  | .slot _ => C.perHostConcurrency
  | .robots _ => 1
  | .limiter _ => 1

/-- How often a resource can still be acquired. -/
def free (s : ConcurrentState R) : Resource → ℕ
  | .gate => s.gate
  | .slot host => C.slots s host
  | .robots origin => s.robots.freeLock origin
  | .limiter host => if host ∈ s.limiterLocks then 0 else 1

/-- Whether a resource is one of a list, as a number. -/
def own (l : List Resource) (r : Resource) : ℕ := if r ∈ l then 1 else 0

variable {C} {s s' : ConcurrentState R} {t : ProcessCall} {r : Resource}

@[simp] lemma held_callsOf_some {p : ProcessPoint} :
    held holds r (callsOf t (some p)) = own (pointHolds t.origin t.host p) r :=
  held_cons.trans (Nat.zero_add _)

/-- Entries with different heads add up. -/
lemma own_cons {r' : Resource} {l : List Resource} (h : r' ∉ l) :
    own (r' :: l) r = own [r'] r + own l r := by
  by_cases hr : r = r'
  · subst hr
    simp [own, h]
  · simp [own, hr]

/-- The end of `async with gate, slot` gives back both. -/
lemma free_leave (host : Text) (r : Resource) :
    C.free (C.leave s host) r = C.free s r + own [.gate, .slot host] r := by
  cases r with
  | gate => rfl
  | robots origin => rfl
  | limiter host' => rfl
  | slot host' =>
      by_cases hhost : host' = host
      · subst hhost
        simp [free, leave, own, releaseSlot, slots]
      · simp [free, leave, own, releaseSlot, slots, hhost, AList.lookup_insert_ne hhost]

lemma free_acquireSlot {host : Text} (h : C.slots s host ≠ 0) (r : Resource) :
    C.free (C.acquireSlot s host) r + own [.slot host] r = C.free s r := by
  cases r with
  | gate => rfl
  | robots origin => rfl
  | limiter host' => rfl
  | slot host' =>
      by_cases hhost : host' = host
      · subst hhost
        have : C.slots (C.acquireSlot s host') host' = C.slots s host' - 1 := by
          simp [slots, acquireSlot]
        simp only [free, own, List.mem_singleton, if_true, this]
        omega
      · simp [free, own, slots, acquireSlot, hhost, AList.lookup_insert_ne hhost]

/-- What a call of `_parser` holds when it has come to a point or has ended. -/
def nextHolds (origin : Text) : ParserNext R → List Resource
  | .waits p => parserHolds origin p
  | _ => []

lemma own_parserHolds (o : Text) (p : ParserPoint) (o' : Text) :
    own (parserHolds o p) (.robots o') = held RobotsCache.locksOf o' [(o, p)] := by
  cases p with
  | waiting => rfl
  | loading q => simp [own, parserHolds, RobotsCache.locksOf]

lemma own_nextHolds (o : Text) (next : ParserNext R) (o' : Text) :
    own (nextHolds o next) (.robots o') = held RobotsCache.locksOf o' (next.calls o) := by
  cases next with
  | waits p => exact own_parserHolds o p o'
  | returns rules => rfl
  | raises e => rfl

/-- A call of `_parser` holds nothing but the lock of an origin. -/
lemma mem_parserHolds {o : Text} {p : ParserPoint} (h : r ∈ parserHolds o p) :
    r = .robots o := by
  cases p with
  | waiting => simp [parserHolds] at h
  | loading q => exact List.mem_singleton.1 h

lemma mem_nextHolds {o : Text} {next : ParserNext R} (h : r ∈ nextHolds o next) :
    r = .robots o := by
  cases next with
  | waits p => exact mem_parserHolds h
  | returns rules => simp [nextHolds] at h
  | raises e => simp [nextHolds] at h

/-- What the robots cache changes is only the locks of origins. -/
lemma free_withRobots (hr : ∀ o, r ≠ .robots o) (robots : RobotsState R) :
    C.free { s with robots := robots } r = C.free s r := by
  cases r with
  | robots o => exact absurd rfl (hr o)
  | gate => rfl
  | slot host => rfl
  | limiter host => rfl

/-- A step of a call of `_parser` takes and gives back the lock of its origin. -/
lemma free_parserStep {p : Option ParserPoint} {next : ParserNext R} {robots : RobotsState R}
    {o : Text} (hm : RobotsCache.Moves C.robots s.robots o p next robots)
    (hlocked : ∀ q, p = some (.loading q) → o ∈ s.robots.locked) (r : Resource) :
    C.free { s with robots := robots } r + own (nextHolds o next) r =
      C.free s r + own (p.elim [] (parserHolds o)) r := by
  by_cases hr : ∃ o', r = .robots o'
  · obtain ⟨o', rfl⟩ := hr
    have hlocks := hm.locks hlocked o'
    rw [own_nextHolds]
    cases p with
    | none => exact hlocks
    | some p =>
        rw [Option.elim_some, own_parserHolds]
        exact hlocks
  · have hne : ∀ o', r ≠ .robots o' := fun o' heq => hr ⟨o', heq⟩
    have hnext : own (nextHolds o next) r = 0 := if_neg fun hmem => hne o (mem_nextHolds hmem)
    have hp : own (p.elim [] (parserHolds o)) r = 0 := by
      cases p with
      | none => rfl
      | some p => exact if_neg fun hmem => hne o (mem_parserHolds hmem)
    rw [free_withRobots hne, hnext, hp]

/-- A call of `_parser` that is cancelled gives back what it holds. -/
lemma free_cancel {p : ParserPoint} {o : Text}
    (hlocked : ∀ q, p = .loading q → o ∈ s.robots.locked) (r : Resource) :
    C.free { s with robots := RobotsCache.cancel s.robots o p } r =
      C.free s r + own (parserHolds o p) r := by
  by_cases hr : ∃ o', r = .robots o'
  · obtain ⟨o', rfl⟩ := hr
    rw [own_parserHolds]
    exact RobotsCache.freeLock_cancel hlocked o'
  · have hne : ∀ o', r ≠ .robots o' := fun o' heq => hr ⟨o', heq⟩
    have hp : own (parserHolds o p) r = 0 := if_neg fun hmem => hne o (mem_parserHolds hmem)
    rw [free_withRobots hne, hp, Nat.add_zero]

/-- Inside a slot a call of `_parser` adds the lock of its origin. -/
lemma own_inSlot (host : Text) (o : Text) (next : ParserNext R) (r : Resource) :
    own (.gate :: .slot host :: nextHolds o next) r =
      own [.gate, .slot host] r + own (nextHolds o next) r := by
  have hslot : Resource.slot host ∉ nextHolds o next := fun hmem => by
    simpa using mem_nextHolds hmem
  have hgate : Resource.gate ∉ nextHolds o next := fun hmem => by
    simpa using mem_nextHolds hmem
  rw [own_cons (by simp [hgate]), own_cons hslot,
    own_cons (l := [Resource.slot host]) (by simp), add_assoc]

/-! ### What the parts of a step do -/

lemma free_withDelay (t : ProcessCall) (s : ConcurrentState R) (delay : Except PyError ℤ)
    (r : Resource) :
    C.free (C.withDelay t s delay).2 r + held holds r (callsOf t (C.withDelay t s delay).1) =
      C.free s r + own [.gate, .slot t.host] r := by
  cases delay with
  | error e => exact free_leave t.host r
  | ok delay =>
      simp only [withDelay]
      split_ifs
      · rw [held_callsOf_some]
        rfl
      · rw [held_callsOf_some]
        rfl
      · rw [held_callsOf_some]
        rfl

lemma free_afterDelay (t : ProcessCall) (s : ConcurrentState R) (next : ParserNext R)
    (r : Resource) :
    C.free (C.afterDelay t s next).2 r + held holds r (callsOf t (C.afterDelay t s next).1) =
      C.free s r + own (.gate :: .slot t.host :: nextHolds t.origin next) r := by
  cases next with
  | waits p =>
      rw [afterDelay, held_callsOf_some]
      rfl
  | returns rules => exact free_withDelay t s _ r
  | raises e => exact free_withDelay t s _ r

lemma held_afterAllowed (t : ProcessCall) (next : ParserNext R) (r : Resource) :
    held holds r (callsOf t (C.afterAllowed t next)) = own (nextHolds t.origin next) r := by
  cases next with
  | waits p =>
      rw [afterAllowed, held_callsOf_some]
      rfl
  | returns rules =>
      rw [afterAllowed]
      split
      · rfl
      · rw [held_callsOf_some]
        rfl
  | raises e =>
      rw [afterAllowed, held_callsOf_some]
      rfl

/-- A call that starts holds nothing but what it has taken. -/
lemma free_enter (t : ProcessCall) (s : ConcurrentState R) (r : Resource) :
    C.free (C.enter t s).2 r + held holds r (callsOf t (C.enter t s).1) = C.free s r := by
  rw [enter]
  split_ifs
  · show _ + held holds r (callsOf t (C.afterAllowed t _)) = _
    rw [held_afterAllowed]
    exact free_parserStep (RobotsCache.moves_of_enter C.robots s.robots t.origin) (by simp) r
  · rw [held_callsOf_some]
    rfl

/-- A call that has got a slot. -/
lemma free_enterSlot (t : ProcessCall) (s : ConcurrentState R) (r : Resource) :
    C.free (C.enterSlot t s).2 r + held holds r (callsOf t (C.enterSlot t s).1) =
      C.free s r + own [.gate, .slot t.host] r := by
  rw [enterSlot]
  split_ifs
  · have hparser := free_parserStep (C := C) (RobotsCache.moves_of_enter C.robots s.robots t.origin)
      (by simp) r
    refine (free_afterDelay t { s with robots := (C.robots.enter s.robots t.origin).2 }
      (C.robots.enter s.robots t.origin).1 r).trans ?_
    rw [own_inSlot, add_left_comm, hparser, add_comm]
    rfl
  · exact free_withDelay t s _ r

/-- What a call holds is taken. -/
def Taken (C : ConcurrentPipeline R) (s : ConcurrentState R) (t : ProcessCall) : Prop :=
  ∀ r ∈ holds t, C.free s r < C.capacityOf r

lemma Taken.mem_locked {o : Text} (h : Taken C s t) (hholds : .robots o ∈ holds t) :
    o ∈ s.robots.locked := by
  by_contra hfree
  have hlt := h (.robots o) hholds
  simp [free, capacityOf, RobotsState.freeLock, hfree] at hlt

lemma Taken.mem_limiterLocks {host : Text} (h : Taken C s t) (hholds : .limiter host ∈ holds t) :
    host ∈ s.limiterLocks := by
  by_contra hfree
  have hlt := h (.limiter host) hholds
  simp [free, capacityOf, hfree] at hlt

/-- The lock of the limiter is given back. -/
lemma free_unlock {host : Text} (hlocked : host ∈ s.limiterLocks)
    (buckets : AList fun _ : Text => Bucket ℚ) (r : Resource) :
    C.free { s with buckets := buckets, limiterLocks := s.limiterLocks.erase host } r =
      C.free s r + own [.limiter host] r := by
  cases r with
  | gate => rfl
  | slot host' => rfl
  | robots o => rfl
  | limiter host' =>
      by_cases hhost : host' = host
      · subst hhost
        simp [free, own, hlocked]
      · simp [free, own, hhost]

/-- The lock of the limiter is taken. -/
lemma free_lock {host : Text} (hfree : host ∉ s.limiterLocks) (r : Resource) :
    C.free { s with limiterLocks := insert host s.limiterLocks } r + own [.limiter host] r =
      C.free s r := by
  cases r with
  | gate => rfl
  | slot host' => rfl
  | robots o => rfl
  | limiter host' =>
      by_cases hhost : host' = host
      · subst hhost
        simp [free, own, hfree]
      · simp [free, own, hhost]

/-- The gate is passed. -/
lemma free_gate (hgate : s.gate ≠ 0) (r : Resource) :
    C.free { s with gate := s.gate - 1 } r + own [.gate] r = C.free s r := by
  cases r with
  | gate => exact Nat.sub_add_cancel (Nat.pos_of_ne_zero hgate)
  | slot host => rfl
  | robots o => rfl
  | limiter host => rfl

lemma own_slot (host : Text) (r : Resource) :
    own [.gate, .slot host] r = own [.gate] r + own [.slot host] r :=
  own_cons (by simp)

lemma own_polling (host : Text) (r : Resource) :
    own [.gate, .slot host, .limiter host] r =
      own [.gate, .slot host] r + own [.limiter host] r := by
  rw [own_cons (by simp), own_cons (l := [Resource.limiter host]) (by simp),
    own_cons (l := [Resource.slot host]) (by simp), add_assoc]

/-- A poll gives the lock of the limiter back if it finds a token. -/
lemma free_afterPoll (refillPerSec : ℚ) (hlocked : t.host ∈ s.limiterLocks)
    (polled : Option ℚ × Bucket ℚ) (r : Resource) :
    C.free (afterPoll t s refillPerSec polled).2 r +
        held holds r (callsOf t (afterPoll t s refillPerSec polled).1) =
      C.free s r + own [.gate, .slot t.host, .limiter t.host] r := by
  obtain ⟨wait, b⟩ := polled
  cases wait with
  | none =>
      rw [afterPoll, held_callsOf_some, free_unlock hlocked, own_polling, pointHolds]
      omega
  | some w =>
      rw [afterPoll, held_callsOf_some]
      cases r with
      | gate => rfl
      | slot host => rfl
      | robots o => rfl
      | limiter host => rfl

/-- **A step of a call** takes and gives back what it says. -/
lemma free_go {answer : ProcessAnswer} {next : Option ProcessPoint}
    (hgo : C.go t s t.point answer = some (next, s')) (htaken : Taken C s t) (r : Resource) :
    C.free s' r + held holds r (callsOf t next) = C.free s r + own (holds t) r := by
  unfold go at hgo
  split at hgo
  case h_1 p answer hpoint =>
    have hholds : holds t = parserHolds t.origin p := by rw [holds, hpoint, pointHolds]
    obtain ⟨⟨next', robots⟩, hproceed, heq⟩ := Option.map_eq_some_iff.1 hgo
    obtain ⟨rfl, rfl⟩ := Prod.mk.inj heq
    rw [held_afterAllowed, hholds]
    refine free_parserStep (RobotsCache.moves_of_proceed hproceed) (fun q hq => ?_) r
    obtain rfl := Option.some.inj hq
    exact htaken.mem_locked (by simp [hholds, parserHolds])
  case h_2 goesOn hpoint =>
    obtain ⟨rfl, rfl⟩ := Prod.mk.inj (Option.some.inj hgo)
    rw [holds, hpoint]
    cases goesOn with
    | false => rfl
    | true => exact congrArg (_ + ·) held_callsOf_some
  case h_3 hpoint =>
    split_ifs at hgo with hgate
    obtain ⟨rfl, rfl⟩ := Prod.mk.inj (Option.some.inj hgo)
    rw [held_callsOf_some, holds, hpoint]
    exact free_gate hgate r
  case h_4 hpoint =>
    have hholds : holds t = [.gate] := by rw [holds, hpoint, pointHolds]
    split_ifs at hgo with hslot
    have henter := free_enterSlot (C := C) t (C.acquireSlot s t.host) r
    simp only [Option.some.inj hgo, own_slot] at henter
    have hacquire := free_acquireSlot hslot r
    rw [hholds]
    omega
  case h_5 p answer hpoint =>
    have hholds : holds t = .gate :: .slot t.host :: parserHolds t.origin p := by
      rw [holds, hpoint, pointHolds]
    obtain ⟨⟨next', robots⟩, hproceed, heq⟩ := Option.map_eq_some_iff.1 hgo
    have hparser := free_parserStep (C := C) (RobotsCache.moves_of_proceed hproceed) (fun q hq => by
      obtain rfl := Option.some.inj hq
      exact htaken.mem_locked (by simp [hholds, parserHolds])) r
    have hslot := own_inSlot t.host t.origin (.waits p : ParserNext R) r
    have hdelay := free_afterDelay (C := C) t { s with robots := robots } next' r
    simp only [show C.afterDelay t { s with robots := robots } next' = (next, s') from heq,
      own_inSlot] at hdelay
    rw [Option.elim_some] at hparser
    rw [nextHolds] at hslot
    rw [hholds, hslot]
    omega
  case h_6 refillPerSec hpoint =>
    split_ifs at hgo with hfree
    obtain ⟨rfl, rfl⟩ := Prod.mk.inj (Option.some.inj hgo)
    have hlock := free_lock (C := C) hfree r
    rw [held_callsOf_some, holds, hpoint, pointHolds, pointHolds, own_polling]
    omega
  case h_7 refillPerSec hpoint =>
    have hholds : holds t = [.gate, .slot t.host, .limiter t.host] := by
      rw [holds, hpoint, pointHolds]
    have hlocked : t.host ∈ s.limiterLocks := htaken.mem_limiterLocks (by simp [hholds])
    have hpoll := free_afterPoll (C := C) refillPerSec hlocked
      (pollLocal C.capacity s.robots.clock refillPerSec (s.buckets.lookup t.host)) r
    rw [Option.some.inj hgo] at hpoll
    rw [hholds]
    exact hpoll
  case h_8 hpoint =>
    obtain ⟨rfl, rfl⟩ := Prod.mk.inj (Option.some.inj hgo)
    rw [held_callsOf_some, free_leave, holds, hpoint]
    rfl
  case h_9 hpoint =>
    obtain ⟨rfl, rfl⟩ := Prod.mk.inj (Option.some.inj hgo)
    rw [holds, hpoint]
    rfl
  case h_10 => simp at hgo

/-- A call that ends with an exception gives back all that it holds. -/
lemma free_abort (htaken : Taken C s t) (r : Resource) :
    C.free (C.abort t s t.point) r = C.free s r + own (holds t) r := by
  have hholds : holds t = pointHolds t.origin t.host t.point := rfl
  cases hpoint : t.point with
  | allowed p =>
      rw [hpoint] at hholds
      rw [hholds]
      refine free_cancel (fun q hq => htaken.mem_locked ?_) r
      simp [hholds, pointHolds, hq, parserHolds]
  | checks =>
      rw [holds, hpoint]
      rfl
  | gate =>
      rw [holds, hpoint]
      rfl
  | slot =>
      rw [holds, hpoint]
      cases r with
      | gate => rfl
      | slot host => rfl
      | robots o => rfl
      | limiter host => rfl
  | crawlDelay p =>
      rw [hpoint, pointHolds] at hholds
      have hlocked : ∀ q, p = .loading q → t.origin ∈ s.robots.locked := by
        intro q hq
        exact htaken.mem_locked (by simp [hholds, hq, parserHolds])
      have hslot := own_inSlot t.host t.origin (.waits p : ParserNext R) r
      rw [nextHolds] at hslot
      rw [abort, hholds, free_leave, free_cancel hlocked, hslot]
      omega
  | limiter refillPerSec =>
      rw [holds, hpoint]
      exact free_leave t.host r
  | polling refillPerSec =>
      rw [hpoint, pointHolds] at hholds
      have hlocked : t.host ∈ s.limiterLocks := htaken.mem_limiterLocks (by simp [hholds])
      rw [abort, hholds, free_leave, own_polling, free_unlock hlocked s.buckets]
      omega
  | fetching =>
      rw [holds, hpoint]
      exact free_leave t.host r
  | storing =>
      rw [holds, hpoint]
      rfl

end ConcurrentPipeline

end WebCrawler
