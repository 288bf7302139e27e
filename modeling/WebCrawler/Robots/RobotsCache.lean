import WebCrawler.Lib.Machine
import WebCrawler.Lib.Resources
import WebCrawler.Cache.LruCache
import WebCrawler.Url.Urllib

/-!
# The robots cache

`RobotsCache` of `crawler/robots/robots_cache.py`.  A call of `_parser` looks its origin up in
the LRU cache, waits for the lock of the origin if there is nothing, looks again, and loads,
parses and stores the rules if there is still nothing.  The machine has any number of calls
that wait for a lock or for an answer inside `_load`; an answer is arbitrary, a call may be
cancelled while it waits, and the clock does not run backwards.  What comes between two
awaited calls is one step.

The history records the loads, what the cache drops, and what the calls return.
-/

namespace WebCrawler

open Lib

/-- What is fixed for a robots cache. -/
structure RobotsCache (R : Type) where
  chk : NetlocChecks
  /-- `Protego.parse`. -/
  parse : Text → Except PyError R
  /-- `_cache`: its capacity and its time to live. -/
  cache : LruCache
  /-- A Redis client is there. -/
  redis : Bool

/-- What the history records. -/
inductive RobotsEvent (R : Type)
  | loadStart (origin : Text)
  | loadEnd (origin text : Text)
  /-- The load was cancelled. -/
  | loadRaised (origin : Text)
  /-- The text of the load could not be parsed. -/
  | parseRaised (origin : Text)
  | evicted (origin : Text)
  | expired (origin : Text)
  /-- A call returns. -/
  | returned (origin : Text) (rules : R)
deriving DecidableEq, Repr

/-- What the calls share. -/
structure RobotsState (R : Type) where
  clock : ℚ
  /-- `_cache`: its entries. -/
  entries : LruData Text R := .empty
  /-- The origins whose lock is held. -/
  locked : Finset Text := ∅
  history : List (RobotsEvent R) := []

/-- Where `_load` waits for an answer. -/
inductive LoadPoint
  | redisGet
  | fetching
  | redisSet (robots : Text)
deriving DecidableEq, Repr

/-- Where a call of `_parser` waits. -/
inductive ParserPoint
  /-- For the lock. -/
  | waiting
  /-- Inside `_load`, with the lock. -/
  | loading (p : LoadPoint)
deriving DecidableEq, Repr

/-- What a call waits for. -/
inductive RobotsAnswer
  /-- The lock. -/
  | lock
  /-- The text that Redis holds, decoded. -/
  | redisGet (cached : Except PyError (Option Text))
  /-- The status and the text of `robots.txt`. -/
  | fetchText (response : Except PyError (ℕ × Text))
  | redisSet (done : Except PyError Unit)

/-- What a call comes to. -/
inductive ParserNext (R : Type)
  | waits (p : ParserPoint)
  | returns (rules : R)
  | raises (e : PyError)

namespace RobotsState

variable {R : Type}

/-- One more event. -/
def record (s : RobotsState R) (e : RobotsEvent R) : RobotsState R :=
  { s with history := s.history ++ [e] }

def acquire (s : RobotsState R) (origin : Text) : RobotsState R :=
  { s with locked := insert origin s.locked }

def release (s : RobotsState R) (origin : Text) : RobotsState R :=
  { s with locked := s.locked.erase origin }

/-- The entries change; an event is recorded for each key that is gone. -/
def withEntries (s : RobotsState R) (entries : LruData Text R) (e : Text → RobotsEvent R) :
    RobotsState R :=
  { s with
    entries := entries
    history := s.history ++ (s.entries.keys.filter (· ∉ entries.keys)).map e }

end RobotsState

namespace RobotsCache

variable {R : Type} (C : RobotsCache R)

/-- `_origin`. -/
def origin (url : Text) : Except PyError Text := do
  let parts ← urlsplit C.chk url
  return parts.scheme ++ "://".toList ++ parts.netloc

/-- `_cache.get`. -/
def lookup (s : RobotsState R) (origin : Text) : Option R × RobotsState R :=
  ((C.cache.get s.clock origin s.entries).1,
    s.withEntries (C.cache.get s.clock origin s.entries).2 .expired)

/-- `_cache.put`. -/
def store (s : RobotsState R) (origin : Text) (rules : R) : RobotsState R :=
  s.withEntries (C.cache.put s.clock origin rules s.entries) .evicted

/-- Where `_load` waits first. -/
def loadStart : LoadPoint := if C.redis then .redisGet else .fetching

/-- `_load` after an answer: where it waits next, or the text that it returns. -/
def load : LoadPoint → RobotsAnswer → Option (LoadPoint ⊕ Text)
  | .redisGet, .redisGet (.ok (some text)) => some (.inr text)
  | .redisGet, .redisGet _ => some (.inl .fetching)
  | .fetching, .fetchText response =>
      let robots := match response with
        | .ok (status, text) => if status = 200 then text else []
        -- unreachable robots
        | .error _ => []
      some (if C.redis then .inl (.redisSet robots) else .inr robots)
  | .redisSet robots, .redisSet _ => some (.inr robots)
  | _, _ => none

/-- `_parser` up to the lock. -/
def enter (s : RobotsState R) (origin : Text) : ParserNext R × RobotsState R :=
  match C.lookup s origin with
  | (some rules, s) => (.returns rules, s.record (.returned origin rules))
  | (none, s) => (.waits .waiting, s)

/-- `_parser` after an answer. -/
def proceed (s : RobotsState R) (origin : Text) :
    ParserPoint → RobotsAnswer → Option (ParserNext R × RobotsState R)
  | .waiting, .lock =>
      if origin ∈ s.locked then none
      else
        match C.lookup (s.acquire origin) origin with
        | (some rules, s) =>
            some (.returns rules, (s.release origin).record (.returned origin rules))
        | (none, s) => some (.waits (.loading C.loadStart), s.record (.loadStart origin))
  | .loading p, answer =>
      match C.load p answer with
      | none => none
      | some (.inl p') => some (.waits (.loading p'), s)
      | some (.inr text) =>
          let s := s.record (.loadEnd origin text)
          match C.parse text with
          | .error e => some (.raises e, (s.record (.parseRaised origin)).release origin)
          | .ok rules =>
              some (.returns rules,
                ((C.store s origin rules).release origin).record (.returned origin rules))
  | _, _ => none

/-- A call is cancelled where it waits. -/
def cancel (s : RobotsState R) (origin : Text) : ParserPoint → RobotsState R
  | .waiting => s
  | .loading _ => (s.record (.loadRaised origin)).release origin

end RobotsCache

/-- The call, if it still waits. -/
def ParserNext.calls {R : Type} (origin : Text) : ParserNext R → List (Text × ParserPoint)
  | .waits p => [(origin, p)]
  | _ => []

/-- A robots cache with its calls. -/
structure RobotsRun (R : Type) where
  shared : RobotsState R
  /-- The calls that wait, with their origins. -/
  calls : List (Text × ParserPoint) := []

/-- The steps of the calls and of the clock. -/
inductive RobotsAct
  /-- Time passes. -/
  | tick (now : ℚ)
  /-- A call of `_parser`. -/
  | call (url : Text)
  /-- The `i`-th call gets its answer. -/
  | go (i : ℕ) (answer : RobotsAnswer)
  /-- The `i`-th call is cancelled. -/
  | cancel (i : ℕ)

namespace RobotsCache

variable {R : Type} (C : RobotsCache R)

/-- One step. -/
def step (s : RobotsRun R) : RobotsAct → Option (RobotsRun R)
  | .tick now =>
      if s.shared.clock ≤ now then some { s with shared := { s.shared with clock := now } }
      else none
  | .call url =>
      match C.origin url with
      -- the call raises what `urlsplit` does
      | .error _ => some s
      | .ok origin =>
          let (next, shared) := C.enter s.shared origin
          some ⟨shared, s.calls ++ next.calls origin⟩
  | .go i answer =>
      match s.calls[i]? with
      | none => none
      | some (origin, p) =>
          match C.proceed s.shared origin p answer with
          | none => none
          | some (next, shared) =>
              some ⟨shared, s.calls.take i ++ next.calls origin ++ s.calls.drop (i + 1)⟩
  | .cancel i =>
      match s.calls[i]? with
      | none => none
      | some (origin, p) => some ⟨cancel s.shared origin p, s.calls.eraseIdx i⟩

/-- A cache that is created at a time. -/
def machine (start : ℚ) : Machine (RobotsRun R) RobotsAct where
  init := { shared := { clock := start } }
  step := step C

/-- The number of loads of an origin in progress. -/
def loadsOf (origin : Text) (calls : List (Text × ParserPoint)) : ℕ :=
  calls.countP fun c => c.1 = origin ∧ c.2 ≠ .waiting

variable {C} {s s' : RobotsState R} {o o' : Text}

/-! ### What one step of a call can do -/

/-- The steps of a call for an origin, from where it waits, if it has begun. -/
inductive Moves (C : RobotsCache R) (s : RobotsState R) (o : Text) :
    Option ParserPoint → ParserNext R → RobotsState R → Prop
  /-- The rules are there, at the first look or with the lock. -/
  | hit {p : Option ParserPoint} {rules : R} (hp : p = none ∨ p = some .waiting)
      (hfound : (C.lookup s o).1 = some rules) :
      Moves C s o p (.returns rules) ((C.lookup s o).2.record (.returned o rules))
  /-- The rules are not there. -/
  | miss (hfound : (C.lookup s o).1 = none) :
      Moves C s o none (.waits .waiting) (C.lookup s o).2
  /-- The rules are not there either when the lock is acquired. -/
  | start (hfree : o ∉ s.locked) (hfound : (C.lookup s o).1 = none) :
      Moves C s o (some .waiting) (.waits (.loading C.loadStart))
        (((C.lookup s o).2.acquire o).record (.loadStart o))
  /-- The load goes on. -/
  | goOn {p p' : LoadPoint} : Moves C s o (some (.loading p)) (.waits (.loading p')) s
  /-- The load ends, and the rules are stored. -/
  | finish {p : LoadPoint} {text : Text} {rules : R} (hparse : C.parse text = .ok rules) :
      Moves C s o (some (.loading p)) (.returns rules)
        (((C.store (s.record (.loadEnd o text)) o rules).release o).record (.returned o rules))
  /-- The load ends with a text that cannot be parsed. -/
  | fail {p : LoadPoint} {text : Text} {e : PyError} (hparse : C.parse text = .error e) :
      Moves C s o (some (.loading p)) (.raises e)
        (((s.record (.loadEnd o text)).record (.parseRaised o)).release o)

lemma moves_of_enter (C : RobotsCache R) (s : RobotsState R) (o : Text) :
    Moves C s o none (C.enter s o).1 (C.enter s o).2 := by
  rw [enter]
  cases hfound : (C.lookup s o).1 with
  | none =>
      rw [show C.lookup s o = (none, (C.lookup s o).2) from Prod.ext hfound rfl]
      exact .miss hfound
  | some rules =>
      rw [show C.lookup s o = (some rules, (C.lookup s o).2) from Prod.ext hfound rfl]
      exact .hit (Or.inl rfl) hfound

/-- **Inversion of a step of a call.** -/
lemma moves_of_proceed {p : ParserPoint} {answer : RobotsAnswer} {next : ParserNext R}
    (h : C.proceed s o p answer = some (next, s')) : Moves C s o (some p) next s' := by
  cases p with
  | waiting =>
      cases answer with
      | lock =>
          rw [proceed] at h
          split_ifs at h with hlocked
          -- the look under the lock leaves the lock alone
          have hlookup : C.lookup (s.acquire o) o =
              ((C.lookup s o).1, (C.lookup s o).2.acquire o) := rfl
          rw [hlookup] at h
          cases hfound : (C.lookup s o).1 with
          | none =>
              rw [hfound] at h
              obtain ⟨rfl, rfl⟩ := Prod.mk.inj (Option.some.inj h)
              exact .start hlocked hfound
          | some rules =>
              rw [hfound] at h
              obtain ⟨rfl, rfl⟩ := Prod.mk.inj (Option.some.inj h)
              have hrelease : ((C.lookup s o).2.acquire o).release o = (C.lookup s o).2 := by
                show { (C.lookup s o).2 with locked := (insert o s.locked).erase o } = _
                rw [Finset.erase_insert hlocked]
                rfl
              rw [hrelease]
              exact .hit (Or.inr rfl) hfound
      | redisGet cached => simp [proceed] at h
      | fetchText response => simp [proceed] at h
      | redisSet done => simp [proceed] at h
  | loading p =>
      rw [proceed] at h
      split at h
      case h_1 => simp at h
      case h_2 p' hload =>
        obtain ⟨rfl, rfl⟩ := Prod.mk.inj (Option.some.inj h)
        exact .goOn
      case h_3 text hload =>
        dsimp only at h
        split at h
        case h_1 e hparse =>
          obtain ⟨rfl, rfl⟩ := Prod.mk.inj (Option.some.inj h)
          exact .fail hparse
        case h_2 rules hparse =>
          obtain ⟨rfl, rfl⟩ := Prod.mk.inj (Option.some.inj h)
          exact .finish hparse

/-! ### The locks -/

end RobotsCache

/-- The lock of an origin, as a resource of capacity one. -/
def RobotsState.freeLock {R : Type} (s : RobotsState R) (o : Text) : ℕ :=
  if o ∈ s.locked then 0 else 1

namespace RobotsCache

/-- The locks that a call holds where it waits. -/
def locksOf (c : Text × ParserPoint) : List Text :=
  match c.2 with
  | .waiting => []
  | .loading _ => [c.1]

variable {R : Type} {C : RobotsCache R} {s s' : RobotsState R} {o : Text}

lemma freeLock_acquire (hfree : o ∉ s.locked) (r : Text) :
    (s.acquire o).freeLock r + (if r = o then 1 else 0) = s.freeLock r := by
  by_cases hr : r = o
  · subst hr
    simp [RobotsState.freeLock, RobotsState.acquire, hfree]
  · simp [RobotsState.freeLock, RobotsState.acquire, hr]

lemma freeLock_release (hlocked : o ∈ s.locked) (r : Text) :
    (s.release o).freeLock r = s.freeLock r + if r = o then 1 else 0 := by
  by_cases hr : r = o
  · subst hr
    simp [RobotsState.freeLock, RobotsState.release, hlocked]
  · simp [RobotsState.freeLock, RobotsState.release, hr]

lemma held_loading (o : Text) (q : LoadPoint) (r : Text) :
    held locksOf r [(o, .loading q)] = if r = o then 1 else 0 := by
  simp [locksOf]

/-- A step of a call takes and gives back the lock of its origin, and no other. -/
lemma Moves.locks {p : Option ParserPoint} {next : ParserNext R} (hm : Moves C s o p next s')
    (hlocked : ∀ q, p = some (.loading q) → o ∈ s.locked) (r : Text) :
    s'.freeLock r + held locksOf r (next.calls o) =
      s.freeLock r + held locksOf r (p.toList.map fun p => (o, p)) := by
  cases hm with
  | hit hp hfound =>
      rcases hp with rfl | rfl
      · rfl
      · rfl
  | miss hfound => rfl
  | start hfree hfound =>
      rw [ParserNext.calls, held_loading]
      exact freeLock_acquire (s := (C.lookup s o).2) hfree r
  | goOn => rfl
  | finish hparse =>
      rw [Option.toList_some, List.map_singleton, held_loading]
      exact freeLock_release (s := C.store (s.record _) o _) (hlocked _ rfl) r
  | fail hparse =>
      rw [Option.toList_some, List.map_singleton, held_loading]
      exact freeLock_release (s := (s.record _).record _) (hlocked _ rfl) r

/-- A call that is cancelled gives back what it holds. -/
lemma freeLock_cancel {p : ParserPoint} (hlocked : ∀ q, p = .loading q → o ∈ s.locked)
    (r : Text) : (cancel s o p).freeLock r = s.freeLock r + held locksOf r [(o, p)] := by
  cases p with
  | waiting => rfl
  | loading q =>
      rw [held_loading]
      exact freeLock_release (s := s.record _) (hlocked q rfl) r

end RobotsCache

end WebCrawler
