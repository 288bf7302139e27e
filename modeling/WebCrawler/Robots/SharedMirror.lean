import WebCrawler.Robots.SingleFlight

/-!
# How old the robots rules can be

A fleet of workers, each with a `RobotsCache`, that share the texts of `robots.txt` in Redis.
Workers start over at any time, with an empty cache.  Redis is what `Timely` lets it answer: a
write takes effect some time after the text was fetched, if at all, and a `GET` finds a text until
`robots_cache_ttl_seconds` after it was written.

An entry of a cache lives as long again, whatever the age of the text from which it was made, but
what was read from Redis is never written back.  So the rules that a call returns are those of a
text that was fetched at most two times to live before, and the delays of Redis (`rules_age`);
without Redis it is one time to live.
-/

namespace WebCrawler

open Lib

/-- The workers, and what has happened to the texts. -/
structure RobotsFleet (R : Type) where
  clock : ℚ
  worker : ℕ → RobotsRun R
  /-- The texts that were fetched, with their origins and times. -/
  fetched : List (Text × Text × ℚ) := []
  /-- The texts that were written to Redis. -/
  written : List (Text × Text × ℚ) := []
  /-- The rules that calls have returned. -/
  used : List (Text × R × ℚ) := []

inductive RobotsFleetAct
  /-- Time passes. -/
  | tick (now : ℚ)
  /-- A call of a worker goes on. -/
  | act (w : ℕ) (a : RobotsAct)
  /-- A `SET` takes effect. -/
  | write (origin text : Text)
  /-- A worker starts over. -/
  | restart (w : ℕ)

namespace RobotsCache

variable {R : Type} (C : RobotsCache R)

/-- What `_load` makes of a response. -/
def robotsText : Except PyError (ℕ × Text) → Text
  | .ok (status, text) => if status = 200 then text else []
  | .error _ => []

/-- The text that an answer brings from the site. -/
def fetchedText (run : RobotsRun R) : RobotsAct → List (Text × Text)
  | .go i (.fetchText response) =>
      match run.calls[i]? with
      | some (origin, .loading .fetching) => [(origin, robotsText response)]
      | _ => []
  | _ => []

/-- The text that an answer brings from Redis. -/
def readText (run : RobotsRun R) : RobotsAct → List (Text × Text)
  | .go i (.redisGet (.ok (some text))) =>
      match run.calls[i]? with
      | some (origin, _) => [(origin, text)]
      | none => []
  | _ => []

/-- The text whose `SET` is answered. -/
def setText (run : RobotsRun R) : RobotsAct → List (Text × Text)
  | .go i (.redisSet _) =>
      match run.calls[i]? with
      | some (origin, .loading (.redisSet robots)) => [(origin, robots)]
      | _ => []
  | _ => []

/-- The rules that are returned by some events. -/
def returnedRules (events : List (RobotsEvent R)) : List (Text × R) :=
  events.filterMap fun
    | .returned origin rules => some (origin, rules)
    | _ => none

/-- One step of the fleet. -/
def fleetStep (s : RobotsFleet R) : RobotsFleetAct → Option (RobotsFleet R)
  | .tick now =>
      if s.clock ≤ now then
        some { s with
          clock := now
          worker := fun w =>
            { s.worker w with shared := { (s.worker w).shared with clock := now } } }
      else none
  -- the clock is that of the fleet
  | .act _ (.tick _) => none
  | .act w a =>
      (C.step (s.worker w) a).map fun run =>
        let events := run.shared.history.drop (s.worker w).shared.history.length
        { s with
          worker := Function.update s.worker w run
          fetched := s.fetched ++
            (fetchedText (s.worker w) a).map fun p => (p.1, p.2, s.clock)
          used := s.used ++ (returnedRules events).map fun p => (p.1, p.2, s.clock) }
  | .write origin text => some { s with written := s.written ++ [(origin, text, s.clock)] }
  | .restart w =>
      some { s with worker := Function.update s.worker w { shared := { clock := s.clock } } }

/-- Workers that start at a time. -/
def fleet (start : ℚ) : Machine (RobotsFleet R) RobotsFleetAct where
  init := { clock := start, worker := fun _ => { shared := { clock := start } } }
  step := fleetStep C

/-- A log has the text for the origin, no longer ago than a time. -/
def Within (log : List (Text × Text × ℚ)) (now age : ℚ) (origin text : Text) : Prop :=
  ∃ e ∈ log, e.1 = origin ∧ e.2.1 = text ∧ now ≤ e.2.2 + age

instance (log : List (Text × Text × ℚ)) (now age : ℚ) (origin text : Text) :
    Decidable (Within log now age origin text) :=
  inferInstanceAs (Decidable (∃ e ∈ log, _))

/-- What Redis does.  A `SET` takes effect, and is answered, at most `delay` after the text was
fetched.  A `GET` finds a text that was written at most `ttl` before, and its answer is at most
`delay` under way. -/
def Timely (ttl delay : ℚ) (s : RobotsFleet R) : RobotsFleetAct → Prop
  | .tick _ => True
  | .act w a =>
      (∀ p ∈ readText (s.worker w) a, Within s.written s.clock (ttl + delay) p.1 p.2) ∧
        ∀ p ∈ setText (s.worker w) a, Within s.fetched s.clock delay p.1 p.2
  | .write origin text => Within s.fetched s.clock delay origin text
  | .restart _ => True

instance (ttl delay : ℚ) (s : RobotsFleet R) : ∀ a, Decidable (Timely ttl delay s a)
  | .tick _ => inferInstanceAs (Decidable True)
  | .act _ _ => inferInstanceAs (Decidable (_ ∧ _))
  | .write _ _ => inferInstanceAs (Decidable (Within _ _ _ _ _))
  | .restart _ => inferInstanceAs (Decidable True)

variable {C} {s s' : RobotsState R} {o : Text}

/-! ### What a call does to the cache of its worker -/

/-- The rules come from a load that ends with an answer. -/
def Loaded (C : RobotsCache R) (calls : List (Text × ParserPoint)) (a : RobotsAct) (o : Text)
    (rules : R) : Prop :=
  ∃ i p answer text, a = .go i answer ∧ calls[i]? = some (o, .loading p) ∧
    C.load p answer = some (.inr text) ∧ C.parse text = .ok rules

/-- Entries are only added by loads, and what is returned was found fresh or loaded. -/
structure Effect (C : RobotsCache R) (loaded : Text → R → Prop) (s s' : RobotsState R) :
    Prop where
  clock : s'.clock = s.clock
  entries : ∀ o rules t, (o, rules, t) ∈ s'.entries.items →
    (o, rules, t) ∈ s.entries.items ∨ t = s.clock ∧ loaded o rules
  history : ∃ new, s'.history = s.history ++ new ∧ ∀ o rules, .returned o rules ∈ new →
    (∃ t, (o, rules, t) ∈ s.entries.items ∧ C.cache.Fresh s.clock t) ∨ loaded o rules

namespace Effect

variable {loaded : Text → R → Prop}

lemma refl (C : RobotsCache R) (loaded : Text → R → Prop) (s : RobotsState R) :
    Effect C loaded s s :=
  ⟨rfl, fun _ _ _ h => Or.inl h, [], by simp, by simp⟩

lemma withLocked (h : Effect C loaded s s') (locked : Finset Text) :
    Effect C loaded s { s' with locked := locked } := ⟨h.clock, h.entries, h.history⟩

lemma record (h : Effect C loaded s s') (e : RobotsEvent R)
    (he : ∀ o rules, e = .returned o rules →
      (∃ t, (o, rules, t) ∈ s.entries.items ∧ C.cache.Fresh s.clock t) ∨ loaded o rules) :
    Effect C loaded s (s'.record e) := by
  obtain ⟨new, hnew, hreturned⟩ := h.history
  refine ⟨h.clock, h.entries, new ++ [e], ?_, fun o rules hmem => ?_⟩
  · simp only [RobotsState.record, hnew, List.append_assoc]
  · rcases List.mem_append.1 hmem with hmem | hmem
    · exact hreturned o rules hmem
    · exact he o rules (List.mem_singleton.1 hmem).symm

lemma withEntries (h : Effect C loaded s s') (entries : LruData Text R)
    (e : Text → RobotsEvent R) (he : ∀ k o rules, e k ≠ .returned o rules)
    (hentries : ∀ o rules t, (o, rules, t) ∈ entries.items →
      (o, rules, t) ∈ s'.entries.items ∨ t = s.clock ∧ loaded o rules) :
    Effect C loaded s (s'.withEntries entries e) := by
  obtain ⟨new, hnew, hreturned⟩ := h.history
  refine ⟨h.clock, fun o rules t hmem => ?_,
    new ++ (s'.entries.keys.filter (· ∉ entries.keys)).map e, ?_, fun o rules hmem => ?_⟩
  · exact (hentries o rules t hmem).elim (h.entries o rules t) Or.inr
  · simp only [RobotsState.withEntries, hnew, List.append_assoc]
  · rcases List.mem_append.1 hmem with hmem | hmem
    · exact hreturned o rules hmem
    · obtain ⟨k, -, hk⟩ := List.mem_map.1 hmem
      exact absurd hk (he k o rules)

lemma lookup (C : RobotsCache R) (loaded : Text → R → Prop) (s : RobotsState R) (o : Text) :
    Effect C loaded s (C.lookup s o).2 :=
  (refl C loaded s).withEntries _ _ nofun fun _ _ _ hmem => Or.inl (LruCache.mem_items_of_get hmem)

lemma store (h : Effect C loaded s s') {rules : R} (hloaded : loaded o rules) :
    Effect C loaded s (C.store s' o rules) := by
  refine h.withEntries _ _ nofun fun o' rules' t hmem => ?_
  rcases LruCache.mem_items_of_put hmem with hold | heq
  · exact Or.inl hold
  · obtain ⟨rfl, hentry⟩ := Prod.mk.inj heq
    obtain ⟨rfl, rfl⟩ := Prod.mk.inj hentry
    exact Or.inr ⟨h.clock, hloaded⟩

/-- A hit returns what is in the cache. -/
lemma hit {rules : R} (hfound : (C.lookup s o).1 = some rules) :
    Effect C loaded s ((C.lookup s o).2.record (.returned o rules)) := by
  refine (lookup C loaded s o).record _ ?_
  rintro o' rules' heq
  obtain ⟨rfl, rfl⟩ := RobotsEvent.returned.inj heq
  exact Or.inl (LruCache.mem_of_get hfound)

/-- A load returns what it stores. -/
lemma finish {rules : R} {text : Text} (hloaded : loaded o rules) :
    Effect C loaded s
      (((C.store (s.record (.loadEnd o text)) o rules).release o).record (.returned o rules)) := by
  refine ((((refl C loaded s).record _ (by rintro _ _ ⟨⟩)).store hloaded).withLocked _).record _ ?_
  rintro o' rules' heq
  obtain ⟨rfl, rfl⟩ := RobotsEvent.returned.inj heq
  exact Or.inr hloaded

end Effect

/-! ### What a step of a worker does to its cache -/

/-- A call waits for Redis only if there is a client. -/
def PointOk (C : RobotsCache R) (p : ParserPoint) : Prop :=
  C.redis = false → p = .waiting ∨ p = .loading .fetching

/-- A call that goes on. -/
lemma effect_of_proceed (loaded : Text → R → Prop) {p : ParserPoint} {answer : RobotsAnswer}
    {next : ParserNext R} (h : C.proceed s o p answer = some (next, s'))
    (hloaded : ∀ q text rules, p = .loading q → C.load q answer = some (.inr text) →
      C.parse text = .ok rules → loaded o rules) :
    Effect C loaded s s' ∧ (PointOk C p → ∀ call ∈ next.calls o, PointOk C call.2) := by
  cases p with
  | waiting =>
      cases moves_of_proceed h with
      | hit hp hfound => exact ⟨Effect.hit hfound, fun _ _ hcall => absurd hcall List.not_mem_nil⟩
      | start hfree hfound =>
          refine ⟨((Effect.lookup C loaded s o).withLocked _).record _ (by rintro _ _ ⟨⟩),
            fun _ call hcall => ?_⟩
          obtain rfl := List.mem_singleton.1 hcall
          intro hredis
          simp [loadStart, hredis]
  | loading q =>
      rw [proceed] at h
      split at h
      case h_1 => simp at h
      case h_2 q' hload =>
        obtain ⟨rfl, rfl⟩ := Prod.mk.inj (Option.some.inj h)
        refine ⟨Effect.refl C loaded s, fun hpoint call hcall hredis => ?_⟩
        obtain rfl := List.mem_singleton.1 hcall
        -- a load without Redis ends with the first answer
        rcases hpoint hredis with heq | heq
        · cases heq
        · obtain rfl := ParserPoint.loading.inj heq
          cases answer <;> simp [load, hredis] at hload
      case h_3 text hload =>
        dsimp only at h
        split at h
        case h_1 e hparse =>
          obtain ⟨rfl, rfl⟩ := Prod.mk.inj (Option.some.inj h)
          refine ⟨?_, fun _ _ hcall => absurd hcall List.not_mem_nil⟩
          exact (((Effect.refl C loaded s).record _ (by rintro _ _ ⟨⟩)).record _
            (by rintro _ _ ⟨⟩)).withLocked _
        case h_2 rules hparse =>
          obtain ⟨rfl, rfl⟩ := Prod.mk.inj (Option.some.inj h)
          exact ⟨Effect.finish (hloaded q text rules rfl hload hparse),
            fun _ _ hcall => absurd hcall List.not_mem_nil⟩

/-- **A step of a worker.** -/
lemma effect_of_step {run run' : RobotsRun R} {a : RobotsAct} (ha : ∀ now, a ≠ .tick now)
    (h : C.step run a = some run') (hpoints : ∀ call ∈ run.calls, PointOk C call.2) :
    Effect C (Loaded C run.calls a) run.shared run'.shared ∧
      ∀ call ∈ run'.calls, PointOk C call.2 := by
  cases a with
  | tick now => exact absurd rfl (ha now)
  | call url =>
      cases steps_of_step h with
      | raise => exact ⟨Effect.refl _ _ _, hpoints⟩
      | call hm =>
          cases hm with
          | hit hp hfound =>
              refine ⟨Effect.hit hfound, fun call hcall => hpoints call ?_⟩
              simpa [ParserNext.calls] using hcall
          | miss hfound =>
              refine ⟨Effect.lookup _ _ _ _, forall_mem_append_singleton hpoints fun _ => ?_⟩
              exact Or.inl rfl
  | go i answer =>
      simp only [step] at h
      split at h
      case h_1 => simp at h
      case h_2 o p hi =>
        split at h
        case h_1 => simp at h
        case h_2 next shared hnext =>
          obtain rfl := Option.some.inj h
          obtain ⟨heffect, hnextpoints⟩ := effect_of_proceed
            (Loaded C run.calls (.go i answer)) hnext
            fun q text rules hq hload hparse => ⟨i, q, answer, text, rfl, hq ▸ hi, hload, hparse⟩
          refine ⟨heffect, fun call hcall => ?_⟩
          rcases List.mem_append.1 hcall with hcall | hcall
          · rcases List.mem_append.1 hcall with hcall | hcall
            · exact hpoints call (List.mem_of_mem_take hcall)
            · exact hnextpoints (hpoints _ (List.mem_of_getElem? hi)) call hcall
          · exact hpoints call (List.mem_of_mem_drop hcall)
  | cancel i =>
      simp only [step] at h
      split at h
      case h_1 => simp at h
      case h_2 o p hi =>
        obtain rfl := Option.some.inj h
        refine ⟨?_, fun call hcall => hpoints call (List.mem_of_mem_eraseIdx hcall)⟩
        cases p with
        | waiting => exact Effect.refl _ _ _
        | loading q =>
            exact ((Effect.refl _ _ _).record _ (by rintro _ _ ⟨⟩)).withLocked _

/-! ### The age of the texts -/

/-- The rules were made from a text that was fetched for the origin since a time. -/
def MadeSince (C : RobotsCache R) (fetched : List (Text × Text × ℚ)) (o : Text) (rules : R)
    (since : ℚ) : Prop :=
  ∃ text fetchedAt, (o, text, fetchedAt) ∈ fetched ∧ C.parse text = .ok rules ∧ since ≤ fetchedAt

lemma MadeSince.mono {fetched : List (Text × Text × ℚ)} {rules : R} {since since' : ℚ}
    (h : MadeSince C fetched o rules since) (more : List (Text × Text × ℚ))
    (hle : since' ≤ since) : MadeSince C (fetched ++ more) o rules since' := by
  obtain ⟨text, fetchedAt, hmem, hparse, hsince⟩ := h
  exact ⟨text, fetchedAt, List.mem_append_left _ hmem, hparse, hle.trans hsince⟩

/-- How long ago the text was fetched, at most, when its rules are stored. -/
def mirrorAge (C : RobotsCache R) (ttl delay : ℚ) : ℚ := if C.redis then ttl + 2 * delay else 0

/-- No text is older than it can be. -/
structure Recent (C : RobotsCache R) (ttl delay : ℚ) (s : RobotsFleet R) : Prop where
  clocks : ∀ w, (s.worker w).shared.clock = s.clock
  points : ∀ w, ∀ call ∈ (s.worker w).calls, PointOk C call.2
  written : ∀ o text writtenAt, (o, text, writtenAt) ∈ s.written →
    ∃ fetchedAt, (o, text, fetchedAt) ∈ s.fetched ∧ writtenAt ≤ fetchedAt + delay
  entries : ∀ w o rules storedAt, (o, rules, storedAt) ∈ (s.worker w).shared.entries.items →
    MadeSince C s.fetched o rules (storedAt - mirrorAge C ttl delay)
  used : ∀ o rules usedAt, (o, rules, usedAt) ∈ s.used →
    MadeSince C s.fetched o rules (usedAt - (ttl + mirrorAge C ttl delay))

section Age

variable {ttl delay : ℚ} {s t : RobotsFleet R}

/-- The text of a load was fetched just now, or comes from Redis. -/
lemma madeSince_of_loaded (httl : 0 ≤ ttl) (hdelay : 0 ≤ delay) (h : Recent C ttl delay s)
    {w : ℕ} {a : RobotsAct} (hT : Timely ttl delay s (.act w a)) {rules : R}
    (hloaded : Loaded C (s.worker w).calls a o rules) :
    MadeSince C (s.fetched ++ (fetchedText (s.worker w) a).map fun p => (p.1, p.2, s.clock))
      o rules (s.clock - mirrorAge C ttl delay) := by
  obtain ⟨i, p, answer, text, rfl, hi, hload, hparse⟩ := hloaded
  have hpoint : PointOk C (.loading p) := h.points w _ (List.mem_of_getElem? hi)
  -- a call that has waited for Redis has a client
  have hmirror : p ≠ .fetching → mirrorAge C ttl delay = ttl + 2 * delay := by
    intro hp
    refine if_pos ?_
    by_contra hredis
    rcases hpoint (by simpa using hredis) with heq | heq
    · cases heq
    · exact hp (ParserPoint.loading.inj heq)
  cases p with
  | redisGet =>
      cases answer with
      | redisGet cached =>
          rcases cached with e | _ | cached
          · simp [load] at hload
          · simp [load] at hload
          · obtain rfl : cached = text := by simpa [load] using hload
            obtain ⟨⟨o', text', writtenAt⟩, hwritten, rfl, rfl, hclock⟩ :=
              hT.1 (o, cached) (by simp [readText, hi])
            obtain ⟨fetchedAt, hfetched, hle⟩ := h.written _ _ writtenAt hwritten
            simp only at hclock
            refine ⟨_, fetchedAt, List.mem_append_left _ hfetched, hparse, ?_⟩
            rw [hmirror (by simp)]
            linarith
      | lock => simp [load] at hload
      | fetchText response => simp [load] at hload
      | redisSet done => simp [load] at hload
  | fetching =>
      cases answer with
      | fetchText response =>
          by_cases hredis : C.redis = true
          · simp [load, hredis] at hload
          · have htext : robotsText response = text := by
              rcases response with e | ⟨status, body⟩ <;>
                simpa [load, hredis, robotsText] using hload
            have hage : mirrorAge C ttl delay = 0 := if_neg hredis
            refine ⟨text, s.clock, List.mem_append_right _ ?_, hparse, by rw [hage, sub_zero]⟩
            simp [fetchedText, hi, htext]
      | lock => simp [load] at hload
      | redisGet cached => simp [load] at hload
      | redisSet done => simp [load] at hload
  | redisSet robots =>
      cases answer with
      | redisSet done =>
          obtain rfl : robots = text := by simpa [load] using hload
          obtain ⟨⟨o', text', fetchedAt⟩, hfetched, rfl, rfl, hclock⟩ :=
            hT.2 (o, robots) (by simp [setText, hi])
          simp only at hclock
          refine ⟨_, fetchedAt, List.mem_append_left _ hfetched, hparse, ?_⟩
          rw [hmirror (by simp)]
          linarith
      | lock => simp [load] at hload
      | redisGet cached => simp [load] at hload
      | fetchText response => simp [load] at hload

lemma mem_returnedRules {events : List (RobotsEvent R)} {rules : R} :
    (o, rules) ∈ returnedRules events ↔ .returned o rules ∈ events := by
  rw [returnedRules, List.mem_filterMap]
  constructor
  · rintro ⟨e, he, heq⟩
    cases e <;> simp_all
  · exact fun he => ⟨_, he, rfl⟩

lemma Recent.act (httl : C.cache.ttl = some ttl) (hpos : 0 ≤ ttl) (hdelay : 0 ≤ delay)
    (h : Recent C ttl delay s) {w : ℕ} {a : RobotsAct} (hT : Timely ttl delay s (.act w a))
    (ha : ∀ now, a ≠ .tick now) {run : RobotsRun R} (hrun : C.step (s.worker w) a = some run) :
    let events := run.shared.history.drop (s.worker w).shared.history.length
    Recent C ttl delay { s with
      worker := Function.update s.worker w run
      fetched := s.fetched ++ (fetchedText (s.worker w) a).map fun p => (p.1, p.2, s.clock)
      used := s.used ++ (returnedRules events).map fun p => (p.1, p.2, s.clock) } := by
  intro events
  obtain ⟨heffect, hpoints⟩ := effect_of_step ha hrun (h.points w)
  obtain ⟨new, hnew, hreturned⟩ := heffect.history
  have hclock := h.clocks w
  have hevents : events = new := by
    show run.shared.history.drop _ = new
    rw [hnew, List.drop_left]
  refine ⟨fun w' => ?_, fun w' => ?_, fun o text writtenAt hwritten => ?_,
    fun w' o rules storedAt hmem => ?_, fun o rules usedAt hused => ?_⟩
  · by_cases hw : w' = w
    · subst hw
      simp only [Function.update_self]
      exact heffect.clock.trans hclock
    · simp only [Function.update_of_ne hw]
      exact h.clocks w'
  · by_cases hw : w' = w
    · subst hw
      simpa only [Function.update_self] using hpoints
    · simpa only [Function.update_of_ne hw] using h.points w'
  · obtain ⟨fetchedAt, hfetched, hle⟩ := h.written o text writtenAt hwritten
    exact ⟨fetchedAt, List.mem_append_left _ hfetched, hle⟩
  · by_cases hw : w' = w
    · subst hw
      simp only [Function.update_self] at hmem
      rcases heffect.entries o rules storedAt hmem with hold | ⟨rfl, hloaded⟩
      · exact (h.entries w' o rules storedAt hold).mono _ le_rfl
      · rw [hclock]
        exact madeSince_of_loaded hpos hdelay h hT hloaded
    · simp only [Function.update_of_ne hw] at hmem
      exact (h.entries w' o rules storedAt hmem).mono _ le_rfl
  · rcases List.mem_append.1 hused with hused | hused
    · exact (h.used o rules usedAt hused).mono _ le_rfl
    · obtain ⟨p, hmem, heq⟩ := List.mem_map.1 hused
      obtain ⟨rfl, hentry⟩ := Prod.mk.inj heq
      obtain ⟨rfl, rfl⟩ := Prod.mk.inj hentry
      rw [hevents, mem_returnedRules] at hmem
      rcases hreturned p.1 p.2 hmem with ⟨storedAt, hentry, hfresh⟩ | hloaded
      · have hage := hfresh ttl httl
        rw [hclock] at hage
        exact (h.entries w p.1 p.2 storedAt hentry).mono _ (by linarith)
      · obtain ⟨text, fetchedAt, hmem, hparse, hle⟩ := madeSince_of_loaded hpos hdelay h hT hloaded
        exact ⟨text, fetchedAt, hmem, hparse, by linarith⟩

lemma Recent.step (httl : C.cache.ttl = some ttl) (hpos : 0 ≤ ttl) (hdelay : 0 ≤ delay)
    (h : Recent C ttl delay s) {a : RobotsFleetAct} (hT : Timely ttl delay s a)
    (hst : C.fleetStep s a = some t) : Recent C ttl delay t := by
  cases a with
  | tick now =>
      simp only [fleetStep] at hst
      split_ifs at hst
      obtain rfl := Option.some.inj hst
      exact ⟨fun w => rfl, h.points, h.written, h.entries, h.used⟩
  | act w a =>
      cases a with
      | tick now => cases hst
      | call url =>
          obtain ⟨run, hrun, rfl⟩ := Option.map_eq_some_iff.1 hst
          exact h.act httl hpos hdelay hT nofun hrun
      | go i answer =>
          obtain ⟨run, hrun, rfl⟩ := Option.map_eq_some_iff.1 hst
          exact h.act httl hpos hdelay hT nofun hrun
      | cancel i =>
          obtain ⟨run, hrun, rfl⟩ := Option.map_eq_some_iff.1 hst
          exact h.act httl hpos hdelay hT nofun hrun
  | write o text =>
      obtain rfl := Option.some.inj hst
      refine ⟨h.clocks, h.points, fun o' text' writtenAt hmem => ?_, h.entries, h.used⟩
      rcases List.mem_append.1 hmem with hmem | hmem
      · exact h.written o' text' writtenAt hmem
      · obtain ⟨rfl, heq⟩ := Prod.mk.inj (List.mem_singleton.1 hmem)
        obtain ⟨rfl, rfl⟩ := Prod.mk.inj heq
        obtain ⟨⟨origin, robots, fetchedAt⟩, hfetched, rfl, rfl, hclock⟩ := hT
        exact ⟨fetchedAt, hfetched, hclock⟩
  | restart w =>
      obtain rfl := Option.some.inj hst
      refine ⟨fun w' => ?_, fun w' => ?_, h.written, fun w' => ?_, h.used⟩
      · by_cases hw : w' = w
        · subst hw
          simp
        · simpa [hw] using h.clocks w'
      · by_cases hw : w' = w
        · subst hw
          simp
        · simpa [hw] using h.points w'
      · by_cases hw : w' = w
        · subst hw
          intro o rules storedAt hmem
          simp only [Function.update_self] at hmem
          cases hmem
        · simpa [hw] using h.entries w'

end Age

/-- **The age of the rules.**  However many workers there are, whatever they do and whatever Redis
and the sites answer: the rules that a call returns were made from a text that was fetched for the
origin, at most two times to live and the delays of Redis before; without Redis, at most one time
to live before. -/
theorem rules_age (C : RobotsCache R) (ttl delay start : ℚ) (httl : C.cache.ttl = some ttl)
    (hpos : 0 ≤ ttl) (hdelay : 0 ≤ delay) (s : RobotsFleet R)
    (h : (C.fleet start).ReachableBy (Timely ttl delay) s) :
    ∀ origin rules usedAt, (origin, rules, usedAt) ∈ s.used → ∃ text fetchedAt,
      (origin, text, fetchedAt) ∈ s.fetched ∧ C.parse text = .ok rules ∧
        usedAt ≤ fetchedAt + if C.redis then 2 * (ttl + delay) else ttl := by
  have hrecent : Recent C ttl delay s := by
    refine h.inv (I := Recent C ttl delay) ?_ fun s a t ih hT hst => ih.step httl hpos hdelay hT hst
    refine ⟨fun _ => rfl, fun _ call hcall => absurd hcall List.not_mem_nil, ?_, ?_, ?_⟩
    · exact fun _ _ _ hmem => absurd hmem List.not_mem_nil
    · exact fun _ _ _ _ hmem => absurd hmem List.not_mem_nil
    · exact fun _ _ _ hmem => absurd hmem List.not_mem_nil
  intro o rules usedAt hused
  obtain ⟨text, fetchedAt, hfetched, hparse, hle⟩ := hrecent.used o rules usedAt hused
  refine ⟨text, fetchedAt, hfetched, hparse, ?_⟩
  rw [mirrorAge] at hle
  split_ifs at hle ⊢
  · linarith
  · linarith

/-- A cache with a time to live of ten seconds and a Redis client. -/
def mirrored : RobotsCache Text where
  chk := ⟨fun _ => true, fun _ => true⟩
  parse := .ok
  cache := { capacity := 1, ttl := some 10, capacity_pos := Nat.one_pos }
  redis := true

/-- The second worker reads what the first one has fetched just before Redis forgets it, and uses
it just before its own cache does. -/
def secondHand : List RobotsFleetAct :=
  [.act 0 (.call aOrg), .act 0 (.go 0 .lock), .act 0 (.go 0 (.redisGet (.ok none))),
    .act 0 (.go 0 (.fetchText (.ok (200, ['x'])))), .write aOrg ['x'],
    .act 0 (.go 0 (.redisSet (.ok ()))), .tick 10, .act 1 (.call aOrg), .act 1 (.go 0 .lock),
    .act 1 (.go 0 (.redisGet (.ok (some ['x'])))), .tick 20, .act 1 (.call aOrg)]

/-- Rules that are twice as old as the time to live allows for one cache. -/
theorem rules_age_secondHand :
    ∃ s, (mirrored.fleet 0).ReachableBy (Timely 10 0) s ∧ s.fetched = [(aOrg, ['x'], 0)] ∧
      (aOrg, ['x'], 20) ∈ s.used ∧ ∃ text fetchedAt, (aOrg, text, fetchedAt) ∈ s.fetched ∧
        (20 : ℚ) ≤ fetchedAt + 2 * (10 + 0) := by
  have hrun : ((mirrored.fleet 0).exec (Timely 10 0) (mirrored.fleet 0).init secondHand).map
      (fun s => (s.fetched, s.used)) = some ([(aOrg, ['x'], 0)],
        [(aOrg, ['x'], 0), (aOrg, ['x'], 10), (aOrg, ['x'], 20)]) := by
    decide +kernel
  obtain ⟨s, hs, heq⟩ := Option.map_eq_some_iff.1 hrun
  obtain ⟨hfetched, hused⟩ := Prod.mk.inj heq
  have hreach : (mirrored.fleet 0).ReachableBy (Timely 10 0) s :=
    Machine.reachableBy_of_exec secondHand hs
  have hmem : (aOrg, ['x'], (20 : ℚ)) ∈ s.used := by
    rw [hused]
    simp
  obtain ⟨text, fetchedAt, hat, -, hle⟩ :=
    rules_age mirrored 10 0 0 rfl (by norm_num) le_rfl s hreach aOrg ['x'] 20 hmem
  exact ⟨s, hreach, hfetched, hmem, text, fetchedAt, hat, hle⟩

end RobotsCache

end WebCrawler
