import WebCrawler.Lib.SingleFlight
import WebCrawler.Robots.RobotsCache

/-!
# One load at a time

For each origin the history of the robots cache is a log of single flight
(`Lib/SingleFlight.lean`), whose phase is read off the lock and the cache (`Kept`).  So the
loads of an origin do not overlap, and a load follows another only if the cache has dropped
what the earlier one left, or if that one was cancelled or has returned a text that the parser
rejects.  Nothing is stored for such a text, so that all waiting calls load it again.
-/

namespace WebCrawler

open Lib

namespace RobotsCache

variable {R : Type} {C : RobotsCache R} {s s' : RobotsState R} {o : Text}

/-! ### The history of an origin -/

/-- What an event is to the rules of an origin.  A load whose text cannot be parsed has failed. -/
def flight (C : RobotsCache R) (o : Text) : RobotsEvent R → Option Flight
  | .loadStart o' => if o' = o then some .start else none
  | .loadEnd o' text =>
      if o' = o then
        match C.parse text with
        | .ok _ => some .finish
        | .error _ => some .fail
      else none
  | .loadRaised o' => if o' = o then some .fail else none
  | .parseRaised _ => none
  | .evicted o' => if o' = o then some .drop else none
  | .expired o' => if o' = o then some .drop else none
  | .returned _ _ => none

/-- The events that end a flight without rules. -/
lemma eq_of_flight_fail {e : RobotsEvent R} (h : flight C o e = some .fail) :
    e = .loadRaised o ∨ ∃ text error, e = .loadEnd o text ∧ C.parse text = .error error := by
  cases e with
  | loadRaised o' =>
      obtain rfl : o' = o := by simpa [flight] using h
      exact Or.inl rfl
  | loadEnd o' text =>
      rw [flight] at h
      split_ifs at h with ho
      obtain rfl := ho
      cases hparse : C.parse text with
      | ok rules => simp [hparse] at h
      | error error => exact Or.inr ⟨text, error, rfl, hparse⟩
  | _ => simp [flight] at h

lemma eq_of_flight_finish {e : RobotsEvent R} (h : flight C o e = some .finish) :
    ∃ text, e = .loadEnd o text := by
  cases e with
  | loadEnd o' text =>
      rw [flight] at h
      split_ifs at h with ho
      exact ⟨text, by rw [ho]⟩
  | _ => simp [flight] at h

lemma eq_of_flight_drop {e : RobotsEvent R} (h : flight C o e = some .drop) :
    e = .evicted o ∨ e = .expired o := by
  cases e with
  | evicted o' =>
      obtain rfl : o' = o := by simpa [flight] using h
      exact Or.inl rfl
  | expired o' =>
      obtain rfl : o' = o := by simpa [flight] using h
      exact Or.inr rfl
  | loadEnd o' text =>
      rw [flight] at h
      split_ifs at h
      cases hparse : C.parse text with
      | ok rules => simp [hparse] at h
      | error error => simp [hparse] at h
  | _ => simp [flight] at h

/-- Where the rules of an origin are. -/
def phaseOf (s : RobotsState R) (o : Text) : FlightPhase :=
  if o ∈ s.locked then .flying else if o ∈ s.entries.keys then .kept else .absent

lemma flight_loadEnd_of_ok {text : Text} {rules : R} (h : C.parse text = .ok rules) :
    flight C o (.loadEnd o text) = some .finish := by
  rw [flight, if_pos rfl, h]

lemma flight_loadEnd_of_error {text : Text} {e : PyError} (h : C.parse text = .error e) :
    flight C o (.loadEnd o text) = some .fail := by
  rw [flight, if_pos rfl, h]

lemma phaseOf_of_locked (h : o ∈ s.locked) : phaseOf s o = .flying := if_pos h

lemma phaseOf_of_mem (h : o ∉ s.locked) (hkey : o ∈ s.entries.keys) : phaseOf s o = .kept :=
  (if_neg h).trans (if_pos hkey)

lemma phaseOf_of_notMem (h : o ∉ s.locked) (hkey : o ∉ s.entries.keys) :
    phaseOf s o = .absent :=
  (if_neg h).trans (if_neg hkey)

lemma phaseOf_congr (hlocked : o ∈ s'.locked ↔ o ∈ s.locked)
    (hkeys : o ∈ s'.entries.keys ↔ o ∈ s.entries.keys) : phaseOf s' o = phaseOf s o := by
  simp only [phaseOf, hlocked, hkeys]

/-- Each `returned` comes after the end of a load of its origin, with a text that parses to
what was returned. -/
def Justified (C : RobotsCache R) (history : List (RobotsEvent R)) : Prop :=
  ∀ (pre : List (RobotsEvent R)) (o : Text) (v : R) (post : List (RobotsEvent R)),
    history = pre ++ RobotsEvent.returned o v :: post →
      ∃ text, RobotsEvent.loadEnd o text ∈ pre ∧ C.parse text = .ok v

lemma Justified.append {history events : List (RobotsEvent R)} (h : Justified C history)
    (hevents : ∀ o v, .returned o v ∈ events →
      ∃ text, .loadEnd o text ∈ history ∧ C.parse text = .ok v) :
    Justified C (history ++ events) := by
  intro pre o v post heq
  rcases List.append_eq_append_iff.1 heq with ⟨mid, rfl, rfl⟩ | ⟨mid, rfl, hmid⟩
  · obtain ⟨text, htext, hparse⟩ := hevents o v (by simp)
    exact ⟨text, List.mem_append_left _ htext, hparse⟩
  · cases mid with
    | nil =>
        obtain ⟨text, htext, hparse⟩ := hevents o v (by rw [← List.nil_append events, ← hmid]; simp)
        exact ⟨text, by simpa using htext, hparse⟩
    | cons e mid =>
        obtain ⟨rfl, -⟩ := List.cons.inj hmid
        exact h pre o v mid rfl

/-- The history makes the lock and the cache what they are, and what the cache holds and what
the calls return was parsed from the text of a load. -/
structure Kept (C : RobotsCache R) (s : RobotsState R) : Prop where
  phase : ∀ o, FlightPhase.run (flight C o) .absent s.history = some (phaseOf s o)
  /-- There is nothing in the cache under an origin whose lock is held. -/
  absent : ∀ o ∈ s.locked, o ∉ s.entries.keys
  stored : ∀ o v t, (o, (v, t)) ∈ s.entries.items →
    ∃ text, .loadEnd o text ∈ s.history ∧ C.parse text = .ok v
  returned : Justified C s.history

/-- The keys that are gone from the cache, as events of an origin. -/
lemma run_dropped {keys : List Text} (hkeys : keys.Nodup) {e : Text → RobotsEvent R}
    (he : ∀ k, flight C o (e k) = if k = o then some .drop else none) (p : FlightPhase) :
    FlightPhase.run (flight C o) p (keys.map e) = if o ∈ keys then p.next .drop else some p := by
  induction keys generalizing p with
  | nil => rfl
  | cons k keys ih =>
      obtain ⟨hk, hkeys⟩ := List.nodup_cons.1 hkeys
      rw [List.map_cons, FlightPhase.run, he]
      by_cases hko : k = o
      · subst hko
        rw [if_pos rfl, if_pos List.mem_cons_self, Option.elim_some]
        cases hnext : p.next .drop with
        | none => rfl
        | some q => rw [Option.bind_some, ih hkeys, if_neg hk]
      · rw [if_neg hko, Option.elim_none, Option.bind_some, ih hkeys]
        simp [Ne.symm hko]

/-- What a change of the entries does to the phase of an origin. -/
lemma run_withEntries {d : LruData Text R} {e : Text → RobotsEvent R}
    (he : ∀ k, flight C o (e k) = if k = o then some .drop else none) {p : FlightPhase}
    (hrun : FlightPhase.run (flight C o) .absent s.history = some p)
    (hp : o ∈ s.entries.keys → p = .kept) :
    FlightPhase.run (flight C o) .absent (s.withEntries d e).history =
      some (if o ∈ s.entries.keys ∧ o ∉ d.keys then .absent else p) := by
  rw [RobotsState.withEntries, FlightPhase.run_append, hrun, Option.bind_some,
    run_dropped (s.entries.keys_nodup.filter _) he]
  by_cases hgone : o ∈ s.entries.keys ∧ o ∉ d.keys
  · rw [if_pos hgone, if_pos (List.mem_filter.2 ⟨hgone.1, by simpa using hgone.2⟩), hp hgone.1]
    rfl
  · rw [if_neg hgone, if_neg fun hmem => hgone ?_]
    obtain ⟨hkey, hnot⟩ := List.mem_filter.1 hmem
    exact ⟨hkey, by simpa using hnot⟩

namespace Kept

/-- The phase of an origin that the cache holds. -/
lemma phaseOf_eq (h : Kept C s) (ho : o ∈ s.entries.keys) : phaseOf s o = .kept :=
  phaseOf_of_mem (fun hlocked => h.absent o hlocked ho) ho

/-- The phase of an origin when the cache has dropped entries. -/
lemma phaseOf_dropped (h : Kept C s) (hlocked : o ∈ s'.locked ↔ o ∈ s.locked)
    (hkeys : o ∈ s'.entries.keys → o ∈ s.entries.keys) :
    phaseOf s' o =
      if o ∈ s.entries.keys ∧ o ∉ s'.entries.keys then .absent else phaseOf s o := by
  by_cases hk' : o ∈ s'.entries.keys
  · rw [if_neg fun hgone => hgone.2 hk']
    exact phaseOf_congr hlocked (iff_of_true hk' (hkeys hk'))
  · by_cases hk : o ∈ s.entries.keys
    · rw [if_pos ⟨hk, hk'⟩]
      exact phaseOf_of_notMem (fun hmem => h.absent o (hlocked.1 hmem) hk) hk'
    · rw [if_neg fun hgone => hk hgone.1]
      exact phaseOf_congr hlocked (iff_of_false hk' hk)

/-- What is stored was parsed, also after further events. -/
lemma exists_parsed (h : Kept C s) {v : R} {t : ℚ} (hmem : (o, v, t) ∈ s.entries.items)
    (events : List (RobotsEvent R)) :
    ∃ text, .loadEnd o text ∈ s.history ++ events ∧ C.parse text = .ok v := by
  obtain ⟨text, htext, hparse⟩ := h.stored o v t hmem
  exact ⟨text, List.mem_append_left _ htext, hparse⟩

/-- One more event that does not concern the rules. -/
lemma record_returned (h : Kept C s) {v : R}
    (hv : ∃ text, .loadEnd o text ∈ s.history ∧ C.parse text = .ok v) :
    Kept C (s.record (.returned o v)) where
  phase o' := FlightPhase.run_snoc (h.phase o')
  absent := h.absent
  stored o' v' t hmem := h.exists_parsed hmem _
  returned := h.returned.append fun o' v' hmem => by
    obtain ⟨rfl, rfl⟩ := RobotsEvent.returned.inj (List.mem_singleton.1 hmem)
    exact hv

/-- A look at the cache. -/
lemma lookup (h : Kept C s) (o : Text) : Kept C (C.lookup s o).2 := by
  have hitems : ∀ e ∈ (C.lookup s o).2.entries.items, e ∈ s.entries.items :=
    fun e he => LruCache.mem_items_of_get he
  have hkeys : ∀ k ∈ (C.lookup s o).2.entries.keys, k ∈ s.entries.keys := by
    intro k hk
    obtain ⟨e, he⟩ := OrderedDict.exists_mem_items hk
    exact OrderedDict.mem_keys (hitems _ he)
  refine ⟨?_, fun o' ho' hk => h.absent o' ho' (hkeys o' hk), ?_, ?_⟩
  · intro o'
    refine (run_withEntries (fun k => rfl) (h.phase o') h.phaseOf_eq).trans ?_
    exact congrArg some (Eq.symm (h.phaseOf_dropped Iff.rfl (hkeys o')))
  · intro o' v t hmem
    exact h.exists_parsed (hitems _ hmem) _
  · refine h.returned.append ?_
    intro o' v hmem
    obtain ⟨k, -, hk⟩ := List.mem_map.1 hmem
    exact absurd hk (by simp)

/-- A load starts. -/
lemma start (h : Kept C s) (hfree : o ∉ s.locked) (habsent : o ∉ s.entries.keys) :
    Kept C ((s.acquire o).record (.loadStart o)) where
  phase o' := by
    refine (FlightPhase.run_snoc (h.phase o')).trans ?_
    by_cases ho : o' = o
    · subst ho
      rw [phaseOf_of_notMem hfree habsent, phaseOf_of_locked (Finset.mem_insert_self o' s.locked)]
      simp [flight, FlightPhase.next]
    · rw [flight, if_neg (Ne.symm ho), Option.elim_none]
      refine congrArg some (Eq.symm (phaseOf_congr ?_ Iff.rfl))
      exact Finset.mem_insert.trans (or_iff_right ho)
  absent o' ho' := by
    rcases Finset.mem_insert.1 ho' with rfl | ho'
    · exact habsent
    · exact h.absent o' ho'
  stored o' v t hmem := h.exists_parsed hmem _
  returned := h.returned.append fun o' v hmem => by simp at hmem

/-- A load ends without anything to store. -/
lemma release (h : Kept C s) (hlocked : o ∈ s.locked) (events : List (RobotsEvent R))
    (hself : FlightPhase.run (flight C o) .flying events = some .absent)
    (hother : ∀ o' ≠ o, ∀ e ∈ events, flight C o' e = none)
    (hevents : ∀ o v, .returned o v ∉ events) :
    Kept C { s.release o with history := s.history ++ events } where
  phase o' := by
    refine (FlightPhase.run_append).trans ?_
    rw [h.phase, Option.bind_some]
    by_cases ho : o' = o
    · subst ho
      rw [phaseOf_of_locked hlocked, hself]
      exact congrArg some (Eq.symm (phaseOf_of_notMem (Finset.notMem_erase o' s.locked)
        (h.absent o' hlocked)))
    · rw [FlightPhase.run_of_forall_none (hother o' ho)]
      refine congrArg some (Eq.symm (phaseOf_congr ?_ Iff.rfl))
      exact Finset.mem_erase.trans (and_iff_right ho)
  absent o' ho' := h.absent o' (Finset.mem_of_mem_erase ho')
  stored o' v t hmem := h.exists_parsed hmem _
  returned := h.returned.append fun o' v hmem => absurd hmem (hevents o' v)

/-- A load ends, and its rules are stored. -/
lemma store (h : Kept C s) (hlocked : o ∈ s.locked) {text : Text} {rules : R}
    (hparse : C.parse text = .ok rules) :
    Kept C ((C.store (s.record (.loadEnd o text)) o rules).release o) where
  phase o' := by
    have hkeys : o' ∈ (C.store (s.record (.loadEnd o text)) o rules).entries.keys →
        o' ∈ s.entries.keys ∨ o' = o := by
      intro hk
      obtain ⟨e, he⟩ := OrderedDict.exists_mem_items hk
      rcases LruCache.mem_items_of_put he with he | he
      · exact Or.inl (OrderedDict.mem_keys he)
      · exact Or.inr (Prod.mk.inj he).1
    have hself : o ∈ (C.store (s.record (.loadEnd o text)) o rules).entries.keys :=
      LruCache.mem_keys_put_self
    by_cases ho : o' = o
    · subst ho
      have hkept : FlightPhase.run (flight C o') .absent (s.record (.loadEnd o' text)).history =
          some .kept := by
        refine (FlightPhase.run_snoc (h.phase o')).trans ?_
        rw [phaseOf_of_locked hlocked, flight_loadEnd_of_ok hparse]
        rfl
      refine (run_withEntries (fun k => rfl) hkept fun _ => rfl).trans ?_
      rw [if_neg fun hgone => hgone.2 hself]
      exact congrArg some (Eq.symm (phaseOf_of_mem (Finset.notMem_erase o' s.locked) hself))
    · have hrun : FlightPhase.run (flight C o') .absent (s.record (.loadEnd o text)).history =
          some (phaseOf s o') := by
        refine (FlightPhase.run_snoc (h.phase o')).trans ?_
        rw [flight, if_neg (Ne.symm ho), Option.elim_none]
      have hlocked' : o' ∈ s.locked.erase o ↔ o' ∈ s.locked :=
        Finset.mem_erase.trans (and_iff_right ho)
      refine (run_withEntries (fun k => rfl) hrun h.phaseOf_eq).trans ?_
      exact congrArg some (Eq.symm (h.phaseOf_dropped hlocked' fun hk =>
        (hkeys hk).resolve_right ho))
  absent o' ho' hk := by
    obtain ⟨hne, ho'⟩ := Finset.mem_erase.1 ho'
    obtain ⟨e, he⟩ := OrderedDict.exists_mem_items hk
    rcases LruCache.mem_items_of_put he with he | he
    · exact h.absent o' ho' (OrderedDict.mem_keys he)
    · exact hne (Prod.mk.inj he).1
  stored o' v t hmem := by
    rcases LruCache.mem_items_of_put hmem with hmem | heq
    · obtain ⟨text', htext, hparse⟩ := h.exists_parsed hmem [.loadEnd o text]
      exact ⟨text', List.mem_append_left _ htext, hparse⟩
    · obtain ⟨rfl, hv⟩ := Prod.mk.inj heq
      obtain ⟨rfl, -⟩ := Prod.mk.inj hv
      exact ⟨text, List.mem_append_left _ (List.mem_append_right _ List.mem_cons_self), hparse⟩
  returned := by
    refine (h.returned.append fun o' v hmem => by simp at hmem).append ?_
    intro o' v hmem
    obtain ⟨k, -, hk⟩ := List.mem_map.1 hmem
    exact absurd hk (by simp)

/-- Every step of a call keeps the invariant. -/
lemma moves {p : Option ParserPoint} {next : ParserNext R} (h : Kept C s)
    (hm : Moves C s o p next s') (hlocked : ∀ q, p = some (.loading q) → o ∈ s.locked) :
    Kept C s' := by
  cases hm with
  | hit hp hfound =>
      obtain ⟨t, hmem, -⟩ := LruCache.mem_of_get hfound
      obtain ⟨text, htext, hparse⟩ := h.stored o _ t hmem
      exact (h.lookup o).record_returned ⟨text, List.mem_append_left _ htext, hparse⟩
  | miss hfound => exact h.lookup o
  | start hfree hfound => exact (h.lookup o).start hfree (LruCache.notMem_keys_of_get hfound)
  | goOn => exact h
  | finish hparse =>
      refine (h.store (hlocked _ rfl) hparse).record_returned ⟨_, ?_, hparse⟩
      exact List.mem_append_left _ (List.mem_append_right _ List.mem_cons_self)
  | @fail p text e hparse =>
      have hend := h.release (hlocked _ rfl) [.loadEnd o text, .parseRaised o]
        (by rw [FlightPhase.run, flight_loadEnd_of_error hparse]; rfl)
        (fun o' ho' e he => by
          rcases List.mem_pair.1 he with rfl | rfl
          · exact if_neg (Ne.symm ho')
          · rfl)
        (by simp)
      rwa [show s.history ++ [.loadEnd o text, .parseRaised o] =
        s.history ++ [.loadEnd o text] ++ [.parseRaised o] by simp] at hend

/-- A call is cancelled. -/
lemma cancel (h : Kept C s) {p : ParserPoint} (hlocked : ∀ q, p = .loading q → o ∈ s.locked) :
    Kept C (cancel s o p) := by
  cases p with
  | waiting => exact h
  | loading q =>
      refine h.release (hlocked q rfl) [.loadRaised o] ?_ ?_ (by simp)
      · simp [FlightPhase.run, flight, FlightPhase.next]
      · intro o' ho' e he
        rw [List.mem_singleton.1 he]
        exact if_neg (Ne.symm ho')

/-- Time passes. -/
lemma tick (h : Kept C s) (now : ℚ) : Kept C { s with clock := now } :=
  ⟨h.phase, h.absent, h.stored, h.returned⟩

end Kept

/-! ### Runs -/

/-- The steps, one by one. -/
inductive Steps (C : RobotsCache R) (s : RobotsRun R) : RobotsAct → RobotsRun R → Prop
  | tick {now : ℚ} :
      Steps C s (.tick now) { s with shared := { s.shared with clock := now } }
  /-- A call for a URL that cannot be split. -/
  | raise {url : Text} : Steps C s (.call url) s
  | call {url o : Text} {next : ParserNext R} {shared : RobotsState R}
      (hm : Moves C s.shared o none next shared) :
      Steps C s (.call url) ⟨shared, s.calls ++ next.calls o⟩
  | go {o : Text} {p : ParserPoint} {answer : RobotsAnswer} {next : ParserNext R}
      {shared : RobotsState R} {pre post : List (Text × ParserPoint)}
      (hcalls : s.calls = pre ++ (o, p) :: post) (hm : Moves C s.shared o (some p) next shared) :
      Steps C s (.go pre.length answer) ⟨shared, pre ++ next.calls o ++ post⟩
  | cancel {o : Text} {p : ParserPoint} {pre post : List (Text × ParserPoint)}
      (hcalls : s.calls = pre ++ (o, p) :: post) :
      Steps C s (.cancel pre.length) ⟨RobotsCache.cancel s.shared o p, pre ++ post⟩

/-- **Inversion of a step.** -/
theorem steps_of_step {s t : RobotsRun R} {a : RobotsAct} (h : step C s a = some t) :
    Steps C s a t := by
  cases a with
  | tick now =>
      simp only [step] at h
      split_ifs at h with hle
      obtain rfl := Option.some.inj h
      exact .tick
  | call url =>
      simp only [step] at h
      split at h
      case h_1 e hurl =>
        obtain rfl := Option.some.inj h
        exact .raise
      case h_2 o hurl =>
        obtain rfl := Option.some.inj h
        exact .call (moves_of_enter C s.shared o)
  | go i answer =>
      simp only [step] at h
      split at h
      case h_1 => simp at h
      case h_2 o p hi =>
        obtain ⟨pre, post, hcalls, rfl⟩ := exists_split_of_getElem? hi
        split at h
        case h_1 => simp at h
        case h_2 next shared hnext =>
          obtain rfl := Option.some.inj h
          rw [hcalls, List.take_left, show (pre ++ (o, p) :: post).drop (pre.length + 1) = post by
            simp [List.drop_append]]
          exact .go hcalls (moves_of_proceed hnext)
  | cancel i =>
      simp only [step] at h
      split at h
      case h_1 => simp at h
      case h_2 o p hi =>
        obtain ⟨pre, post, hcalls, rfl⟩ := exists_split_of_getElem? hi
        obtain rfl := Option.some.inj h
        rw [hcalls, eraseIdx_append_cons]
        exact .cancel hcalls

/-- The calls that load hold the locks, and the shared state is kept. -/
structure Inv (C : RobotsCache R) (s : RobotsRun R) : Prop where
  kept : Kept C s.shared
  locks : Accounted (fun _ => 1) s.shared.freeLock locksOf s.calls

/-- A call that loads holds its lock. -/
lemma mem_locked_of_accounted {calls : List (Text × ParserPoint)}
    (h : Accounted (fun _ => 1) s.freeLock locksOf calls) {q : LoadPoint}
    (hmem : (o, ParserPoint.loading q) ∈ calls) : o ∈ s.locked := by
  by_contra hfree
  have hlt : s.freeLock o < 1 := h.free_lt hmem List.mem_cons_self
  rw [RobotsState.freeLock, if_neg hfree] at hlt
  exact absurd hlt (lt_irrefl 1)

lemma Inv.step {s t : RobotsRun R} {a : RobotsAct} (h : Inv C s) (hs : Steps C s a t) :
    Inv C t := by
  cases hs with
  | tick => exact ⟨h.kept.tick _, h.locks⟩
  | raise => exact h
  | call hm =>
      refine ⟨h.kept.moves hm (by simp), h.locks.append ?_⟩
      intro r
      exact (hm.locks (by simp) r).trans (by simp)
  | @go o p answer next shared pre post hcalls hm =>
      have hlocks := h.locks
      rw [hcalls] at hlocks
      have hlocked : ∀ q, some p = some (.loading q) → o ∈ s.shared.locked := by
        rintro q hq
        obtain rfl := Option.some.inj hq
        exact mem_locked_of_accounted hlocks (List.mem_append_right _ List.mem_cons_self)
      exact ⟨h.kept.moves hm hlocked, hlocks.replace fun r => hm.locks hlocked r⟩
  | @cancel o p pre post hcalls =>
      have hlocks := h.locks
      rw [hcalls] at hlocks
      have hlocked : ∀ q, p = .loading q → o ∈ s.shared.locked := by
        rintro q rfl
        exact mem_locked_of_accounted hlocks (List.mem_append_right _ List.mem_cons_self)
      exact ⟨h.kept.cancel hlocked, hlocks.remove fun r => freeLock_cancel hlocked r⟩

lemma inv_of_reachable {start : ℚ} {s : RobotsRun R} (h : (machine C start).Reachable s) :
    Inv C s := by
  refine Machine.ReachableBy.inv ?_
    (fun s a t (ih : Inv C s) _ hst => ih.step (steps_of_step hst)) h
  refine ⟨⟨fun o => rfl, nofun, nofun, ?_⟩, fun r => rfl⟩
  intro pre o v post heq
  exact absurd heq (by simp [machine])

/-- The loads of an origin hold its lock. -/
lemma loadsOf_eq (o : Text) (calls : List (Text × ParserPoint)) :
    loadsOf o calls = held locksOf o calls := by
  refine List.countP_congr ?_
  intro c _
  obtain ⟨o', p⟩ := c
  cases p with
  | waiting => simp [locksOf]
  | loading q => simp [locksOf, eq_comm]

/-- **Single flight.**  In every run: at most one load of an origin is in progress; what a call
returns is parsed from the text of a load of its origin that has ended before; and between two
loads of an origin its entry was evicted or has expired, or the earlier load was cancelled, or the
parser has rejected the text that it returned. -/
theorem single_flight (C : RobotsCache R) (start : ℚ) (s : RobotsRun R)
    (h : (machine C start).Reachable s) :
    (∀ o, loadsOf o s.calls ≤ 1) ∧
    (∀ (pre : List (RobotsEvent R)) (o : Text) (rules : R) (post : List (RobotsEvent R)),
      s.shared.history = pre ++ RobotsEvent.returned o rules :: post →
        ∃ text, RobotsEvent.loadEnd o text ∈ pre ∧ C.parse text = .ok rules) ∧
    ∀ (pre : List (RobotsEvent R)) (o : Text) (mid post : List (RobotsEvent R)),
      s.shared.history =
          pre ++ RobotsEvent.loadStart o :: (mid ++ RobotsEvent.loadStart o :: post) →
        RobotsEvent.loadRaised o ∈ mid ∨
          (∃ text e, RobotsEvent.loadEnd o text ∈ mid ∧ C.parse text = .error e) ∨
          ∃ (mid₁ : List (RobotsEvent R)) (text : Text) (mid₂ : List (RobotsEvent R)),
            mid = mid₁ ++ RobotsEvent.loadEnd o text :: mid₂ ∧
              (RobotsEvent.evicted o ∈ mid₂ ∨ RobotsEvent.expired o ∈ mid₂) := by
  have hinv := inv_of_reachable h
  refine ⟨?_, hinv.kept.returned, ?_⟩
  · intro o
    rw [loadsOf_eq]
    exact hinv.locks.held_le o
  · intro pre o mid post hhistory
    have hrun : FlightPhase.run (flight C o) .absent
        (pre ++ RobotsEvent.loadStart o :: (mid ++ RobotsEvent.loadStart o :: post)) ≠ none := by
      rw [← hhistory, hinv.kept.phase o]
      simp
    rcases FlightPhase.between_starts hrun (if_pos rfl) (if_pos rfl) with
      ⟨e, he, hfail⟩ | ⟨mid₁, e, mid₂, rfl, hfinish, e', he', hdrop⟩
    · rcases eq_of_flight_fail hfail with rfl | ⟨text, error, rfl, hparse⟩
      · exact Or.inl he
      · exact Or.inr (Or.inl ⟨text, error, he, hparse⟩)
    · obtain ⟨text, rfl⟩ := eq_of_flight_finish hfinish
      refine Or.inr (Or.inr ⟨mid₁, text, mid₂, rfl, ?_⟩)
      rcases eq_of_flight_drop hdrop with rfl | rfl
      · exact Or.inl he'
      · exact Or.inr he'

/-- A cache of one entry, with texts for rules. -/
def oneEntry : RobotsCache Text where
  chk := ⟨fun _ => true, fun _ => true⟩
  parse := .ok
  cache := { capacity := 1, capacity_pos := Nat.one_pos }
  redis := false

def aOrg : Text := "http://a.org".toList

def bOrg : Text := "http://b.org".toList

/-- Two calls share a load; a load of another origin evicts its rules. -/
def twoOrigins : List RobotsAct :=
  [.call (aOrg ++ ['/', 'x']), .call (aOrg ++ ['/', 'y']), .go 0 .lock,
    .go 0 (.fetchText (.ok (200, ['x']))), .go 0 .lock, .call bOrg, .go 0 .lock,
    .go 0 (.fetchText (.error valueError)), .call aOrg, .go 0 .lock]

/-- What happens between the two loads of the first origin. -/
def betweenLoads : List (RobotsEvent Text) :=
  [.loadEnd aOrg ['x'], .returned aOrg ['x'], .returned aOrg ['x'], .loadStart bOrg,
    .loadEnd bOrg [], .evicted aOrg, .returned bOrg []]

theorem single_flight_twoOrigins :
    ∃ s, (machine oneEntry 0).Reachable s ∧
      s.shared.history =
        [] ++ RobotsEvent.loadStart aOrg :: (betweenLoads ++ [RobotsEvent.loadStart aOrg]) ∧
      (∀ o, loadsOf o s.calls ≤ 1) ∧
      (RobotsEvent.loadRaised aOrg ∈ betweenLoads ∨
        (∃ text e, RobotsEvent.loadEnd aOrg text ∈ betweenLoads ∧
          oneEntry.parse text = .error e) ∨
        ∃ (mid₁ : List (RobotsEvent Text)) (text : Text) (mid₂ : List (RobotsEvent Text)),
          betweenLoads = mid₁ ++ RobotsEvent.loadEnd aOrg text :: mid₂ ∧
            (RobotsEvent.evicted aOrg ∈ mid₂ ∨ RobotsEvent.expired aOrg ∈ mid₂)) := by
  have hrun : ((machine oneEntry 0).exec (fun _ _ => True) (machine oneEntry 0).init
      twoOrigins).map (fun s => s.shared.history) =
      some ([] ++ RobotsEvent.loadStart aOrg ::
        (betweenLoads ++ [RobotsEvent.loadStart aOrg])) := by
    decide +kernel
  obtain ⟨s, hs, hhistory⟩ := Option.map_eq_some_iff.1 hrun
  have hreach : (machine oneEntry 0).Reachable s := Machine.reachableBy_of_exec twoOrigins hs
  obtain ⟨hloads, -, hbetween⟩ := single_flight oneEntry 0 s hreach
  exact ⟨s, hreach, hhistory, hloads, hbetween [] aOrg betweenLoads [] hhistory⟩

/-- Rules with a path that `Protego.parse` takes for a URL with a broken host. -/
def brokenRobots : Text := "User-agent: *\nDisallow: x://[\n".toList

/-- A cache whose parser raises what `urlsplit` raises for such a path. -/
def pickyParser : RobotsCache Text :=
  { oneEntry with
    parse := fun text => if "://[".toList <:+: text then .error valueError else .ok text }

/-- Two calls wait for the rules of an origin that cannot be parsed. -/
def twoWaiting : List RobotsAct :=
  [.call (aOrg ++ ['/', 'x']), .call (aOrg ++ ['/', 'y']), .go 0 .lock,
    .go 0 (.fetchText (.ok (200, brokenRobots))), .go 0 .lock]

/-- **Rules that cannot be parsed are loaded by every call.**  Two successive loads, of which the
first one has returned, and nothing was evicted and has expired. -/
theorem broken_rules_are_loaded_twice :
    ∃ s mid, (machine pickyParser 0).Reachable s ∧
      s.shared.history =
        [] ++ RobotsEvent.loadStart aOrg :: (mid ++ RobotsEvent.loadStart aOrg :: []) ∧
      ¬ (RobotsEvent.loadRaised aOrg ∈ mid ∨ RobotsEvent.evicted aOrg ∈ mid ∨
        RobotsEvent.expired aOrg ∈ mid) := by
  have hrun : ((machine pickyParser 0).exec (fun _ _ => True) (machine pickyParser 0).init
      twoWaiting).map (fun s => s.shared.history) =
      some [.loadStart aOrg, .loadEnd aOrg brokenRobots, .parseRaised aOrg, .loadStart aOrg] := by
    decide +kernel
  obtain ⟨s, hs, hhistory⟩ := Option.map_eq_some_iff.1 hrun
  exact ⟨s, [.loadEnd aOrg brokenRobots, .parseRaised aOrg],
    Machine.reachableBy_of_exec twoWaiting hs, hhistory, by decide⟩

end RobotsCache

end WebCrawler
