import Mathlib.Tactic

/-!
# Single flight

A value that is costly to make is made once and kept: the key is absent, its value is being
made, or it is kept.  Four things can happen to a key: a flight starts, it finishes, it fails,
and the value that is kept is dropped.  A log of events, of which some concern the key, is in
order if each of them happens in its phase.

Between two starts in such a log either a flight has failed, or one has finished and its
value was dropped later on.
-/

namespace WebCrawler.Lib

/-- What can happen to a key. -/
inductive Flight
  | start
  | finish
  | fail
  | drop
deriving DecidableEq, Repr

/-- Where a key is. -/
inductive FlightPhase
  | absent
  | flying
  | kept
deriving DecidableEq, Repr

namespace FlightPhase

/-- The phase after an event that may happen in a phase. -/
def next : FlightPhase → Flight → Option FlightPhase
  | .absent, .start => some .flying
  | .flying, .finish => some .kept
  | .flying, .fail => some .absent
  | .kept, .drop => some .absent
  | _, _ => none

variable {E : Type*} (f : E → Option Flight)

/-- The phase after a log in which `f` says what an event is to the key, unless an event of
the log was out of order. -/
def run : FlightPhase → List E → Option FlightPhase
  | p, [] => some p
  | p, e :: es => ((f e).elim (some p) p.next).bind fun q => run q es

variable {f} {p q : FlightPhase} {e : E} {es es' : List E}

lemma run_append :
    run f p (es ++ es') = (run f p es).bind fun q => run f q es' := by
  induction es generalizing p with
  | nil => rfl
  | cons e es ih => simp only [List.cons_append, run, Option.bind_assoc, ih]

lemma run_snoc (h : run f p es = some q) :
    run f p (es ++ [e]) = (f e).elim (some q) q.next := by
  rw [run_append, h, Option.bind_some, run]
  exact Option.bind_fun_some _

/-- Events that do not concern the key do not change its phase. -/
lemma run_of_forall_none (h : ∀ e ∈ es, f e = none) : run f p es = some p := by
  induction es with
  | nil => rfl
  | cons e es ih =>
      rw [run, h e List.mem_cons_self]
      exact ih fun e' he' => h e' (List.mem_cons_of_mem _ he')

/-- A value that was kept and is not there any more was dropped. -/
lemma exists_drop (h : run f .kept es = some .absent) : ∃ e ∈ es, f e = some .drop := by
  induction es with
  | nil => simp [run] at h
  | cons e es ih =>
      rw [run] at h
      cases hf : f e with
      | none =>
          rw [hf] at h
          obtain ⟨e', he', hdrop⟩ := ih h
          exact ⟨e', List.mem_cons_of_mem _ he', hdrop⟩
      | some x =>
          cases x with
          | drop => exact ⟨e, List.mem_cons_self, hf⟩
          | start => simp [hf, next] at h
          | finish => simp [hf, next] at h
          | fail => simp [hf, next] at h

/-- After a start, a key is absent again only if the flight has failed, or if it has finished
and its value was dropped. -/
lemma exists_fail_or_drop (h : run f .flying es = some .absent) :
    (∃ e ∈ es, f e = some .fail) ∨
      ∃ mid e mid', es = mid ++ e :: mid' ∧ f e = some .finish ∧
        ∃ e' ∈ mid', f e' = some .drop := by
  induction es with
  | nil => simp [run] at h
  | cons e es ih =>
      rw [run] at h
      cases hf : f e with
      | none =>
          rw [hf] at h
          rcases ih h with ⟨e', he', hfail⟩ | ⟨mid, e', mid', rfl, hfinish, hdrop⟩
          · exact Or.inl ⟨e', List.mem_cons_of_mem _ he', hfail⟩
          · exact Or.inr ⟨e :: mid, e', mid', rfl, hfinish, hdrop⟩
      | some x =>
          cases x with
          | fail => exact Or.inl ⟨e, List.mem_cons_self, hf⟩
          | finish =>
              rw [hf] at h
              exact Or.inr ⟨[], e, es, rfl, hf, exists_drop h⟩
          | start => simp [hf, next] at h
          | drop => simp [hf, next] at h

/-- **Between two starts** of a log in order a flight has failed, or one has finished and its
value was dropped. -/
theorem between_starts {pre mid post : List E} {a b : E}
    (h : run f .absent (pre ++ a :: (mid ++ b :: post)) ≠ none) (ha : f a = some .start)
    (hb : f b = some .start) :
    (∃ e ∈ mid, f e = some .fail) ∨
      ∃ mid₁ e mid₂, mid = mid₁ ++ e :: mid₂ ∧ f e = some .finish ∧
        ∃ e' ∈ mid₂, f e' = some .drop := by
  -- a start happens to an absent key only
  have hstart : ∀ {p : FlightPhase}, p.next .start ≠ none → p = .absent ∧ p.next .start =
      some .flying := by
    intro p hp
    cases p with
    | absent => exact ⟨rfl, rfl⟩
    | flying => exact absurd rfl hp
    | kept => exact absurd rfl hp
  obtain ⟨q, hq⟩ := Option.ne_none_iff_exists'.1 h
  rw [run_append] at hq
  obtain ⟨p, -, hq⟩ := Option.bind_eq_some_iff.1 hq
  rw [run, ha, Option.elim_some] at hq
  obtain ⟨p', hp', hq⟩ := Option.bind_eq_some_iff.1 hq
  obtain ⟨-, hnext⟩ := hstart (by rw [hp']; simp)
  obtain rfl : FlightPhase.flying = p' := Option.some.inj (hnext.symm.trans hp')
  rw [run_append] at hq
  obtain ⟨r, hr, hq⟩ := Option.bind_eq_some_iff.1 hq
  rw [run, hb, Option.elim_some] at hq
  obtain ⟨r', hr', -⟩ := Option.bind_eq_some_iff.1 hq
  obtain ⟨rfl, -⟩ := hstart (by rw [hr']; simp)
  exact exists_fail_or_drop hr

end FlightPhase

end WebCrawler.Lib
