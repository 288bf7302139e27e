import Mathlib.Tactic

/-!
# Programs with state and exceptions

Imperative code with mutable objects and exceptions is written in the monad
`EStateM ε σ` of the standard library: a program takes a state, returns a value or
raises an exception, and in both cases leaves a state behind.  What was done before
an exception is not undone.

The file adds the handler `attempt` (`try`/`except`) and the lift `zoom` of a program
to a larger state, the inversion of a program that has returned, with which proofs
take a run apart step by step, and the invariant rules for sequences and loops,
which look at both ways of leaving a program.
-/

namespace WebCrawler.Lib

variable {ε σ τ α β : Type}

/-- Runs a program and hands back its exception as a value. -/
def attempt (x : EStateM ε σ α) : EStateM ε σ (Except ε α) := fun s =>
  match x.run s with
  | .ok a s' => .ok (.ok a) s'
  | .error e s' => .ok (.error e) s'

/-- Runs a clean-up program after a program that may have raised (`try`/`finally`). -/
def ensuring (x : EStateM ε σ α) (cleanup : EStateM ε σ PUnit) : EStateM ε σ α := do
  let r ← attempt x
  cleanup
  ofExcept r

/-- Runs a program on a part of the state. -/
def zoom (get : σ → τ) (set : τ → σ → σ) (x : EStateM ε τ α) : EStateM ε σ α := fun s =>
  match x.run (get s) with
  | .ok a t => .ok a (set t s)
  | .error e t => .error e (set t s)

/-! ### A program that has returned -/

section Inversion

variable {x : EStateM ε σ α} {f : α → EStateM ε σ β} {s s' : σ}

lemma run_pure_eq_ok {a b : α} :
    (pure a : EStateM ε σ α).run s = .ok b s' ↔ a = b ∧ s = s' := by
  rw [EStateM.run_pure, EStateM.Result.ok.injEq]

lemma run_modify_eq_ok {g : σ → σ} {u : PUnit} :
    (modify g : EStateM ε σ PUnit).run s = .ok u s' ↔ g s = s' := by
  simp [EStateM.run_modify]

lemma run_bind_eq_ok {b : β} :
    (x >>= f).run s = .ok b s' ↔ ∃ a t, x.run s = .ok a t ∧ (f a).run t = .ok b s' := by
  rw [EStateM.run_bind]
  cases x.run s with
  | ok a t => simp
  | error e t => simp

lemma run_bind_eq_error {e : ε} :
    (x >>= f).run s = .error e s' ↔
      x.run s = .error e s' ∨ ∃ a t, x.run s = .ok a t ∧ (f a).run t = .error e s' := by
  rw [EStateM.run_bind]
  cases x.run s with
  | ok a t => simp
  | error e t => simp

lemma run_attempt_eq_ok {r : Except ε α} :
    (attempt x).run s = .ok r s' ↔
      (∃ a, r = .ok a ∧ x.run s = .ok a s') ∨ ∃ e, r = .error e ∧ x.run s = .error e s' := by
  show attempt x s = _ ↔ _
  rw [attempt]
  cases x.run s with
  | ok a t => simp [eq_comm]
  | error e t => simp [eq_comm]

lemma run_attempt_ne_error {e : ε} : (attempt x).run s ≠ .error e s' := by
  show attempt x s ≠ _
  rw [attempt]
  cases x.run s with
  | ok a t => simp
  | error e t => simp

lemma run_ofExcept_eq_ok {y : Except ε α} {a : α} :
    (ofExcept y : EStateM ε σ α).run s = .ok a s' ↔ y = .ok a ∧ s = s' := by
  cases y with
  | ok b => simp [ofExcept]
  | error e =>
    have hrun : (ofExcept (.error e) : EStateM ε σ α).run s = .error e s := rfl
    simp [hrun]

lemma run_ofExcept_bind_eq_ok {y : Except ε α} {b : β} :
    (ofExcept y >>= f).run s = .ok b s' ↔ ∃ a, y = .ok a ∧ (f a).run s = .ok b s' := by
  rw [run_bind_eq_ok]
  constructor
  · rintro ⟨a, t, hrun, hf⟩
    obtain ⟨hy, rfl⟩ := run_ofExcept_eq_ok.1 hrun
    exact ⟨a, hy, hf⟩
  · rintro ⟨a, hy, hf⟩
    exact ⟨a, s, run_ofExcept_eq_ok.2 ⟨hy, rfl⟩, hf⟩

lemma run_ofExcept_bind_eq_error {y : Except ε α} {e : ε} :
    (ofExcept y >>= f).run s = .error e s' ↔
      (y = .error e ∧ s = s') ∨ ∃ a, y = .ok a ∧ (f a).run s = .error e s' := by
  rw [run_bind_eq_error]
  cases y with
  | ok b =>
    have hrun : (ofExcept (.ok b) : EStateM ε σ α).run s = .ok b s := rfl
    simp [hrun]
  | error e =>
    have hrun : (ofExcept (.error e) : EStateM ε σ α).run s = .error e s := rfl
    simp [hrun]

lemma run_zoom_eq_ok {get : σ → τ} {set : τ → σ → σ} {y : EStateM ε τ α} {a : α} :
    (zoom get set y).run s = .ok a s' ↔ ∃ t, y.run (get s) = .ok a t ∧ set t s = s' := by
  show zoom get set y s = _ ↔ _
  rw [zoom]
  cases y.run (get s) with
  | ok a t => simp
  | error e t => simp

lemma run_zoom_eq_error {get : σ → τ} {set : τ → σ → σ} {y : EStateM ε τ α} {e : ε} :
    (zoom get set y).run s = .error e s' ↔ ∃ t, y.run (get s) = .error e t ∧ set t s = s' := by
  show zoom get set y s = _ ↔ _
  rw [zoom]
  cases y.run (get s) with
  | ok a t => simp
  | error e t => simp

/-- The program leaves the state `s'` behind, by returning or by raising. -/
def Ends (x : EStateM ε σ α) (s s' : σ) : Prop :=
  (∃ a, x.run s = .ok a s') ∨ ∃ e, x.run s = .error e s'

lemma Ends.of_pure {a : α} (h : Ends (pure a : EStateM ε σ α) s s') : s' = s := by
  rcases h with ⟨b, h⟩ | ⟨e, h⟩
  · exact (run_pure_eq_ok.1 h).2.symm
  · rw [EStateM.run_pure] at h
    exact absurd h (by simp)

/-- A sequence ends in its first part, or goes on to the second. -/
lemma Ends.of_bind (h : Ends (x >>= f) s s') :
    (∃ e, x.run s = .error e s') ∨ ∃ a t, x.run s = .ok a t ∧ Ends (f a) t s' := by
  rcases h with ⟨b, h⟩ | ⟨e, h⟩
  · obtain ⟨a, t, hx, hf⟩ := run_bind_eq_ok.1 h
    exact Or.inr ⟨a, t, hx, Or.inl ⟨b, hf⟩⟩
  · rcases run_bind_eq_error.1 h with hx | ⟨a, t, hx, hf⟩
    · exact Or.inl ⟨e, hx⟩
    · exact Or.inr ⟨a, t, hx, Or.inr ⟨e, hf⟩⟩

end Inversion

/-! ### Programs that return from every state or from none -/

/-- The program returns, from whatever state, exactly if `P` holds. -/
def ReturnsIff (x : EStateM ε σ α) (P : Prop) : Prop := ∀ s, (∃ a s', x.run s = .ok a s') ↔ P

section Returns

variable {x : EStateM ε σ α} {f : α → EStateM ε σ β} {P Q : Prop}

lemma ReturnsIff.not_error (h : ReturnsIff x P) {s s' : σ} {e : ε} (hrun : x.run s = .error e s') :
    ¬ P := by
  rw [← h s]
  rintro ⟨a, t, hok⟩
  rw [hok] at hrun
  cases hrun

lemma ReturnsIff.exists_error (h : ReturnsIff x P) (hP : ¬ P) (s : σ) :
    ∃ e s', x.run s = .error e s' := by
  cases hrun : x.run s with
  | ok a s' => exact absurd ((h s).1 ⟨a, s', hrun⟩) hP
  | error e s' => exact ⟨e, s', rfl⟩

lemma returnsIff_pure (a : α) : ReturnsIff (pure a : EStateM ε σ α) True :=
  fun s => iff_of_true ⟨a, s, EStateM.run_pure a s⟩ trivial

/-- A sequence returns if both of its parts do. -/
lemma ReturnsIff.bind (hx : ReturnsIff x P) (hf : ∀ a, ReturnsIff (f a) Q) :
    ReturnsIff (x >>= f) (P ∧ Q) := by
  intro s
  constructor
  · rintro ⟨b, s', h⟩
    obtain ⟨a, t, ha, hb⟩ := run_bind_eq_ok.1 h
    exact ⟨(hx s).1 ⟨a, t, ha⟩, (hf a t).1 ⟨b, s', hb⟩⟩
  · rintro ⟨hP, hQ⟩
    obtain ⟨a, t, ha⟩ := (hx s).2 hP
    obtain ⟨b, s', hb⟩ := (hf a t).2 hQ
    exact ⟨b, s', run_bind_eq_ok.2 ⟨a, t, ha, hb⟩⟩

lemma ReturnsIff.congr (hx : ReturnsIff x P) (h : P ↔ Q) : ReturnsIff x Q :=
  fun s => (hx s).trans h

lemma returnsIff_attempt (x : EStateM ε σ α) : ReturnsIff (attempt x) True := by
  refine fun s => iff_of_true ?_ trivial
  cases h : x.run s with
  | ok a s' => exact ⟨_, _, run_attempt_eq_ok.2 (Or.inl ⟨a, rfl, h⟩)⟩
  | error e s' => exact ⟨_, _, run_attempt_eq_ok.2 (Or.inr ⟨e, rfl, h⟩)⟩

/-- The clean-up must return as well. -/
lemma ReturnsIff.ensuring {cleanup : EStateM ε σ PUnit} (hx : ReturnsIff x P)
    (hc : ReturnsIff cleanup Q) : ReturnsIff (ensuring x cleanup) (P ∧ Q) := by
  intro s
  constructor
  · rintro ⟨a, s', h⟩
    obtain ⟨r, t, hr, h⟩ := run_bind_eq_ok.1 h
    obtain ⟨u, t', hu, h⟩ := run_bind_eq_ok.1 h
    obtain ⟨rfl, -⟩ := run_ofExcept_eq_ok.1 h
    refine ⟨?_, (hc t).1 ⟨u, t', hu⟩⟩
    rcases run_attempt_eq_ok.1 hr with ⟨a', -, ha⟩ | ⟨e, heq, -⟩
    · exact (hx s).1 ⟨a', t, ha⟩
    · cases heq
  · rintro ⟨hP, hQ⟩
    obtain ⟨a, t, ha⟩ := (hx s).2 hP
    obtain ⟨u, t', hu⟩ := (hc t).2 hQ
    exact ⟨a, t', run_bind_eq_ok.2 ⟨.ok a, t, run_attempt_eq_ok.2 (Or.inl ⟨a, rfl, ha⟩),
      run_bind_eq_ok.2 ⟨u, t', hu, run_ofExcept_eq_ok.2 ⟨rfl, rfl⟩⟩⟩⟩

/-- A loop returns if every round does. -/
lemma returnsIff_forM {l : List α} {g : α → EStateM ε σ PUnit} {R : α → Prop}
    (hg : ∀ a, ReturnsIff (g a) (R a)) : ReturnsIff (forM l g) (∀ a ∈ l, R a) := by
  induction l with
  | nil => exact (returnsIff_pure _).congr (by simp)
  | cons a l ih =>
      rw [List.forM_cons]
      exact ((hg a).bind fun _ => ih).congr (by simp)

end Returns

/-! ### Invariants of programs -/

/-- The program keeps `I`, whether it returns or raises. -/
def Preserves (I : σ → Prop) (x : EStateM ε σ α) : Prop :=
  ∀ s, I s → (∀ a s', x.run s = .ok a s' → I s') ∧ ∀ e s', x.run s = .error e s' → I s'

/-- The state that a program leaves behind. -/
def finalState : EStateM.Result ε σ α → σ
  | .ok _ s => s
  | .error _ s => s

section Preserves

variable {I : σ → Prop}

lemma preserves_of_finalState {x : EStateM ε σ α} (h : ∀ s, I s → I (finalState (x.run s))) :
    Preserves I x := by
  intro s hs
  have hfinal := h s hs
  constructor
  · intro a s' hrun
    rw [hrun] at hfinal
    exact hfinal
  · intro e s' hrun
    rw [hrun] at hfinal
    exact hfinal

lemma preserves_pure (a : α) : Preserves I (pure a : EStateM ε σ α) :=
  preserves_of_finalState fun _ hs => hs

/-- For a sequence it is enough to look at the values that the first part can return. -/
lemma Preserves.bind {x : EStateM ε σ α} {f : α → EStateM ε σ β} (hx : Preserves I x)
    (hf : ∀ s a t, x.run s = .ok a t → Preserves I (f a)) : Preserves I (x >>= f) := by
  intro s hs
  constructor
  · intro b s' h
    obtain ⟨a, t, hxa, hfa⟩ := run_bind_eq_ok.1 h
    exact (hf s a t hxa t ((hx s hs).1 a t hxa)).1 b s' hfa
  · intro e s' h
    rcases run_bind_eq_error.1 h with hxe | ⟨a, t, hxa, hfa⟩
    · exact (hx s hs).2 e s' hxe
    · exact (hf s a t hxa t ((hx s hs).1 a t hxa)).2 e s' hfa

/-- A program that keeps every value of a view keeps what depends on the view only. -/
lemma Preserves.of_view {f : σ → τ} {K : τ → Prop} {x : EStateM ε σ α}
    (h : ∀ t, Preserves (fun s => f s = t) x) : Preserves (fun s => K (f s)) x := by
  refine preserves_of_finalState ?_
  intro s hs
  have hkeep : f (finalState (x.run s)) = f s := by
    cases hrun : x.run s with
    | ok a s' => exact (h (f s) s rfl).1 a s' hrun
    | error e s' => exact (h (f s) s rfl).2 e s' hrun
  rwa [hkeep]

lemma preserves_modify {g : σ → σ} (h : ∀ s, I s → I (g s)) :
    Preserves I (modify g : EStateM ε σ PUnit) :=
  preserves_of_finalState h

/-- A program on a part of the state keeps what does not depend on that part. -/
lemma preserves_zoom {get : σ → τ} {set : τ → σ → σ} (x : EStateM ε τ α)
    (h : ∀ t s, I s → I (set t s)) : Preserves I (zoom get set x) := by
  intro s hs
  constructor
  · intro a s' hrun
    obtain ⟨t, -, rfl⟩ := run_zoom_eq_ok.1 hrun
    exact h t s hs
  · intro e s' hrun
    obtain ⟨t, -, rfl⟩ := run_zoom_eq_error.1 hrun
    exact h t s hs

/-- A program on a part of the state keeps what it keeps of that part. -/
lemma Preserves.zoom {J : τ → Prop} {get : σ → τ} {set : τ → σ → σ} {x : EStateM ε τ α}
    (hx : Preserves J x) (hget : ∀ s, I s → J (get s)) (hset : ∀ t s, I s → J t → I (set t s)) :
    Preserves I (Lib.zoom get set x) := by
  intro s hs
  constructor
  · intro a s' hrun
    obtain ⟨t, ht, rfl⟩ := run_zoom_eq_ok.1 hrun
    exact hset t s hs ((hx (get s) (hget s hs)).1 a t ht)
  · intro e s' hrun
    obtain ⟨t, ht, rfl⟩ := run_zoom_eq_error.1 hrun
    exact hset t s hs ((hx (get s) (hget s hs)).2 e t ht)

lemma Preserves.attempt {x : EStateM ε σ α} (hx : Preserves I x) :
    Preserves I (Lib.attempt x) := by
  intro s hs
  refine ⟨?_, fun e s' h => absurd h run_attempt_ne_error⟩
  intro r s' h
  rcases run_attempt_eq_ok.1 h with ⟨a, -, ha⟩ | ⟨e, -, he⟩
  · exact (hx s hs).1 a s' ha
  · exact (hx s hs).2 e s' he

lemma preserves_ofExcept (r : Except ε α) : Preserves I (ofExcept r : EStateM ε σ α) := by
  intro s hs
  cases r with
  | ok a =>
      exact ⟨fun b s' h => (run_ofExcept_eq_ok.1 h).2 ▸ hs, fun e s' h => absurd h (by rintro ⟨⟩)⟩
  | error e =>
      refine ⟨fun b s' h => absurd h (by rintro ⟨⟩), ?_⟩
      intro e' s' h
      obtain ⟨-, rfl⟩ := EStateM.Result.error.inj h
      exact hs

lemma Preserves.ensuring {x : EStateM ε σ α} {cleanup : EStateM ε σ PUnit} (hx : Preserves I x)
    (hc : Preserves I cleanup) : Preserves I (Lib.ensuring x cleanup) :=
  hx.attempt.bind fun _ r _ _ => hc.bind fun _ _ _ _ => preserves_ofExcept r

/-- A loop keeps what its body keeps. -/
lemma Preserves.forM {l : List α} {f : α → EStateM ε σ PUnit}
    (hf : ∀ a ∈ l, Preserves I (f a)) : Preserves I (forM l f) := by
  induction l with
  | nil => exact preserves_pure _
  | cons a l ih =>
      rw [List.forM_cons]
      exact (hf a (by simp)).bind fun _ _ _ _ => ih fun b hb => hf b (by simp [hb])

/-- What every turn of a loop achieves for its element, and no turn undoes, holds of
all elements when the loop returns. -/
lemma forall_mem_of_run_forM {l : List α} {f : α → EStateM ε σ PUnit} {Q : α → σ → Prop}
    (hdo : ∀ a ∈ l, ∀ s s' u, (f a).run s = .ok u s' → Q a s')
    (hkeep : ∀ a ∈ l, ∀ b, Preserves (Q b) (f a)) {s s' : σ} {u : PUnit}
    (h : (forM l f).run s = .ok u s') : ∀ a ∈ l, Q a s' := by
  induction l generalizing s with
  | nil => simp
  | cons a l ih =>
      rw [List.forM_cons] at h
      obtain ⟨v, t, ha, hrest⟩ := run_bind_eq_ok.1 h
      have htail := ih (fun b hb => hdo b (by simp [hb])) (fun b hb => hkeep b (by simp [hb])) hrest
      intro b hb
      rcases List.mem_cons.1 hb with rfl | hb
      · -- the rest of the loop does not undo what the first turn has achieved
        have hall : Preserves (Q b) (forM l f) :=
          Preserves.forM fun c hc => hkeep c (by simp [hc]) b
        exact (hall t (hdo b (by simp) s t v ha)).1 u s' hrest
      · exact htail b hb

end Preserves

/-! ### A program and its reference

A reference is a pure program: it always returns.  If each call keeps the two states
related and returns what the reference returns, so does a sequence of calls. -/

section Simulation

variable {f : α → EStateM ε σ β} {g : α → StateM τ β} {R : σ → τ → Prop}

theorem run_mapM_of_simulation
    (h : ∀ a s t, R s t → ∃ s', (f a).run s = .ok ((g a).run t).1 s' ∧ R s' ((g a).run t).2)
    (l : List α) {s : σ} {t : τ} (hst : R s t) :
    ∃ s', (l.mapM f).run s = .ok ((l.mapM g).run t).1 s' ∧ R s' ((l.mapM g).run t).2 := by
  induction l generalizing s t with
  | nil =>
      refine ⟨s, ?_, hst⟩
      rw [List.mapM_nil, List.mapM_nil]
      rfl
  | cons a l ih =>
      obtain ⟨s₁, hrun₁, hst₁⟩ := h a s t hst
      obtain ⟨s₂, hrun₂, hst₂⟩ := ih hst₁
      refine ⟨s₂, ?_, ?_⟩
      · rw [List.mapM_cons, List.mapM_cons]
        exact run_bind_eq_ok.2 ⟨_, s₁, hrun₁, run_bind_eq_ok.2 ⟨_, s₂, hrun₂, rfl⟩⟩
      · rw [List.mapM_cons]
        exact hst₂

/-- A property of the state that each call of a pure program keeps. -/
lemma mapM_state_inv {I : τ → Prop} (h : ∀ a t, I t → I ((g a).run t).2) (l : List α) {t : τ}
    (ht : I t) : I ((l.mapM g).run t).2 := by
  induction l generalizing t with
  | nil => exact ht
  | cons a l ih =>
      rw [List.mapM_cons]
      exact ih (h a t ht)

end Simulation

/-! ### Loops without effects -/

/-- A loop whose turns only add to what holds. -/
lemma foldl_iff {f : σ → α → σ} {P : σ → Prop} {Q : α → Prop}
    (h : ∀ s a, P (f s a) ↔ P s ∨ Q a) (l : List α) (s : σ) :
    P (l.foldl f s) ↔ P s ∨ ∃ a ∈ l, Q a := by
  induction l generalizing s with
  | nil => simp
  | cons a l ih =>
      rw [List.foldl_cons, ih, h]
      simp [or_assoc]

end WebCrawler.Lib
