import Mathlib.Tactic

/-!
# Machines, their runs and their invariants

A machine is an initial state together with a partial step function on labelled
actions.  Concurrency is the choice of the action: an interleaving of several
workers is a sequence of actions, and a statement about all interleavings is a
statement about all reachable states.

Two rules carry the developments built on this file.

* `ReachableBy.inv`: a property of the initial state that every permitted step
  preserves holds in every state reached by permitted steps.
* `wellFounded_next`: a measure that every step decreases rules out infinite
  runs, and `exists_stuck` then produces a state in which no step is left.
-/

namespace WebCrawler.Lib

/-- An initial state and a partial step function: `step s a = none` when the
action `a` is not possible in the state `s`. -/
structure Machine (σ α : Type*) where
  /-- The state in which every run starts. -/
  init : σ
  /-- The effect of an action, if it is possible. -/
  step : σ → α → Option σ

namespace Machine

variable {σ α : Type*} (M : Machine σ α)

/-- The states reached by steps that all satisfy `P`, a condition on the action
and on the state before it. -/
inductive ReachableBy (P : σ → α → Prop) : σ → Prop
  /-- The initial state is reached by no step at all. -/
  | init : ReachableBy P M.init
  /-- One more permitted step. -/
  | step {s t : σ} {a : α} : ReachableBy P s → P s a → M.step s a = some t → ReachableBy P t

/-- The states reached by arbitrary steps. -/
def Reachable : σ → Prop := M.ReachableBy fun _ _ => True

/-- The state after a list of actions, if each of them is possible and permitted. -/
def exec (P : σ → α → Prop) [∀ s a, Decidable (P s a)] : σ → List α → Option σ
  | s, [] => some s
  | s, a :: as => if P s a then (M.step s a).bind fun t => exec P t as else none

/-- `t` comes right after `s` in some run. -/
def Next (s t : σ) : Prop := ∃ a, M.step s a = some t

variable {M} {P Q : σ → α → Prop}

/-- **The invariant rule.** -/
theorem ReachableBy.inv {I : σ → Prop} (h0 : I M.init)
    (hstep : ∀ s a t, I s → P s a → M.step s a = some t → I t) {s : σ}
    (h : M.ReachableBy P s) : I s := by
  induction h with
  | init => exact h0
  | step _ hP hst ih => exact hstep _ _ _ ih hP hst

/-- The invariant rule, with a first invariant `J` available for the second. -/
theorem ReachableBy.inv_of {I J : σ → Prop} (hJ : ∀ s, M.ReachableBy P s → J s) (h0 : I M.init)
    (hstep : ∀ s a t, J s → J t → I s → P s a → M.step s a = some t → I t) {s : σ}
    (h : M.ReachableBy P s) : I s := by
  induction h with
  | init => exact h0
  | step hr hP hst ih => exact hstep _ _ _ (hJ _ hr) (hJ _ (hr.step hP hst)) ih hP hst

lemma ReachableBy.mono (hPQ : ∀ s a, P s a → Q s a) {s : σ} (h : M.ReachableBy P s) :
    M.ReachableBy Q s := by
  induction h with
  | init => exact .init
  | step _ hP hst ih => exact ih.step (hPQ _ _ hP) hst

lemma ReachableBy.reachable {s : σ} (h : M.ReachableBy P s) : M.Reachable s :=
  h.mono fun _ _ _ => trivial

lemma Reachable.step {s t : σ} {a : α} (h : M.Reachable s) (hst : M.step s a = some t) :
    M.Reachable t :=
  ReachableBy.step h trivial hst

/-- What a reachable state can go on to is reachable. -/
lemma Reachable.of_steps {s t : σ} (h : M.Reachable s) (hst : Relation.ReflTransGen M.Next s t) :
    M.Reachable t := by
  induction hst with
  | refl => exact h
  | tail _ hnext ih =>
      obtain ⟨a, ha⟩ := hnext
      exact ih.step ha

lemma ReachableBy.exec [∀ s a, Decidable (P s a)] {s t : σ} (h : M.ReachableBy P s)
    {as : List α} (he : M.exec P s as = some t) : M.ReachableBy P t := by
  induction as generalizing s with
  | nil =>
      simp only [Machine.exec, Option.some.injEq] at he
      exact he ▸ h
  | cons a as ih =>
      simp only [Machine.exec] at he
      split_ifs at he with hP
      obtain ⟨s', hs', he'⟩ := Option.bind_eq_some_iff.1 he
      exact ih (h.step hP hs') he'

/-- A list of actions that can be executed leads to a reachable state. -/
lemma reachableBy_of_exec [∀ s a, Decidable (P s a)] {t : σ} (as : List α)
    (he : M.exec P M.init as = some t) : M.ReachableBy P t :=
  ReachableBy.init.exec he

/-! ### Termination -/

/-- A well-founded measure that every step of a run decreases. -/
theorem wellFounded_next {β : Type*} {r : β → β → Prop} (hr : WellFounded r) (μ : σ → β)
    (hμ : ∀ s a t, M.Reachable s → M.step s a = some t → r (μ t) (μ s)) :
    WellFounded fun t s => M.Reachable s ∧ M.Next s t :=
  Subrelation.wf (fun {_ _} ⟨hs, a, h⟩ => hμ _ a _ hs h) (InvImage.wf μ hr)

/-- Without infinite descent there is no infinite run. -/
theorem no_infinite_run (hwf : WellFounded fun t s => M.Reachable s ∧ M.Next s t) :
    ¬ ∃ run : ℕ → σ, run 0 = M.init ∧ ∀ n, M.Next (run n) (run (n + 1)) := by
  rintro ⟨run, h0, hrun⟩
  have hreach : ∀ n, M.Reachable (run n) := by
    intro n
    induction n with
    | zero => exact h0 ▸ ReachableBy.init
    | succ n ih =>
        obtain ⟨a, ha⟩ := hrun n
        exact ih.step ha
  exact (wellFounded_iff_isEmpty_descending_chain.1 hwf).false
    ⟨run, fun n => ⟨hreach n, hrun n⟩⟩

/-- When every step decreases, each state reached by permitted steps runs into a
state in which no permitted step is left. -/
theorem exists_stuck (hwf : WellFounded fun t s => M.Reachable s ∧ M.Next s t) {s : σ}
    (h : M.ReachableBy P s) :
    ∃ t, M.ReachableBy P t ∧ ∀ a t', P t a → M.step t a ≠ some t' := by
  induction s using hwf.induction with
  | _ s ih =>
      -- go on with a permitted step as long as there is one
      by_cases hs : ∃ a t', P s a ∧ M.step s a = some t'
      · obtain ⟨a, t', hP, hst⟩ := hs
        exact ih t' ⟨h.reachable, a, hst⟩ (h.step hP hst)
      · push Not at hs
        exact ⟨s, h, fun a t' hP => hs a t' hP⟩

end Machine

/-! ### Lists of threads

A state that lists its threads is split at the thread that moves. -/

lemma exists_split_of_getElem? {β : Type*} {l : List β} {i : ℕ} {b : β} (h : l[i]? = some b) :
    ∃ pre post, l = pre ++ b :: post ∧ i = pre.length := by
  obtain ⟨hi, rfl⟩ := List.getElem?_eq_some_iff.1 h
  exact ⟨l.take i, l.drop (i + 1), by simp, by simpa using hi.le⟩

/-- What holds of all threads still holds when one of them moves to a good point. -/
lemma forall_mem_replace {β : Type*} {P : β → Prop} {pre post : List β} {b c : β}
    (h : ∀ x ∈ pre ++ b :: post, P x) (hc : P c) : ∀ x ∈ pre ++ c :: post, P x := by
  intro x hx
  simp only [List.mem_append, List.mem_cons] at hx
  rcases hx with hx | rfl | hx
  · exact h x (by simp [hx])
  · exact hc
  · exact h x (by simp [hx])

/-- What holds of all threads still holds when one of them ends. -/
lemma forall_mem_remove {β : Type*} {P : β → Prop} {pre post : List β} {b : β}
    (h : ∀ x ∈ pre ++ b :: post, P x) : ∀ x ∈ pre ++ post, P x := by
  intro x hx
  refine h x ?_
  simp only [List.mem_append, List.mem_cons] at hx ⊢
  exact hx.imp_right Or.inr

/-- What holds of all threads still holds when a new one starts at a good point. -/
lemma forall_mem_append_singleton {β : Type*} {P : β → Prop} {l : List β} {b : β}
    (h : ∀ x ∈ l, P x) (hb : P b) : ∀ x ∈ l ++ [b], P x := by
  intro x hx
  rcases List.mem_append.1 hx with hx | hx
  · exact h x hx
  · exact List.mem_singleton.1 hx ▸ hb

@[simp] lemma eraseIdx_append_cons {β : Type*} (pre post : List β) (b : β) :
    (pre ++ b :: post).eraseIdx pre.length = pre ++ post := by
  simp [List.eraseIdx_append]

/-! ### Lists of events -/

/-- An entry of a list is the last one, or it is one of the entries before. -/
lemma snoc_eq_append_cons {β : Type*} {l pre mid : List β} {c o : β}
    (h : l ++ [c] = pre ++ o :: mid) :
    (pre = l ∧ o = c ∧ mid = []) ∨ ∃ mid', mid = mid' ++ [c] ∧ l = pre ++ o :: mid' := by
  rcases mid.eq_nil_or_concat' with rfl | ⟨mid', e, rfl⟩
  · obtain ⟨rfl, hco⟩ := List.append_inj' h rfl
    exact Or.inl ⟨rfl, (List.cons.inj hco).1.symm, rfl⟩
  · rw [← List.cons_append, ← List.append_assoc] at h
    obtain ⟨rfl, hce⟩ := List.append_inj' h rfl
    rw [(List.cons.inj hce).1]
    exact Or.inr ⟨mid', rfl, rfl⟩

end WebCrawler.Lib
