import Mathlib.Tactic

/-!
# Programs that compare

A program that may ask whether one thing is less than another, and goes on by the answer.
`run` gives the answers from a test, and `asked` is the list of the questions that are then
put.  The program sees nothing of a test but the answers: two tests that agree on what is
asked lead to the same value (`run_congr`).
-/

namespace WebCrawler.Lib

/-- A value, or a question with what is done after either answer. -/
inductive Comparing (α : Type*) (β : Type*)
  | done (b : β)
  | ask (x y : α) (next : Bool → Comparing α β)

namespace Comparing

variable {α β γ : Type*}

/-- The second program starts from the value of the first. -/
def bind : Comparing α β → (β → Comparing α γ) → Comparing α γ
  | .done b, f => f b
  | .ask x y next, f => .ask x y fun answer => (next answer).bind f

instance : Monad (Comparing α) where
  pure := .done
  bind := bind

/-- Whether the first thing is less than the second. -/
def less (x y : α) : Comparing α Bool := .ask x y .done

/-- The value, with the answers that a test gives. -/
def run (lt : α → α → Bool) : Comparing α β → β
  | .done b => b
  | .ask x y next => (next (lt x y)).run lt

/-- The questions, with the answers that a test gives. -/
def asked (lt : α → α → Bool) : Comparing α β → List (α × α)
  | .done _ => []
  | .ask x y next => (x, y) :: (next (lt x y)).asked lt

variable (lt lt' : α → α → Bool)

@[simp] lemma run_pure (b : β) : (pure b : Comparing α β).run lt = b := rfl

@[simp] lemma run_less (x y : α) : (less x y).run lt = lt x y := rfl

section Bind

variable {β γ : Type _}

@[simp] lemma run_bind (p : Comparing α β) (f : β → Comparing α γ) :
    (p >>= f).run lt = (f (p.run lt)).run lt := by
  induction p with
  | done b => rfl
  | ask x y next ih => exact ih (lt x y)

/-- A branch on a question. -/
lemma run_ite_less (x y : α) (p q : Comparing α β) :
    (do if ← less x y then p else q : Comparing α β).run lt =
      if lt x y then p.run lt else q.run lt := by
  rw [run_bind, run_less]
  split_ifs <;> rfl

end Bind

/-- **Only the answers count.** -/
theorem run_congr {p : Comparing α β} (h : ∀ q ∈ p.asked lt, lt' q.1 q.2 = lt q.1 q.2) :
    p.run lt' = p.run lt := by
  induction p with
  | done b => rfl
  | ask x y next ih =>
      obtain ⟨hfirst, hrest⟩ := List.forall_mem_cons.1 h
      rw [run, run, show lt' x y = lt x y from hfirst]
      exact ih (lt x y) hrest

end Comparing

end WebCrawler.Lib
