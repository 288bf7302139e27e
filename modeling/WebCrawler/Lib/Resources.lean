import Mathlib.Tactic

/-!
# Resources that tasks hold

Tasks take and give back units of resources of bounded capacity, and a task may wait for a
resource while it holds others.  The account is that for each resource what is free and the
number of the tasks that hold it make up the capacity (`Accounted`): a task that takes a unit,
gives one back or ends changes both alike, and when no task is left everything is free.

Resources that are taken in the order of a rank cannot deadlock: the task that waits for the
highest of them waits for one that is free (`Accounted.exists_able`).
-/

namespace WebCrawler.Lib

variable {ρ τ : Type*} [DecidableEq ρ]

/-- The number of tasks that hold a resource. -/
def held (holds : τ → List ρ) (r : ρ) (tasks : List τ) : ℕ := tasks.countP fun t => r ∈ holds t

/-- What is free and what the tasks hold make up the capacity. -/
def Accounted (capacity free : ρ → ℕ) (holds : τ → List ρ) (tasks : List τ) : Prop :=
  ∀ r, free r + held holds r tasks = capacity r

variable {capacity free free' : ρ → ℕ} {holds : τ → List ρ} {r : ρ} {t : τ}
  {tasks tasks' pre post : List τ}

@[simp] lemma held_nil : held holds r [] = 0 := rfl

@[simp] lemma held_cons :
    held holds r (t :: tasks) = held holds r tasks + if r ∈ holds t then 1 else 0 := by
  simp [held, List.countP_cons]

@[simp] lemma held_append :
    held holds r (tasks ++ tasks') = held holds r tasks + held holds r tasks' :=
  List.countP_append

lemma held_pos_iff : 0 < held holds r tasks ↔ ∃ t ∈ tasks, r ∈ holds t := by
  simp [held, List.countP_pos_iff]

namespace Accounted

/-- No more than the capacity is held. -/
lemma held_le (h : Accounted capacity free holds tasks) (r : ρ) :
    held holds r tasks ≤ capacity r := by
  have := h r
  omega

/-- What a task holds is not free. -/
lemma free_lt (h : Accounted capacity free holds tasks) (ht : t ∈ tasks) (hr : r ∈ holds t) :
    free r < capacity r := by
  have := h r
  have := held_pos_iff.2 ⟨t, ht, hr⟩
  omega

/-- A task goes on as some tasks (one, or none if it ends). -/
lemma replace (h : Accounted capacity free holds (pre ++ t :: post))
    (hfree : ∀ r, free' r + held holds r tasks' = free r + held holds r [t]) :
    Accounted capacity free' holds (pre ++ tasks' ++ post) := by
  intro r
  have h := h r
  have hfree := hfree r
  rw [← List.singleton_append, held_append, held_append] at h
  rw [held_append, held_append]
  omega

/-- A task ends. -/
lemma remove (h : Accounted capacity free holds (pre ++ t :: post))
    (hfree : ∀ r, free' r = free r + held holds r [t]) :
    Accounted capacity free' holds (pre ++ post) := by
  intro r
  have h := h r
  rw [← List.singleton_append, held_append, held_append] at h
  rw [hfree, held_append]
  omega

/-- Tasks start. -/
lemma append (h : Accounted capacity free holds tasks)
    (hfree : ∀ r, free' r + held holds r tasks' = free r) :
    Accounted capacity free' holds (tasks ++ tasks') := by
  intro r
  have h := h r
  have hfree := hfree r
  rw [held_append]
  omega

/-- **No deadlock.**  If each task that waits for a resource holds only resources of lower
rank, then some task does not wait, or waits for a resource that is free. -/
theorem exists_able (h : Accounted capacity free holds tasks) (hcapacity : ∀ r, 0 < capacity r)
    (waits : τ → Option ρ) (rank : ρ → ℕ)
    (horder : ∀ t ∈ tasks, ∀ r ∈ waits t, ∀ r' ∈ holds t, rank r' < rank r) (hne : tasks ≠ []) :
    ∃ t ∈ tasks, ∀ r ∈ waits t, 0 < free r := by
  by_contra hstuck
  push Not at hstuck
  -- else the holder of what a task waits for waits for something higher
  have hhigh : ∀ n, ∃ t ∈ tasks, ∃ r ∈ waits t, n ≤ rank r ∧ free r = 0 := by
    intro n
    induction n with
    | zero =>
        obtain ⟨t, ht⟩ := List.exists_mem_of_ne_nil tasks hne
        obtain ⟨r, hr, hfree⟩ := hstuck t ht
        exact ⟨t, ht, r, hr, Nat.zero_le _, Nat.le_zero.1 hfree⟩
    | succ n ih =>
        obtain ⟨-, -, r, -, hn, hfree⟩ := ih
        have hheld : 0 < held holds r tasks := by
          have := h r
          have := hcapacity r
          omega
        obtain ⟨t, ht, hholds⟩ := held_pos_iff.1 hheld
        obtain ⟨r', hr', hfree'⟩ := hstuck t ht
        have := horder t ht r' hr' r hholds
        exact ⟨t, ht, r', hr', by omega, Nat.le_zero.1 hfree'⟩
  -- but the ranks of what the tasks wait for are bounded
  let bound := (tasks.map fun t => (waits t).elim 0 rank).sum
  obtain ⟨t, ht, r, hr, hrank, -⟩ := hhigh (bound + 1)
  have hle : (waits t).elim 0 rank ≤ bound :=
    List.single_le_sum (fun _ _ => Nat.zero_le _) _ (List.mem_map_of_mem ht)
  rw [Option.mem_def.1 hr, Option.elim_some] at hle
  omega

end Accounted

end WebCrawler.Lib
