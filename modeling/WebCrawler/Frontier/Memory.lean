import WebCrawler.Models

/-!
# The in-memory frontier

The frontier of `crawler/frontier/memory.py`: an `asyncio.Queue` without a size
limit together with the set of the URLs that were ever accepted.  The queue
counts the items whose `task_done` is still to come; `join` waits for that
counter to be zero.

`put` on a queue without a limit never suspends, so `add` is one atomic step.
-/

namespace WebCrawler

/-- The FIFO queue, the counter of unfinished tasks and the seen-set. -/
structure MemoryFrontier where
  queue : List FrontierItem := []
  unfinished : ℕ := 0
  seen : Finset String := ∅
deriving DecidableEq

namespace MemoryFrontier

/-- Accept an item unless its URL was seen before; the answer says whether it
was accepted. -/
def add (f : MemoryFrontier) (item : FrontierItem) : Bool × MemoryFrontier :=
  if item.url ∈ f.seen then (false, f)
  else
    (true,
      { queue := f.queue ++ [item]
        unfinished := f.unfinished + 1
        seen := insert item.url f.seen })

/-- Take the oldest item; `none` when the caller would have to wait. -/
def get (f : MemoryFrontier) : Option (FrontierItem × MemoryFrontier) :=
  match f.queue with
  | [] => none
  | item :: rest => some (item, { f with queue := rest })

/-- Mark one item as handled; `none` stands for the `ValueError` of a call too
many. -/
def taskDone (f : MemoryFrontier) : Option MemoryFrontier :=
  if f.unfinished = 0 then none else some { f with unfinished := f.unfinished - 1 }

/-- `join` returns. -/
def Joined (f : MemoryFrontier) : Prop := f.unfinished = 0

instance (f : MemoryFrontier) : Decidable f.Joined := inferInstanceAs (Decidable (_ = _))

/-- The number of URLs ever accepted. -/
def seenCount (f : MemoryFrontier) : ℕ := f.seen.card

lemma add_of_mem {f : MemoryFrontier} {item : FrontierItem} (h : item.url ∈ f.seen) :
    f.add item = (false, f) := by
  simp [add, h]

lemma add_of_notMem {f : MemoryFrontier} {item : FrontierItem} (h : item.url ∉ f.seen) :
    f.add item =
      (true,
        { queue := f.queue ++ [item]
          unfinished := f.unfinished + 1
          seen := insert item.url f.seen }) := by
  simp [add, h]

lemma get_eq_some_iff {f f' : MemoryFrontier} {item : FrontierItem} :
    f.get = some (item, f') ↔ ∃ rest, f.queue = item :: rest ∧ f' = { f with queue := rest } := by
  rcases hq : f.queue with _ | ⟨i, rest⟩
  · simp [get, hq]
  · simp only [get, hq, Option.some.injEq, Prod.mk.injEq, List.cons.injEq]
    constructor
    · rintro ⟨rfl, rfl⟩
      exact ⟨rest, ⟨rfl, rfl⟩, rfl⟩
    · rintro ⟨rest', ⟨rfl, rfl⟩, rfl⟩
      exact ⟨rfl, rfl⟩

end MemoryFrontier

end WebCrawler
