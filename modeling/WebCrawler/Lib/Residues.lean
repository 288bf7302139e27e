import Mathlib.Tactic

/-!
# One number modulo two moduli

A number has the same remainder modulo `n` and modulo `m` exactly if its remainder modulo
the least common multiple is below both.  Of the residues modulo the least common multiple
this leaves the share `gcd n m / max n m`.
-/

namespace WebCrawler.Lib

/-- **When two remainders agree.** -/
lemma mod_eq_mod_iff {n m : ℕ} (hn : 0 < n) (hm : 0 < m) (h : ℕ) :
    h % n = h % m ↔ h % n.lcm m < min n m := by
  have hmodn : h % n.lcm m % n = h % n := Nat.mod_mod_of_dvd h (Nat.dvd_lcm_left n m)
  have hmodm : h % n.lcm m % m = h % m := Nat.mod_mod_of_dvd h (Nat.dvd_lcm_right n m)
  constructor
  · intro heq
    have hlt : h % n < min n m := lt_min (Nat.mod_lt h hn) (heq ▸ Nat.mod_lt h hm)
    -- both moduli divide what the common remainder leaves of the residue
    have hn' : n ∣ h % n.lcm m - h % n := by
      rw [← hmodn]
      exact Nat.dvd_sub_mod _
    have hm' : m ∣ h % n.lcm m - h % n := by
      rw [heq, ← hmodm]
      exact Nat.dvd_sub_mod _
    have hle : h % n ≤ h % n.lcm m := hmodn ▸ Nat.mod_le _ _
    have hzero : h % n.lcm m - h % n = 0 :=
      Nat.eq_zero_of_dvd_of_lt (Nat.lcm_dvd hn' hm')
        ((Nat.sub_le _ _).trans_lt (Nat.mod_lt h (Nat.lcm_pos hn hm)))
    omega
  · intro hlt
    have hltn := hlt.trans_le (min_le_left n m)
    have hltm := hlt.trans_le (min_le_right n m)
    rw [← hmodn, ← hmodm, Nat.mod_eq_of_lt hltn, Nat.mod_eq_of_lt hltm]

/-- The smaller modulus as a share of the least common multiple. -/
lemma min_div_lcm {n m : ℕ} (hn : 0 < n) (hm : 0 < m) :
    ((min n m : ℕ) : ℚ) / (n.lcm m : ℕ) = (n.gcd m : ℕ) / (max n m : ℕ) := by
  have hlcm : ((n.lcm m : ℕ) : ℚ) ≠ 0 := by exact_mod_cast (Nat.lcm_pos hn hm).ne'
  have hmax : ((max n m : ℕ) : ℚ) ≠ 0 := by exact_mod_cast (lt_max_of_lt_left hn).ne'
  rw [div_eq_div_iff hlcm hmax]
  have hprod : min n m * max n m = n.gcd m * n.lcm m := by
    rw [min_mul_max, Nat.gcd_mul_lcm]
  exact_mod_cast hprod

/-- The residues up to `k`, one more. -/
lemma countP_mod_lt_succ {α : Type*} (f : α → ℕ) (L k : ℕ) (l : List α) :
    l.countP (fun x => f x % L < k + 1) =
      l.countP (fun x => f x % L < k) + l.countP fun x => f x % L = k := by
  induction l with
  | nil => rfl
  | cons x l ih =>
      simp only [List.countP_cons, ih, decide_eq_true_eq]
      split_ifs <;> omega

/-- Counting by residue classes. -/
lemma countP_mod_lt {α : Type*} (f : α → ℕ) (L k : ℕ) (l : List α) :
    l.countP (fun x => f x % L < k) = ∑ r ∈ Finset.range k, l.countP fun x => f x % L = r := by
  induction k with
  | zero => simp
  | succ k ih => rw [Finset.sum_range_succ, ← ih, countP_mod_lt_succ]

end WebCrawler.Lib
