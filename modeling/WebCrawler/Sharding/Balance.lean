import WebCrawler.Lib.Loads
import WebCrawler.Lib.Residues
import WebCrawler.Sharding.Rebalance
import WebCrawler.Dedup.SimHashVotes

/-!
# How evenly keys spread, and what `hash(key) % N` does

The other two measures of `crawler/sharding/rebalance.py`.  `imbalance` relates the greatest
load of a node to the mean over all nodes, those without a key included; `naive_churn` is the
baseline that the ring is compared with, the share of the keys that change their owner when
`hash(key) % N` goes from one number of nodes to another.

The quotients of the source are floating-point numbers, here they are rational.
-/

namespace WebCrawler

open Lib

/-- `naive_churn`; keys that occur several times count several times. -/
def naiveChurn (hash : RingHash) (keys : List String) (beforeN afterN : ℤ) : ℚ :=
  if keys = [] ∨ beforeN ≤ 0 ∨ afterN ≤ 0 then 0
  else
    let moved := keys.countP fun key =>
      ((hash key).toNat : ℤ) % beforeN ≠ ((hash key).toNat : ℤ) % afterN
    (moved : ℚ) / keys.length

/-! ### The loads of the nodes -/

section Loads

variable {N : Finset String} {owners : List String}

end Loads

namespace ConsistentHashRing

variable {hash : RingHash} {R R₀ : ConsistentHashRing} {nodes : List String} {virtualNodes : ℤ}

/-- Every key has an owner among the nodes. -/
lemma Exact.exists_owner (hR : Exact hash R) (hne : R.nodes ≠ ∅) (key : String) :
    ∃ owner ∈ R.nodes, R.get hash key = .ok (some owner) := by
  obtain ⟨point, owner, hget, hlookup, -⟩ := hR.get_eq hne key
  exact ⟨owner, (hR.owner point owner hlookup).1, hget⟩

end ConsistentHashRing

/-! ### Sharding by the remainder -/

section NaiveChurn

variable {hash : RingHash} {n m : ℕ} {keys : List String}

/-- The keys that stay are those whose hash has a small remainder. -/
lemma naiveChurn_eq (hn : 0 < n) (hm : 0 < m) (hkeys : keys ≠ []) :
    naiveChurn hash keys n m = 1 -
      (keys.countP (fun key => (hash key).toNat % n.lcm m < min n m) : ℚ) / keys.length := by
  have hguard : ¬ (keys = [] ∨ (n : ℤ) ≤ 0 ∨ (m : ℤ) ≤ 0) := by
    rintro (h | h | h)
    · exact hkeys h
    · omega
    · omega
  have hmoved : keys.countP (fun key =>
      ((hash key).toNat : ℤ) % (n : ℤ) ≠ ((hash key).toNat : ℤ) % (m : ℤ)) =
      keys.countP fun key => ¬ (hash key).toNat % n.lcm m < min n m := by
    refine List.countP_congr fun key _ => ?_
    rw [decide_eq_true_eq, decide_eq_true_eq, ← mod_eq_mod_iff hn hm]
    norm_cast
  have hall := List.length_eq_countP_add_countP
    (fun key => decide ((hash key).toNat % n.lcm m < min n m)) (l := keys)
  have hlength : (keys.length : ℚ) ≠ 0 := by
    exact_mod_cast List.length_pos_iff.2 hkeys |>.ne'
  have hnot : keys.countP (fun key => ¬ (hash key).toNat % n.lcm m < min n m) +
      keys.countP (fun key => (hash key).toNat % n.lcm m < min n m) = keys.length := by
    rw [hall, add_comm]
    simp
  rw [naiveChurn, if_neg hguard]
  simp only [hmoved]
  rw [eq_sub_iff_add_eq, ← add_div, div_eq_one_iff_eq hlength]
  exact_mod_cast hnot

/-- Hashes that take every remainder equally often. -/
lemma countP_lt_of_balanced {c : ℕ}
    (hbal : ∀ r < n.lcm m, keys.countP (fun key => (hash key).toNat % n.lcm m = r) = c)
    {k : ℕ} (hk : k ≤ n.lcm m) :
    keys.countP (fun key => (hash key).toNat % n.lcm m < k) = k * c := by
  rw [countP_mod_lt, Finset.sum_congr rfl fun r hr =>
    hbal r ((Finset.mem_range.1 hr).trans_le hk), Finset.sum_const, Finset.card_range, smul_eq_mul]

/-- **The churn of `hash(key) % N`.**  A key stays exactly if the remainder of its hash modulo
the least common multiple of the two numbers is below both; so on hashes that take every
remainder equally often all but the share `gcd / max` of the keys move, which for one node more
are `n` keys out of `n + 1`. -/
theorem naiveChurn_spec (hash : RingHash) (n m : ℕ) (hn : 0 < n) (hm : 0 < m)
    (keys : List String) (hkeys : keys ≠ []) :
    naiveChurn hash keys n m = 1 -
        (keys.countP (fun key => (hash key).toNat % n.lcm m < min n m) : ℚ) / keys.length ∧
      ((∃ c, ∀ r < n.lcm m, keys.countP (fun key => (hash key).toNat % n.lcm m = r) = c) →
        naiveChurn hash keys n m = 1 - (n.gcd m : ℚ) / (max n m : ℕ) ∧
          (m = n + 1 → naiveChurn hash keys n m = n / (n + 1))) := by
  refine ⟨naiveChurn_eq hn hm hkeys, ?_⟩
  rintro ⟨c, hbal⟩
  have hlcm := Nat.lcm_pos hn hm
  have hlength : keys.length = n.lcm m * c := by
    rw [← countP_lt_of_balanced hbal le_rfl, eq_comm, List.countP_eq_length]
    exact fun key _ => decide_eq_true (Nat.mod_lt _ hlcm)
  have hpos : 0 < n.lcm m * c := hlength ▸ List.length_pos_iff.2 hkeys
  have hc : (c : ℚ) ≠ 0 := by exact_mod_cast (Nat.pos_of_mul_pos_left hpos).ne'
  have hmin : min n m ≤ n.lcm m :=
    (min_le_left n m).trans (Nat.le_of_dvd hlcm (Nat.dvd_lcm_left n m))
  have hshare : naiveChurn hash keys n m = 1 - (n.gcd m : ℚ) / (max n m : ℕ) := by
    rw [naiveChurn_eq hn hm hkeys, countP_lt_of_balanced hbal hmin, hlength,
      ← min_div_lcm hn hm]
    push_cast
    rw [mul_div_mul_right _ _ hc]
  refine ⟨hshare, ?_⟩
  rintro rfl
  have hgcd : n.gcd (n + 1) = 1 := by simp
  have hmax : max n (n + 1) = n + 1 := max_eq_right (Nat.le_succ n)
  have hne : (n : ℚ) + 1 ≠ 0 := by positivity
  rw [hshare, hgcd, hmax]
  push_cast
  field_simp
  ring

/-- From two nodes to three: of six keys whose hashes take every remainder modulo six once,
four move. -/
theorem naiveChurn_spec_two_three :
    naiveChurn ConsistentHashRing.lengthHash ["", "a", "aa", "aaa", "aaaa", "aaaaa"] 2 3 =
      2 / 3 := by
  have hspec := naiveChurn_spec ConsistentHashRing.lengthHash 2 3 (by norm_num) (by norm_num)
    ["", "a", "aa", "aaa", "aaaa", "aaaaa"] (by simp)
  have hthird := (hspec.2 ⟨1, by decide⟩).2 rfl
  norm_num at hthird
  exact hthird

end NaiveChurn

end WebCrawler
