import WebCrawler.Sharding.Ownership
import WebCrawler.Url.Normalize

/-!
# The partitions of the frontier topic

`KafkaFrontier` of `crawler/frontier/kafka_frontier.py`: the partition of a domain is the
node that owns it on a ring whose nodes are the numbers of the partitions, as strings.  The
ring has no other nodes, also where points collide, and so the string that `get` returns is
read back as the number of a partition.

With one more partition a domain stays where it is or moves to the new partition
(`partitionFor_spec`).
-/

namespace WebCrawler

open Lib

/-! ### Numbers as strings -/

/-- The digits of a number, in which an underscore may stand between two digits. -/
def intDigits : Bool → ℕ → List Char → Option ℕ
  | afterDigit, n, [] => if afterDigit then some n else none
  | afterDigit, n, c :: cs =>
      if c.isDigit then intDigits true (10 * n + (c.toNat - '0'.toNat)) cs
      else if c = '_' ∧ afterDigit then intDigits false n cs
      else none

/-- Whether a text starts with a minus, and what follows its sign. -/
def splitSign : List Char → Bool × List Char
  | '-' :: cs => (true, cs)
  | '+' :: cs => (false, cs)
  | cs => (false, cs)

/-- `int(text)`, of which the digits are those of ASCII. -/
def pyInt (text : String) : Except PyError ℤ :=
  let (negative, digits) := splitSign (strip text.toList)
  match intDigits false 0 digits with
  | some n => .ok (if negative then -n else n)
  | none => .error { what := "ValueError" }

lemma intDigits_of_isDigit {cs : List Char} (hcs : ∀ c ∈ cs, c.isDigit = true) (n : ℕ) :
    intDigits true n cs = some (Nat.ofDigitChars 10 cs n) := by
  induction cs generalizing n with
  | nil => rfl
  | cons c cs ih =>
      obtain ⟨hc, hcs⟩ := List.forall_mem_cons.1 hcs
      rw [intDigits, if_pos hc, ih hcs]
      rfl

/-- A digit is no space and no sign. -/
lemma isSpace_of_isDigit {c : Char} (hc : c.isDigit = true) : isSpace c = false := by
  have hcodes : ∀ n ∈ spaceCodes, n < 48 ∨ 57 < n := by decide
  have hrange : 48 ≤ c.toNat ∧ c.toNat ≤ 57 := by
    simpa [Char.isDigit, UInt32.le_iff_toNat_le] using hc
  rw [isSpace, decide_eq_false_iff_not]
  intro hmem
  have := hcodes _ hmem
  omega

/-- A number is read back from its string. -/
lemma pyInt_toString (i : ℕ) : pyInt (toString i) = .ok (i : ℤ) := by
  have hdigits : ∀ c ∈ Nat.toDigits 10 i, c.isDigit = true := fun c hc =>
    Nat.isDigit_of_mem_toDigits (by norm_num) (by norm_num) hc
  have hstrip : strip (Nat.toDigits 10 i) = Nat.toDigits 10 i :=
    trim_eq_self (fun c hc => isSpace_of_isDigit (hdigits c (List.mem_of_mem_head? hc)))
      fun c hc => isSpace_of_isDigit (hdigits c (List.mem_of_mem_getLast? hc))
  have hvalue : Nat.ofDigitChars 10 (Nat.toDigits 10 i) 0 = i :=
    Nat.ofDigitChars_toDigits (by norm_num) (by norm_num)
  rw [pyInt, toList_toString, hstrip]
  cases hcs : Nat.toDigits 10 i with
  | nil => exact absurd hcs Nat.toDigits_ne_nil
  | cons c cs =>
      rw [hcs] at hdigits hvalue
      obtain ⟨hc, hcs⟩ := List.forall_mem_cons.1 hdigits
      have hread : intDigits false 0 (c :: cs) = some i := by
        rw [intDigits, if_pos hc, intDigits_of_isDigit hcs]
        exact congrArg some hvalue
      have hsign : splitSign (c :: cs) = (false, c :: cs) := by
        rw [splitSign]
        · exact fun cs' heq => absurd ((List.cons.inj heq).1 ▸ hc) (by decide)
        · exact fun cs' heq => absurd ((List.cons.inj heq).1 ▸ hc) (by decide)
      simp only [hsign, hread]
      rfl

/-! ### The frontier -/

/-- `KafkaFrontier`, as far as it chooses partitions. -/
structure KafkaFrontier where
  ring : ConsistentHashRing

namespace KafkaFrontier

variable (hash : RingHash)

/-- The names of the partitions. -/
def partitionNodes (partitions : ℤ) : List String :=
  (List.range partitions.toNat).map toString

/-- `KafkaFrontier(settings)`. -/
def init (partitions virtualNodes : ℤ) : Except PyError KafkaFrontier := do
  return { ring := ← ConsistentHashRing.init hash (partitionNodes partitions) virtualNodes }

/-- `partition_for`. -/
def partitionFor (F : KafkaFrontier) (domain : String) : Except PyError ℤ := do
  match ← F.ring.get hash domain with
  | some node => pyInt node
  | none => return 0

variable {hash}

lemma partitionNodes_succ {partitions : ℤ} (h : 0 ≤ partitions) :
    partitionNodes (partitions + 1) =
      partitionNodes partitions ++ [toString partitions.toNat] := by
  have hnat : (partitions + 1).toNat = partitions.toNat + 1 := by omega
  rw [partitionNodes, hnat, List.range_succ, List.map_append]
  rfl

variable (hash) in
/-- The constructor succeeds, and adds the last node last. -/
lemma exists_init {virtualNodes : ℤ} (hv : 1 ≤ virtualNodes) (nodes : List String)
    (node : String) :
    ∃ R, ConsistentHashRing.init hash nodes virtualNodes = .ok R ∧
      ConsistentHashRing.init hash (nodes ++ [node]) virtualNodes =
        .ok (R.addNode hash node) := by
  have hpos : ¬ virtualNodes ≤ 0 := by omega
  refine ⟨_, dif_neg hpos, ?_⟩
  rw [ConsistentHashRing.init, dif_neg hpos, List.foldl_append]
  rfl

/-- A domain has a partition as soon as there is one. -/
lemma exists_partition {R : ConsistentHashRing} {partitions virtualNodes : ℤ}
    (hp : 1 ≤ partitions)
    (h : ConsistentHashRing.init hash (partitionNodes partitions) virtualNodes = .ok R)
    (domain : String) :
    ∃ i : ℕ, (i : ℤ) < partitions ∧ R.get hash domain = .ok (some (toString i)) := by
  obtain ⟨hnodes, -⟩ := ConsistentHashRing.nodes_init h
  have hR := ConsistentHashRing.exact_init h
  have hzero : toString 0 ∈ R.nodes :=
    (hnodes _).2 (List.mem_map_of_mem (List.mem_range.2 (by omega)))
  obtain ⟨point, node, hget, hlookup, -⟩ := hR.get_eq (Finset.ne_empty_of_mem hzero) domain
  obtain ⟨i, hi, rfl⟩ := List.mem_map.1 ((hnodes node).1 (hR.owner point node hlookup).1)
  rw [List.mem_range] at hi
  exact ⟨i, by omega, hget⟩

lemma partitionFor_of_get {F : KafkaFrontier} {domain node : String}
    (h : F.ring.get hash domain = .ok (some node)) : F.partitionFor hash domain = pyInt node := by
  rw [partitionFor, h]
  rfl

lemma partitionFor_eq {F : KafkaFrontier} {domain : String} {i : ℕ}
    (h : F.ring.get hash domain = .ok (some (toString i))) :
    F.partitionFor hash domain = .ok (i : ℤ) := by
  rw [partitionFor_of_get h, pyInt_toString]

/-- **The partition of a domain.**  For any hash and any number of virtual nodes it is found
and is one of the partitions, and with one more partition it is the same or the new one. -/
theorem partitionFor_spec (hash : RingHash) (partitions virtualNodes : ℤ) (hp : 1 ≤ partitions)
    (hv : 1 ≤ virtualNodes) (domain : String) :
    ∃ (F F' : KafkaFrontier) (p p' : ℤ), init hash partitions virtualNodes = .ok F ∧
      init hash (partitions + 1) virtualNodes = .ok F' ∧
      F.partitionFor hash domain = .ok p ∧ (0 ≤ p ∧ p < partitions) ∧
      F'.partitionFor hash domain = .ok p' ∧ (p' = p ∨ p' = partitions) := by
  obtain ⟨R, hR, hR'⟩ :=
    exists_init hash hv (partitionNodes partitions) (toString partitions.toNat)
  obtain ⟨i, hi, hget⟩ := exists_partition hp hR domain
  have hF : init hash partitions virtualNodes = .ok { ring := R } := by
    rw [init, hR]
    rfl
  have hF' : init hash (partitions + 1) virtualNodes =
      .ok { ring := R.addNode hash (toString partitions.toNat) } := by
    rw [init, partitionNodes_succ (by omega), hR']
    rfl
  have hfor : (KafkaFrontier.mk R).partitionFor hash domain = .ok (i : ℤ) := partitionFor_eq hget
  rcases (ConsistentHashRing.exact_init hR).get_addNode (toString partitions.toNat) domain with
    hsame | hnew
  · exact ⟨_, _, i, i, hF, hF', hfor, ⟨by omega, hi⟩, partitionFor_eq (hsame.trans hget),
      Or.inl rfl⟩
  · exact ⟨_, _, i, _, hF, hF', hfor, ⟨by omega, hi⟩, partitionFor_eq hnew, Or.inr (by omega)⟩

/-- The labels of the partitions have one length: under the hash that looks at it only, all
points collide and the last partition gets every domain. -/
theorem partitionFor_spec_collision :
    ∃ (F F' : KafkaFrontier) (p' : ℤ), init ConsistentHashRing.lengthHash 2 1 = .ok F ∧
      F.partitionFor ConsistentHashRing.lengthHash "example.com" = .ok 1 ∧
      init ConsistentHashRing.lengthHash 3 1 = .ok F' ∧
      F'.partitionFor ConsistentHashRing.lengthHash "example.com" = .ok p' ∧
      (p' = 1 ∨ p' = 2) := by
  obtain ⟨F, F', p, p', hF, hF', hp, -, hp', hor⟩ := partitionFor_spec
    ConsistentHashRing.lengthHash 2 1 (by norm_num) (by norm_num) "example.com"
  have hvalue : (do
      let F ← init ConsistentHashRing.lengthHash 2 1
      F.partitionFor ConsistentHashRing.lengthHash "example.com") = .ok 1 := by rfl
  rw [hF] at hvalue
  obtain rfl : p = 1 := Except.ok.inj (hp.symm.trans hvalue)
  exact ⟨F, F', p', hF, hp, hF', hp', hor⟩

end KafkaFrontier

end WebCrawler
