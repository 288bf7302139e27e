import WebCrawler.Models
import WebCrawler.Lib.Bisect
import WebCrawler.Lib.Machine
import Mathlib.Data.List.AList

/-!
# The consistent-hash ring

`crawler/sharding/consistent_hash.py`.  A node owns `virtual_nodes` points on a ring of
32-bit hashes.  The ring keeps a dictionary from points to nodes, the sorted list of the
points and the set of the nodes.  The hash of a string is a parameter, and nothing is
assumed of it: points of one node, or of different nodes, may collide.

When points collide the dictionary keeps one entry and the list as many as there are
points.  Adding a node keeps the two in agreement.  Removing one takes each of its points
out of the dictionary and out of the list once, so that a repeated point stays in the
list without an entry in the dictionary, and a lookup that comes to it raises.
`represents_iff_clean` says that this is the only way in which the ring goes wrong.
-/

namespace WebCrawler

open Lib

/-- `mmh3.hash(key, signed=False)`. -/
abbrev RingHash : Type := String → UInt32

structure ConsistentHashRing where
  virtualNodes : ℕ
  ring : AList (fun _ : ℕ => String) := ∅
  sortedHashes : List ℕ := []
  nodes : Finset String := ∅
  virtualNodes_pos : 0 < virtualNodes

/-- The label of a virtual node. -/
def label (node : String) (i : ℕ) : String := node ++ "#" ++ toString i

namespace ConsistentHashRing

variable (hash : RingHash) (R : ConsistentHashRing) (node : String)

/-- The points of a node, in the order of its virtual nodes. -/
def points : List ℕ := (List.range R.virtualNodes).map fun i => (hash (label node i)).toNat

/-- One turn of the loop in `add_node`. -/
def addPoint (h : ℕ) : ConsistentHashRing :=
  { R with ring := R.ring.insert h node, sortedHashes := insort R.sortedHashes h }

def addNode : ConsistentHashRing :=
  if node ∈ R.nodes then R
  else (R.points hash node).foldl (fun R h => R.addPoint node h)
    { R with nodes := insert node R.nodes }

/-- One turn of the loop in `remove_node`. -/
def removePoint (h : ℕ) : ConsistentHashRing :=
  match R.ring.lookup h with
  | none => R
  | some _ => { R with ring := R.ring.erase h, sortedHashes := popSorted R.sortedHashes h }

def removeNode : ConsistentHashRing :=
  if node ∈ R.nodes then
    (R.points hash node).foldl removePoint { R with nodes := R.nodes.erase node }
  else R

/-- The node that owns a key, if there is a node. -/
def get (key : String) : Except PyError (Option String) :=
  if R.sortedHashes = [] then .ok none
  else
    let h := (hash key).toNat
    let idx := bisectRight R.sortedHashes h
    match R.sortedHashes[if idx = R.sortedHashes.length then 0 else idx]? with
    | none => .error { what := "list index out of range" }
    | some point =>
        match R.ring.lookup point with
        | none => .error { what := toString point }
        | some node => .ok (some node)

/-- `ConsistentHashRing(nodes, virtual_nodes)`. -/
def init (nodes : List String) (virtualNodes : ℤ) : Except PyError ConsistentHashRing :=
  if h : virtualNodes ≤ 0 then .error { what := "virtual_nodes must be positive" }
  else
    .ok (nodes.foldl (addNode hash)
      { virtualNodes := virtualNodes.toNat, virtualNodes_pos := by omega })

end ConsistentHashRing

/-- The calls that change a ring. -/
inductive RingOp
  | add (node : String)
  | remove (node : String)
deriving DecidableEq, Repr

namespace ConsistentHashRing

variable (hash : RingHash)

def apply (R : ConsistentHashRing) : RingOp → ConsistentHashRing
  | .add node => R.addNode hash node
  | .remove node => R.removeNode hash node

/-- The ring from its construction on. -/
def machine (R : ConsistentHashRing) : Machine ConsistentHashRing RingOp :=
  ⟨R, fun R op => some (R.apply hash op)⟩

/-- The three structures agree, and a lookup finds a member if there is one. -/
structure Represents (R : ConsistentHashRing) : Prop where
  sorted : R.sortedHashes.Pairwise (· ≤ ·)
  mem_iff : ∀ h, h ∈ R.sortedHashes ↔ h ∈ R.ring
  owner_mem : ∀ h, ∀ node ∈ R.ring.lookup h, node ∈ R.nodes
  get_eq : ∀ key, ∃ owner, R.get hash key = .ok owner ∧ (owner = none ↔ R.nodes = ∅) ∧
    ∀ node ∈ owner, node ∈ R.nodes

/-- A node that is removed shares no point with another node, nor one of its points with
another of its points. -/
def Clean (R : ConsistentHashRing) : RingOp → Prop
  | .add _ => True
  | .remove node =>
      node ∈ R.nodes → (R.points hash node).Nodup ∧
        ∀ other ∈ R.nodes, other ≠ node → ∀ h ∈ R.points hash node, h ∉ R.points hash other

instance (R : ConsistentHashRing) (op : RingOp) : Decidable (Clean hash R op) :=
  match op with
  | .add _ => inferInstanceAs (Decidable True)
  | .remove node => inferInstanceAs (Decidable (node ∈ R.nodes → _))

/-! ### The loops -/

section Loops

variable {hash} {R : ConsistentHashRing}

/-- The points of a node only depend on the number of virtual nodes. -/
lemma points_congr {R' : ConsistentHashRing} (h : R'.virtualNodes = R.virtualNodes)
    (node : String) :
    R'.points hash node = R.points hash node := by
  rw [points, points, h]

/-- The loop in `add_node` leaves the nodes alone. -/
lemma foldl_addPoint_nodes (R : ConsistentHashRing) (node : String) (ps : List ℕ) :
    (ps.foldl (fun R h => R.addPoint node h) R).nodes = R.nodes ∧
      (ps.foldl (fun R h => R.addPoint node h) R).virtualNodes = R.virtualNodes := by
  induction ps generalizing R with
  | nil => exact ⟨rfl, rfl⟩
  | cons p ps ih => exact ih (R.addPoint node p)

/-- What the loop in `add_node` does. -/
lemma foldl_addPoint (node : String) (ps : List ℕ) (hsorted : R.sortedHashes.Pairwise (· ≤ ·)) :
    let R' := ps.foldl (fun R h => R.addPoint node h) R
    R'.sortedHashes.Pairwise (· ≤ ·) ∧
      (∀ h, R'.sortedHashes.count h = R.sortedHashes.count h + ps.count h) ∧
      ∀ h, R'.ring.lookup h = if h ∈ ps then some node else R.ring.lookup h := by
  induction ps generalizing R with
  | nil => exact ⟨hsorted, fun h => by simp, fun h => by simp⟩
  | cons p ps ih =>
      obtain ⟨hs, hcount, hlookup⟩ := ih (R := R.addPoint node p) (pairwise_insort hsorted)
      refine ⟨hs, fun h => ?_, fun h => ?_⟩
      · rw [List.foldl_cons, hcount h, addPoint, count_insort hsorted, List.count_cons]
        simp only [beq_iff_eq]
        omega
      · rw [List.foldl_cons, hlookup h]
        by_cases hps : h ∈ ps
        · simp [hps]
        · rw [if_neg hps, addPoint]
          by_cases hp : h = p
          · subst hp
            rw [AList.lookup_insert, if_pos List.mem_cons_self]
          · rw [AList.lookup_insert_ne hp, if_neg (by simp [hp, hps])]

lemma removePoint_nodes (h : ℕ) :
    (R.removePoint h).nodes = R.nodes ∧ (R.removePoint h).virtualNodes = R.virtualNodes := by
  rw [removePoint]
  split <;> exact ⟨rfl, rfl⟩

/-- The loop in `remove_node` leaves the nodes alone. -/
lemma foldl_removePoint_nodes (R : ConsistentHashRing) (ps : List ℕ) :
    (ps.foldl removePoint R).nodes = R.nodes ∧
      (ps.foldl removePoint R).virtualNodes = R.virtualNodes := by
  induction ps generalizing R with
  | nil => exact ⟨rfl, rfl⟩
  | cons p ps ih =>
      obtain ⟨hn, hv⟩ := removePoint_nodes (R := R) p
      obtain ⟨hn', hv'⟩ := ih (R.removePoint p)
      exact ⟨hn'.trans hn, hv'.trans hv⟩

lemma removePoint_spec (hsorted : R.sortedHashes.Pairwise (· ≤ ·)) (p : ℕ) :
    (R.removePoint p).sortedHashes.Pairwise (· ≤ ·) ∧
      (∀ h, (R.removePoint p).sortedHashes.count h =
        R.sortedHashes.count h - if h = p ∧ (R.ring.lookup h).isSome then 1 else 0) ∧
      ∀ h, (R.removePoint p).ring.lookup h = if h = p then none else R.ring.lookup h := by
  rw [removePoint]
  split
  · next hnone =>
      refine ⟨hsorted, fun h => ?_, fun h => ?_⟩
      · have hnot : ¬ (h = p ∧ (R.ring.lookup h).isSome = true) := by
          rintro ⟨rfl, hsome⟩
          rw [hnone] at hsome
          exact Bool.noConfusion hsome
        rw [if_neg hnot, Nat.sub_zero]
      · by_cases hp : h = p
        · rw [if_pos hp, hp, hnone]
        · rw [if_neg hp]
  · next owner hsome =>
      refine ⟨?_, fun h => ?_, fun h => ?_⟩
      · rw [popSorted_eq hsorted]
        exact hsorted.sublist List.erase_sublist
      · rw [popSorted_eq hsorted, List.count_erase]
        by_cases hp : h = p
        · subst hp
          simp [hsome]
        · simp [hp, Ne.symm hp]
      · by_cases hp : h = p
        · subst hp
          rw [if_pos rfl, AList.lookup_erase]
        · rw [if_neg hp, AList.lookup_erase_ne hp]

/-- What the loop in `remove_node` does: a point that has an entry loses it, and one of its
occurrences in the list with it. -/
lemma foldl_removePoint (ps : List ℕ) (hsorted : R.sortedHashes.Pairwise (· ≤ ·)) :
    let R' := ps.foldl removePoint R
    R'.sortedHashes.Pairwise (· ≤ ·) ∧
      (∀ h, R'.sortedHashes.count h =
        R.sortedHashes.count h - if h ∈ ps ∧ (R.ring.lookup h).isSome then 1 else 0) ∧
      ∀ h, R'.ring.lookup h = if h ∈ ps then none else R.ring.lookup h := by
  induction ps generalizing R with
  | nil => exact ⟨hsorted, fun h => by simp, fun h => by simp⟩
  | cons p ps ih =>
      obtain ⟨hs, hcount, hlookup⟩ := removePoint_spec hsorted p
      obtain ⟨hs', hcount', hlookup'⟩ := ih (R := R.removePoint p) hs
      refine ⟨hs', fun h => ?_, fun h => ?_⟩
      · rw [List.foldl_cons, hcount' h, hcount h, hlookup h]
        by_cases hp : h = p
        · subst hp
          simp
        · simp [hp]
      · rw [List.foldl_cons, hlookup' h, hlookup h]
        by_cases hp : h = p
        · simp [hp]
        · simp [hp]

end Loops

/-! ### The invariant -/

/-- The points of the nodes are in the list, each as often as there are virtual nodes with
it, and the dictionary has one entry for each of them. -/
structure Exact (R : ConsistentHashRing) : Prop where
  sorted : R.sortedHashes.Pairwise (· ≤ ·)
  count_eq : ∀ h, R.sortedHashes.count h = ∑ node ∈ R.nodes, (R.points hash node).count h
  owner : ∀ h, ∀ node ∈ R.ring.lookup h, node ∈ R.nodes ∧ h ∈ R.points hash node
  covered : ∀ node ∈ R.nodes, ∀ h ∈ R.points hash node, (R.ring.lookup h).isSome = true

section Invariant

variable {hash} {R : ConsistentHashRing}

/-- The ring after a new node was added, in terms of the ring before. -/
lemma Exact.addNode_spec (hR : Exact hash R) {node : String} (hmem : node ∉ R.nodes) :
    let R' := R.addNode hash node
    R'.virtualNodes = R.virtualNodes ∧ R'.nodes = insert node R.nodes ∧
      R'.sortedHashes.Pairwise (· ≤ ·) ∧
      (∀ h, R'.sortedHashes.count h = R.sortedHashes.count h + (R.points hash node).count h) ∧
      ∀ h, R'.ring.lookup h =
        if h ∈ R.points hash node then some node else R.ring.lookup h := by
  obtain ⟨hn, hv⟩ :=
    foldl_addPoint_nodes { R with nodes := insert node R.nodes } node (R.points hash node)
  obtain ⟨hs, hcount, hlookup⟩ := foldl_addPoint
    (R := { R with nodes := insert node R.nodes }) node (R.points hash node) hR.sorted
  rw [ConsistentHashRing.addNode, if_neg hmem]
  exact ⟨hv, hn, hs, hcount, hlookup⟩

lemma Exact.addNode (hR : Exact hash R) (node : String) : Exact hash (R.addNode hash node) := by
  by_cases hmem : node ∈ R.nodes
  · rw [ConsistentHashRing.addNode, if_pos hmem]
    exact hR
  · obtain ⟨hv, hn, hs, hcount, hlookup⟩ := hR.addNode_spec hmem
    refine ⟨hs, fun h => ?_, fun h other hother => ?_, fun other hother h hh => ?_⟩
    · rw [hcount h, hn, Finset.sum_insert hmem, points_congr hv, hR.count_eq h, Nat.add_comm]
      congr 1
      exact Finset.sum_congr rfl fun n _ => by rw [points_congr hv]
    · rw [hlookup h] at hother
      rw [hn, points_congr hv]
      by_cases hp : h ∈ R.points hash node
      · rw [if_pos hp, Option.mem_some_iff] at hother
        subst hother
        exact ⟨Finset.mem_insert_self _ _, hp⟩
      · rw [if_neg hp] at hother
        obtain ⟨hother, hh⟩ := hR.owner h other hother
        exact ⟨Finset.mem_insert_of_mem hother, hh⟩
    · rw [hn] at hother
      rw [points_congr hv] at hh
      rw [hlookup h]
      by_cases hp : h ∈ R.points hash node
      · rw [if_pos hp]
        rfl
      · rw [if_neg hp]
        rcases Finset.mem_insert.1 hother with rfl | hother
        · exact absurd hh hp
        · exact hR.covered other hother h hh

/-- The ring after a removal, in terms of the ring before. -/
lemma Exact.removeNode_spec (hR : Exact hash R) {node : String} (hmem : node ∈ R.nodes) :
    let R' := R.removeNode hash node
    R'.virtualNodes = R.virtualNodes ∧ R'.nodes = R.nodes.erase node ∧
      R'.sortedHashes.Pairwise (· ≤ ·) ∧
      (∀ h, R'.sortedHashes.count h =
        R.sortedHashes.count h - if h ∈ R.points hash node then 1 else 0) ∧
      ∀ h, R'.ring.lookup h = if h ∈ R.points hash node then none else R.ring.lookup h := by
  obtain ⟨hn, hv⟩ :=
    foldl_removePoint_nodes { R with nodes := R.nodes.erase node } (R.points hash node)
  obtain ⟨hs, hcount, hlookup⟩ := foldl_removePoint
    (R := { R with nodes := R.nodes.erase node }) (R.points hash node) hR.sorted
  rw [removeNode, if_pos hmem]
  refine ⟨hv, hn, hs, fun h => ?_, hlookup⟩
  rw [hcount h]
  by_cases hp : h ∈ R.points hash node
  · rw [if_pos hp, if_pos ⟨hp, hR.covered node hmem h hp⟩]
  · rw [if_neg hp, if_neg fun hand => hp hand.1]

/-- How often the points of a node are in the list. -/
lemma Exact.count_eq_add (hR : Exact hash R) {node : String} (hmem : node ∈ R.nodes) (h : ℕ) :
    R.sortedHashes.count h = (R.points hash node).count h +
      ∑ other ∈ R.nodes.erase node, (R.points hash other).count h := by
  rw [hR.count_eq h, Finset.add_sum_erase _ (fun n => (R.points hash n).count h) hmem]

/-- Removing a node whose points do not collide takes exactly its points away. -/
lemma Exact.removeNode (hR : Exact hash R) {node : String} (hclean : Clean hash R (.remove node)) :
    Exact hash (R.removeNode hash node) := by
  by_cases hmem : node ∈ R.nodes
  · obtain ⟨hnodup, hdisj⟩ := hclean hmem
    obtain ⟨hv, hn, hs, hcount, hlookup⟩ := hR.removeNode_spec hmem
    have hforeign : ∀ other ∈ R.nodes.erase node, ∀ h ∈ R.points hash other,
        h ∉ R.points hash node := by
      intro other hother h hh hp
      obtain ⟨hne, hother⟩ := Finset.mem_erase.1 hother
      exact hdisj other hother hne h hp hh
    refine ⟨hs, fun h => ?_, fun h other hother => ?_, fun other hother h hh => ?_⟩
    · rw [hcount h, hn, hR.count_eq_add hmem h]
      have hpoints : (R.points hash node).count h = if h ∈ R.points hash node then 1 else 0 := by
        split_ifs with hp
        · exact List.count_eq_one_of_mem hnodup hp
        · exact List.count_eq_zero_of_not_mem hp
      rw [hpoints, Nat.add_sub_cancel_left]
      exact Finset.sum_congr rfl fun n _ => by rw [points_congr hv]
    · rw [hlookup h] at hother
      split_ifs at hother with hp
      · exact absurd hother (by simp)
      · obtain ⟨hother, hh⟩ := hR.owner h other hother
        rw [hn, points_congr hv]
        refine ⟨Finset.mem_erase.2 ⟨?_, hother⟩, hh⟩
        rintro rfl
        exact hp hh
    · rw [hn] at hother
      rw [points_congr hv] at hh
      rw [hlookup h, if_neg (hforeign other hother h hh)]
      exact hR.covered other (Finset.mem_of_mem_erase hother) h hh
  · rw [ConsistentHashRing.removeNode, if_neg hmem]
    exact hR

lemma Exact.mem_sortedHashes_iff (hR : Exact hash R) (h : ℕ) :
    h ∈ R.sortedHashes ↔ ∃ node ∈ R.nodes, h ∈ R.points hash node := by
  rw [← List.count_pos_iff, hR.count_eq h, Finset.sum_pos_iff]
  simp only [List.count_pos_iff]

lemma points_ne_nil (hash : RingHash) (R : ConsistentHashRing) (node : String) :
    R.points hash node ≠ [] := by
  rw [points, ne_eq, List.map_eq_nil_iff, List.range_eq_nil]
  exact R.virtualNodes_pos.ne'

/-- The list of points is empty only without nodes. -/
lemma Exact.sortedHashes_eq_nil_iff (hR : Exact hash R) :
    R.sortedHashes = [] ↔ R.nodes = ∅ := by
  constructor
  · intro hnil
    refine Finset.eq_empty_of_forall_notMem fun node hnode => ?_
    obtain ⟨h, hh⟩ := List.exists_mem_of_ne_nil _ (points_ne_nil hash R node)
    have hmem := (hR.mem_sortedHashes_iff h).2 ⟨node, hnode, hh⟩
    rw [hnil] at hmem
    exact List.not_mem_nil hmem
  · intro hempty
    refine List.eq_nil_iff_forall_not_mem.2 fun h hh => ?_
    obtain ⟨node, hnode, -⟩ := (hR.mem_sortedHashes_iff h).1 hh
    rw [hempty] at hnode
    exact Finset.notMem_empty node hnode

/-- The lookup of a key: the entry of the next point clockwise. -/
lemma Exact.get_eq (hR : Exact hash R) (hne : R.nodes ≠ ∅) (key : String) :
    ∃ point node, R.get hash key = .ok (some node) ∧ R.ring.lookup point = some node ∧
      IsNext {h | h ∈ R.sortedHashes} (hash key).toNat point := by
  have hnil : R.sortedHashes ≠ [] := mt hR.sortedHashes_eq_nil_iff.1 hne
  obtain ⟨point, hget, hnext⟩ := isNext_bisectRight hR.sorted hnil (hash key).toNat
  obtain ⟨owner, howner, hpoint⟩ := (hR.mem_sortedHashes_iff point).1 hnext.1
  obtain ⟨node, hnode⟩ := Option.isSome_iff_exists.1 (hR.covered owner howner point hpoint)
  refine ⟨point, node, ?_, hnode, hnext⟩
  rw [get, if_neg hnil]
  simp only [hget, hnode]

lemma Exact.get_of_empty (hR : Exact hash R) (hempty : R.nodes = ∅) (key : String) :
    R.get hash key = .ok none := by
  rw [get, if_pos (hR.sortedHashes_eq_nil_iff.2 hempty)]

lemma Exact.represents (hR : Exact hash R) : Represents hash R := by
  refine ⟨hR.sorted, fun h => ?_, fun h node hnode => (hR.owner h node hnode).1, fun key => ?_⟩
  · rw [hR.mem_sortedHashes_iff h, ← AList.lookup_isSome]
    constructor
    · rintro ⟨node, hnode, hh⟩
      exact hR.covered node hnode h hh
    · intro hsome
      obtain ⟨node, hnode⟩ := Option.isSome_iff_exists.1 hsome
      exact ⟨node, hR.owner h node hnode⟩
  · by_cases hempty : R.nodes = ∅
    · exact ⟨none, hR.get_of_empty hempty key, by simp [hempty], by simp⟩
    · obtain ⟨point, node, hget, hlookup, -⟩ := hR.get_eq hempty key
      refine ⟨some node, hget, by simp [hempty], fun other hother => ?_⟩
      obtain rfl := Option.mem_some_iff.1 hother
      exact (hR.owner point _ hlookup).1

/-- A point that the removed node shares stays in the list, without an entry. -/
lemma Exact.clean_of_represents (hR : Exact hash R) {node : String}
    (h' : Represents hash (R.removeNode hash node)) : Clean hash R (.remove node) := by
  intro hmem
  obtain ⟨-, -, -, hcount, hlookup⟩ := hR.removeNode_spec hmem
  -- each point of the node was in the list once
  have hone : ∀ h ∈ R.points hash node, R.sortedHashes.count h ≤ 1 := by
    intro h hp
    have hnot : h ∉ (R.removeNode hash node).sortedHashes := by
      rw [h'.mem_iff h, ← AList.lookup_isSome, hlookup h, if_pos hp]
      exact Bool.false_ne_true
    have hzero := List.count_eq_zero_of_not_mem hnot
    rw [hcount h, if_pos hp] at hzero
    omega
  constructor
  · refine List.nodup_iff_count_le_one.2 fun h => ?_
    by_cases hp : h ∈ R.points hash node
    · have hle := hone h hp
      rw [hR.count_eq_add hmem h] at hle
      omega
    · rw [List.count_eq_zero_of_not_mem hp]
      omega
  · intro other hother hne h hp hh
    have hle := hone h hp
    rw [hR.count_eq_add hmem h] at hle
    have hpos : 0 < (R.points hash node).count h := List.count_pos_iff.2 hp
    have hpos' : 0 < ∑ n ∈ R.nodes.erase node, (R.points hash n).count h :=
      Finset.sum_pos_iff.2 ⟨other, Finset.mem_erase.2 ⟨hne, hother⟩, List.count_pos_iff.2 hh⟩
    omega

/-- One call on a ring with the invariant. -/
lemma Exact.apply (hR : Exact hash R) {op : RingOp} (hclean : Clean hash R op) :
    Exact hash (R.apply hash op) := by
  cases op with
  | add node => exact hR.addNode node
  | remove node => exact hR.removeNode hclean

lemma exact_init {nodes : List String} {virtualNodes : ℤ}
    (h : init hash nodes virtualNodes = .ok R) : Exact hash R := by
  rw [init] at h
  split_ifs at h with hpos
  obtain rfl := Except.ok.inj h
  induction nodes using List.reverseRecOn with
  | nil => exact ⟨List.Pairwise.nil, by simp, by simp, by simp⟩
  | append_singleton nodes node ih =>
      rw [List.foldl_append]
      exact (ih rfl).addNode node

lemma exact_of_reachableBy {R₀ : ConsistentHashRing} (h₀ : Exact hash R₀)
    (h : (machine hash R₀).ReachableBy (Clean hash) R) : Exact hash R := by
  refine h.inv h₀ fun R op R' hR hclean hst => ?_
  obtain rfl := Option.some.inj hst
  exact hR.apply hclean

end Invariant

/-- **When the ring represents its nodes.**  For any hash and any number of virtual nodes,
as long as no removed node shares a point, the three structures of the ring agree and a
lookup finds a member; and the first removal of a node that shares a point ends that. -/
theorem represents_iff_clean {nodes : List String} {virtualNodes : ℤ} {R₀ R : ConsistentHashRing}
    (hinit : init hash nodes virtualNodes = .ok R₀)
    (h : (machine hash R₀).ReachableBy (Clean hash) R) :
    Represents hash R ∧ ∀ op, Represents hash (R.apply hash op) ↔ Clean hash R op := by
  have hR : Exact hash R := exact_of_reachableBy (exact_init hinit) h
  refine ⟨hR.represents, fun op => ⟨fun h' => ?_, fun hclean => (hR.apply hclean).represents⟩⟩
  cases op with
  | add node => trivial
  | remove node => exact hR.clean_of_represents h'

/-- A hash that looks at the length of the string only. -/
def lengthHash : RingHash := fun key => UInt32.ofNat key.length

/-- Three nodes with one point each; the second and the third share theirs. -/
def threeNodes : ConsistentHashRing :=
  ["a", "bb", "cc"].foldl (addNode lengthHash)
    { virtualNodes := 1, virtualNodes_pos := Nat.one_pos }

/-- Removing the first node is harmless, removing one of the other two then is not. -/
theorem represents_iff_clean_three_nodes :
    init lengthHash ["a", "bb", "cc"] 1 = .ok threeNodes ∧
      (machine lengthHash threeNodes).ReachableBy (Clean lengthHash)
        (threeNodes.removeNode lengthHash "a") ∧
      Represents lengthHash (threeNodes.removeNode lengthHash "a") ∧
      ¬ Represents lengthHash
        ((threeNodes.removeNode lengthHash "a").removeNode lengthHash "bb") := by
  have hinit : init lengthHash ["a", "bb", "cc"] 1 = .ok threeNodes := rfl
  have h : (machine lengthHash threeNodes).ReachableBy (Clean lengthHash)
      (threeNodes.removeNode lengthHash "a") :=
    Machine.reachableBy_of_exec [.remove "a"] rfl
  obtain ⟨hrep, hiff⟩ := represents_iff_clean lengthHash hinit h
  exact ⟨hinit, h, hrep, mt (hiff (.remove "bb")).1 (by decide)⟩

/-- The 32-bit hashes of `"worker-98861#0"`, `"worker-138810#0"` and `"example.com"`. -/
def collidingHash : RingHash := fun key =>
  if key = "worker-98861#0" ∨ key = "worker-138810#0" then 2869073196 else 1769072435

/-- Two workers with one point each, and the points are the same. -/
def twoWorkers : ConsistentHashRing :=
  ["worker-98861", "worker-138810"].foldl (addNode collidingHash)
    { virtualNodes := 1, virtualNodes_pos := Nat.one_pos }

/-- When one of the two workers leaves, every lookup raises although the other one is still
there. -/
theorem removed_worker_breaks_lookup :
    ¬ ∀ (hash : RingHash) (nodes : List String) (virtualNodes : ℤ) (R₀ R : ConsistentHashRing),
      init hash nodes virtualNodes = .ok R₀ → (machine hash R₀).Reachable R →
        Represents hash R := by
  intro hall
  have hinit : init collidingHash ["worker-98861", "worker-138810"] 1 = .ok twoWorkers := rfl
  have h : (machine collidingHash twoWorkers).Reachable
      (twoWorkers.removeNode collidingHash "worker-98861") :=
    Machine.reachableBy_of_exec [.remove "worker-98861"] rfl
  have hraises : (twoWorkers.removeNode collidingHash "worker-98861").get collidingHash
      "example.com" = .error { what := "2869073196" } := rfl
  obtain ⟨owner, hget, -⟩ := (hall _ _ _ _ _ hinit h).get_eq "example.com"
  rw [hraises] at hget
  exact absurd hget (by simp)

end ConsistentHashRing

end WebCrawler
