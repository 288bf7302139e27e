import WebCrawler.Sharding.Ownership
import WebCrawler.Dedup.SimHash

/-!
# How many keys move

`crawler/sharding/rebalance.py` measures how a ring spreads its keys and how many of them
change their owner.  When a node leaves, only its keys move; when one comes, keys move to
it only, and so the churn is the share of the keys that the new node gets.

The quotients of the source are floating-point numbers, here they are rational.
-/

namespace WebCrawler

open Lib

/-- A dictionary from keys to their nodes. -/
abbrev Assignments : Type := AList fun _ : String => String

/-- One turn of the loop in `assignments`. -/
def assign (hash : RingHash) (R : ConsistentHashRing) (result : Assignments) (key : String) :
    Except PyError Assignments := do
  match ← R.get hash key with
  | some node => return result.insert key node
  | none => return result

/-- Maps each key to its node; keys without a node are left out. -/
def assignments (hash : RingHash) (R : ConsistentHashRing) (keys : List String) :
    Except PyError Assignments :=
  keys.foldlM (assign hash R) ∅

/-- The nodes that own a key, each with the number of its keys. -/
def distribution (hash : RingHash) (R : ConsistentHashRing) (keys : List String) :
    Except PyError (List (String × ℕ)) := do
  return counter ((← assignments hash R keys).entries.map (·.2))

/-- The entry of a `Counter`, zero if there is none. -/
def countOf (counts : List (String × ℕ)) (node : String) : ℕ := (counts.lookup node).getD 0

/-- The share of the keys whose owner has changed. -/
def churn (before after : Assignments) : ℚ :=
  if before.entries = [] then 0
  else
    let moved := before.entries.countP fun entry => after.lookup entry.1 != some entry.2
    (moved : ℚ) / before.entries.length

/-! ### Counting -/

lemma countOf_counter (l : List String) (node : String) :
    countOf (counter l) node = l.count node := by
  have hlookup : ∀ l' : List String,
      (l'.map fun token => (token, l.count token)).lookup node =
        if node ∈ l' then some (l.count node) else none := by
    intro l'
    induction l' with
    | nil => rfl
    | cons token l' ih =>
        rw [List.map_cons, List.lookup_cons, ih]
        by_cases heq : node = token
        · simp [heq]
        · have hbeq : (node == token) = false := by simpa using heq
          simp [hbeq, heq]
  rw [countOf, counter, hlookup]
  by_cases hmem : node ∈ l
  · rw [if_pos (List.mem_eraseDups.2 hmem), Option.getD_some]
  · rw [if_neg (mt List.mem_eraseDups.1 hmem), List.count_eq_zero_of_not_mem hmem, Option.getD_none]

section Assignments

variable {hash : RingHash} {R : ConsistentHashRing} {owner : String → String}

/-- The dictionary of the keys that the loop has come to. -/
lemma foldlM_assign (howner : ∀ key, R.get hash key = .ok (some (owner key))) (keys : List String)
    (a : Assignments) :
    keys.foldlM (assign hash R) a =
      .ok (keys.foldl (fun a key => a.insert key (owner key)) a) := by
  induction keys generalizing a with
  | nil => rfl
  | cons key keys ih =>
      have hturn : assign hash R a key = .ok (a.insert key (owner key)) := by
        rw [assign, howner key]
        rfl
      rw [List.foldlM_cons, hturn, List.foldl_cons]
      exact ih _

/-- The keys of the dictionary do not depend on the owners. -/
lemma keys_foldl_insert (owner owner' : String → String) (keys : List String) {a a' : Assignments}
    (h : a.keys = a'.keys) :
    (keys.foldl (fun a key => a.insert key (owner key)) a).keys =
      (keys.foldl (fun a key => a.insert key (owner' key)) a').keys := by
  induction keys generalizing a a' with
  | nil => exact h
  | cons key keys ih =>
      refine ih ?_
      rw [AList.keys_insert, AList.keys_insert, h]

lemma mem_foldl_insert {keys : List String} {a : Assignments} {k : String} :
    k ∈ keys.foldl (fun a key => a.insert key (owner key)) a ↔ k ∈ a ∨ k ∈ keys := by
  induction keys generalizing a with
  | nil => simp
  | cons key keys ih =>
      rw [List.foldl_cons, ih, AList.mem_insert, List.mem_cons]
      tauto

/-- Every entry is that of the owner. -/
lemma entries_foldl_insert (owner : String → String) (keys : List String) {a : Assignments}
    (ha : ∀ e ∈ a.entries, e.2 = owner e.1) :
    ∀ e ∈ (keys.foldl (fun a key => a.insert key (owner key)) a).entries, e.2 = owner e.1 := by
  induction keys generalizing a with
  | nil => exact ha
  | cons key keys ih =>
      refine ih fun e he => ?_
      rw [AList.entries_insert, List.mem_cons] at he
      rcases he with rfl | he
      · rfl
      · exact ha e ((List.kerase_sublist key a.entries).subset he)

/-- The dictionary as a list: its keys are the different ones of the list, and the node of
a key is its owner. -/
lemma assignments_eq (howner : ∀ key, R.get hash key = .ok (some (owner key)))
    (keys : List String) :
    ∃ a, assignments hash R keys = .ok a ∧
      a.entries = a.keys.map (fun key => ⟨key, owner key⟩) ∧
      (∀ key, key ∈ a.keys ↔ key ∈ keys) ∧
      a.keys = (keys.foldl (fun a key => a.insert key "") (∅ : Assignments)).keys := by
  refine ⟨_, foldlM_assign howner keys ∅, ?_, fun key => ?_, keys_foldl_insert _ _ keys rfl⟩
  · have hentries := entries_foldl_insert owner keys (a := ∅) (by simp)
    rw [AList.keys, List.keys, List.map_map]
    conv_lhs => rw [← List.map_id (AList.entries _)]
    refine List.map_congr_left fun e he => ?_
    exact Sigma.ext rfl (heq_of_eq (hentries e he))
  · rw [← AList.mem_keys, mem_foldl_insert]
    simp

/-- In a dictionary of owners, what a key is mapped to. -/
lemma lookup_of_entries {a : Assignments}
    (h : a.entries = a.keys.map (fun key => ⟨key, owner key⟩)) {key : String}
    (hkey : key ∈ a.keys) :
    a.lookup key = some (owner key) := by
  refine AList.mem_lookup_iff.2 ?_
  rw [h]
  exact List.mem_map_of_mem hkey

/-- The number of different keys. -/
lemma length_entries {a : Assignments} {keys : List String} (h : ∀ key, key ∈ a.keys ↔ key ∈ keys) :
    a.entries.length = keys.toFinset.card := by
  have hlen : a.entries.length = a.keys.length := by
    rw [AList.keys, List.keys, List.length_map]
  rw [hlen, ← List.toFinset_card_of_nodup a.keys_nodup]
  congr 1
  ext key
  rw [List.mem_toFinset, List.mem_toFinset, h key]

end Assignments

/-! ### Minimal disruption -/

namespace ConsistentHashRing

variable {hash : RingHash} {R : ConsistentHashRing} {n : String} {involved : List String}

/-- The ring has the invariant and no collisions. -/
structure Regular (hash : RingHash) (involved : List String) (R : ConsistentHashRing) : Prop where
  exact : Exact hash R
  noCollision : NoCollision hash R.virtualNodes involved
  mem_involved : ∀ node ∈ R.nodes, node ∈ involved

lemma Regular.removeNode (hR : Regular hash involved R) :
    Regular hash involved (R.removeNode hash n) := by
  obtain ⟨hn, hv⟩ := removeNode_nodes hash R n
  refine ⟨hR.exact.removeNode (clean_of_noCollision hR.noCollision hR.mem_involved _),
    hv.symm ▸ hR.noCollision, fun node hnode => ?_⟩
  rw [hn] at hnode
  exact hR.mem_involved node (Finset.mem_of_mem_erase hnode)

lemma Regular.addNode (hR : Regular hash involved R) (hmem : n ∈ involved) :
    Regular hash involved (R.addNode hash n) := by
  obtain ⟨hn, hv⟩ := addNode_nodes hash R n
  refine ⟨hR.exact.addNode n, hv.symm ▸ hR.noCollision, fun node hnode => ?_⟩
  rw [hn, Finset.mem_insert] at hnode
  rcases hnode with rfl | hnode
  · exact hmem
  · exact hR.mem_involved node hnode

lemma Regular.get_iff (hR : Regular hash involved R) (key node : String) :
    R.get hash key = .ok (some node) ↔ Owns hash R.virtualNodes R.nodes key node :=
  hR.exact.get_iff hR.noCollision hR.mem_involved key node

lemma Regular.exists_owner (hR : Regular hash involved R) (hne : R.nodes ≠ ∅) (key : String) :
    ∃ owner ∈ R.nodes, R.get hash key = .ok (some owner) := by
  obtain ⟨-, owner, hget, -⟩ := hR.exact.get_eq hne key
  exact ⟨owner, ((hR.get_iff key owner).1 hget).1, hget⟩

/-- A node that leaves takes no key from another one. -/
lemma Regular.get_removeNode (hR : Regular hash involved R) {key : String}
    (hkey : R.get hash key ≠ .ok (some n)) :
    (R.removeNode hash n).get hash key = R.get hash key := by
  obtain ⟨hn, hv⟩ := removeNode_nodes hash R n
  by_cases hempty : R.nodes = ∅
  · have hempty' : (R.removeNode hash n).nodes = ∅ := by rw [hn, hempty]; rfl
    rw [hR.exact.get_of_empty hempty, hR.removeNode.exact.get_of_empty hempty']
  · obtain ⟨owner, howner, hget⟩ := hR.exists_owner hempty key
    have hne : owner ≠ n := by
      rintro rfl
      exact hkey hget
    rw [hget, hR.removeNode.get_iff, hv, hn]
    exact ((hR.get_iff key owner).1 hget).subset (Finset.erase_subset _ _)
      (Finset.mem_erase.2 ⟨hne, howner⟩)

/-- The keys that move to a new node are those that it gets. -/
lemma Regular.churn_eq (hR : Regular hash involved R) (hmem : n ∈ involved) (hnew : n ∉ R.nodes)
    (hne : R.nodes ≠ ∅) {keys : List String} (hkeys : keys ≠ []) :
    ∃ before after counts, assignments hash R keys = .ok before ∧
      assignments hash (R.addNode hash n) keys = .ok after ∧
      distribution hash (R.addNode hash n) keys = .ok counts ∧
      churn before after = (countOf counts n : ℚ) / keys.toFinset.card := by
  have hne' : (R.addNode hash n).nodes ≠ ∅ := by
    rw [(addNode_nodes hash R n).1]
    exact Finset.insert_ne_empty _ _
  choose owner howner hget using hR.exists_owner hne
  choose owner' howner' hget' using (hR.addNode hmem).exists_owner hne'
  obtain ⟨before, hbefore, hentries, hmem_keys, hbk⟩ := assignments_eq hget keys
  obtain ⟨after, hafter, hentries', hmem_keys', hak⟩ := assignments_eq hget' keys
  refine ⟨before, after, _, hbefore, hafter, by rw [distribution, hafter]; rfl, ?_⟩
  have hkeys_eq : before.keys = after.keys := hbk.trans hak.symm
  -- a key has moved exactly if the new node owns it now
  have hmoved : ∀ key, owner' key ≠ owner key ↔ owner' key = n := by
    intro key
    constructor
    · intro hchanged
      rcases hR.exact.get_addNode n key with hsame | hto
      · rw [hget', hget] at hsame
        exact absurd (Option.some.inj (Except.ok.inj hsame)) hchanged
      · rw [hget'] at hto
        exact Option.some.inj (Except.ok.inj hto)
    · intro hto hsame
      exact hnew (hto ▸ hsame ▸ howner key)
  have hcount : (before.entries.countP fun entry => after.lookup entry.1 != some entry.2) =
      countOf (counter (after.entries.map (·.2))) n := by
    rw [countOf_counter, hentries, hentries', hkeys_eq, List.countP_map, List.map_map, List.count,
      List.countP_map]
    refine List.countP_congr fun key hkey => ?_
    simp only [Function.comp_apply, lookup_of_entries hentries' hkey, bne_iff_ne, ne_eq,
      Option.some.injEq, beq_iff_eq]
    exact hmoved key
  have hnonempty : before.entries ≠ [] := by
    obtain ⟨key, hkey⟩ := List.exists_mem_of_ne_nil keys hkeys
    intro hnil
    have hin := (hmem_keys key).2 hkey
    rw [AList.keys, hnil] at hin
    exact List.not_mem_nil hin
  rw [churn, if_neg hnonempty, length_entries hmem_keys, hcount]

lemma regular_run {nodes : List String} {virtualNodes : ℤ} {R₀ : ConsistentHashRing}
    (hinit : init hash nodes virtualNodes = .ok R₀) (ops : List RingOp)
    (hinj : NoCollision hash R₀.virtualNodes (n :: ConsistentHashRing.involved nodes ops)) :
    Regular hash (n :: ConsistentHashRing.involved nodes ops) (R₀.run hash ops) := by
  have hinj' : NoCollision hash R₀.virtualNodes (ConsistentHashRing.involved nodes ops) := by
    refine hinj.mono ?_
    rintro s ⟨node, hnode, hs⟩
    exact ⟨node, List.mem_cons_of_mem _ hnode, hs⟩
  obtain ⟨hR, hv, hsub⟩ := exact_run hinit ops hinj'
  exact ⟨hR, hv.symm ▸ hinj, fun node hnode => List.mem_cons_of_mem _ (hsub node hnode)⟩

/-- **Minimal disruption.**  Without collisions, on every ring that some calls lead to:
removing a node moves no key of another node; adding a new node moves keys to it only; and
if there were nodes before, the churn on a list of keys is the share of its different keys
that the new node gets. -/
theorem minimal_disruption {nodes : List String} {virtualNodes : ℤ} {R₀ : ConsistentHashRing}
    (hinit : init hash nodes virtualNodes = .ok R₀) (ops : List RingOp) (n : String)
    (hinj : NoCollision hash R₀.virtualNodes (n :: ConsistentHashRing.involved nodes ops)) :
    let R := R₀.run hash ops
    (∀ key, R.get hash key ≠ .ok (some n) →
        (R.removeNode hash n).get hash key = R.get hash key) ∧
      (n ∉ R.nodes →
        (∀ key, (R.addNode hash n).get hash key = R.get hash key ∨
          (R.addNode hash n).get hash key = .ok (some n)) ∧
        (R.nodes ≠ ∅ → ∀ keys : List String, keys ≠ [] →
          ∃ before after counts, assignments hash R keys = .ok before ∧
            assignments hash (R.addNode hash n) keys = .ok after ∧
            distribution hash (R.addNode hash n) keys = .ok counts ∧
            churn before after = (countOf counts n : ℚ) / keys.toFinset.card)) := by
  intro R
  have hR := regular_run hinit ops hinj
  refine ⟨fun key hkey => hR.get_removeNode hkey, fun hnew => ⟨?_, ?_⟩⟩
  · exact fun key => hR.exact.get_addNode n key
  · exact fun hne keys hkeys => hR.churn_eq List.mem_cons_self hnew hne hkeys

/-- The node `ccc` comes to a ring with `a` and `bb`: of the three different keys it gets
one. -/
theorem minimal_disruption_third_node :
    let keys := ["org", "a.org", "aorg", "org"]
    ∃ before after, assignments lengthHash twoNodes keys = .ok before ∧
      assignments lengthHash (twoNodes.addNode lengthHash "ccc") keys = .ok after ∧
      distribution lengthHash (twoNodes.addNode lengthHash "ccc") keys =
        .ok [("bb", 1), ("ccc", 1), ("a", 1)] ∧
      churn before after = 1 / 3 := by
  intro keys
  have hinit : init lengthHash ["a", "bb"] 1 = .ok twoNodes := rfl
  obtain ⟨-, hadd⟩ := minimal_disruption hinit [] "ccc" (noCollision_lengthHash (by decide))
  obtain ⟨before, after, counts, hbefore, hafter, hcounts, hchurn⟩ :=
    (hadd (by decide)).2 (by decide) keys (by simp [keys])
  have hdistr : distribution lengthHash (twoNodes.addNode lengthHash "ccc") keys =
      .ok [("bb", 1), ("ccc", 1), ("a", 1)] := rfl
  obtain rfl : [("bb", 1), ("ccc", 1), ("a", 1)] = counts :=
    Except.ok.inj (hdistr.symm.trans hcounts)
  have hcount : countOf [("bb", 1), ("ccc", 1), ("a", 1)] "ccc" = 1 := by decide
  have hcard : keys.toFinset.card = 3 := by decide
  rw [hcount, hcard] at hchurn
  exact ⟨before, after, hbefore, hafter, hdistr, by simpa using hchurn⟩

end ConsistentHashRing

end WebCrawler
