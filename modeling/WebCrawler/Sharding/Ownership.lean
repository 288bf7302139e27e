import WebCrawler.Sharding.ConsistentHash

/-!
# Who owns a key

Without collisions the ring depends on its set of nodes only, and not on the calls that
led to it: a key is owned by the node with the first virtual point strictly above the hash
of the key, or with the least point if there is none above.  The hash is assumed to be
injective on the labels of the virtual nodes involved; the labels themselves are different
for different virtual nodes, also when the name of a node contains the separator.
-/

namespace WebCrawler

open Lib

/-! ### Labels -/

/-- Two lists are split at the last occurrence of a marker in only one way. -/
lemma append_cons_inj_of_notMem_right {α : Type*} {c : α} {a a' b b' : List α} (hb : c ∉ b)
    (hb' : c ∉ b') (h : a ++ c :: b = a' ++ c :: b') : a = a' ∧ b = b' := by
  rcases List.append_eq_append_iff.1 h with ⟨d, ha, hd⟩ | ⟨d, ha, hd⟩
  · cases d with
    | nil => exact ⟨by simpa using ha.symm, by simpa using hd⟩
    | cons e d =>
        obtain ⟨rfl, hbd⟩ := List.cons.inj hd
        exact absurd (hbd ▸ by simp) hb
  · cases d with
    | nil => exact ⟨by simpa using ha, by simpa using hd.symm⟩
    | cons e d =>
        obtain ⟨rfl, hbd⟩ := List.cons.inj hd
        exact absurd (hbd ▸ by simp) hb'

lemma toList_toString (i : ℕ) : (toString i).toList = Nat.toDigits 10 i := Nat.toList_repr

lemma sharp_notMem_toString (i : ℕ) : '#' ∉ (toString i).toList := by
  intro h
  rw [toList_toString] at h
  exact absurd (Nat.isDigit_of_mem_toDigits (by norm_num) (by norm_num) h) (by decide)

/-- Different virtual nodes have different labels. -/
lemma label_injective {node node' : String} {i i' : ℕ} (h : label node i = label node' i') :
    node = node' ∧ i = i' := by
  have hlist := congrArg String.toList h
  simp only [label, String.toList_append, List.append_assoc] at hlist
  obtain ⟨hnode, hdigits⟩ := append_cons_inj_of_notMem_right (sharp_notMem_toString i)
    (sharp_notMem_toString i') hlist
  refine ⟨String.toList_inj.1 hnode, ?_⟩
  -- the digits determine the number
  rw [toList_toString, toList_toString] at hdigits
  have hinv : Function.LeftInverse (fun digits => Nat.ofDigitChars 10 digits 0) (Nat.toDigits 10) :=
    fun n => Nat.ofDigitChars_toDigits (by norm_num) (by norm_num)
  exact hinv.injective hdigits

/-! ### The specification -/

/-- The points of a set of nodes. -/
def pointSet (hash : RingHash) (virtualNodes : ℕ) (nodes : Finset String) : Set ℕ :=
  {h | ∃ node ∈ nodes, ∃ i < virtualNodes, h = (hash (label node i)).toNat}

/-- The node owns the next point clockwise from the hash of the key. -/
def Owns (hash : RingHash) (virtualNodes : ℕ) (nodes : Finset String) (key node : String) : Prop :=
  node ∈ nodes ∧ ∃ i < virtualNodes,
    IsNext (pointSet hash virtualNodes nodes) (hash key).toNat (hash (label node i)).toNat

/-- The hash does not collide on the labels of the given nodes. -/
def NoCollision (hash : RingHash) (virtualNodes : ℕ) (nodes : List String) : Prop :=
  Set.InjOn hash {s | ∃ node ∈ nodes, ∃ i < virtualNodes, s = label node i}

/-- The node that a call is about. -/
def RingOp.node : RingOp → String
  | .add node => node
  | .remove node => node

section Spec

variable {hash : RingHash} {virtualNodes : ℕ} {involved : List String}

/-- Without collisions a point belongs to one virtual node. -/
lemma NoCollision.eq (h : NoCollision hash virtualNodes involved) {node node' : String} {i i' : ℕ}
    (hnode : node ∈ involved) (hi : i < virtualNodes) (hnode' : node' ∈ involved)
    (hi' : i' < virtualNodes) (heq : (hash (label node i)).toNat = (hash (label node' i')).toNat) :
    node = node' ∧ i = i' :=
  label_injective
    (h ⟨node, hnode, i, hi, rfl⟩ ⟨node', hnode', i', hi', rfl⟩ (UInt32.toNat_inj.1 heq))

lemma pointSet_mono {nodes nodes' : Finset String} (h : nodes ⊆ nodes') :
    pointSet hash virtualNodes nodes ⊆ pointSet hash virtualNodes nodes' := by
  rintro p ⟨node, hnode, hp⟩
  exact ⟨node, h hnode, hp⟩

/-- The owner of a key is unique. -/
lemma NoCollision.owns_unique (h : NoCollision hash virtualNodes involved) {nodes : Finset String}
    (hsub : ∀ node ∈ nodes, node ∈ involved) {key node node' : String}
    (hnode : Owns hash virtualNodes nodes key node)
    (hnode' : Owns hash virtualNodes nodes key node') : node = node' := by
  obtain ⟨hmem, i, hi, hnext⟩ := hnode
  obtain ⟨hmem', i', hi', hnext'⟩ := hnode'
  exact (h.eq (hsub node hmem) hi (hsub node' hmem') hi' (hnext.unique hnext')).1

/-- The owner of a key still owns it when other nodes go. -/
lemma Owns.subset {virtualNodes : ℕ} {nodes nodes' : Finset String} {key node : String}
    (h : Owns hash virtualNodes nodes key node) (hsub : nodes' ⊆ nodes) (hmem : node ∈ nodes') :
    Owns hash virtualNodes nodes' key node := by
  obtain ⟨-, i, hi, hnext⟩ := h
  exact ⟨hmem, i, hi, hnext.subset (pointSet_mono hsub) ⟨node, hmem, i, hi, rfl⟩⟩

end Spec

namespace ConsistentHashRing

variable (hash : RingHash)

/-- The ring after a sequence of calls. -/
def run (R : ConsistentHashRing) (ops : List RingOp) : ConsistentHashRing :=
  ops.foldl (apply hash) R

/-- The nodes that a construction and a sequence of calls mention. -/
def involved (nodes : List String) (ops : List RingOp) : List String :=
  nodes ++ ops.map RingOp.node

variable {hash} {R : ConsistentHashRing} {node : String}

lemma mem_points {h : ℕ} :
    h ∈ R.points hash node ↔ ∃ i < R.virtualNodes, h = (hash (label node i)).toNat := by
  simp only [points, List.mem_map, List.mem_range]
  constructor
  · rintro ⟨i, hi, rfl⟩
    exact ⟨i, hi, rfl⟩
  · rintro ⟨i, hi, rfl⟩
    exact ⟨i, hi, rfl⟩

/-- Without collisions every call is clean. -/
lemma clean_of_noCollision {nodes : List String} (h : NoCollision hash R.virtualNodes nodes)
    (hsub : ∀ node ∈ R.nodes, node ∈ nodes) (op : RingOp) : Clean hash R op := by
  cases op with
  | add node => trivial
  | remove node =>
      intro hmem
      refine ⟨?_, fun other hother hne p hp hp' => ?_⟩
      · refine (List.nodup_range).map_on fun i hi j hj heq => ?_
        rw [List.mem_range] at hi hj
        exact (h.eq (hsub node hmem) hi (hsub node hmem) hj heq).2
      · obtain ⟨i, hi, rfl⟩ := mem_points.1 hp
        obtain ⟨j, hj, heq⟩ := mem_points.1 hp'
        exact hne (h.eq (hsub node hmem) hi (hsub other hother) hj heq).1.symm

lemma addNode_nodes (hash : RingHash) (R : ConsistentHashRing) (node : String) :
    (R.addNode hash node).nodes = insert node R.nodes ∧
      (R.addNode hash node).virtualNodes = R.virtualNodes := by
  rw [addNode]
  split_ifs with hmem
  · exact ⟨(Finset.insert_eq_of_mem hmem).symm, rfl⟩
  · exact foldl_addPoint_nodes _ node _

/-- **A new node takes keys for itself only**, whether or not points collide. -/
lemma Exact.get_addNode (hR : Exact hash R) (node key : String) :
    (R.addNode hash node).get hash key = R.get hash key ∨
      (R.addNode hash node).get hash key = .ok (some node) := by
  by_cases hmem : node ∈ R.nodes
  · left
    rw [ConsistentHashRing.addNode, if_pos hmem]
  · have hR' := hR.addNode node
    obtain ⟨hv, hn, -, -, hentries⟩ := hR.addNode_spec hmem
    obtain ⟨point, owner, hget, hlookup, hnext⟩ :=
      hR'.get_eq (hn ▸ Finset.insert_ne_empty node R.nodes) key
    have hentry := hentries point
    rw [hlookup] at hentry
    split_ifs at hentry with hpoint
    · exact Or.inr (hentry ▸ hget)
    · -- the point was there before, and was the next one then
      obtain ⟨howner, hmine⟩ := hR.owner point owner hentry.symm
      obtain ⟨point', owner', hget', hlookup', hnext'⟩ :=
        hR.get_eq (Finset.ne_empty_of_mem howner) key
      have hsub : {h | h ∈ R.sortedHashes} ⊆ {h | h ∈ (R.addNode hash node).sortedHashes} := by
        intro h hh
        obtain ⟨other, hother, hp⟩ := (hR.mem_sortedHashes_iff h).1 hh
        refine (hR'.mem_sortedHashes_iff h).2 ⟨other, ?_, by rwa [points_congr hv]⟩
        rw [hn]
        exact Finset.mem_insert_of_mem hother
      have hthere : point ∈ R.sortedHashes :=
        (hR.mem_sortedHashes_iff point).2 ⟨owner, howner, hmine⟩
      obtain rfl := (hnext.subset hsub hthere).unique hnext'
      rw [← hentry, Option.some.injEq] at hlookup'
      exact Or.inl (by rw [hget, hget', hlookup'])

lemma removeNode_nodes (hash : RingHash) (R : ConsistentHashRing) (node : String) :
    (R.removeNode hash node).nodes = R.nodes.erase node ∧
      (R.removeNode hash node).virtualNodes = R.virtualNodes := by
  rw [removeNode]
  split_ifs with hmem
  · exact foldl_removePoint_nodes _ _
  · exact ⟨(Finset.erase_eq_of_notMem hmem).symm, rfl⟩

lemma nodes_apply (hash : RingHash) (R : ConsistentHashRing) (op : RingOp) :
    (∀ node ∈ (R.apply hash op).nodes, node ∈ R.nodes ∨ node = op.node) ∧
      (R.apply hash op).virtualNodes = R.virtualNodes := by
  cases op with
  | add node =>
      obtain ⟨hn, hv⟩ := addNode_nodes hash R node
      refine ⟨fun other hother => ?_, hv⟩
      rw [apply, hn, Finset.mem_insert] at hother
      exact hother.symm
  | remove node =>
      obtain ⟨hn, hv⟩ := removeNode_nodes hash R node
      refine ⟨fun other hother => ?_, hv⟩
      rw [apply, hn] at hother
      exact Or.inl (Finset.mem_of_mem_erase hother)

/-- The constructor adds its nodes and keeps the number of virtual nodes. -/
lemma nodes_init {nodes : List String} {virtualNodes : ℤ}
    (h : init hash nodes virtualNodes = .ok R) :
    (∀ node, node ∈ R.nodes ↔ node ∈ nodes) ∧ (R.virtualNodes : ℤ) = virtualNodes := by
  rw [init] at h
  split_ifs at h with hpos
  obtain rfl := Except.ok.inj h
  induction nodes using List.reverseRecOn with
  | nil => exact ⟨by simp, Int.toNat_of_nonneg (by omega)⟩
  | append_singleton nodes node ih =>
      obtain ⟨hiff, hv⟩ := ih rfl
      rw [List.foldl_append, List.foldl_cons, List.foldl_nil]
      obtain ⟨hn, hv'⟩ := addNode_nodes hash (nodes.foldl (addNode hash)
        { virtualNodes := virtualNodes.toNat, virtualNodes_pos := by omega }) node
      refine ⟨fun other => ?_, by rw [hv', hv]⟩
      rw [hn, Finset.mem_insert, hiff, List.mem_append, List.mem_singleton, or_comm]

/-- Without collisions the invariant holds after any sequence of calls. -/
lemma exact_run {nodes : List String} {virtualNodes : ℤ} {R₀ : ConsistentHashRing}
    (hinit : init hash nodes virtualNodes = .ok R₀) (ops : List RingOp)
    (hinj : NoCollision hash R₀.virtualNodes (involved nodes ops)) :
    Exact hash (R₀.run hash ops) ∧ (R₀.run hash ops).virtualNodes = R₀.virtualNodes ∧
      ∀ node ∈ (R₀.run hash ops).nodes, node ∈ involved nodes ops := by
  induction ops using List.reverseRecOn with
  | nil =>
      exact ⟨exact_init hinit, rfl, fun node hnode =>
        List.mem_append_left _ (((nodes_init hinit).1 node).1 hnode)⟩
  | append_singleton ops op ih =>
      have hsub : ∀ node ∈ involved nodes ops, node ∈ involved nodes (ops ++ [op]) := by
        intro node hnode
        rw [involved, List.map_append, ← List.append_assoc]
        exact List.mem_append_left _ hnode
      have hinj' : NoCollision hash R₀.virtualNodes (involved nodes ops) := by
        refine hinj.mono ?_
        rintro s ⟨node, hnode, hs⟩
        exact ⟨node, hsub node hnode, hs⟩
      obtain ⟨hR, hv, hnodes⟩ := ih hinj'
      have hstep : R₀.run hash (ops ++ [op]) = (R₀.run hash ops).apply hash op := by
        simp [run]
      obtain ⟨hn', hv'⟩ := nodes_apply hash (R₀.run hash ops) op
      rw [hstep]
      refine ⟨hR.apply (clean_of_noCollision (hv ▸ hinj') hnodes op), hv'.trans hv, ?_⟩
      intro node hnode
      rcases hn' node hnode with hnode | rfl
      · exact hsub node (hnodes node hnode)
      · exact List.mem_append_right _ (by simp)

/-- The points in the list are the points of the nodes. -/
lemma Exact.setOf_mem_sortedHashes (hR : Exact hash R) :
    {h | h ∈ R.sortedHashes} = pointSet hash R.virtualNodes R.nodes := by
  ext h
  show h ∈ R.sortedHashes ↔ h ∈ pointSet hash R.virtualNodes R.nodes
  rw [hR.mem_sortedHashes_iff]
  exact exists_congr fun node => and_congr_right fun _ => mem_points

/-- A ring with the invariant and without collisions gives a key to its owner. -/
lemma Exact.get_iff {nodes : List String} (hR : Exact hash R)
    (hinj : NoCollision hash R.virtualNodes nodes) (hsub : ∀ node ∈ R.nodes, node ∈ nodes)
    (key node : String) :
    R.get hash key = .ok (some node) ↔ Owns hash R.virtualNodes R.nodes key node := by
  by_cases hempty : R.nodes = ∅
  · rw [hR.get_of_empty hempty]
    refine iff_of_false (by simp) fun howns => ?_
    rw [Owns, hempty] at howns
    exact Finset.notMem_empty node howns.1
  · obtain ⟨point, owner, hget, hlookup, hnext⟩ := hR.get_eq hempty key
    obtain ⟨hmem, hpoint⟩ := hR.owner point owner hlookup
    obtain ⟨i, hi, rfl⟩ := mem_points.1 hpoint
    rw [hR.setOf_mem_sortedHashes] at hnext
    have howner : Owns hash R.virtualNodes R.nodes key owner := ⟨hmem, i, hi, hnext⟩
    rw [hget, Except.ok.injEq, Option.some.injEq]
    constructor
    · rintro rfl
      exact howner
    · exact fun hnode => hinj.owns_unique hsub howner hnode

/-- **A key belongs to the next point clockwise, whatever the history.**  Without
collisions, after any sequence of calls a lookup returns the node that owns the key, or
nothing if there is no node; so two sequences of calls that lead to the same nodes give
every key the same owner. -/
theorem get_eq_owner {nodes : List String} {virtualNodes : ℤ} {R₀ : ConsistentHashRing}
    (hinit : init hash nodes virtualNodes = .ok R₀) (ops : List RingOp)
    (hinj : NoCollision hash R₀.virtualNodes (involved nodes ops)) :
    (∀ key, (R₀.run hash ops).get hash key = .ok none ∧ (R₀.run hash ops).nodes = ∅ ∨
        ∃ owner, (R₀.run hash ops).get hash key = .ok (some owner) ∧
          ∀ node, Owns hash R₀.virtualNodes (R₀.run hash ops).nodes key node ↔ node = owner) ∧
      ∀ (nodes' : List String) (R₀' : ConsistentHashRing) (ops' : List RingOp),
        init hash nodes' virtualNodes = .ok R₀' →
        NoCollision hash R₀'.virtualNodes (involved nodes' ops') →
        (R₀'.run hash ops').nodes = (R₀.run hash ops).nodes →
        ∀ key, (R₀'.run hash ops').get hash key = (R₀.run hash ops).get hash key := by
  obtain ⟨hR, hv, hsub⟩ := exact_run hinit ops hinj
  have hget := hR.get_iff (hv.symm ▸ hinj) hsub
  rw [hv] at hget
  constructor
  · intro key
    by_cases hempty : (R₀.run hash ops).nodes = ∅
    · exact Or.inl ⟨hR.get_of_empty hempty key, hempty⟩
    · obtain ⟨-, owner, howner, -⟩ := hR.get_eq hempty key
      refine Or.inr ⟨owner, howner, fun node => ?_⟩
      rw [← hget key node, howner, Except.ok.injEq, Option.some.injEq, eq_comm]
  · intro nodes' R₀' ops' hinit' hinj' hnodes key
    obtain ⟨hR', hv', hsub'⟩ := exact_run hinit' ops' hinj'
    have hget' := hR'.get_iff (hv'.symm ▸ hinj') hsub' key
    have hvn : R₀'.virtualNodes = R₀.virtualNodes := by
      have h₀ := (nodes_init hinit).2
      have h₀' := (nodes_init hinit').2
      omega
    rw [hv', hvn, hnodes] at hget'
    by_cases hempty : (R₀.run hash ops).nodes = ∅
    · rw [hR.get_of_empty hempty, hR'.get_of_empty (hnodes.trans hempty)]
    · obtain ⟨-, owner, howner, -⟩ := hR.get_eq hempty key
      rw [howner, hget' owner, ← hget key owner, howner]

/-- Names of different lengths do not collide under the hash that only looks at the length,
if there is one virtual node for each. -/
lemma noCollision_lengthHash {nodes : List String}
    (h : ∀ node ∈ nodes, ∀ node' ∈ nodes,
      lengthHash (label node 0) = lengthHash (label node' 0) → node = node') :
    NoCollision lengthHash 1 nodes := by
  rintro s ⟨node, hnode, i, hi, rfl⟩ t ⟨node', hnode', j, hj, rfl⟩ heq
  obtain rfl : i = 0 := by omega
  obtain rfl : j = 0 := by omega
  rw [h node hnode node' hnode' heq]

/-- The ring with the nodes `a` and `bb`. -/
def twoNodes : ConsistentHashRing :=
  ["a", "bb"].foldl (addNode lengthHash) { virtualNodes := 1, virtualNodes_pos := Nat.one_pos }

/-- The ring with the nodes `bb` and `ccc`. -/
def otherNodes : ConsistentHashRing :=
  ["bb", "ccc"].foldl (addNode lengthHash) { virtualNodes := 1, virtualNodes_pos := Nat.one_pos }

/-- The points are three and four: a key of length three belongs to `bb`, a longer one goes
around to `a`.  A ring to which the nodes came in another order answers the same. -/
theorem get_eq_owner_two_nodes :
    twoNodes.get lengthHash "org" = .ok (some "bb") ∧ Owns lengthHash 1 {"a", "bb"} "org" "bb" ∧
      twoNodes.get lengthHash "a.org" = .ok (some "a") ∧
      ∀ key, (otherNodes.run lengthHash [.remove "ccc", .add "a", .add "bb"]).get lengthHash key =
        twoNodes.get lengthHash key := by
  have hinit : init lengthHash ["a", "bb"] 1 = .ok twoNodes := rfl
  obtain ⟨hown, hsame⟩ := get_eq_owner hinit [] (noCollision_lengthHash (by decide))
  refine ⟨rfl, ?_, rfl, ?_⟩
  · rcases hown "org" with ⟨hnone, -⟩ | ⟨owner, howner, hiff⟩
    · exact absurd hnone (by decide)
    · obtain rfl : "bb" = owner := Option.some.inj (Except.ok.inj howner)
      have hnodes : (twoNodes.run lengthHash []).nodes = {"a", "bb"} := by decide
      rw [hnodes] at hiff
      exact (hiff "bb").2 rfl
  · exact hsame ["bb", "ccc"] otherNodes [.remove "ccc", .add "a", .add "bb"] rfl
      (noCollision_lengthHash (by decide)) (by decide)

end ConsistentHashRing

end WebCrawler
