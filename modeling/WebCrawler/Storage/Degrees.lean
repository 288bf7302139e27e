import WebCrawler.Storage.Tables
import WebCrawler.Lib.Machine

/-!
# Degrees in the link graph

`GraphRepository.recompute_degrees` sets the out-degree of a document to the number of
edges that leave it.  `save_page` writes the number of links of the record instead, and
adds the edges that are missing.  An edge to a link that has gone from the page stays, so
that the two numbers come apart when a page is saved again without one of its former
links, and only then: `degreesAgree_iff`.
-/

namespace WebCrawler

open Lib

namespace Tables

/-! ### `recompute_degrees` -/

/-- An `UPDATE` of columns other than the id and the URL. -/
def updateRows (t : Tables) (f : DocumentRow → DocumentRow) (hid : ∀ row, (f row).id = row.id)
    (hurl : ∀ row, (f row).url = row.url) : Tables where
  documents := t.documents.map f
  linkEdges := t.linkEdges
  document_ids := by simpa [Function.comp_def, hid] using t.document_ids
  document_urls := by simpa [Function.comp_def, hurl] using t.document_urls
  edge_ids := t.edge_ids
  edge_keys := t.edge_keys
  edge_src := by simpa [Function.comp_def, hid] using t.edge_src

/-- The first statement of `recompute_degrees`. -/
def recomputeOutDegrees (t : Tables) : Tables :=
  t.updateRows (fun row => { row with outDegree := (t.edgesFrom row.id).length })
    (fun _ => rfl) fun _ => rfl

/-- The second statement of `recompute_degrees`. -/
def recomputeInDegrees (t : Tables) : Tables :=
  t.updateRows
    (fun row => { row with inDegree := (t.linkEdges.filter (·.dstUrl = row.url)).length })
    (fun _ => rfl) fun _ => rfl

def recomputeDegrees (t : Tables) : Tables := t.recomputeOutDegrees.recomputeInDegrees

/-- The out-degrees of the documents are the numbers of the edges that leave them. -/
def DegreesAgree (t : Tables) : Prop :=
  ∀ row ∈ t.documents, row.outDegree = (t.edgesFrom row.id).length

instance (t : Tables) : Decidable t.DegreesAgree :=
  inferInstanceAs (Decidable (∀ row ∈ t.documents, _))

/-- The out-degrees agree with the edges if recomputing them changes none. -/
lemma degreesAgree_iff_recompute (t : Tables) :
    t.DegreesAgree ↔
      t.recomputeDegrees.documents.map (·.outDegree) = t.documents.map (·.outDegree) := by
  have hmap : t.recomputeDegrees.documents.map (·.outDegree) =
      t.documents.map fun row => (t.edgesFrom row.id).length := by
    simp only [recomputeDegrees, recomputeInDegrees, recomputeOutDegrees, updateRows, List.map_map]
    rfl
  rw [hmap, List.map_inj_left]
  exact forall₂_congr fun row _ => eq_comm

/-! ### The targets of a document -/

/-- The URLs that the edges of a document lead to. -/
def targets (t : Tables) (id : ℕ) : Finset String := ((t.edgesFrom id).map (·.dstUrl)).toFinset

lemma mem_targets {t : Tables} {id : ℕ} {url : String} :
    url ∈ t.targets id ↔ (id, url) ∈ t.linkEdges.map LinkEdge.key := by
  simp only [targets, edgesFrom, List.mem_toFinset, List.mem_map, List.mem_filter, LinkEdge.key,
    decide_eq_true_eq, Prod.mk.injEq]
  constructor
  · rintro ⟨e, ⟨he, rfl⟩, rfl⟩
    exact ⟨e, he, rfl, rfl⟩
  · rintro ⟨e, he, rfl, rfl⟩
    exact ⟨e, ⟨he, rfl⟩, rfl⟩

/-- Two edges of a document lead to different URLs. -/
lemma card_targets (t : Tables) (id : ℕ) : (t.targets id).card = (t.edgesFrom id).length := by
  have hnodup : ((t.edgesFrom id).map (·.dstUrl)).Nodup := by
    have hkeys : ((t.edgesFrom id).map LinkEdge.key).Nodup :=
      t.edge_keys.sublist (List.filter_sublist.map _)
    refine List.Nodup.of_map (fun url => (id, url)) ?_
    have heq : ((t.edgesFrom id).map (·.dstUrl)).map (fun url => (id, url)) =
        (t.edgesFrom id).map LinkEdge.key := by
      rw [List.map_map]
      refine List.map_congr_left fun e he => ?_
      have hsrc : e.srcDocumentId = id := by simpa [edgesFrom] using (List.mem_filter.1 he).2
      rw [Function.comp_apply, LinkEdge.key, hsrc]
    rw [heq]
    exact hkeys
  rw [targets, List.toFinset_card_of_nodup hnodup, List.length_map]

section Save

variable {t : Tables} {now : ℚ} {record : PageRecord}

lemma targets_addLinkEdge {src : ℕ} {hsrc : src ∈ t.documents.map (·.id)} {link : Link} (id : ℕ) :
    (t.addLinkEdge src hsrc link).targets id =
      if id = src then insert link.url (t.targets id) else t.targets id := by
  ext url
  rw [mem_targets, addLinkEdge]
  split_ifs with hold hid hid
  · subst hid
    rw [Finset.mem_insert, mem_targets]
    constructor
    · exact Or.inr
    · rintro (rfl | hurl)
      · exact hold
      · exact hurl
  · rw [mem_targets]
  · subst hid
    simp only [List.map_append, List.map_cons, List.map_nil, List.mem_append, List.mem_singleton,
      LinkEdge.key, Prod.mk.injEq, true_and, Finset.mem_insert, mem_targets]
    exact or_comm
  · simp only [List.map_append, List.map_cons, List.map_nil, List.mem_append, List.mem_singleton,
      LinkEdge.key, Prod.mk.injEq, hid, false_and, or_false, mem_targets]

/-- The edges that are added lead to the links. -/
lemma targets_addLinkEdges {src : ℕ} {hsrc : src ∈ t.documents.map (·.id)} {links : List Link}
    (id : ℕ) :
    (t.addLinkEdges src hsrc links).targets id =
      if id = src then t.targets id ∪ (links.map (·.url)).toFinset else t.targets id := by
  induction links generalizing t with
  | nil => simp [addLinkEdges]
  | cons link links ih =>
      rw [addLinkEdges, ih, targets_addLinkEdge]
      split_ifs with hid
      · rw [List.map_cons, List.toFinset_cons, Finset.insert_union, Finset.union_insert]
      · rfl

/-- The targets after a save: only those of the saved page change. -/
lemma targets_savePage (id : ℕ) :
    (t.savePage now record).targets id =
      if id = (t.baseRow now record).id then t.targets id ∪ (record.links.map (·.url)).toFinset
      else t.targets id := by
  have hsame : (t.upsertDocument now record).2.targets id = t.targets id := by
    ext url
    rw [mem_targets, mem_targets, linkEdges_upsertDocument]
  rw [savePage, targets_addLinkEdges, upsertDocument_fst, hsame]

/-- The rows after a save: the one of the page is written, the others stay. -/
lemma mem_documents_savePage {row : DocumentRow} :
    row ∈ (t.savePage now record).documents ↔
      row = writeColumns now record (t.baseRow now record) ∨
        (row ∈ t.documents ∧ row.url ≠ record.url) := by
  rw [savePage, documents_addLinkEdges, upsertDocument, baseRow]
  split
  case h_1 base h =>
    obtain ⟨hbase, hurl⟩ := (t.document_eq_some).1 h
    simp only [h, Option.getD_some, updateDocument, List.mem_map]
    constructor
    · rintro ⟨row', hrow', rfl⟩
      rw [writeRow]
      split_ifs with heq
      · left
        rw [List.inj_on_of_nodup_map t.document_urls hrow' hbase (heq.trans hurl.symm)]
      · exact Or.inr ⟨hrow', heq⟩
    · rintro (rfl | ⟨hrow, hne⟩)
      · exact ⟨base, hbase, by rw [writeRow, if_pos hurl]⟩
      · exact ⟨row, hrow, by rw [writeRow, if_neg hne]⟩
  case h_2 h =>
    simp only [h, Option.getD_none, insertDocument, List.mem_append, List.mem_singleton]
    have hne : row ∈ t.documents → row.url ≠ record.url := by
      intro hrow heq
      exact t.document_eq_none.1 h (List.mem_map.2 ⟨row, hrow, heq⟩)
    constructor
    · rintro (hrow | rfl)
      · exact Or.inr ⟨hrow, hne hrow⟩
      · exact Or.inl rfl
    · rintro (rfl | ⟨hrow, -⟩)
      · exact Or.inr rfl
      · exact Or.inl hrow

/-- The row of another URL has another id. -/
lemma id_ne_baseRow {row : DocumentRow} (hrow : row ∈ t.documents) (hne : row.url ≠ record.url) :
    row.id ≠ (t.baseRow now record).id := by
  rw [baseRow]
  intro heq
  cases h : t.document record.url with
  | some base =>
      obtain ⟨hbase, hurl⟩ := (t.document_eq_some).1 h
      rw [h, Option.getD_some] at heq
      exact hne (List.inj_on_of_nodup_map t.document_ids hrow hbase heq ▸ hurl)
  | none =>
      rw [h, Option.getD_none, newDocument_id] at heq
      have hmem : row.id ∈ t.documents.map (·.id) := List.mem_map_of_mem hrow
      exact nextId_notMem _ (heq ▸ hmem)

/-- **The degrees after a save**: those of the other pages are kept, and that of the saved
page is right if all its edges lead to links of the record. -/
lemma degreesAgree_savePage (h : t.DegreesAgree) (hlinks : (record.links.map (·.url)).Nodup) :
    (t.savePage now record).DegreesAgree ↔
      t.targets (t.baseRow now record).id ⊆ (record.links.map (·.url)).toFinset := by
  have hcard : record.links.length = ((record.links.map (·.url)).toFinset).card := by
    rw [List.toFinset_card_of_nodup hlinks, List.length_map]
  have hsaved : (t.savePage now record).targets (t.baseRow now record).id =
      t.targets (t.baseRow now record).id ∪ (record.links.map (·.url)).toFinset := by
    rw [targets_savePage, if_pos rfl]
  constructor
  · intro hagree
    have hrow := hagree _ (mem_documents_savePage.2 (Or.inl rfl))
    rw [writeColumns_id, ← card_targets, hsaved] at hrow
    have hlen : ((record.links.map (·.url)).toFinset).card =
        (t.targets (t.baseRow now record).id ∪ (record.links.map (·.url)).toFinset).card :=
      hcard.symm.trans hrow
    rw [← Finset.union_eq_right]
    exact (Finset.eq_of_subset_of_card_le Finset.subset_union_right hlen.ge).symm
  · intro hsub row hrow
    rcases mem_documents_savePage.1 hrow with rfl | ⟨hrow, hne⟩
    · show record.links.length = _
      rw [writeColumns_id, ← card_targets, hsaved, Finset.union_eq_right.2 hsub, hcard]
    · rw [h row hrow, ← card_targets, ← card_targets, targets_savePage,
        if_neg (id_ne_baseRow hrow hne)]

end Save

end Tables

/-! ### Sequences of saves -/

/-- A call of `save_page`: the record has no link twice, as `parse_page` makes them. -/
structure Save where
  now : ℚ
  record : PageRecord
  links_nodup : (record.links.map (·.url)).Nodup

namespace Tables

/-- The database from the empty one on. -/
def saves : Machine Tables Save := ⟨.empty, fun t save => some (t.savePage save.now save.record)⟩

/-- A page that is saved again has kept the links whose edges are stored. -/
def KeepsLinks (t : Tables) (save : Save) : Prop :=
  ∀ row ∈ t.document save.record.url, t.targets row.id ⊆ (save.record.links.map (·.url)).toFinset

instance (t : Tables) (save : Save) : Decidable (t.KeepsLinks save) :=
  inferInstanceAs (Decidable (∀ row ∈ t.document save.record.url, _))

/-- A new document has no edges. -/
lemma keepsLinks_iff (t : Tables) (save : Save) :
    t.KeepsLinks save ↔ t.targets (t.baseRow save.now save.record).id ⊆
      (save.record.links.map (·.url)).toFinset := by
  rw [KeepsLinks, baseRow]
  cases h : t.document save.record.url with
  | some row => simp
  | none =>
      refine iff_of_true (by simp) fun url hurl => ?_
      obtain ⟨e, he, hkey⟩ := List.mem_map.1 (mem_targets.1 hurl)
      have hsrc : e.srcDocumentId = nextId (t.documents.map (·.id)) := congrArg Prod.fst hkey
      exact absurd (hsrc ▸ t.edge_src e he) (nextId_notMem _)

/-- **When the out-degrees agree with the edges.**  In every database that saves without
lost links lead to, each out-degree is the number of edges, so that recomputing changes
none; and the first save of a page that has lost a stored link ends that. -/
theorem degreesAgree_iff {t : Tables} (h : saves.ReachableBy KeepsLinks t) :
    (t.DegreesAgree ∧
        t.recomputeDegrees.documents.map (·.outDegree) = t.documents.map (·.outDegree)) ∧
      ∀ save : Save, (t.savePage save.now save.record).DegreesAgree ↔ t.KeepsLinks save := by
  have hagree : t.DegreesAgree := by
    refine h.inv (I := DegreesAgree) (fun row hrow => absurd hrow List.not_mem_nil) ?_
    intro s save s' hs hkeeps hst
    obtain rfl := Option.some.inj hst
    exact (degreesAgree_savePage hs save.links_nodup).2 ((keepsLinks_iff s save).1 hkeeps)
  refine ⟨⟨hagree, t.degreesAgree_iff_recompute.1 hagree⟩, fun save => ?_⟩
  rw [degreesAgree_savePage hagree save.links_nodup, keepsLinks_iff]

/-- A page with the given links, saved at a given time. -/
def saveOf (now : ℚ) (urls : List String) (h : urls.Nodup) : Save where
  now := now
  record :=
    { url := "http://a.org/", registeredDomain := "a.org", depth := 0
      links := urls.map fun url => { url := url } }
  links_nodup := by simpa [Function.comp_def] using h

/-- The page gets a second link: its degrees agree.  If it loses the first one after that,
they do not any more. -/
theorem degreesAgree_iff_second_link :
    ∃ t, saves.ReachableBy KeepsLinks t ∧ t.documents.map (·.outDegree) = [2] ∧ t.DegreesAgree ∧
      ¬ (t.savePage 2 (saveOf 2 ["http://c.org/"] (by decide)).record).DegreesAgree := by
  have h : saves.ReachableBy KeepsLinks _ := Machine.reachableBy_of_exec
    [saveOf 0 ["http://b.org/"] (by decide),
      saveOf 1 ["http://c.org/", "http://b.org/"] (by decide)] rfl
  obtain ⟨⟨hagree, -⟩, hiff⟩ := degreesAgree_iff h
  exact ⟨_, h, rfl, hagree, mt (hiff (saveOf 2 ["http://c.org/"] (by decide))).1 (by decide)⟩

/-- A page is saved with two links and then with one of them: its out-degree is one, and
two edges leave it. -/
theorem lost_link_keeps_edge :
    ¬ ∀ t, saves.Reachable t → t.DegreesAgree ∧
      t.recomputeDegrees.documents.map (·.outDegree) = t.documents.map (·.outDegree) := by
  intro hall
  have h : saves.Reachable _ := Machine.reachableBy_of_exec
    [saveOf 0 ["http://b.org/", "http://c.org/"] (by decide),
      saveOf 1 ["http://b.org/"] (by decide)] rfl
  have hdegrees : [2] = [1] := (hall _ h).2
  exact absurd hdegrees (by decide)

end Tables

end WebCrawler
