import WebCrawler.Lib.GroupBy
import WebCrawler.Pipeline.Validators
import WebCrawler.Storage.SavePage

/-!
# The statistics of a crawl

`SqlCrawlService.stats` and the queries behind it, and `GraphRepository`: what the dashboard says
about the tables.

The tables are filled by saves, and `recompute_degrees` runs at any time in between.  After any
such history the numbers are those of the history: the pages are the URLs that were saved, a page
counts under the status and the content hash of its last save, but under the domain of its first
one, and the edges are the pairs of a page and a link that some save of the page had
(`stats_of_history`).  After `recompute_degrees` the degrees count these pairs too, and
`top_by_in_degree` lists the pages that the most pages have linked to (`degrees_of_history`).
-/

namespace WebCrawler

open Lib

/-- `StatsOut`. -/
structure StatsOut where
  documents : ℕ
  edges : ℕ
  domains : ℕ
  nearDuplicates : ℕ
  byStatus : List (Option ℤ × ℕ)
deriving DecidableEq, Repr

namespace Tables

/-! ### The queries -/

def documentCount (t : Tables) : ℕ := t.documents.length

def edgeCount (t : Tables) : ℕ := t.linkEdges.length

/-- `count(DISTINCT registered_domain)`. -/
def domainCount (t : Tables) : ℕ := (t.documents.map (·.registeredDomain)).dedup.length

/-- The number of the content hashes that more than one document has. -/
def nearDuplicateCount (t : Tables) : ℕ :=
  ((groupCounts (t.documents.filterMap (·.contentHash))).filter (1 < ·.2)).length

/-- The groups of `status_histogram`. -/
def statusGroups (t : Tables) : List (Option ℤ × ℕ) := groupCounts (t.documents.map (·.httpStatus))

/-- An answer of `stats`. -/
def Stats (t : Tables) (out : StatsOut) : Prop :=
  out.documents = t.documentCount ∧ out.edges = t.edgeCount ∧ out.domains = t.domainCount ∧
    out.nearDuplicates = t.nearDuplicateCount ∧ IsRanked (·.2) t.statusGroups out.byStatus

/-- The answer with the statuses of the same number in the order of the table. -/
def stats (t : Tables) : StatsOut where
  documents := t.documentCount
  edges := t.edgeCount
  domains := t.domainCount
  nearDuplicates := t.nearDuplicateCount
  byStatus := ranked (·.2) t.statusGroups

lemma stats_stats (t : Tables) : t.Stats t.stats :=
  ⟨rfl, rfl, rfl, rfl, isRanked_ranked _ _⟩

/-- An answer of `top_by_in_degree`. -/
def TopByInDegree (t : Tables) (limit : ℕ) (result : List (String × ℕ)) : Prop :=
  ∃ rows, IsTop (·.inDegree) t.documents limit rows ∧
    result = rows.map fun row => (row.url, row.inDegree)

def topByInDegree (t : Tables) (limit : ℕ) : List (String × ℕ) :=
  ((ranked (·.inDegree) t.documents).take limit).map fun row => (row.url, row.inDegree)

lemma topByInDegree_spec (t : Tables) (limit : ℕ) :
    t.TopByInDegree limit (t.topByInDegree limit) :=
  ⟨_, isTop_ranked _ _ limit, rfl⟩

end Tables

/-! ### Histories -/

/-- What is done to the tables. -/
inductive GraphAct
  /-- `save_page`, at a time. -/
  | save (now : ℚ) (record : PageRecord)
  /-- `recompute_degrees`. -/
  | recompute

namespace Tables

def perform (t : Tables) : GraphAct → Tables
  | .save now record => t.savePage now record
  | .recompute => t.recomputeDegrees

/-- The tables after a history. -/
def performAll (acts : List GraphAct) : Tables := acts.foldl perform .empty

end Tables

/-- The saves of a history. -/
def savesOf (acts : List GraphAct) : List (ℚ × PageRecord) :=
  acts.filterMap fun
    | .save now record => some (now, record)
    | .recompute => none

section Saves

variable (saves : List (ℚ × PageRecord))

/-- The URLs that were saved. -/
def pagesOf : List String := (saves.map (·.2.url)).dedup

/-- The pairs of a page and a URL to which a version of the page has linked. -/
def linkPairs : List (String × String) :=
  (saves.flatMap fun save => save.2.links.map fun l => (save.2.url, l.url)).dedup

/-- The status of the last version of a page. -/
def statusOf (url : String) : Option ℤ := (lastSaved url saves).bind (·.httpStatus)

/-- The content hash of the last version of a page. -/
def hashOf (url : String) : Option String := (lastSaved url saves).bind (·.contentHash)

/-- The registered domain of a page, which no later save changes. -/
def domainOf (url : String) : Option String :=
  (saves.find? (·.2.url = url)).map (·.2.registeredDomain)

end Saves

/-! ### The store after a history -/

/-- What the statistics read of the store of the tables. -/
structure Reflects (saves : List (ℚ × PageRecord)) (s : PageStore) : Prop where
  columns : ∀ url, (s.document url).map (fun row => (row.httpStatus, row.contentHash)) =
    (lastSaved url saves).map fun record => (record.httpStatus, record.contentHash)
  domain : ∀ url, (s.document url).map (·.registeredDomain) = domainOf saves url
  anchor : ∀ src dst, (s.anchor src dst).isSome ↔ (src, dst) ∈ linkPairs saves

lemma mem_linkPairs {saves : List (ℚ × PageRecord)} {src dst : String} :
    (src, dst) ∈ linkPairs saves ↔
      ∃ save ∈ saves, save.2.url = src ∧ ∃ l ∈ save.2.links, l.url = dst := by
  simp only [linkPairs, List.mem_dedup, List.mem_flatMap, List.mem_map, Prod.mk.injEq]
  constructor
  · rintro ⟨save, hsave, l, hl, hurl, rfl⟩
    exact ⟨save, hsave, hurl, l, hl, rfl⟩
  · rintro ⟨save, hsave, hurl, l, hl, rfl⟩
    exact ⟨save, hsave, l, hl, hurl, rfl⟩

namespace PageStore

variable {s : PageStore} {now : ℚ} {record : PageRecord} {url : String}

lemma document_save : (s.save now record).document record.url =
    some (writeColumns now record ((s.document record.url).getD (newDocument 0 now record))) :=
  Function.update_self ..

lemma document_save_of_ne (hne : url ≠ record.url) :
    (s.save now record).document url = s.document url :=
  Function.update_of_ne hne ..

end PageStore

namespace Reflects

variable {saves : List (ℚ × PageRecord)} {s : PageStore}

lemma save (h : Reflects saves s) (now : ℚ) (record : PageRecord) :
    Reflects (saves ++ [(now, record)]) (s.save now record) := by
  refine ⟨?_, ?_, ?_⟩
  · intro url
    rw [lastSaved_snoc]
    by_cases hurl : url = record.url
    · subst hurl
      rw [if_pos rfl, PageStore.document_save]
      rfl
    · rw [if_neg (Ne.symm hurl), ← h.columns url, PageStore.document_save_of_ne hurl]
  · intro url
    have hdomain := h.domain url
    rw [domainOf] at hdomain ⊢
    rw [List.find?_append]
    by_cases hurl : url = record.url
    · subst hurl
      rw [PageStore.document_save]
      cases hs : s.document record.url with
      | none =>
          rw [hs, Option.map_none, eq_comm, Option.map_eq_none_iff] at hdomain
          simp [hdomain, writeColumns, newDocument]
      | some row =>
          rw [hs, Option.map_some, eq_comm, Option.map_eq_some_iff] at hdomain
          obtain ⟨save, hsave, hdomain⟩ := hdomain
          simp [hsave, hdomain, writeColumns]
    · rw [PageStore.document_save_of_ne hurl, hdomain]
      simp [Ne.symm hurl]
  · intro src dst
    have hold := h.anchor src dst
    rw [mem_linkPairs] at hold ⊢
    simp only [List.mem_append, List.mem_singleton, or_and_right, exists_or, exists_eq_left,
      ← hold, PageStore.save]
    by_cases hsrc : src = record.url
    · subst hsrc
      simp [Option.isSome_or]
    · simp [hsrc, Ne.symm hsrc]

end Reflects

namespace Tables

/-- A row with the degrees that `recompute_degrees` writes. -/
def withDegrees (t : Tables) (row : DocumentRow) : DocumentRow :=
  { row with
    outDegree := (t.edgesFrom row.id).length
    inDegree := (t.linkEdges.filter (·.dstUrl = row.url)).length }

lemma documents_recomputeDegrees (t : Tables) :
    t.recomputeDegrees.documents = t.documents.map t.withDegrees := by
  simp only [recomputeDegrees, recomputeInDegrees, recomputeOutDegrees, updateRows, List.map_map]
  rfl

lemma document_recomputeDegrees (t : Tables) (url : String) :
    t.recomputeDegrees.document url = (t.document url).map t.withDegrees := by
  rw [document, documents_recomputeDegrees, List.find?_map]
  rfl

/-- `recompute_degrees` leaves the edges as they are. -/
lemma anchor_recomputeDegrees (t : Tables) (src dst : String) :
    t.recomputeDegrees.store.anchor src dst = t.store.anchor src dst := by
  simp only [store, document_recomputeDegrees, Option.bind_map]
  rfl

lemma reflects_recomputeDegrees {saves : List (ℚ × PageRecord)} {t : Tables}
    (h : Reflects saves t.store) : Reflects saves t.recomputeDegrees.store := by
  refine ⟨?_, ?_, ?_⟩
  · intro url
    rw [← h.columns url]
    simp only [store, document_recomputeDegrees, Option.map_map]
    rfl
  · intro url
    rw [← h.domain url]
    simp only [store, document_recomputeDegrees, Option.map_map]
    rfl
  · intro src dst
    rw [anchor_recomputeDegrees, h.anchor]

/-- What holds of the empty store, and is kept by saves and recomputations, holds after every
history. -/
lemma performAll_induction {p : List (ℚ × PageRecord) → PageStore → Prop}
    (hempty : p [] Tables.empty.store)
    (hsave : ∀ saves s now record, p saves s → p (saves ++ [(now, record)]) (s.save now record))
    (hrecompute : ∀ saves (t : Tables), p saves t.store → p saves t.recomputeDegrees.store)
    (acts : List GraphAct) : p (savesOf acts) (performAll acts).store := by
  induction acts using List.reverseRecOn with
  | nil => exact hempty
  | append_singleton acts act ih =>
      rw [performAll, List.foldl_append, savesOf, List.filterMap_append]
      cases act with
      | save now record =>
          show p (savesOf acts ++ [(now, record)]) ((performAll acts).savePage now record).store
          rw [store_savePage]
          exact hsave _ _ now record ih
      | recompute =>
          show p (savesOf acts ++ []) (performAll acts).recomputeDegrees.store
          rw [List.append_nil]
          exact hrecompute _ _ ih

/-- **The tables follow the history.** -/
theorem reflects_performAll (acts : List GraphAct) :
    Reflects (savesOf acts) (performAll acts).store := by
  refine performAll_induction (p := Reflects) ?_ (fun _ _ now record h => h.save now record)
    (fun _ _ h => reflects_recomputeDegrees h) acts
  refine ⟨fun url => rfl, fun url => rfl, ?_⟩
  intro src dst
  refine iff_of_false ?_ List.not_mem_nil
  intro h
  cases h

/-- The tables after some saves. -/
def afterSaves (saves : List (ℚ × PageRecord)) : Tables :=
  performAll (saves.map fun save => .save save.1 save.2)

lemma afterSaves_snoc (saves : List (ℚ × PageRecord)) (save : ℚ × PageRecord) :
    afterSaves (saves ++ [save]) = (afterSaves saves).savePage save.1 save.2 := by
  rw [afterSaves, performAll, List.map_append, List.foldl_append]
  rfl

end Tables

/-! ### Counting -/

namespace Tables

variable {t : Tables}

/-- The URL of the source of an edge, and the one that it leads to. -/
def edgePair (t : Tables) (e : LinkEdge) : Option String × String :=
  (t.urlOf e.srcDocumentId, e.dstUrl)

/-- An edge leaves a document if its source has the URL of the document. -/
lemma urlOf_eq_iff {row : DocumentRow} (hrow : row ∈ t.documents) {e : LinkEdge} :
    t.urlOf e.srcDocumentId = some row.url ↔ e.srcDocumentId = row.id := by
  rw [urlOf_eq_some]
  constructor
  · rintro ⟨row', hrow', hid, hurl⟩
    rw [← hid, List.inj_on_of_nodup_map t.document_urls hrow' hrow hurl]
  · exact fun hid => ⟨row, hrow, hid.symm, rfl⟩

lemma nodup_map_edgePair (t : Tables) : (t.linkEdges.map t.edgePair).Nodup := by
  refine List.Nodup.map_on ?_ t.edge_ids.of_map
  intro e he e' he' heq
  obtain ⟨hsrc, hdst⟩ := Prod.mk.inj heq
  obtain ⟨row, hrow, hid⟩ := List.mem_map.1 (t.edge_src e he)
  have hsrc' : e'.srcDocumentId = row.id :=
    (urlOf_eq_iff hrow).1 (hsrc.symm.trans ((urlOf_eq_iff hrow).2 hid.symm))
  exact List.inj_on_of_nodup_map t.edge_keys he he' (Prod.ext (hid.symm.trans hsrc'.symm) hdst)

end Tables

namespace Reflects

variable {saves : List (ℚ × PageRecord)} {t : Tables}

lemma nodup_pagesOf (saves : List (ℚ × PageRecord)) : (pagesOf saves).Nodup := List.nodup_dedup _

lemma mem_pagesOf {url : String} : url ∈ pagesOf saves ↔ ∃ save ∈ saves, save.2.url = url := by
  simp [pagesOf]

/-- A document is a page that was saved. -/
lemma urls_perm (h : Reflects saves t.store) : (t.documents.map (·.url)).Perm (pagesOf saves) := by
  refine (List.perm_ext_iff_of_nodup t.document_urls (nodup_pagesOf saves)).2 ?_
  intro url
  rw [← not_iff_not, ← t.document_eq_none, mem_pagesOf, not_exists]
  have hcolumns := h.columns url
  have hlast : lastSaved url saves = none ↔ ∀ save ∈ saves, save.2.url ≠ url :=
    lastSaved_eq_none_iff
  cases hdoc : t.document url with
  | none =>
      simp only [Tables.store, hdoc, Option.map_none] at hcolumns
      simpa using hlast.1 (Option.map_eq_none_iff.1 hcolumns.symm)
  | some row =>
      simp only [Tables.store, hdoc, Option.map_some] at hcolumns
      refine iff_of_false (by simp) ?_
      intro hnone
      rw [hlast.2 (by simpa using hnone)] at hcolumns
      cases hcolumns

/-- The columns of a document are those of the last version of the page. -/
lemma columns_of_mem (h : Reflects saves t.store) {row : DocumentRow} (hrow : row ∈ t.documents) :
    row.httpStatus = statusOf saves row.url ∧ row.contentHash = hashOf saves row.url ∧
      some row.registeredDomain = domainOf saves row.url := by
  have hdoc : t.document row.url = some row := (t.document_eq_some).2 ⟨hrow, rfl⟩
  have hcolumns := h.columns row.url
  have hdomain := h.domain row.url
  simp only [Tables.store, hdoc, Option.map_some] at hcolumns hdomain
  obtain ⟨record, hlast, heq⟩ := Option.map_eq_some_iff.1 hcolumns.symm
  obtain ⟨hstatus, hhash⟩ := Prod.mk.inj heq
  rw [statusOf, hashOf, hlast]
  exact ⟨hstatus.symm, hhash.symm, hdomain⟩

/-- A column of the documents, page by page. -/
lemma column_perm {κ : Type} (h : Reflects saves t.store) (column : DocumentRow → κ)
    (of : String → κ) (hcolumn : ∀ row ∈ t.documents, column row = of row.url) :
    (t.documents.map column).Perm ((pagesOf saves).map of) := by
  have hmap : t.documents.map column = (t.documents.map (·.url)).map of := by
    rw [List.map_map]
    exact List.map_congr_left hcolumn
  rw [hmap]
  exact h.urls_perm.map of

/-- The domains, page by page. -/
lemma domains_perm (h : Reflects saves t.store) :
    (t.documents.map (some ·.registeredDomain)).Perm ((pagesOf saves).map (domainOf saves)) :=
  h.column_perm _ _ fun _ hrow => (h.columns_of_mem hrow).2.2

lemma domainCount_eq (h : Reflects saves t.store) :
    t.domainCount = ((pagesOf saves).map (domainOf saves)).dedup.length := by
  rw [Tables.domainCount, ← h.domains_perm.dedup.length_eq, ← List.length_map some,
    ← List.dedup_map_of_injective (Option.some_injective _), List.map_map]
  rfl

/-- The edges are the pairs of a page and a link, once each. -/
lemma edges_perm (h : Reflects saves t.store) :
    (t.linkEdges.map t.edgePair).Perm ((linkPairs saves).map fun p => (some p.1, p.2)) := by
  have hpairs : ((linkPairs saves).map fun p => (some p.1, p.2)).Nodup := by
    refine List.Nodup.map ?_ (List.nodup_dedup _)
    intro p q heq
    obtain ⟨hsrc, hdst⟩ := Prod.mk.inj heq
    exact Prod.ext (Option.some.inj hsrc) hdst
  refine (List.perm_ext_iff_of_nodup t.nodup_map_edgePair hpairs).2 ?_
  rintro ⟨src, dst⟩
  calc (src, dst) ∈ t.linkEdges.map t.edgePair
      ↔ ∃ anchor, (src, dst, anchor) ∈ t.linkEdges.map t.edgeByUrl := by
        simp [Tables.edgePair, Tables.edgeByUrl]
    _ ↔ ∃ url, src = some url ∧ (t.store.anchor url dst).isSome := by
        simp only [Tables.mem_map_edgeByUrl, Option.isSome_iff_exists]
        tauto
    _ ↔ (src, dst) ∈ (linkPairs saves).map fun p => (some p.1, p.2) := by
        simp only [h.anchor, List.mem_map, Prod.mk.injEq, Prod.exists]
        constructor
        · rintro ⟨url, rfl, hmem⟩
          exact ⟨url, dst, hmem, rfl, rfl⟩
        · rintro ⟨url, dst, hmem, rfl, rfl⟩
          exact ⟨url, rfl, hmem⟩

/-- The edges of a page lead to its links. -/
lemma mem_targets (h : Reflects saves t.store) {row : DocumentRow} (hrow : row ∈ t.documents)
    {dst : String} :
    dst ∈ t.targets row.id ↔ (row.url, dst) ∈ linkPairs saves := by
  calc dst ∈ t.targets row.id ↔ (some row.url, dst) ∈ t.linkEdges.map t.edgePair := by
        simp only [Tables.mem_targets, List.mem_map, Tables.edgePair, LinkEdge.key, Prod.mk.injEq,
          Tables.urlOf_eq_iff hrow]
    _ ↔ (some row.url, dst) ∈ (linkPairs saves).map fun p => (some p.1, p.2) :=
        h.edges_perm.mem_iff
    _ ↔ (row.url, dst) ∈ linkPairs saves := by
        simp

/-- The degrees that `recompute_degrees` writes count the pairs. -/
lemma withDegrees_eq (h : Reflects saves t.store) {row : DocumentRow} (hrow : row ∈ t.documents) :
    (t.withDegrees row).outDegree = (linkPairs saves).countP (·.1 = row.url) ∧
      (t.withDegrees row).inDegree = (linkPairs saves).countP (·.2 = row.url) := by
  constructor
  · have hcount := h.edges_perm.countP_eq (·.1 = some row.url)
    simp only [List.countP_map, Function.comp_def, Tables.edgePair, Tables.urlOf_eq_iff hrow,
      Option.some.injEq] at hcount
    rw [← hcount, List.countP_eq_length_filter]
    rfl
  · have hcount := h.edges_perm.countP_eq (·.2 = row.url)
    simp only [List.countP_map, Function.comp_def, Tables.edgePair] at hcount
    rw [← hcount, List.countP_eq_length_filter]
    rfl

end Reflects

namespace Tables

/-- Every edge leaves one document. -/
lemma sum_outDegree (t : Tables) :
    (t.recomputeDegrees.documents.map (·.outDegree)).sum = t.edgeCount := by
  have hsum := sum_map_count (t.linkEdges.map (·.srcDocumentId)) t.document_ids
  rw [List.map_map, List.countP_map] at hsum
  have hall : t.linkEdges.countP ((· ∈ t.documents.map (·.id)) ∘ (·.srcDocumentId)) =
      t.edgeCount := List.countP_eq_length.2 fun e he => decide_eq_true (t.edge_src e he)
  rw [documents_recomputeDegrees, List.map_map, ← hall, ← hsum]
  refine congrArg List.sum (List.map_congr_left ?_)
  intro row _
  rw [Function.comp_apply, Function.comp_apply, List.count_eq_countP, List.countP_map,
    List.countP_eq_length_filter]
  rfl

/-- An edge leads to one document, or to a page that is not stored. -/
lemma sum_inDegree (t : Tables) :
    (t.recomputeDegrees.documents.map (·.inDegree)).sum =
      t.linkEdges.countP fun e => e.dstUrl ∈ t.documents.map (·.url) := by
  have hsum := sum_map_count (t.linkEdges.map (·.dstUrl)) t.document_urls
  rw [List.map_map, List.countP_map] at hsum
  rw [documents_recomputeDegrees, List.map_map]
  refine Eq.trans (congrArg List.sum (List.map_congr_left ?_)) hsum
  intro row _
  rw [Function.comp_apply, Function.comp_apply, List.count_eq_countP, List.countP_map,
    List.countP_eq_length_filter]
  rfl

/-- **The statistics are those of the history.**  Whatever was saved, in whatever order and how
often: the documents are the pages that were saved, the edges are the pairs of a page and a link,
the domains are those of the first saves, and the statuses and the content hashes those of the
last ones.  The histogram has each status once, and its numbers add up to that of the documents. -/
theorem stats_of_history (acts : List GraphAct) (out : StatsOut) (h : (performAll acts).Stats out) :
    let saves := savesOf acts
    let hashes := (pagesOf saves).filterMap (hashOf saves)
    out.documents = (pagesOf saves).length ∧ out.edges = (linkPairs saves).length ∧
      out.domains = ((pagesOf saves).map (domainOf saves)).dedup.length ∧
      out.nearDuplicates = hashes.dedup.countP (1 < hashes.count ·) ∧
      (out.byStatus.map Prod.fst).Nodup ∧ out.byStatus.Pairwise (fun a b => b.2 ≤ a.2) ∧
      (∀ status n, (status, n) ∈ out.byStatus ↔
        0 < n ∧ n = (pagesOf saves).countP (statusOf saves · = status)) ∧
      (out.byStatus.map Prod.snd).sum = out.documents := by
  intro saves hashes
  have hreflects := reflects_performAll acts
  obtain ⟨hdocuments, hedges, hdomains, hdupes, hperm, hsorted⟩ := h
  have hstatus : ((performAll acts).documents.map (·.httpStatus)).Perm
      ((pagesOf saves).map (statusOf saves)) :=
    hreflects.column_perm _ _ fun row hrow => (hreflects.columns_of_mem hrow).1
  have hhash : ((performAll acts).documents.filterMap (·.contentHash)).Perm hashes := by
    have hcolumn := hreflects.column_perm (·.contentHash) (hashOf saves) fun row hrow =>
      (hreflects.columns_of_mem hrow).2.1
    have hreduce := hcolumn.filterMap id
    rwa [List.filterMap_map, List.filterMap_map] at hreduce
  refine ⟨?_, ?_, ?_, ?_, ?_, hsorted, ?_, ?_⟩
  · rw [hdocuments, documentCount, ← hreflects.urls_perm.length_eq, List.length_map]
  · have hlength := hreflects.edges_perm.length_eq
    rw [List.length_map, List.length_map] at hlength
    rw [hedges, edgeCount, hlength]
  · rw [hdomains, hreflects.domainCount_eq]
  · rw [hdupes, nearDuplicateCount, ((groupCounts_perm hhash).filter _).length_eq, groupCounts,
      ← List.countP_eq_length_filter, List.countP_map]
    rfl
  · exact ((hperm.map Prod.fst).nodup_iff).2 (nodup_groupCounts _)
  · intro status n
    rw [hperm.mem_iff, statusGroups, (groupCounts_perm hstatus).mem_iff, mem_groupCounts_map]
  · rw [(hperm.map Prod.snd).sum_eq, statusGroups, sum_groupCounts, List.length_map, hdocuments,
      documentCount]

/-- A version of a page with some links. -/
def version (url : String) (status : ℤ) (contentHash : String) (links : List String) :
    PageRecord where
  url := url
  registeredDomain := "a.org"
  depth := 0
  httpStatus := some status
  contentHash := some contentHash
  links := links.map fun link => { url := link }

/-- Two pages with the same body; the first one is gone later, and has lost a link. -/
def twoVersions : List GraphAct :=
  [.save 0 (version "http://a.org/" 200 "2c26" ["http://a.org/b", "http://c.org/"]), .recompute,
    .save 1 (version "http://a.org/b" 200 "2c26" ["http://a.org/b"]),
    .save 2 (version "http://a.org/" 404 "2c26" ["http://a.org/b"])]

/-- The lost link is counted, and so is the common hash. -/
theorem stats_of_history_twoVersions :
    ∃ out, (performAll twoVersions).Stats out ∧ out = ⟨2, 3, 1, 1, [(some 404, 1), (some 200, 1)]⟩ ∧
      out.edges = (linkPairs (savesOf twoVersions)).length ∧
      (out.byStatus.map Prod.snd).sum = out.documents := by
  have h : (performAll twoVersions).Stats ⟨2, 3, 1, 1, [(some 404, 1), (some 200, 1)]⟩ :=
    ⟨rfl, rfl, rfl, rfl, List.Perm.refl _, by simp⟩
  have hstats := stats_of_history twoVersions _ h
  exact ⟨_, h, rfl, hstats.2.1, hstats.2.2.2.2.2.2.2⟩

/-- **The degrees are those of the history.**  After `recompute_degrees` the degrees of a page count
the pages to which it has linked and those that have linked to it, whatever was saved before.  The
out-degrees add up to the edges, and the in-degrees to the edges whose page is stored.  The answer
of `top_by_in_degree` has as many pages as the limit allows, and no page that is left out has more
links than one that is listed. -/
theorem degrees_of_history (acts : List GraphAct) (limit : ℕ) (result : List (String × ℕ))
    (h : (performAll acts).recomputeDegrees.TopByInDegree limit result) :
    let saves := savesOf acts
    let t := (performAll acts).recomputeDegrees
    (∀ row ∈ t.documents, row.outDegree = (linkPairs saves).countP (·.1 = row.url) ∧
        row.inDegree = (linkPairs saves).countP (·.2 = row.url)) ∧
      (t.documents.map (·.outDegree)).sum = t.edgeCount ∧
      (t.documents.map (·.inDegree)).sum = (linkPairs saves).countP (·.2 ∈ pagesOf saves) ∧
      result.length = min limit (pagesOf saves).length ∧
      ∀ p ∈ result, p.1 ∈ pagesOf saves ∧ p.2 = (linkPairs saves).countP (·.2 = p.1) ∧
        ∀ url ∈ pagesOf saves, url ∉ result.map Prod.fst →
          (linkPairs saves).countP (·.2 = url) ≤ p.2 := by
  intro saves t
  have hreflects := reflects_performAll acts
  have hdegrees : ∀ row ∈ t.documents, row.outDegree = (linkPairs saves).countP (·.1 = row.url) ∧
      row.inDegree = (linkPairs saves).countP (·.2 = row.url) := by
    intro row hrow
    rw [documents_recomputeDegrees] at hrow
    obtain ⟨old, hold, rfl⟩ := List.mem_map.1 hrow
    exact hreflects.withDegrees_eq hold
  have hpages : (t.documents.map (·.url)).Perm (pagesOf saves) :=
    (reflects_recomputeDegrees hreflects).urls_perm
  obtain ⟨rows, htop, rfl⟩ := h
  refine ⟨hdegrees, sum_outDegree _, ?_, ?_, ?_⟩
  · have hcount := hreflects.edges_perm.countP_eq (·.2 ∈ pagesOf saves)
    simp only [List.countP_map, Function.comp_def, edgePair] at hcount
    rw [← hcount, sum_inDegree]
    simp only [hreflects.urls_perm.mem_iff]
    rfl
  · rw [List.length_map, htop.length_eq, ← hpages.length_eq, List.length_map]
  · intro p hp
    obtain ⟨row, hrow, rfl⟩ := List.mem_map.1 hp
    refine ⟨hpages.mem_iff.1 (List.mem_map_of_mem (htop.subset hrow)),
      (hdegrees row (htop.subset hrow)).2, ?_⟩
    intro url hurl hnot
    obtain ⟨other, hother, rfl⟩ := List.mem_map.1 (hpages.mem_iff.2 hurl)
    rw [← (hdegrees other hother).2]
    refine htop.le hrow hother fun hmem => hnot ?_
    rw [List.map_map]
    exact List.mem_map_of_mem hmem

/-- The second page has a link from each of the two. -/
theorem degrees_of_history_twoVersions :
    ∃ result, (performAll twoVersions).recomputeDegrees.TopByInDegree 1 result ∧
      result = [("http://a.org/b", 2)] ∧
      ∀ p ∈ result, ∀ url ∈ pagesOf (savesOf twoVersions), url ∉ result.map Prod.fst →
        (linkPairs (savesOf twoVersions)).countP (·.2 = url) ≤ p.2 := by
  have h : (performAll twoVersions).recomputeDegrees.TopByInDegree 1 [("http://a.org/b", 2)] := by
    refine ⟨_, ⟨(performAll twoVersions).recomputeDegrees.documents.reverse, ⟨?_, ?_⟩, rfl⟩, rfl⟩
    · exact List.reverse_perm _
    · decide
  have hdegrees := degrees_of_history twoVersions 1 _ h
  exact ⟨_, h, rfl, fun p hp => (hdegrees.2.2.2.2 p hp).2.2⟩

end Tables

end WebCrawler
