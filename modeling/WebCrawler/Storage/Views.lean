import WebCrawler.Api.CrawlStatus
import WebCrawler.Storage.Statistics

/-!
# The pages, domains and crawls of the dashboard

`get_document`, `list_domains` and `list_crawls` of `SqlCrawlService`, with the queries behind
them.

What they show of a page comes from different saves.  The columns, and the crawl that the page
counts for, are those of the last save.  The registered domain is that of the first save.  The
links are those of all saves, also the ones that the page has lost, and the anchor of a link is
that of the first save with this link.  The id of a page never changes, so that a later answer
shows the same page, with the links of the earlier one as long as all of them are shown
(`document_of_history`).  A page counts for one domain and for no more than one crawl, which is
another one after another crawl has saved it (`lists_of_history`).
-/

namespace WebCrawler

open Lib

/-- `LinkOut`. -/
structure LinkOut where
  url : String
  anchor : Option String := none
deriving DecidableEq, Repr

/-- `DocumentOut`. -/
structure DocumentOut where
  id : ℕ
  url : String
  registeredDomain : String
  httpStatus : Option ℤ := none
  contentType : Option String := none
  title : Option String := none
  contentHash : Option String := none
  simhash : Option ℤ := none
  depth : ℤ := 0
  inDegree : ℕ := 0
  outDegree : ℕ := 0
  storageKey : Option String := none
  links : List LinkOut := []
deriving DecidableEq, Repr

def documentOut (row : DocumentRow) (links : List (String × Option String)) : DocumentOut where
  id := row.id
  url := row.url
  registeredDomain := row.registeredDomain
  httpStatus := row.httpStatus
  contentType := row.contentType
  title := row.title
  contentHash := row.contentHash
  simhash := row.simhash
  depth := row.depth
  inDegree := row.inDegree
  outDegree := row.outDegree
  storageKey := row.storageKey
  links := links.map fun p => { url := p.1, anchor := p.2 }

/-- The columns of a crawl that are shown. -/
structure CrawlRow where
  id : ℤ
  name : String
  status : RowStatus
  maxDepth : ℤ
  maxPages : ℤ
deriving DecidableEq, Repr

/-- The table `crawl`. -/
structure CrawlTable where
  rows : List CrawlRow := []
  ids : (rows.map (·.id)).Nodup := by decide

/-- `CrawlSummary`. -/
structure CrawlSummary where
  id : ℤ
  name : String
  status : RowStatus
  maxDepth : ℤ
  maxPages : ℤ
  documents : ℕ := 0
deriving DecidableEq, Repr

namespace Tables

/-! ### The queries -/

/-- `AnalyticsRepository.get_document`. -/
def documentById (t : Tables) (id : ℕ) : Option DocumentRow := t.documents.find? (·.id = id)

/-- An answer of `document_links`: the edges of a document in some order, up to the limit. -/
def DocumentLinks (t : Tables) (id limit : ℕ) (result : List (String × Option String)) : Prop :=
  ∃ rows : List LinkEdge, rows.Perm (t.edgesFrom id) ∧
    result = (rows.take limit).map fun e => (e.dstUrl, e.anchorText)

/-- An answer of `get_document` of the service. -/
def GetDocument (t : Tables) (id : ℕ) (answer : Option DocumentOut) : Prop :=
  match t.documentById id with
  | none => answer = none
  | some row => ∃ links, t.DocumentLinks id 200 links ∧ answer = some (documentOut row links)

/-- An answer of `domain_summary`. -/
def DomainSummary (t : Tables) (limit : ℕ) (result : List (String × ℕ)) : Prop :=
  IsTop (·.2) (groupCounts (t.documents.map (·.registeredDomain))) limit result

/-- `list_crawls`: the last crawls, each with the number of its documents. -/
def listCrawls (t : Tables) (crawls : CrawlTable) (limit : ℕ) : List CrawlSummary :=
  ((crawls.rows.mergeSort fun a b => b.id ≤ a.id).take limit).map fun crawl =>
    { id := crawl.id
      name := crawl.name
      status := crawl.status
      maxDepth := crawl.maxDepth
      maxPages := crawl.maxPages
      documents := t.documents.countP (·.crawlId = some crawl.id) }

end Tables

/-! ### The history -/

/-- The anchor of a link in the first version of a page that has the link. -/
def firstAnchor (saves : List (ℚ × PageRecord)) (src dst : String) : Option (Option String) :=
  saves.findSome? fun save =>
    if save.2.url = src then (save.2.links.find? (·.url = dst)).map (·.anchor) else none

/-- The crawl of the last version of a page. -/
def crawlOf (saves : List (ℚ × PageRecord)) (url : String) : Option ℤ :=
  (lastSaved url saves).bind (·.crawlId)

/-- The columns of an answer are those of a version of the page. -/
structure DocumentOut.Shows (out : DocumentOut) (record : PageRecord) : Prop where
  httpStatus : out.httpStatus = record.httpStatus
  contentType : out.contentType = record.contentType
  title : out.title = record.title
  contentHash : out.contentHash = record.contentHash
  simhash : out.simhash = toSigned64 record.simhash
  depth : out.depth = record.depth
  storageKey : out.storageKey = record.storageKey

/-- A row without what `recompute_degrees` writes. -/
def DocumentRow.withoutDegrees (row : DocumentRow) : DocumentRow :=
  { row with inDegree := 0, outDegree := 0 }

/-- What the answers show of the store of the tables. -/
structure Shown (saves : List (ℚ × PageRecord)) (s : PageStore) : Prop where
  document : ∀ url, ∀ row ∈ s.document url, ∃ record ∈ lastSaved url saves, ∃ now base,
    row.withoutDegrees = (writeColumns now record base).withoutDegrees
  anchor : ∀ src dst, s.anchor src dst = firstAnchor saves src dst

namespace Shown

variable {saves : List (ℚ × PageRecord)} {s : PageStore} {t : Tables}

lemma save (h : Shown saves s) (now : ℚ) (record : PageRecord) :
    Shown (saves ++ [(now, record)]) (s.save now record) := by
  refine ⟨fun url row hrow => ?_, fun src dst => ?_⟩
  · rw [lastSaved_snoc]
    by_cases hurl : url = record.url
    · subst hurl
      rw [PageStore.document_save, Option.mem_some_iff] at hrow
      exact ⟨record, by rw [if_pos rfl]; rfl, now, _, by rw [← hrow]⟩
    · rw [PageStore.document_save_of_ne hurl] at hrow
      rw [if_neg (Ne.symm hurl)]
      exact h.document url row hrow
  · have hold := h.anchor src dst
    rw [firstAnchor] at hold ⊢
    rw [List.findSome?_append, ← hold]
    by_cases hsrc : src = record.url
    · simp [PageStore.save, hsrc]
    · simp [PageStore.save, hsrc, Ne.symm hsrc]

lemma recomputeDegrees (h : Shown saves t.store) : Shown saves t.recomputeDegrees.store := by
  refine ⟨fun url row hrow => ?_, fun src dst => ?_⟩
  · simp only [Tables.store, Tables.document_recomputeDegrees, Option.map_map,
      Option.mem_def, Option.map_eq_some_iff] at hrow
    obtain ⟨old, hold, rfl⟩ := hrow
    exact h.document url old.withoutId (by simp [Tables.store, hold])
  · rw [Tables.anchor_recomputeDegrees, h.anchor]

/-- A row shows the last version of the page, and counts for its crawl. -/
lemma version_of_mem (h : Shown saves t.store) {row : DocumentRow} (hrow : row ∈ t.documents)
    (links : List (String × Option String)) :
    (∃ record ∈ lastSaved row.url saves, (documentOut row links).Shows record) ∧
      row.crawlId = crawlOf saves row.url := by
  have hdoc : t.document row.url = some row := (t.document_eq_some).2 ⟨hrow, rfl⟩
  obtain ⟨record, hlast, now, base, heq⟩ :=
    h.document row.url row.withoutId (by simp [Tables.store, hdoc])
  refine ⟨⟨record, hlast, ?_⟩, ?_⟩
  · exact {
      httpStatus := congrArg DocumentRow.httpStatus heq
      contentType := congrArg DocumentRow.contentType heq
      title := congrArg DocumentRow.title heq
      contentHash := congrArg DocumentRow.contentHash heq
      simhash := congrArg DocumentRow.simhash heq
      depth := congrArg DocumentRow.depth heq
      storageKey := congrArg DocumentRow.storageKey heq }
  · rw [crawlOf, Option.mem_def.1 hlast]
    exact congrArg DocumentRow.crawlId heq

/-- An edge has the anchor of the first link. -/
lemma anchor_of_mem (h : Shown saves t.store) {row : DocumentRow} (hrow : row ∈ t.documents)
    {e : LinkEdge} (he : e ∈ t.edgesFrom row.id) :
    firstAnchor saves row.url e.dstUrl = some e.anchorText := by
  obtain ⟨hmem, hsrc⟩ := List.mem_filter.1 he
  have hdoc : t.document row.url = some row := (t.document_eq_some).2 ⟨hrow, rfl⟩
  have hstore : t.store.anchor row.url e.dstUrl = t.anchorAt (row.id, e.dstUrl) := by
    simp [Tables.store, hdoc]
  rw [← h.anchor, hstore, Tables.anchorAt_eq_some]
  exact ⟨e, hmem, Prod.ext (of_decide_eq_true hsrc) rfl, rfl⟩

end Shown

namespace Tables

lemma shown_performAll (acts : List GraphAct) :
    Shown (savesOf acts) (performAll acts).store := by
  refine performAll_induction (p := Shown) ?_ (fun _ _ now record h => h.save now record)
    (fun _ _ h => h.recomputeDegrees) acts
  exact ⟨fun url row hrow => absurd hrow (Option.not_mem_none row), fun src dst => rfl⟩

/-! ### One document -/

variable {t : Tables} {id : ℕ} {row : DocumentRow} {links : List (String × Option String)}

lemma documentById_eq_some : t.documentById id = some row ↔ row ∈ t.documents ∧ row.id = id := by
  constructor
  · intro h
    exact ⟨List.mem_of_find?_eq_some h, by simpa using List.find?_some h⟩
  · rintro ⟨hrow, rfl⟩
    cases hfind : t.documents.find? (·.id = row.id) with
    | none => exact absurd (List.find?_eq_none.1 hfind row hrow) (by simp)
    | some row' =>
        have hid : row'.id = row.id := by simpa using List.find?_some hfind
        rw [documentById, hfind,
          List.inj_on_of_nodup_map t.document_ids (List.mem_of_find?_eq_some hfind) hrow hid]

/-- The answer for an id is that of the row with this id. -/
lemma getDocument_iff (hrow : row ∈ t.documents) {answer : Option DocumentOut} :
    t.GetDocument row.id answer ↔
      ∃ links, t.DocumentLinks row.id 200 links ∧ answer = some (documentOut row links) := by
  rw [GetDocument, documentById_eq_some.2 ⟨hrow, rfl⟩]

lemma exists_row_of_getDocument {out : DocumentOut} (h : t.GetDocument id (some out)) :
    ∃ row ∈ t.documents, row.id = id ∧
      ∃ links, t.DocumentLinks id 200 links ∧ out = documentOut row links := by
  rw [GetDocument] at h
  cases hrow : t.documentById id with
  | none => simp [hrow] at h
  | some row =>
      simp only [hrow, Option.some.injEq] at h
      exact ⟨row, (documentById_eq_some.1 hrow).1, (documentById_eq_some.1 hrow).2, h⟩

namespace DocumentLinks

variable {limit : ℕ}

lemma length_eq (h : t.DocumentLinks id limit links) :
    links.length = min limit (t.edgesFrom id).length := by
  obtain ⟨rows, hperm, rfl⟩ := h
  rw [List.length_map, List.length_take, hperm.length_eq]

lemma exists_edge (h : t.DocumentLinks id limit links) {p : String × Option String}
    (hp : p ∈ links) : ∃ e ∈ t.edgesFrom id, p = (e.dstUrl, e.anchorText) := by
  obtain ⟨rows, hperm, rfl⟩ := h
  obtain ⟨e, he, rfl⟩ := List.mem_map.1 hp
  exact ⟨e, hperm.mem_iff.1 (List.mem_of_mem_take he), rfl⟩

/-- Below the limit no edge is left out. -/
lemma mem_of_length_lt (h : t.DocumentLinks id limit links) (hlt : links.length < limit)
    {e : LinkEdge} (he : e ∈ t.edgesFrom id) : (e.dstUrl, e.anchorText) ∈ links := by
  have hlength := h.length_eq
  obtain ⟨rows, hperm, rfl⟩ := h
  have hall : rows.length ≤ limit := by
    rw [hperm.length_eq]
    omega
  rw [List.take_of_length_le hall]
  exact List.mem_map_of_mem (hperm.mem_iff.2 he)

/-- A URL is listed once. -/
lemma nodup_fst (h : t.DocumentLinks id limit links) : (links.map Prod.fst).Nodup := by
  obtain ⟨rows, hperm, rfl⟩ := h
  have hnodup : (t.edgesFrom id).Nodup := t.edge_ids.of_map.filter _
  rw [List.map_map]
  refine ((hperm.nodup_iff.2 hnodup).sublist (List.take_sublist _ _)).map_on ?_
  intro e he e' he' hdst
  have hmem := (List.mem_filter.1 (hperm.mem_iff.1 (List.mem_of_mem_take he)))
  have hmem' := (List.mem_filter.1 (hperm.mem_iff.1 (List.mem_of_mem_take he')))
  have hsrc : e.srcDocumentId = e'.srcDocumentId :=
    (of_decide_eq_true hmem.2).trans (of_decide_eq_true hmem'.2).symm
  exact List.inj_on_of_nodup_map t.edge_keys hmem.1 hmem'.1 (Prod.ext hsrc hdst)

end DocumentLinks

/-- A write keeps the id and the registered domain of a page. -/
lemma exists_mem_perform (hrow : row ∈ t.documents) (act : GraphAct) :
    ∃ row' ∈ (t.perform act).documents, row'.id = row.id ∧ row'.url = row.url ∧
      row'.registeredDomain = row.registeredDomain := by
  cases act with
  | save now record =>
      obtain ⟨row', hdoc, hid, hdomain, -⟩ :=
        @exists_document_savePage t now record _ _ ((t.document_eq_some).2 ⟨hrow, rfl⟩)
      obtain ⟨hmem, hurl⟩ := (document_eq_some _).1 hdoc
      exact ⟨row', hmem, hid, hurl, hdomain⟩
  | recompute =>
      refine ⟨t.withDegrees row, ?_, rfl, rfl, rfl⟩
      rw [perform, documents_recomputeDegrees]
      exact List.mem_map_of_mem hrow

lemma exists_mem_foldl_perform (hrow : row ∈ t.documents) (more : List GraphAct) :
    ∃ row' ∈ (more.foldl perform t).documents, row'.id = row.id ∧ row'.url = row.url ∧
      row'.registeredDomain = row.registeredDomain := by
  induction more generalizing t row with
  | nil => exact ⟨row, hrow, rfl, rfl, rfl⟩
  | cons act more ih =>
      obtain ⟨row₁, hrow₁, hid₁, hurl₁, hdomain₁⟩ := exists_mem_perform hrow act
      obtain ⟨row', hrow', hid, hurl, hdomain⟩ := ih hrow₁
      exact ⟨row', hrow', hid.trans hid₁, hurl.trans hurl₁, hdomain.trans hdomain₁⟩

/-- The pairs of a page and a link only get more. -/
lemma linkPairs_mono {saves more : List (ℚ × PageRecord)} :
    linkPairs saves ⊆ linkPairs (saves ++ more) := by
  rintro ⟨src, dst⟩ h
  obtain ⟨save, hsave, hlink⟩ := mem_linkPairs.1 h
  exact mem_linkPairs.2 ⟨save, List.mem_append_left _ hsave, hlink⟩

/-- A first anchor stays the first one. -/
lemma firstAnchor_append {saves more : List (ℚ × PageRecord)} {src dst : String}
    {anchor : Option String} (h : firstAnchor saves src dst = some anchor) :
    firstAnchor (saves ++ more) src dst = some anchor := by
  rw [firstAnchor] at h ⊢
  rw [List.findSome?_append, h, Option.some_or]

/-- The links of a document are links that its page had, with their first anchors. -/
lemma link_of_answer {acts : List GraphAct} {row : DocumentRow}
    (hrow : row ∈ (performAll acts).documents) {links : List (String × Option String)}
    (hlinks : (performAll acts).DocumentLinks row.id 200 links) {link : LinkOut}
    (h : link ∈ (documentOut row links).links) :
    (row.url, link.url) ∈ linkPairs (savesOf acts) ∧
      firstAnchor (savesOf acts) row.url link.url = some link.anchor := by
  obtain ⟨p, hp, rfl⟩ := List.mem_map.1 h
  obtain ⟨e, he, rfl⟩ := hlinks.exists_edge hp
  have htarget : e.dstUrl ∈ (performAll acts).targets row.id := by
    obtain ⟨hmem, hsrc⟩ := List.mem_filter.1 he
    exact mem_targets.2 (List.mem_map.2 ⟨e, hmem, Prod.ext (of_decide_eq_true hsrc) rfl⟩)
  exact ⟨((reflects_performAll acts).mem_targets hrow).1 htarget,
    (shown_performAll acts).anchor_of_mem hrow he⟩

/-- An answer with fewer than 200 links has all of them. -/
lemma mem_answer {acts : List GraphAct} {row : DocumentRow}
    (hrow : row ∈ (performAll acts).documents) {links : List (String × Option String)}
    (hlinks : (performAll acts).DocumentLinks row.id 200 links)
    (hlt : (documentOut row links).links.length < 200) {link : LinkOut}
    (hpair : (row.url, link.url) ∈ linkPairs (savesOf acts))
    (hanchor : firstAnchor (savesOf acts) row.url link.url = some link.anchor) :
    link ∈ (documentOut row links).links := by
  rw [documentOut, List.length_map] at hlt
  have htarget := ((reflects_performAll acts).mem_targets hrow).2 hpair
  obtain ⟨e, he, hkey⟩ := List.mem_map.1 (mem_targets.1 htarget)
  obtain ⟨hsrc, hdst⟩ := Prod.mk.inj hkey
  have hfrom : e ∈ (performAll acts).edgesFrom row.id :=
    List.mem_filter.2 ⟨he, decide_eq_true hsrc⟩
  have hfirst := (shown_performAll acts).anchor_of_mem hrow hfrom
  rw [hdst, hanchor, Option.some.injEq] at hfirst
  refine List.mem_map.2 ⟨_, hlinks.mem_of_length_lt hlt hfrom, ?_⟩
  rw [hdst, ← hfirst]

/-- **A document shows the history of its page.**  The columns are those of the last version, and
the registered domain is that of the first one.  The links are at most 200 of those that the page
ever had, each of them once and with its first anchor.  After any more writes the id shows the same
page, and no link is lost as long as fewer than 200 are shown. -/
theorem document_of_history (acts : List GraphAct) (id : ℕ) (out : DocumentOut)
    (h : (performAll acts).GetDocument id (some out)) :
    let saves := savesOf acts
    out.id = id ∧ out.url ∈ pagesOf saves ∧
      domainOf saves out.url = some out.registeredDomain ∧
      (∃ record ∈ lastSaved out.url saves, out.Shows record) ∧
      (out.links.map (·.url)).Nodup ∧
      out.links.length = min 200 ((linkPairs saves).countP (·.1 = out.url)) ∧
      (∀ link ∈ out.links, (out.url, link.url) ∈ linkPairs saves ∧
        firstAnchor saves out.url link.url = some link.anchor) ∧
      ∀ more answer, (performAll (acts ++ more)).GetDocument id answer →
        ∃ later, answer = some later ∧ later.url = out.url ∧
          later.registeredDomain = out.registeredDomain ∧
          (later.links.length < 200 → out.links ⊆ later.links) := by
  intro saves
  have hreflects := reflects_performAll acts
  obtain ⟨row, hrow, rfl, links, hlinks, rfl⟩ := exists_row_of_getDocument h
  refine ⟨rfl, hreflects.urls_perm.mem_iff.1 (List.mem_map_of_mem hrow),
    (hreflects.columns_of_mem hrow).2.2.symm,
    ((shown_performAll acts).version_of_mem hrow links).1, ?_, ?_,
    fun link hlink => link_of_answer hrow hlinks hlink, fun more answer hanswer => ?_⟩
  · rw [documentOut, List.map_map]
    exact hlinks.nodup_fst
  · rw [documentOut, List.length_map, hlinks.length_eq]
    exact congrArg (min 200) (hreflects.withDegrees_eq hrow).1
  · obtain ⟨row', hrow', hid, hurl, hdomain⟩ := exists_mem_foldl_perform hrow more
    have hmore : more.foldl perform (performAll acts) = performAll (acts ++ more) :=
      List.foldl_append.symm
    rw [hmore] at hrow'
    rw [← hid, getDocument_iff hrow'] at hanswer
    obtain ⟨links', hlinks', rfl⟩ := hanswer
    refine ⟨_, rfl, hurl, hdomain, fun hlt link hlink => ?_⟩
    obtain ⟨hpair, hanchor⟩ := link_of_answer hrow hlinks hlink
    refine mem_answer hrow' hlinks' hlt ?_ ?_
    · rw [hurl, savesOf, List.filterMap_append]
      exact linkPairs_mono hpair
    · rw [hurl, savesOf, List.filterMap_append]
      exact firstAnchor_append hanchor

/-- A version of a page that a crawl has saved. -/
def crawledVersion (crawlId : ℤ) (title : String) (links : List Link) : PageRecord where
  url := "http://a.org/"
  registeredDomain := "a.org"
  depth := 0
  title := some title
  crawlId := some crawlId
  links := links

/-- A page that a second crawl saves again, when it has lost a link and another link has a new
text. -/
def twoCrawls : List GraphAct :=
  [.save 0 (crawledVersion 1 "old" [{ url := "http://b.org/", anchor := some "old text" },
      { url := "http://c.org/" }]),
    .save 1 (crawledVersion 2 "new" [{ url := "http://b.org/", anchor := some "new text" }])]

/-- The title and the number of links are new, the links themselves are the old ones. -/
theorem document_of_history_twoCrawls :
    ∃ out, (performAll twoCrawls).GetDocument 1 (some out) ∧ out.title = some "new" ∧
      out.outDegree = 1 ∧
      out.links = [⟨"http://b.org/", some "old text"⟩, ⟨"http://c.org/", none⟩] ∧
      ∀ link ∈ out.links,
        firstAnchor (savesOf twoCrawls) out.url link.url = some link.anchor := by
  have h : (performAll twoCrawls).GetDocument 1 (some
      { id := 1, url := "http://a.org/", registeredDomain := "a.org", title := some "new"
        outDegree := 1
        links := [⟨"http://b.org/", some "old text"⟩, ⟨"http://c.org/", none⟩] }) :=
    ⟨_, ⟨_, List.Perm.refl _, rfl⟩, rfl⟩
  have hlinks := (document_of_history twoCrawls 1 _ h).2.2.2.2.2.2.1
  exact ⟨_, h, rfl, rfl, rfl, fun link hlink => (hlinks link hlink).2⟩

/-! ### Domains and crawls -/

/-- The numbers of the listed crawls add up to the documents that one of them saved last. -/
lemma sum_listCrawls (t : Tables) (crawls : CrawlTable) (limit : ℕ) :
    ((t.listCrawls crawls limit).map (·.documents)).sum =
      t.documents.countP fun row => ∃ c ∈ t.listCrawls crawls limit, row.crawlId = some c.id := by
  have hids : ((crawls.rows.mergeSort fun a b => b.id ≤ a.id).map (·.id)).Nodup :=
    (((List.mergeSort_perm _ _).map _).nodup_iff).2 crawls.ids
  have hkeys : ((t.listCrawls crawls limit).map (·.id)).Nodup := by
    rw [listCrawls, List.map_map]
    exact hids.sublist ((List.take_sublist limit _).map _)
  have hsum := sum_map_count (t.documents.filterMap (·.crawlId)) hkeys
  rw [List.countP_filterMap] at hsum
  refine Eq.trans ?_ (hsum.trans (List.countP_congr fun row _ => ?_))
  · rw [listCrawls, List.map_map, List.map_map, List.map_map]
    refine congrArg List.sum (List.map_congr_left fun crawl _ => ?_)
    rw [Function.comp_apply, Function.comp_apply, Function.comp_apply, List.count_filterMap]
    exact List.countP_congr fun row _ => by simp
  · cases row.crawlId with
    | none => simp
    | some id =>
        simp only [Option.map_some, Option.getD_some, decide_eq_true_eq, List.mem_map,
          Option.some.injEq, @eq_comm _ id]

/-- **The lists show the history.**  A page counts for the crawl that saved it last, and for no
other, so that the numbers of the listed crawls add up.  A domain has the pages whose first version
it had; as many domains are listed as the limit allows, and none with more pages is left out. -/
theorem lists_of_history (acts : List GraphAct) (crawls : CrawlTable) (crawlLimit limit : ℕ)
    (domains : List (String × ℕ)) (h : (performAll acts).DomainSummary limit domains) :
    let saves := savesOf acts
    let summaries := (performAll acts).listCrawls crawls crawlLimit
    (∀ c ∈ summaries, c.documents = (pagesOf saves).countP (crawlOf saves · = some c.id)) ∧
      (summaries.map (·.documents)).sum =
        (pagesOf saves).countP (fun url => ∃ c ∈ summaries, crawlOf saves url = some c.id) ∧
      (domains.map Prod.fst).Nodup ∧ domains.Pairwise (fun a b => b.2 ≤ a.2) ∧
      domains.length = min limit ((pagesOf saves).map (domainOf saves)).dedup.length ∧
      ∀ p ∈ domains, p.2 = (pagesOf saves).countP (domainOf saves · = some p.1) ∧
        ∀ domain ∉ domains.map Prod.fst,
          (pagesOf saves).countP (domainOf saves · = some domain) ≤ p.2 := by
  intro saves summaries
  have hreflects := reflects_performAll acts
  have hcrawl : ((performAll acts).documents.map (·.crawlId)).Perm
      ((pagesOf saves).map (crawlOf saves)) :=
    hreflects.column_perm _ _ fun row hrow =>
      ((shown_performAll acts).version_of_mem hrow []).2
  have hcount : ∀ domain, ((performAll acts).documents.map (·.registeredDomain)).count domain =
      (pagesOf saves).countP (domainOf saves · = some domain) := by
    intro domain
    have hperm := hreflects.domains_perm.countP_eq (· = some domain)
    rw [List.countP_map, List.countP_map] at hperm
    rw [List.count_eq_countP, List.countP_map]
    exact (List.countP_congr fun row _ => by simp).trans hperm
  have htop := h
  obtain ⟨ranked, hranked, rfl⟩ := h
  refine ⟨fun c hc => ?_, ?_, ?_, ?_, ?_, fun p hp => ⟨?_, fun domain hnot => ?_⟩⟩
  · obtain ⟨crawl, -, rfl⟩ := List.mem_map.1 hc
    have hperm := hcrawl.countP_eq (· = some crawl.id)
    rwa [List.countP_map, List.countP_map] at hperm
  · have hperm := hcrawl.countP_eq fun crawl => ∃ c ∈ summaries, crawl = some c.id
    rw [List.countP_map, List.countP_map] at hperm
    rw [sum_listCrawls]
    exact hperm
  · exact ((hranked.1.map Prod.fst).nodup_iff.2 (nodup_groupCounts _)).sublist
      ((List.take_sublist _ _).map _)
  · exact hranked.2.sublist (List.take_sublist _ _)
  · rw [htop.length_eq, ← hreflects.domainCount_eq, groupCounts, List.length_map, domainCount]
  · rw [← hcount, (mem_groupCounts.1 (htop.subset hp)).2]
  · rw [← hcount]
    rcases Nat.eq_zero_or_pos
      (((performAll acts).documents.map (·.registeredDomain)).count domain) with hzero | hpos
    · rw [hzero]
      exact Nat.zero_le _
    · exact htop.le hp (mem_groupCounts.2 ⟨hpos, rfl⟩) fun hmem =>
        hnot (List.mem_map_of_mem hmem)

/-- Another page of the domain, and one of another domain. -/
def moreDomains : List GraphAct :=
  twoCrawls ++ [.save 2 { crawledVersion 2 "x" [] with url := "http://www.a.org/" },
    .save 3 { crawledVersion 2 "y" [] with url := "http://b.org/", registeredDomain := "b.org" }]

def twoRows : CrawlTable where
  rows := [{ id := 1, name := "first", status := .completed, maxDepth := 3, maxPages := 1000 },
    { id := 2, name := "second", status := .completed, maxDepth := 3, maxPages := 1000 }]

/-- The page of the first crawl counts for the second one. -/
theorem lists_of_history_moreDomains :
    ((performAll moreDomains).listCrawls twoRows 50).map (fun c => (c.id, c.documents)) =
        [(2, 3), (1, 0)] ∧
      (performAll moreDomains).DomainSummary 1 [("a.org", 2)] ∧
      (((performAll moreDomains).listCrawls twoRows 50).map (·.documents)).sum =
        (pagesOf (savesOf moreDomains)).countP fun url =>
          ∃ c ∈ (performAll moreDomains).listCrawls twoRows 50,
            crawlOf (savesOf moreDomains) url = some c.id := by
  have h : (performAll moreDomains).DomainSummary 1 [("a.org", 2)] :=
    ⟨[("a.org", 2), ("b.org", 1)], ⟨List.Perm.refl _, by simp⟩, rfl⟩
  have hsorted : (twoRows.rows.mergeSort fun a b => b.id ≤ a.id) = twoRows.rows.reverse := by
    simp [twoRows, List.mergeSort]
  refine ⟨?_, h, (lists_of_history moreDomains twoRows 50 1 _ h).2.1⟩
  rw [listCrawls, hsorted]
  decide

end Tables

end WebCrawler
