import WebCrawler.Models

/-!
# The document and link tables

The rows of `crawler/storage/orm.py` and the writes of `DocumentRepository` in
`crawler/storage/repositories.py`.  A value of `Tables` satisfies the constraints of
the schema: primary keys and the unique constraints `uq_document_url` and
`uq_edge_src_dst`, and the foreign key of the edges.

A new row gets the next id after the largest one in use.  The time at which a
statement runs (`func.now()`) is an argument.
-/

namespace WebCrawler

/-- A row of the table `document`. -/
structure DocumentRow where
  id : ℕ
  url : String
  registeredDomain : String
  httpStatus : Option ℤ := none
  contentType : Option String := none
  contentLength : Option ℕ := none
  title : Option String := none
  contentHash : Option String := none
  simhash : Option ℤ := none
  storageKey : Option String := none
  etag : Option String := none
  lastModified : Option String := none
  depth : ℤ := 0
  inDegree : ℕ := 0
  outDegree : ℕ := 0
  crawlId : Option ℤ := none
  firstSeen : ℚ
  lastCrawled : Option ℚ := none
deriving DecidableEq, Repr

/-- A row without the time of the last crawl. -/
def DocumentRow.ignoringTime (row : DocumentRow) : DocumentRow := { row with lastCrawled := none }

/-- A row of the table `link_edge`. -/
structure LinkEdge where
  id : ℕ
  srcDocumentId : ℕ
  dstUrl : String
  anchorText : Option String := none
deriving DecidableEq, Repr

/-- The columns of the unique constraint `uq_edge_src_dst`. -/
def LinkEdge.key (e : LinkEdge) : ℕ × String := (e.srcDocumentId, e.dstUrl)

/-- The next id after the largest one in use. -/
def nextId (ids : List ℕ) : ℕ := ids.foldr max 0 + 1

lemma lt_nextId {ids : List ℕ} {n : ℕ} (h : n ∈ ids) : n < nextId ids := by
  induction ids with
  | nil => simp at h
  | cons m ids ih =>
      rw [nextId, List.foldr_cons]
      rcases List.mem_cons.1 h with rfl | h
      · omega
      · have := ih h
        rw [nextId] at this
        omega

lemma nextId_notMem (ids : List ℕ) : nextId ids ∉ ids := fun h => (lt_nextId h).false

/-- Maps a 64-bit unsigned fingerprint into a signed `BIGINT`. -/
def toSigned64 (value : Option ℕ) : Option ℤ :=
  value.map fun v =>
    let w : ℕ := v % 2 ^ 64
    if w ≥ 2 ^ 63 then (w : ℤ) - 2 ^ 64 else (w : ℤ)

/-- The two tables, with the constraints of the schema. -/
structure Tables where
  documents : List DocumentRow := []
  linkEdges : List LinkEdge := []
  document_ids : (documents.map (·.id)).Nodup := by decide
  document_urls : (documents.map (·.url)).Nodup := by decide
  edge_ids : (linkEdges.map (·.id)).Nodup := by decide
  edge_keys : (linkEdges.map LinkEdge.key).Nodup := by decide
  edge_src : ∀ e ∈ linkEdges, e.srcDocumentId ∈ documents.map (·.id) := by decide

/-- The tables of a new database. -/
def Tables.empty : Tables := {}

/-- A new row for a URL, before its columns are written. -/
def newDocument (id : ℕ) (now : ℚ) (record : PageRecord) : DocumentRow where
  id := id
  url := record.url
  registeredDomain := record.registeredDomain
  firstSeen := now

@[simp] lemma newDocument_id (id : ℕ) (now : ℚ) (r : PageRecord) :
    (newDocument id now r).id = id := rfl

@[simp] lemma newDocument_url (id : ℕ) (now : ℚ) (r : PageRecord) :
    (newDocument id now r).url = r.url := rfl

/-- Writes the columns of `_DOC_UPDATE_COLUMNS`. -/
def writeColumns (now : ℚ) (record : PageRecord) (row : DocumentRow) : DocumentRow :=
  { row with
    httpStatus := record.httpStatus
    contentType := record.contentType
    contentLength := record.contentLength
    title := record.title
    contentHash := record.contentHash
    simhash := toSigned64 record.simhash
    storageKey := record.storageKey
    etag := record.etag
    lastModified := record.lastModified
    depth := record.depth
    crawlId := record.crawlId
    outDegree := record.links.length
    lastCrawled := some now }

@[simp] lemma writeColumns_id (now : ℚ) (r : PageRecord) (row : DocumentRow) :
    (writeColumns now r row).id = row.id := rfl

@[simp] lemma writeColumns_url (now : ℚ) (r : PageRecord) (row : DocumentRow) :
    (writeColumns now r row).url = row.url := rfl

/-- Each write replaces the columns of the one before. -/
@[simp] lemma writeColumns_writeColumns (now now' : ℚ) (r r' : PageRecord) (row : DocumentRow) :
    writeColumns now' r' (writeColumns now r row) = writeColumns now' r' row := rfl

namespace Tables

variable (t : Tables)

/-- The row of a URL. -/
def document (url : String) : Option DocumentRow := t.documents.find? (·.url = url)

/-- The link edges that start at a document. -/
def edgesFrom (id : ℕ) : List LinkEdge := t.linkEdges.filter (·.srcDocumentId = id)

lemma document_eq_some {url : String} {row : DocumentRow} :
    t.document url = some row ↔ row ∈ t.documents ∧ row.url = url := by
  constructor
  · intro h
    exact ⟨List.mem_of_find?_eq_some h, by simpa using List.find?_some h⟩
  · rintro ⟨hmem, rfl⟩
    cases hfind : t.documents.find? (·.url = row.url) with
    | none => exact absurd (List.find?_eq_none.1 hfind row hmem) (by simp)
    | some row' =>
        have hurl : row'.url = row.url := by simpa using List.find?_some hfind
        rw [document, hfind,
          List.inj_on_of_nodup_map t.document_urls (List.mem_of_find?_eq_some hfind) hmem hurl]

lemma document_eq_none {url : String} :
    t.document url = none ↔ url ∉ t.documents.map (·.url) := by
  simp [document]

/-! ### `upsert_document` -/

/-- Writes the columns if the row is that of the record's URL. -/
def writeRow (now : ℚ) (record : PageRecord) (row : DocumentRow) : DocumentRow :=
  if row.url = record.url then writeColumns now record row else row

@[simp] lemma writeRow_id (now : ℚ) (r : PageRecord) (row : DocumentRow) :
    (writeRow now r row).id = row.id := by
  rw [writeRow]
  split_ifs <;> rfl

@[simp] lemma writeRow_url (now : ℚ) (r : PageRecord) (row : DocumentRow) :
    (writeRow now r row).url = row.url := by
  rw [writeRow]
  split_ifs <;> rfl

/-- The `ON CONFLICT DO UPDATE` branch: the row of the URL is written. -/
def updateDocument (now : ℚ) (record : PageRecord) : Tables where
  documents := t.documents.map (writeRow now record)
  linkEdges := t.linkEdges
  document_ids := by simpa [Function.comp_def] using t.document_ids
  document_urls := by simpa [Function.comp_def] using t.document_urls
  edge_ids := t.edge_ids
  edge_keys := t.edge_keys
  edge_src := by simpa [Function.comp_def] using t.edge_src

/-- The `INSERT` branch: a row is added. -/
def insertDocument (now : ℚ) (record : PageRecord) (hnew : t.document record.url = none) :
    Tables where
  documents := t.documents ++
    [writeColumns now record (newDocument (nextId (t.documents.map (·.id))) now record)]
  linkEdges := t.linkEdges
  document_ids := by
    rw [List.map_append, List.nodup_append]
    refine ⟨t.document_ids, by simp, ?_⟩
    rintro i hi j hj rfl
    obtain rfl : i = nextId (t.documents.map (·.id)) := by simpa using hj
    exact nextId_notMem _ hi
  document_urls := by
    rw [List.map_append, List.nodup_append]
    refine ⟨t.document_urls, by simp, ?_⟩
    rintro u hu v hv rfl
    obtain rfl : u = record.url := by simpa using hv
    exact t.document_eq_none.1 hnew hu
  edge_ids := t.edge_ids
  edge_keys := t.edge_keys
  edge_src := fun e he => by
    rw [List.map_append]
    exact List.mem_append_left _ (t.edge_src e he)

/-- Inserts or updates the document with the URL of the record; returns its id. -/
def upsertDocument (now : ℚ) (record : PageRecord) : ℕ × Tables :=
  match h : t.document record.url with
  | some row => (row.id, t.updateDocument now record)
  | none => (nextId (t.documents.map (·.id)), t.insertDocument now record h)

/-- The row that an upsert starts from: the existing one, or a new one. -/
def baseRow (now : ℚ) (record : PageRecord) : DocumentRow :=
  (t.document record.url).getD (newDocument (nextId (t.documents.map (·.id))) now record)

variable {t} {now : ℚ} {record : PageRecord}

lemma baseRow_url : (t.baseRow now record).url = record.url := by
  rw [baseRow]
  cases h : t.document record.url with
  | none => rfl
  | some row => exact ((t.document_eq_some).1 h).2

/-- **The row after an upsert.** -/
lemma document_upsertDocument :
    (t.upsertDocument now record).2.document record.url =
      some (writeColumns now record (t.baseRow now record)) := by
  rw [document_eq_some]
  refine ⟨?_, baseRow_url⟩
  rw [upsertDocument, baseRow]
  split
  case h_1 row h =>
    have hrow := (t.document_eq_some).1 h
    simp only [h, Option.getD_some, updateDocument, List.mem_map]
    exact ⟨row, hrow.1, by rw [writeRow, if_pos hrow.2]⟩
  case h_2 h => simp [h, insertDocument]

/-- An upsert returns the id of the row. -/
lemma upsertDocument_fst : (t.upsertDocument now record).1 = (t.baseRow now record).id := by
  rw [upsertDocument, baseRow]
  split
  case h_1 row h => simp [h]
  case h_2 h => simp [h]

lemma linkEdges_upsertDocument : (t.upsertDocument now record).2.linkEdges = t.linkEdges := by
  rw [upsertDocument]
  split <;> rfl

lemma id_mem_upsertDocument :
    (t.upsertDocument now record).1 ∈ (t.upsertDocument now record).2.documents.map (·.id) := by
  have hrow : (t.upsertDocument now record).2.document record.url =
      some (writeColumns now record (t.baseRow now record)) := document_upsertDocument
  have h := (document_eq_some _).1 hrow
  rw [upsertDocument_fst]
  exact List.mem_map.2 ⟨_, h.1, by simp⟩

/-! ### `add_link_edges` -/

/-- `ON CONFLICT DO NOTHING` for one edge. -/
def addLinkEdge (t : Tables) (src : ℕ) (hsrc : src ∈ t.documents.map (·.id)) (link : Link) :
    Tables :=
  if hnew : (src, link.url) ∈ t.linkEdges.map LinkEdge.key then t
  else
    { documents := t.documents
      linkEdges := t.linkEdges ++
        [{ id := nextId (t.linkEdges.map (·.id)), srcDocumentId := src, dstUrl := link.url
           anchorText := link.anchor }]
      document_ids := t.document_ids
      document_urls := t.document_urls
      edge_ids := by
        rw [List.map_append, List.nodup_append]
        refine ⟨t.edge_ids, by simp, ?_⟩
        rintro i hi j hj rfl
        obtain rfl : i = nextId (t.linkEdges.map (·.id)) := by simpa using hj
        exact nextId_notMem _ hi
      edge_keys := by
        rw [List.map_append, List.nodup_append]
        refine ⟨t.edge_keys, by simp, ?_⟩
        rintro k hk k' hk' rfl
        obtain rfl : k = (src, link.url) := by simpa [LinkEdge.key] using hk'
        exact hnew hk
      edge_src := by
        intro e he
        rcases List.mem_append.1 he with he | he
        · exact t.edge_src e he
        · rw [List.mem_singleton.1 he]
          exact hsrc }

lemma documents_addLinkEdge {src : ℕ} {hsrc : src ∈ t.documents.map (·.id)} {link : Link} :
    (t.addLinkEdge src hsrc link).documents = t.documents := by
  rw [addLinkEdge]
  split_ifs <;> rfl

/-- Adds the edges to the links of a page, in order. -/
def addLinkEdges (t : Tables) (src : ℕ) (hsrc : src ∈ t.documents.map (·.id)) :
    List Link → Tables
  | [] => t
  | link :: links =>
      (t.addLinkEdge src hsrc link).addLinkEdges src (by rwa [documents_addLinkEdge]) links

section AddLinkEdges

variable {src : ℕ} {hsrc : src ∈ t.documents.map (·.id)} {links : List Link}

lemma documents_addLinkEdges : (t.addLinkEdges src hsrc links).documents = t.documents := by
  induction links generalizing t with
  | nil => rfl
  | cons link links ih => rw [addLinkEdges, ih, documents_addLinkEdge]

lemma key_mem_addLinkEdge {link : Link} :
    (src, link.url) ∈ (t.addLinkEdge src hsrc link).linkEdges.map LinkEdge.key := by
  rw [addLinkEdge]
  split_ifs with h
  · exact h
  · simp [LinkEdge.key]

lemma keys_subset_addLinkEdge {link : Link} :
    t.linkEdges.map LinkEdge.key ⊆ (t.addLinkEdge src hsrc link).linkEdges.map LinkEdge.key := by
  rw [addLinkEdge]
  split_ifs with h
  · exact List.Subset.refl _
  · rw [List.map_append]
    exact List.subset_append_left _ _

lemma keys_subset_addLinkEdges :
    t.linkEdges.map LinkEdge.key ⊆ (t.addLinkEdges src hsrc links).linkEdges.map LinkEdge.key := by
  induction links generalizing t with
  | nil => exact List.Subset.refl _
  | cons link links ih => exact List.Subset.trans keys_subset_addLinkEdge ih

/-- Every link of the page has its edge afterwards. -/
lemma key_mem_addLinkEdges {link : Link} (h : link ∈ links) :
    (src, link.url) ∈ (t.addLinkEdges src hsrc links).linkEdges.map LinkEdge.key := by
  induction links generalizing t with
  | nil => simp at h
  | cons l links ih =>
      rcases List.mem_cons.1 h with rfl | h
      · rw [addLinkEdges]
        exact keys_subset_addLinkEdges key_mem_addLinkEdge
      · exact ih h

/-- Edges that exist are not added again. -/
lemma addLinkEdges_of_mem
    (h : ∀ link ∈ links, (src, link.url) ∈ t.linkEdges.map LinkEdge.key) :
    t.addLinkEdges src hsrc links = t := by
  induction links with
  | nil => rfl
  | cons link links ih =>
      have hlink : t.addLinkEdge src hsrc link = t := by
        rw [addLinkEdge, dif_pos (h link (by simp))]
      simp only [addLinkEdges, hlink]
      exact ih fun l hl => h l (by simp [hl])

end AddLinkEdges

/-! ### `save_page` -/

/-- `SqlDocumentSink.save_page`: one transaction. -/
def savePage (t : Tables) (now : ℚ) (record : PageRecord) : Tables :=
  (t.upsertDocument now record).2.addLinkEdges (t.upsertDocument now record).1
    id_mem_upsertDocument record.links

/-- **The row of a page after it was saved.** -/
theorem document_savePage :
    (t.savePage now record).document record.url =
      some (writeColumns now record (t.baseRow now record)) := by
  rw [← document_upsertDocument, document, document, savePage, documents_addLinkEdges]

/-- The row of another URL stays as it is. -/
lemma document_savePage_of_ne {url : String} (hne : url ≠ record.url) :
    (t.savePage now record).document url = t.document url := by
  rw [document, savePage, documents_addLinkEdges, upsertDocument]
  split
  case h_1 row h =>
    have hrow : ∀ row : DocumentRow, row.url = url → writeRow now record row = row := by
      rintro row rfl
      rw [writeRow, if_neg hne]
    simp only [updateDocument, List.find?_map]
    rw [show ((fun row : DocumentRow => decide (row.url = url)) ∘ writeRow now record) =
      fun row : DocumentRow => decide (row.url = url) from funext fun row => by simp]
    cases hfind : t.documents.find? (·.url = url) with
    | none => simp [document, hfind]
    | some row =>
        have hurl : row.url = url := by simpa using List.find?_some hfind
        simp [document, hfind, hrow row hurl]
  case h_2 h =>
    simp only [insertDocument, List.find?_append]
    rw [List.find?_cons_of_neg (by simp [hne.symm]), List.find?_nil, Option.or_none, document]

/-- The row that a second save of the URL starts from. -/
lemma baseRow_savePage {now' : ℚ} {record' : PageRecord} (hurl : record'.url = record.url) :
    (t.savePage now record).baseRow now' record' =
      writeColumns now record (t.baseRow now record) := by
  rw [baseRow, hurl, document_savePage, Option.getD_some]

/-- A second save of the URL replaces the columns and leaves the rest of the row. -/
theorem document_savePage_savePage {now' : ℚ} {record' : PageRecord}
    (hurl : record'.url = record.url) :
    ((t.savePage now record).savePage now' record').document record.url =
      some (writeColumns now' record' (t.baseRow now record)) := by
  rw [← hurl, document_savePage, baseRow_savePage hurl, writeColumns_writeColumns]

/-- A second save of the URL, without new links, leaves the edges as they are. -/
theorem linkEdges_savePage_savePage {now' : ℚ} {record' : PageRecord}
    (hurl : record'.url = record.url) (hlinks : record'.links ⊆ record.links) :
    ((t.savePage now record).savePage now' record').linkEdges =
      (t.savePage now record).linkEdges := by
  have hid : ((t.savePage now record).upsertDocument now' record').1 =
      (t.upsertDocument now record).1 := by
    rw [upsertDocument_fst, baseRow_savePage hurl, writeColumns_id, upsertDocument_fst]
  rw [savePage, addLinkEdges_of_mem, linkEdges_upsertDocument]
  intro link hlink
  rw [linkEdges_upsertDocument, hid]
  exact key_mem_addLinkEdges (hlinks hlink)

end Tables

end WebCrawler
