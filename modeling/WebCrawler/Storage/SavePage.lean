import WebCrawler.Storage.Degrees

/-!
# Saving pages again and in another order

`SqlDocumentSink.save_page` of `crawler/storage/sinks.py`, which the delivery of a message
more than once rests on.

What the tables say up to the ids is a store with the documents keyed by URL and the anchors
of the edges keyed by the URL of their source and the URL that they lead to (`PageStore`).  A
save of the tables is a save of the store (`store_savePage`), which changes only what is under
the URL of the record, so that saves for different URLs commute.
-/

namespace WebCrawler

/-- A row without its id. -/
def DocumentRow.withoutId (row : DocumentRow) : DocumentRow := { row with id := 0 }

/-- A row without its times. -/
def DocumentRow.withoutTimes (row : DocumentRow) : DocumentRow :=
  { row with firstSeen := 0, lastCrawled := none }

/-- Documents and link edges by their keys. -/
@[ext] structure PageStore where
  /-- The document of a URL, without its id. -/
  document : String → Option DocumentRow
  /-- The anchor of the edge from a document to a URL. -/
  anchor : String → String → Option (Option String)

namespace PageStore

/-- The record of a page is saved. -/
def save (s : PageStore) (now : ℚ) (record : PageRecord) : PageStore where
  document :=
    Function.update s.document record.url
      (some (writeColumns now record ((s.document record.url).getD (newDocument 0 now record))))
  anchor src dst :=
    if src = record.url then
      (s.anchor src dst).or ((record.links.find? (·.url = dst)).map (·.anchor))
    else s.anchor src dst

/-- The documents without their times. -/
def withoutTimes (s : PageStore) : PageStore :=
  { s with document := fun url => (s.document url).map (·.withoutTimes) }

variable {s : PageStore} {now now' : ℚ} {record record' : PageRecord}

/-- **Saves for different URLs commute.** -/
theorem save_comm (hne : record.url ≠ record'.url) :
    (s.save now record).save now' record' = (s.save now' record').save now record := by
  refine PageStore.ext ?_ ?_
  · simp only [save, Function.update_of_ne hne, Function.update_of_ne hne.symm]
    exact Function.update_comm hne _ _ _
  · funext src dst
    simp only [save]
    by_cases hsrc : src = record.url
    · rw [if_neg fun hsrc' => hne (hsrc ▸ hsrc'), if_neg fun hsrc' => hne (hsrc ▸ hsrc')]
    · rw [if_neg hsrc, if_neg hsrc]

/-- The time of a save has no effect but on the times. -/
lemma withoutTimes_save (now now' : ℚ) :
    (s.save now record).withoutTimes = (s.withoutTimes.save now' record).withoutTimes := by
  refine PageStore.ext ?_ rfl
  funext url
  by_cases hurl : url = record.url
  · subst hurl
    simp only [withoutTimes, save, Function.update_self]
    cases s.document record.url with
    | none => rfl
    | some row => rfl
  · simp only [withoutTimes, save, Function.update_of_ne hurl, Option.map_map]
    rfl

/-- The times of two saves have no effect but on the times. -/
lemma withoutTimes_save_save (now₁ now₂ now₁' now₂' : ℚ) :
    ((s.save now₁ record).save now₂ record').withoutTimes =
      ((s.save now₁' record).save now₂' record').withoutTimes := by
  rw [withoutTimes_save now₂ 0, withoutTimes_save now₂' 0, withoutTimes_save now₁ 0,
    withoutTimes_save now₁' 0]

end PageStore

namespace Tables

variable {t : Tables} {now now' : ℚ} {record record' : PageRecord}

/-! ### The store of the tables -/

/-- The anchor of the edge with a key. -/
def anchorAt (t : Tables) (key : ℕ × String) : Option (Option String) :=
  (t.linkEdges.find? (·.key = key)).map (·.anchorText)

/-- The tables by their keys. -/
def store (t : Tables) : PageStore where
  document url := (t.document url).map (·.withoutId)
  anchor src dst := (t.document src).bind fun row => t.anchorAt (row.id, dst)

lemma anchorAt_addLinkEdge {src : ℕ} {hsrc : src ∈ t.documents.map (·.id)} {link : Link}
    (key : ℕ × String) :
    (t.addLinkEdge src hsrc link).anchorAt key =
      (t.anchorAt key).or (if key = (src, link.url) then some link.anchor else none) := by
  rw [addLinkEdge]
  split_ifs with hold hkey hkey
  · subst hkey
    -- the edge exists, and keeps its anchor
    obtain ⟨e, he, hekey⟩ := List.mem_map.1 hold
    cases hfind : t.linkEdges.find? (·.key = (src, link.url)) with
    | none => exact absurd (List.find?_eq_none.1 hfind e he) (by simpa using hekey)
    | some e' => simp [anchorAt, hfind]
  · rw [Option.or_none]
  · rw [anchorAt, anchorAt, List.find?_append, Option.map_or]
    simp [LinkEdge.key, hkey]
  · rw [anchorAt, anchorAt, List.find?_append, Option.map_or]
    simp [LinkEdge.key, Ne.symm hkey]

/-- The first link to a URL gives the anchor, unless there is an edge. -/
lemma anchorAt_addLinkEdges {src : ℕ} {hsrc : src ∈ t.documents.map (·.id)} {links : List Link}
    (key : ℕ × String) :
    (t.addLinkEdges src hsrc links).anchorAt key =
      (t.anchorAt key).or
        (if key.1 = src then (links.find? (·.url = key.2)).map (·.anchor) else none) := by
  induction links generalizing t with
  | nil => simp [addLinkEdges]
  | cons link links ih =>
      rw [addLinkEdges, ih, anchorAt_addLinkEdge, Option.or_assoc]
      congr 1
      by_cases hsrc' : key.1 = src
      · rw [if_pos hsrc', if_pos hsrc', List.find?_cons]
        by_cases hurl : link.url = key.2
        · rw [if_pos (Prod.ext hsrc' hurl.symm), decide_eq_true hurl]
          rfl
        · rw [if_neg fun hkey => hurl (congrArg Prod.snd hkey).symm, decide_eq_false hurl]
          rfl
      · rw [if_neg hsrc', if_neg hsrc', if_neg fun hkey => hsrc' (congrArg Prod.fst hkey)]
        rfl

/-- The edges after a save. -/
lemma anchorAt_savePage (key : ℕ × String) :
    (t.savePage now record).anchorAt key =
      (t.anchorAt key).or
        (if key.1 = (t.baseRow now record).id then
          (record.links.find? (·.url = key.2)).map (·.anchor)
        else none) := by
  rw [savePage, anchorAt_addLinkEdges, upsertDocument_fst]
  congr 1
  rw [anchorAt, linkEdges_upsertDocument, anchorAt]

/-- No edge starts at a document that is not there. -/
lemma anchorAt_nextId (dst : String) :
    t.anchorAt (nextId (t.documents.map (·.id)), dst) = none := by
  rw [anchorAt, Option.map_eq_none_iff, List.find?_eq_none]
  intro e he hkey
  have hsrc : e.srcDocumentId = nextId (t.documents.map (·.id)) :=
    congrArg Prod.fst (of_decide_eq_true hkey)
  exact nextId_notMem _ (hsrc ▸ t.edge_src e he)

/-- **A save of the tables is a save of the store.** -/
theorem store_savePage : (t.savePage now record).store = t.store.save now record := by
  refine PageStore.ext ?_ ?_
  · funext url
    by_cases hurl : url = record.url
    · subst hurl
      simp only [store, PageStore.save, Function.update_self, document_savePage, baseRow]
      cases t.document record.url with
      | none => rfl
      | some row => rfl
    · simp only [store, PageStore.save, Function.update_of_ne hurl, document_savePage_of_ne hurl]
  · funext src dst
    simp only [store, PageStore.save]
    by_cases hsrc : src = record.url
    · subst hsrc
      rw [if_pos rfl, document_savePage, Option.bind_some, anchorAt_savePage, writeColumns_id,
        if_pos rfl, baseRow]
      cases t.document record.url with
      | none =>
          rw [Option.getD_none, newDocument_id, anchorAt_nextId]
          rfl
      | some row => rfl
    · rw [if_neg hsrc, document_savePage_of_ne hsrc]
      cases hrow : t.document src with
      | none => rfl
      | some row =>
          obtain ⟨hmem, rfl⟩ := (t.document_eq_some).1 hrow
          rw [Option.bind_some, anchorAt_savePage, if_neg (id_ne_baseRow hmem hsrc),
            Option.or_none]
          rfl

/-! ### The store and the rows -/

/-- The URL of the document with an id. -/
def urlOf (t : Tables) (id : ℕ) : Option String := (t.documents.find? (·.id = id)).map (·.url)

/-- An edge with the URL of its source, without the ids. -/
def edgeByUrl (t : Tables) (e : LinkEdge) : Option String × String × Option String :=
  (t.urlOf e.srcDocumentId, e.dstUrl, e.anchorText)

/-- The tables have the same rows up to their order and to the ids. -/
def SameRows (t t' : Tables) : Prop :=
  (t.documents.map (·.withoutId)).Perm (t'.documents.map (·.withoutId)) ∧
    (t.linkEdges.map t.edgeByUrl).Perm (t'.linkEdges.map t'.edgeByUrl)

lemma urlOf_eq_some {id : ℕ} {url : String} :
    t.urlOf id = some url ↔ ∃ row ∈ t.documents, row.id = id ∧ row.url = url := by
  rw [urlOf, Option.map_eq_some_iff]
  constructor
  · rintro ⟨row, hfind, rfl⟩
    exact ⟨row, List.mem_of_find?_eq_some hfind, by simpa using List.find?_some hfind, rfl⟩
  · rintro ⟨row, hrow, rfl, rfl⟩
    cases hfind : t.documents.find? (·.id = row.id) with
    | none => exact absurd (List.find?_eq_none.1 hfind row hrow) (by simp)
    | some row' =>
        have hid : row'.id = row.id := by simpa using List.find?_some hfind
        refine ⟨row', rfl, ?_⟩
        rw [List.inj_on_of_nodup_map t.document_ids (List.mem_of_find?_eq_some hfind) hrow hid]

/-- The source of an edge has a URL. -/
lemma exists_urlOf {e : LinkEdge} (he : e ∈ t.linkEdges) :
    ∃ url, t.urlOf e.srcDocumentId = some url := by
  obtain ⟨row, hrow, hid⟩ := List.mem_map.1 (t.edge_src e he)
  exact ⟨row.url, urlOf_eq_some.2 ⟨row, hrow, hid, rfl⟩⟩

lemma anchorAt_eq_some {key : ℕ × String} {anchor : Option String} :
    t.anchorAt key = some anchor ↔ ∃ e ∈ t.linkEdges, e.key = key ∧ e.anchorText = anchor := by
  rw [anchorAt, Option.map_eq_some_iff]
  constructor
  · rintro ⟨e, hfind, rfl⟩
    exact ⟨e, List.mem_of_find?_eq_some hfind, by simpa using List.find?_some hfind, rfl⟩
  · rintro ⟨e, he, rfl, rfl⟩
    cases hfind : t.linkEdges.find? (·.key = e.key) with
    | none => exact absurd (List.find?_eq_none.1 hfind e he) (by simp)
    | some e' =>
        have hkey : e'.key = e.key := by simpa using List.find?_some hfind
        refine ⟨e', rfl, ?_⟩
        rw [List.inj_on_of_nodup_map t.edge_keys (List.mem_of_find?_eq_some hfind) he hkey]

/-- The store has the rows of the documents. -/
lemma mem_map_withoutId {row : DocumentRow} :
    row ∈ t.documents.map (·.withoutId) ↔ t.store.document row.url = some row := by
  simp only [store, Option.map_eq_some_iff, List.mem_map, document_eq_some]
  constructor
  · rintro ⟨row', hrow', rfl⟩
    exact ⟨row', ⟨hrow', rfl⟩, rfl⟩
  · rintro ⟨row', ⟨hrow', -⟩, heq⟩
    exact ⟨row', hrow', heq⟩

/-- The store has the edges. -/
lemma mem_map_edgeByUrl {src : Option String} {dst : String} {anchor : Option String} :
    (src, dst, anchor) ∈ t.linkEdges.map t.edgeByUrl ↔
      ∃ url, src = some url ∧ t.store.anchor url dst = some anchor := by
  simp only [List.mem_map, edgeByUrl, Prod.mk.injEq, store, Option.bind_eq_some_iff,
    document_eq_some, anchorAt_eq_some]
  constructor
  · rintro ⟨e, he, hsrc, rfl, rfl⟩
    obtain ⟨url, hurl⟩ := exists_urlOf he
    obtain ⟨row, hrow, hid, hrowurl⟩ := urlOf_eq_some.1 hurl
    exact ⟨url, hsrc.symm.trans hurl, row, ⟨hrow, hrowurl⟩, e, he, Prod.ext hid.symm rfl, rfl⟩
  · rintro ⟨url, rfl, row, ⟨hrow, rfl⟩, e, he, hkey, rfl⟩
    obtain ⟨hid, rfl⟩ := Prod.mk.inj hkey
    exact ⟨e, he, urlOf_eq_some.2 ⟨row, hrow, hid.symm, rfl⟩, rfl, rfl⟩

lemma nodup_map_withoutId (t : Tables) : (t.documents.map (·.withoutId)).Nodup := by
  refine List.Nodup.of_map (·.url) ?_
  rw [List.map_map]
  exact t.document_urls

lemma nodup_map_edgeByUrl (t : Tables) : (t.linkEdges.map t.edgeByUrl).Nodup := by
  refine List.Nodup.map_on ?_ t.edge_ids.of_map
  intro e he e' he' heq
  obtain ⟨hsrc, hdst⟩ := Prod.mk.inj heq
  obtain ⟨url, hurl⟩ := exists_urlOf he
  obtain ⟨row, hrow, hid, hrowurl⟩ := urlOf_eq_some.1 hurl
  obtain ⟨row', hrow', hid', hrowurl'⟩ := urlOf_eq_some.1 (hsrc ▸ hurl)
  -- the sources have the same URL, and so the same id
  have hrows : row = row' :=
    List.inj_on_of_nodup_map t.document_urls hrow hrow' (hrowurl.trans hrowurl'.symm)
  have hkey : e.key = e'.key :=
    Prod.ext (hid.symm.trans ((congrArg DocumentRow.id hrows).trans hid')) (Prod.mk.inj hdst).1
  exact List.inj_on_of_nodup_map t.edge_keys he he' hkey

/-- Tables with the same store have the same rows. -/
theorem sameRows_of_store_eq {t' : Tables} (h : t.store = t'.store) : t.SameRows t' := by
  constructor
  · refine (List.perm_ext_iff_of_nodup t.nodup_map_withoutId t'.nodup_map_withoutId).2 fun row => ?_
    rw [mem_map_withoutId, mem_map_withoutId, h]
  · refine (List.perm_ext_iff_of_nodup t.nodup_map_edgeByUrl t'.nodup_map_edgeByUrl).2 ?_
    rintro ⟨src, dst, anchor⟩
    rw [mem_map_edgeByUrl, mem_map_edgeByUrl, h]

/-! ### Saving again -/

/-- A second save of a record writes what is there, but for the time. -/
lemma documents_savePage_savePage :
    ((t.savePage now record).savePage now' record).documents.map (·.ignoringTime) =
      (t.savePage now record).documents.map (·.ignoringTime) := by
  have hdocument : (t.savePage now record).document record.url = some _ := document_savePage
  have hupsert : ((t.savePage now record).upsertDocument now' record).2.documents =
      (t.savePage now record).documents.map (writeRow now' record) := by
    rw [upsertDocument]
    split
    case h_1 row h => rfl
    case h_2 h => exact absurd (h.symm.trans hdocument) (by simp)
  rw [savePage, documents_addLinkEdges, hupsert, List.map_map]
  refine List.map_congr_left fun row hrow => ?_
  rw [Function.comp_apply, writeRow]
  rcases mem_documents_savePage.1 hrow with rfl | ⟨-, hne⟩
  · rw [writeColumns_url, if_pos baseRow_url, writeColumns_writeColumns]
    rfl
  · rw [if_neg hne]

/-- A save keeps the row of a URL, with what it does not write. -/
lemma exists_document_savePage {url : String} {row : DocumentRow}
    (hrow : t.document url = some row) :
    ∃ row', (t.savePage now record).document url = some row' ∧ row'.id = row.id ∧
      row'.registeredDomain = row.registeredDomain ∧ row'.firstSeen = row.firstSeen ∧
      row'.inDegree = row.inDegree := by
  by_cases hurl : url = record.url
  · subst hurl
    refine ⟨_, document_savePage, ?_⟩
    rw [baseRow, hrow]
    exact ⟨rfl, rfl, rfl, rfl⟩
  · exact ⟨row, (document_savePage_of_ne hurl).trans hrow, rfl, rfl, rfl, rfl⟩

/-- **Saves are idempotent and independent of their order.**  Saving a record twice gives the
same rows as saving it once, up to `last_crawled`; a save keeps the id, the registered domain,
`first_seen` and `in_degree` of every row that exists; and saves of records with different
URLs give the same rows in both orders, up to the ids, and whatever their times, up to the ids
and the times. -/
theorem savePage_spec (t : Tables) (record record' : PageRecord) (now now' : ℚ) :
    (((t.savePage now record).savePage now' record).documents.map (·.ignoringTime) =
        (t.savePage now record).documents.map (·.ignoringTime) ∧
      ((t.savePage now record).savePage now' record).linkEdges =
        (t.savePage now record).linkEdges) ∧
    (∀ url row, t.document url = some row →
      ∃ row', (t.savePage now record).document url = some row' ∧ row'.id = row.id ∧
        row'.registeredDomain = row.registeredDomain ∧ row'.firstSeen = row.firstSeen ∧
        row'.inDegree = row.inDegree) ∧
    (record.url ≠ record'.url →
      ((t.savePage now record).savePage now' record').SameRows
          ((t.savePage now' record').savePage now record) ∧
        ∀ now₁ now₂ : ℚ, ((t.savePage now record).savePage now' record').store.withoutTimes =
          ((t.savePage now₁ record').savePage now₂ record).store.withoutTimes) := by
  refine ⟨⟨documents_savePage_savePage,
    linkEdges_savePage_savePage rfl (List.Subset.refl _)⟩,
    fun url row hrow => exists_document_savePage hrow, fun hne => ?_⟩
  have hcomm : ((t.savePage now record).savePage now' record').store =
      ((t.savePage now' record').savePage now record).store := by
    simp only [store_savePage]
    exact PageStore.save_comm hne
  refine ⟨sameRows_of_store_eq hcomm, fun now₁ now₂ => ?_⟩
  rw [hcomm]
  simp only [store_savePage]
  exact PageStore.withoutTimes_save_save now' now now₁ now₂

/-- A page with two links to one URL. -/
def linkingPage : PageRecord where
  url := "http://a.org/"
  registeredDomain := "a.org"
  depth := 0
  links := [{ url := "http://b.org/", anchor := some "b" }, { url := "http://b.org/" }]

/-- The page that it links to. -/
def linkedPage : PageRecord where
  url := "http://b.org/"
  registeredDomain := "b.org"
  depth := 1

theorem savePage_spec_twoPages :
    ((({} : Tables).savePage 1 linkingPage).savePage 2 linkedPage).SameRows
      ((({} : Tables).savePage 2 linkedPage).savePage 1 linkingPage) :=
  ((savePage_spec {} linkingPage linkedPage 1 2).2.2 (by decide)).1

end Tables

end WebCrawler
