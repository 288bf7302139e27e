import WebCrawler.Dedup.DedupService
import WebCrawler.Pipeline.Pipeline
import WebCrawler.Storage.ObjectStore
import WebCrawler.Storage.Tables

/-!
# Processing a page twice

Delivery is at least once, so that a page may be processed twice with the very same
response.  For a pipeline with the in-memory content dedup, an object store and the
SQL sink, the second run goes through the index, the bodies and the tables that the
first one has left behind.

The second run writes the same columns unless its verdict on the fingerprint differs
from the first one (`SameDocument`, `reprocess_sameDocument_iff`).  It does differ when
the page was seen for the first time: then the first run has registered the
fingerprint, the second run takes the page for a near-duplicate of itself, and it
overwrites the storage key and the out-degree of the document
(`reprocess_drops_storage_key`).
-/

namespace WebCrawler

open Lib

/-- The state of the storage side: the dedup index, the bodies and the tables. -/
structure Stores where
  index : Buckets := ∅
  bodies : Bodies := ∅
  tables : Tables := .empty

/-- `SqlDocumentSink`, at a given time. -/
def sqlDocumentSink (now : ℚ) : DocumentSink Stores where
  savePage record := fun w => .ok () { w with tables := w.tables.savePage now record }
  getValidators url := fun w =>
    .ok ((w.tables.document url).map fun d => (d.etag, d.lastModified)) w

namespace Pipeline

variable {ν : Type}

/-- A pipeline whose storage side is the in-memory content dedup, one of the object
stores and the SQL sink. -/
def withStores (P : Pipeline ν Stores) (D : InMemoryContentDedup) (backend : BodyBackend)
    (now : ℚ) : Pipeline ν Stores :=
  { P with
    contentDedup := some fun fingerprint =>
      zoom Stores.index (fun b w => { w with index := b }) (D.isDuplicate fingerprint)
    objectStore := some fun contentHash body contentType => fun w =>
      let stored := backend.put contentHash body contentType w.bodies
      .ok stored.1 { w with bodies := stored.2 }
    sink := sqlDocumentSink now }

variable {P : Pipeline ν Stores} {D : InMemoryContentDedup} {backend : BodyBackend} {now : ℚ}
  {item : FrontierItem} {response : FetchResult} {r : ProcessResult} {w w' : Stores}

/-! ### The record that is saved -/

/-- The storage key of the body, which is not stored for a near-duplicate. -/
def setStorageKey (backend : BodyBackend) (duplicate : Bool) (record : PageRecord) : PageRecord :=
  match record.contentHash with
  | none => record
  | some contentHash =>
      if duplicate then record
      else { record with storageKey := some (backend.storageKey contentHash) }

@[simp] lemma setStorageKey_url (duplicate : Bool) (record : PageRecord) :
    (setStorageKey backend duplicate record).url = record.url := by
  rw [setStorageKey]
  split
  · rfl
  · split_ifs <;> rfl

@[simp] lemma setStorageKey_links (duplicate : Bool) (record : PageRecord) :
    (setStorageKey backend duplicate record).links = record.links := by
  rw [setStorageKey]
  split
  · rfl
  · split_ifs <;> rfl

/-- The record of an HTML page. -/
def htmlRecord (P : Pipeline ν Stores) (item : FrontierItem) (response : FetchResult)
    (url domain : String) (parsed : ParsedPage) (fingerprint : ℕ) (duplicate : Bool) :
    PageRecord :=
  { P.newRecord item response url domain with
    title := parsed.title
    simhash := some fingerprint
    links := if duplicate then [] else parsed.links }

lemma storeBody_eq_ok {record record' : PageRecord} {duplicate : Bool}
    (h : ((P.withStores D backend now).storeBody response record duplicate).run w =
      .ok record' w') :
    record' = setStorageKey backend duplicate record ∧ w'.index = w.index ∧
      w'.tables = w.tables := by
  rw [storeBody] at h
  cases hc : record.contentHash with
  | none =>
      simp only [withStores, hc] at h
      obtain ⟨rfl, rfl⟩ := run_pure_eq_ok.1 h
      exact ⟨by rw [setStorageKey, hc], rfl, rfl⟩
  | some contentHash =>
      simp only [withStores, hc] at h
      split_ifs at h with hdup
      · obtain ⟨rfl, rfl⟩ := run_pure_eq_ok.1 h
        exact ⟨by simp [setStorageKey, hc, hdup], rfl, rfl⟩
      · obtain ⟨key, w₁, hput, hpure⟩ := run_bind_eq_ok.1 h
        obtain ⟨rfl, rfl⟩ := EStateM.Result.ok.inj hput
        obtain ⟨rfl, rfl⟩ := run_pure_eq_ok.1 hpure
        exact ⟨by simp [setStorageKey, hc, hdup, BodyBackend.put], rfl, rfl⟩

/-- What a run does with a response that is not an HTML page. -/
lemma storePage_plain (hplain : ¬ (response.isHtml ∧ response.body ≠ []))
    (h : ((P.withStores D backend now).storePage item response).run w = .ok r w') :
    ∃ url domain, P.canonical item response = .ok url ∧
      P.urls.registeredDomain url = .ok domain ∧
      w'.tables = w.tables.savePage now
        (setStorageKey backend false (P.newRecord item response url domain)) := by
  obtain ⟨url, domain, p, w₁, record, w₂, hurl, hdomain, hread, hbody, hsave, -⟩ :=
    storePage_parts h
  rw [readPage, if_neg hplain] at hread
  obtain ⟨rfl, rfl⟩ := run_pure_eq_ok.1 hread
  obtain ⟨rfl, -, htables⟩ := storeBody_eq_ok hbody
  obtain ⟨-, rfl⟩ := EStateM.Result.ok.inj hsave
  refine ⟨url, domain, hurl, hdomain, ?_⟩
  rw [← htables]
  rfl

/-- What a run does with an HTML page. -/
lemma storePage_html (hhtml : response.isHtml ∧ response.body ≠ [])
    (h : ((P.withStores D backend now).storePage item response).run w = .ok r w') :
    ∃ url domain parsed fingerprint duplicate, P.canonical item response = .ok url ∧
      P.urls.registeredDomain url = .ok domain ∧
      P.tools.parsePage url response.body = .ok parsed ∧
      P.tools.fingerprint response.body = .ok fingerprint ∧
      (D.isDuplicate fingerprint).run w.index = .ok duplicate w'.index ∧
      w'.tables = w.tables.savePage now
        (setStorageKey backend duplicate
          (P.htmlRecord item response url domain parsed fingerprint duplicate)) := by
  obtain ⟨url, domain, p, w₁, record, w₂, hurl, hdomain, hread, hbody, hsave, -⟩ :=
    storePage_parts h
  obtain ⟨hplain, -⟩ | ⟨-, parsed, hparsed, ⟨hnone, -⟩ |
    ⟨isDuplicate, fingerprint, duplicate, hdedup, hfingerprint, hdup, rfl⟩⟩ := readPage_eq_ok hread
  · exact absurd hhtml hplain
  · exact absurd hnone (by simp [withStores])
  obtain rfl := Option.some.inj hdedup
  obtain ⟨b, hverdict, rfl⟩ := run_zoom_eq_ok.1 hdup
  obtain ⟨rfl, hindex, htables⟩ := storeBody_eq_ok hbody
  obtain ⟨-, rfl⟩ := EStateM.Result.ok.inj hsave
  refine ⟨url, domain, parsed, fingerprint, duplicate, hurl, hdomain, hparsed, hfingerprint, ?_, ?_⟩
  · exact hindex ▸ hverdict
  · rw [← htables]
    rfl

end Pipeline

/-! ### Two runs -/

/-- The document of the URL, up to the time of its last crawl, and its link edges are
the same. -/
def SameDocument (url : String) (t t' : Tables) : Prop :=
  (t'.document url).map (·.ignoringTime) = (t.document url).map (·.ignoringTime) ∧
    ∀ row ∈ t.document url, t'.edgesFrom row.id = t.edgesFrom row.id

instance (url : String) (t t' : Tables) : Decidable (SameDocument url t t') :=
  inferInstanceAs (Decidable (_ ∧ _))

/-- A second save of a URL without new links keeps the document exactly if it writes
the same columns. -/
lemma sameDocument_savePage_iff {t : Tables} {now now' : ℚ} {record record' : PageRecord}
    (hurl : record'.url = record.url) (hlinks : record'.links ⊆ record.links) :
    SameDocument record.url (t.savePage now record)
        ((t.savePage now record).savePage now' record') ↔
      (writeColumns now' record' (t.baseRow now record)).ignoringTime =
        (writeColumns now record (t.baseRow now record)).ignoringTime := by
  rw [SameDocument, Tables.document_savePage_savePage hurl, Tables.document_savePage]
  simp only [Option.map_some, Option.some.injEq, Option.mem_def, and_iff_left_iff_imp]
  rintro - row -
  rw [Tables.edgesFrom, Tables.edgesFrom, Tables.linkEdges_savePage_savePage hurl hlinks]

namespace Pipeline

variable {ν : Type} {P : Pipeline ν Stores} {D : InMemoryContentDedup} {backend : BodyBackend}
  {now now₁ now₂ : ℚ} {item : FrontierItem} {response : FetchResult} {r r₁ r₂ : ProcessResult}
  {w w' w₁ w₂ : Stores}

/-- The response is an HTML page with a body whose fingerprint the index does not know,
and the index recognizes a fingerprint that it has registered. -/
def FirstSighting (P : Pipeline ν Stores) (D : InMemoryContentDedup) (index : Buckets)
    (response : FetchResult) : Prop :=
  response.isHtml = true ∧ response.body ≠ [] ∧ 0 ≤ D.threshold ∧
    ∀ fingerprint, P.tools.fingerprint response.body = .ok fingerprint → D.Fresh index fingerprint

/-- Without HTML both runs write the same columns. -/
lemma sameDocument_plain {url : String} (hurl : P.canonical item response = .ok url)
    (hplain : ¬ (response.isHtml ∧ response.body ≠ []))
    (h₁ : ((P.withStores D backend now₁).storePage item response).run w = .ok r₁ w₁)
    (h₂ : ((P.withStores D backend now₂).storePage item response).run w₁ = .ok r₂ w₂) :
    SameDocument url w₁.tables w₂.tables := by
  obtain ⟨url₁, domain, hurl₁, hdomain, htables⟩ := storePage_plain hplain h₁
  obtain ⟨url₂, domain', hurl₂, hdomain', htables'⟩ := storePage_plain hplain h₂
  obtain rfl := Except.ok.inj (hurl.symm.trans hurl₁)
  obtain rfl := Except.ok.inj (hurl.symm.trans hurl₂)
  obtain rfl := Except.ok.inj (hdomain.symm.trans hdomain')
  rw [htables', htables]
  have hsaved : (setStorageKey backend false (P.newRecord item response url domain)).url = url :=
    setStorageKey_url _ _
  nth_rewrite 1 [← hsaved]
  exact (sameDocument_savePage_iff rfl (List.Subset.refl _)).2 rfl

/-- The two verdicts decide whether both runs write the same columns. -/
lemma sameDocument_html_iff {url domain : String} {parsed : ParsedPage} {fingerprint : ℕ}
    {duplicate duplicate' : Bool} (hbody : response.body ≠ [])
    (hle : duplicate = true → duplicate' = true) {t : Tables} :
    SameDocument url
        (t.savePage now₁ (setStorageKey backend duplicate
          (P.htmlRecord item response url domain parsed fingerprint duplicate)))
        ((t.savePage now₁ (setStorageKey backend duplicate
          (P.htmlRecord item response url domain parsed fingerprint duplicate))).savePage now₂
          (setStorageKey backend duplicate'
            (P.htmlRecord item response url domain parsed fingerprint duplicate'))) ↔
      duplicate' = duplicate := by
  have hurl : ∀ d, (setStorageKey backend d
      (P.htmlRecord item response url domain parsed fingerprint d)).url = url :=
    fun d => setStorageKey_url _ _
  have hsave := @sameDocument_savePage_iff t now₁ now₂ _ _
    ((hurl duplicate').trans (hurl duplicate).symm) (by
      cases duplicate <;> cases duplicate' <;> simp_all [htmlRecord])
  rw [hurl duplicate] at hsave
  rw [hsave]
  refine ⟨?_, fun heq => by rw [heq]; rfl⟩
  intro heq
  -- the storage key tells the two verdicts apart
  have hkey := congrArg DocumentRow.storageKey heq
  cases duplicate <;> cases duplicate' <;>
    simp_all [DocumentRow.ignoringTime, writeColumns, setStorageKey, htmlRecord, newRecord]

/-- The storage part of two runs. -/
lemma sameDocument_storePage_iff
    (h₁ : ((P.withStores D backend now₁).storePage item response).run w = .ok r₁ w₁)
    (h₂ : ((P.withStores D backend now₂).storePage item response).run w₁ = .ok r₂ w₂) :
    ∃ url, P.canonical item response = .ok url ∧
      (SameDocument url w₁.tables w₂.tables ↔ ¬ P.FirstSighting D w.index response) := by
  by_cases hhtml : response.isHtml ∧ response.body ≠ []
  · obtain ⟨url, domain, parsed, fingerprint, duplicate, hurl, hdomain, hparse, hfp, hverdict,
      htables⟩ := storePage_html hhtml h₁
    obtain ⟨url', domain', parsed', fingerprint', duplicate', hurl', hdomain', hparse', hfp',
      hverdict', htables'⟩ := storePage_html hhtml h₂
    -- both runs see the same page and the same fingerprint, and differ in the verdict only
    obtain rfl := Except.ok.inj (hurl.symm.trans hurl')
    obtain rfl := Except.ok.inj (hdomain.symm.trans hdomain')
    obtain rfl := Except.ok.inj (hparse.symm.trans hparse')
    obtain rfl := Except.ok.inj (hfp.symm.trans hfp')
    have hagain := InMemoryContentDedup.isDuplicate_again hverdict hverdict'
    have hfresh := InMemoryContentDedup.fresh_iff hverdict
    have hfirst : P.FirstSighting D w.index response ↔ 0 ≤ D.threshold ∧ duplicate = false := by
      rw [FirstSighting, ← hfresh]
      refine ⟨fun h => ⟨h.2.2.1, h.2.2.2 fingerprint hfp⟩, fun h => ⟨hhtml.1, hhtml.2, h.1, ?_⟩⟩
      intro f hf
      rw [hfp, Except.ok.injEq] at hf
      exact hf ▸ h.2
    refine ⟨url, hurl, ?_⟩
    rw [htables', htables, sameDocument_html_iff hhtml.2 (by simp_all), hagain, hfirst]
    cases duplicate <;> simp
  · obtain ⟨url, domain, hurl, -⟩ := storePage_plain hhtml h₁
    refine ⟨url, hurl, fun _ hfirst => hhtml ⟨hfirst.1, hfirst.2.1⟩, ?_⟩
    intro _
    exact sameDocument_plain hurl hhtml h₁ h₂

/-- The SQL sink reads the validators without changing anything. -/
lemma conditionalHeaders_eq_ok {url : String} {headers : List (String × String)}
    (h : ((P.withStores D backend now).conditionalHeaders url).run w = .ok headers w') :
    w' = w := by
  refine conditionalHeaders_state ?_ h
  intro lookup v w₁ w₂ hget
  exact (EStateM.Result.ok.inj hget).2.symm

/-- A run that has stored a page got the response and went through the storage part. -/
lemma storePage_of_process {c : Readings} {s s' : PipelineState ν Stores}
    (hfetch : ∀ url headers n x n', (P.fetch url headers).run n = .ok x n' → x = response)
    (h : ((P.withStores D backend now).process c item).run s = .ok r s')
    (hstored : r.stored = true) :
    ((P.withStores D backend now).storePage item response).run s.store = .ok r s'.store := by
  cases processed_of_process h with
  | robots => exact absurd hstored (by simp)
  | circuitOpen => exact absurd hstored (by simp)
  | budgetExhausted => exact absurd hstored (by simp)
  | fetchError => exact absurd hstored (by simp)
  | notModified => exact absurd hstored (by simp)
  | stored hcircuit hheaders hresponse herr h304 hstore =>
      rw [hfetch _ _ _ _ _ hresponse, conditionalHeaders_eq_ok hheaders] at hstore
      exact hstore

/-- **Processing a page twice.**  Two runs that store the very same response leave the
same document and link edges as the first of them, exactly unless the first run saw
the page for the first time. -/
theorem reprocess_sameDocument_iff {c₁ c₂ : Readings} {s s₁ s₂ : PipelineState ν Stores}
    (hfetch : ∀ url headers n x n', (P.fetch url headers).run n = .ok x n' → x = response)
    (h₁ : ((P.withStores D backend now₁).process c₁ item).run s = .ok r₁ s₁)
    (hstored₁ : r₁.stored = true)
    (h₂ : ((P.withStores D backend now₂).process c₂ item).run s₁ = .ok r₂ s₂)
    (hstored₂ : r₂.stored = true) :
    ∃ url, P.canonical item response = .ok url ∧
      (SameDocument url s₁.store.tables s₂.store.tables ↔
        ¬ P.FirstSighting D s.store.index response) :=
  sameDocument_storePage_iff (storePage_of_process hfetch h₁ hstored₁)
    (storePage_of_process hfetch h₂ hstored₂)

/-! ### A page and a text file -/

/-- The bytes of `<a href="/b">b</a>`. -/
def linkPage : List UInt8 :=
  [60, 97, 32, 104, 114, 101, 102, 61, 34, 47, 98, 34, 62, 98, 60, 47, 97, 62]

/-- The answers of the libraries on `linkPage` and on the two letters `hi`. -/
def linkPageTools : PageTools where
  parsePage _ body :=
    .ok { links :=
      if body = linkPage then [{ url := "http://a.org/b", anchor := some "b" }] else [] }
  extractText body := .ok (if body = linkPage then "b" else "hi")
  sha256 body :=
    if body = linkPage then "0c6c6379523de3308eae9d7e98740511a6d5012be7cd36b6288e3c4797441b37"
    else "8f434346648f6b96df89dda901c5176b10a6d83961dd3c1ac88b59b2dc327aa4"
  tokenizer := { tokens := fun text => [text], tokenHash := fun _ => 9543904841865449333 }

/-- A pipeline without guards that gets the same response every time. -/
def answering (response : FetchResult) : Pipeline Unit Stores where
  urls := plainUrls
  tools := linkPageTools
  fetch _ _ := pure response
  sink := sqlDocumentSink 0

/-- A text file. -/
def textResponse : FetchResult where
  finalUrl := "http://a.org/"
  status := 200
  body := [104, 105]
  contentType := some "text/plain"

/-- An HTML page with one link. -/
def htmlResponse : FetchResult where
  finalUrl := "http://a.org/"
  status := 200
  body := linkPage
  contentType := some "text/html"

lemma fetch_answering (response : FetchResult) : ∀ url headers n x n',
    ((answering response).fetch url headers).run n = .ok x n' → x = response :=
  fun _ _ _ _ _ h => (run_pure_eq_ok.1 h).1.symm

/-- The state that the first sighting of the HTML page leaves behind. -/
def sightedHtml : PipelineState Unit Stores :=
  finalState ((((answering htmlResponse).withStores {} .postgres 0).process ⟨0, 0⟩
    { url := "http://a.org/" }).run ⟨{}, (), {}⟩)

/-- A text file that is processed twice, and an HTML page that is processed twice more after
its first sighting. -/
theorem reprocess_textResponse :
    (∃ r₁ s₁ r₂ s₂,
      (((answering textResponse).withStores {} .postgres 0).process ⟨0, 0⟩
        { url := "http://a.org/" }).run ⟨{}, (), {}⟩ = .ok r₁ s₁ ∧
      (((answering textResponse).withStores {} .postgres 1).process ⟨1, 1⟩
        { url := "http://a.org/" }).run s₁ = .ok r₂ s₂ ∧
      SameDocument "http://a.org/" s₁.store.tables s₂.store.tables) ∧
    ∃ r₁ s₁ r₂ s₂,
      (((answering htmlResponse).withStores {} .postgres 1).process ⟨1, 1⟩
        { url := "http://a.org/" }).run sightedHtml = .ok r₁ s₁ ∧
      (((answering htmlResponse).withStores {} .postgres 2).process ⟨2, 2⟩
        { url := "http://a.org/" }).run s₁ = .ok r₂ s₂ ∧
      SameDocument "http://a.org/" s₁.store.tables s₂.store.tables := by
  refine ⟨⟨_, _, _, _, rfl, rfl, ?_⟩, _, _, _, _, rfl, rfl, ?_⟩
  · obtain ⟨url, hurl, hiff⟩ := @reprocess_sameDocument_iff Unit (answering textResponse) {}
      .postgres 0 1 { url := "http://a.org/" } textResponse _ _ ⟨0, 0⟩ ⟨1, 1⟩ ⟨{}, (), {}⟩ _ _
      (fetch_answering _) rfl rfl rfl rfl
    obtain rfl : "http://a.org/" = url := Except.ok.inj hurl
    exact hiff.2 fun hfirst => absurd hfirst.1 (by decide)
  · obtain ⟨url, hurl, hiff⟩ := @reprocess_sameDocument_iff Unit (answering htmlResponse) {}
      .postgres 1 2 { url := "http://a.org/" } htmlResponse _ _ ⟨1, 1⟩ ⟨2, 2⟩ sightedHtml _ _
      (fetch_answering _) rfl rfl rfl rfl
    obtain rfl : "http://a.org/" = url := Except.ok.inj hurl
    -- the first sighting has registered the fingerprint
    have hknown : ¬ InMemoryContentDedup.Fresh {} sightedHtml.store.index 9543904841865449333 := by
      intro hfresh
      exact absurd (hfresh _ rfl) (by decide)
    exact hiff.2 fun hfirst => hknown (hfirst.2.2.2 _ (by decide))

/-- **A page that is processed twice loses its body and its out-degree.**  The second
run finds the fingerprint that the first one has registered. -/
theorem reprocess_drops_storage_key :
    htmlResponse.error = none ∧ htmlResponse.status ≠ 304 ∧
    ∃ r₁ s₁ r₂ s₂,
      (((answering htmlResponse).withStores {} .postgres 0).process ⟨0, 0⟩
        { url := "http://a.org/" }).run ⟨{}, (), {}⟩ = .ok r₁ s₁ ∧
      (((answering htmlResponse).withStores {} .postgres 1).process ⟨1, 1⟩
        { url := "http://a.org/" }).run s₁ = .ok r₂ s₂ ∧
      ((s₁.store.tables.document "http://a.org/").map fun d => (d.storageKey, d.outDegree)) =
        some (some "pg:0c6c6379523de3308eae9d7e98740511a6d5012be7cd36b6288e3c4797441b37", 1) ∧
      ((s₂.store.tables.document "http://a.org/").map fun d => (d.storageKey, d.outDegree)) =
        some (none, 0) ∧
      ¬ SameDocument "http://a.org/" s₁.store.tables s₂.store.tables := by
  refine ⟨rfl, by decide, _, _, _, _, rfl, rfl, by decide, by decide, by decide⟩

end Pipeline

end WebCrawler
