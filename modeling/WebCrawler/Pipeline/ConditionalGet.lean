import WebCrawler.Lib.Machine
import WebCrawler.Pipeline.Bodies
import WebCrawler.Pipeline.Recrawl

/-!
# A page that has not changed

With `conditional_get` the pipeline sends the validators of the stored version, and a 304 ends the
call: nothing is downloaded, parsed or written.  This is as good as a download if the row then says
of the page what the current version says.

It does for pages that are answered under their own URL, if a 304 is only the answer to a request
for the current version and versions of a page that differ in what is stored of them have
different validators (`Origin`); other headers, such as a date, may differ from answer to answer.
After every call that has fetched a page, the row is the one of the version that the server has at
that moment, whether the answer was a download or a 304 (`fetched_row_current`).  Between the
calls the pages may change in any way, and any call may raise, also after a write.
-/

namespace WebCrawler

open Lib

/-- The validators of a version of a page. -/
def FetchResult.validators (version : FetchResult) : Option String × Option String :=
  (version.header "ETag", version.header "Last-Modified")

/-- What is stored of a version: its status, type, body and validators. -/
def FetchResult.recorded (version : FetchResult) :
    ℤ × Option String × List UInt8 × Option String × Option String :=
  (version.status, version.contentType, version.body, version.validators)

lemma FetchResult.isHtml_congr {version version' : FetchResult}
    (h : version.contentType = version'.contentType) : version.isHtml = version'.isHtml := by
  unfold FetchResult.isHtml
  rw [h]

/-- A request with these headers asks for the version.  The time is looked at only if there is no
entity tag. -/
def Validates (headers : List (String × String)) (version : FetchResult) : Prop :=
  (∃ etag, ("If-None-Match", etag) ∈ headers ∧ version.header "ETag" = some etag) ∨
    ∃ time, ("If-Modified-Since", time) ∈ headers ∧
      (∀ etag, ("If-None-Match", etag) ∉ headers) ∧ version.header "Last-Modified" = some time

lemma not_validates_nil (version : FetchResult) : ¬ Validates [] version := by
  rintro (⟨_, h, -⟩ | ⟨_, h, -⟩)
  · exact absurd h (by simp)
  · exact absurd h (by simp)

namespace Pipeline

variable {ν ω : Type}

/-- The servers of the pages: `current` is the version that a page has in a state of the network.
The page is answered under its own URL; an answer is the current version, or a 304 if the request
asks for that; and a request with the validators of a version asks for no version of which something
else is stored. -/
structure Origin (P : Pipeline ν ω) (current : ν → String → FetchResult) (pages : Set String) :
    Prop where
  lookup : ∀ url ∈ pages, P.lookupUrl url = .ok url
  own : ∀ n, ∀ item : FrontierItem, item.url ∈ pages →
    P.canonical item (current n item.url) = .ok item.url
  fetch : ∀ url ∈ pages, ∀ headers n response n', (P.fetch url headers).run n = .ok response n' →
    response.error = none → response = current n' url ∧ response.status ≠ 304 ∨
      response.status = 304 ∧ Validates headers (current n' url)
  strong : ∀ url ∈ pages, ∀ n n',
    Validates (validatorHeaders (some (current n url).validators)) (current n' url) →
      (current n url).recorded = (current n' url).recorded

/-- The sink writes the tables and reads the validators from them.  A save that raises may have
taken effect; the other collaborators leave the tables alone. -/
structure WritesTables (P : Pipeline ν ω) (tablesOf : ω → Tables) : Prop where
  put : ∀ put ∈ P.objectStore, ∀ contentHash body contentType t,
    Preserves (fun w => tablesOf w = t) (put contentHash body contentType)
  isDuplicate : ∀ isDuplicate ∈ P.contentDedup, ∀ fingerprint t,
    Preserves (fun w => tablesOf w = t) (isDuplicate fingerprint)
  getValidators : ∀ url t, Preserves (fun w => tablesOf w = t) (P.sink.getValidators url)
  validators : ∀ url w v w', (P.sink.getValidators url).run w = .ok v w' →
    v = ((tablesOf w).document url).map fun row => (row.etag, row.lastModified)
  save_ok : ∀ record w u w', (P.sink.savePage record).run w = .ok u w' →
    ∃ now, tablesOf w' = (tablesOf w).savePage now record
  save_error : ∀ record w e w', (P.sink.savePage record).run w = .error e w' →
    tablesOf w' = tablesOf w ∨ ∃ now, tablesOf w' = (tablesOf w).savePage now record

/-! ### Rows of a version -/

variable (P : Pipeline ν ω)

/-- The record says of the page what the version says.  The links are those of the page unless
near-duplicates are looked for. -/
structure RecordOf (version : FetchResult) (record : PageRecord) : Prop where
  httpStatus : record.httpStatus = some version.status
  contentType : record.contentType = version.contentType
  contentLength : record.contentLength = some version.body.length
  contentHash : record.contentHash =
    if version.body = [] then none else some (P.tools.sha256 version.body)
  validators : (record.etag, record.lastModified) = version.validators
  plain : ¬ (version.isHtml ∧ version.body ≠ []) → record.title = none ∧ record.links = []
  html : version.isHtml ∧ version.body ≠ [] → ∃ parsed,
    P.tools.parsePage record.url version.body = .ok parsed ∧ record.title = parsed.title ∧
      (P.contentDedup = none → record.links = parsed.links)

/-- The row was written for the version, and its links are edges. -/
def RowOf (t : Tables) (version : FetchResult) (row : DocumentRow) : Prop :=
  ∃ record now base, P.RecordOf version record ∧ row = writeColumns now record base ∧
    base.url = record.url ∧ ∀ link ∈ record.links, link.url ∈ t.targets row.id

/-- The rows of the pages are those of versions that the pages have in some state of the network. -/
def RowsOf (current : ν → String → FetchResult) (pages : Set String) (t : Tables) : Prop :=
  ∀ row ∈ t.documents, row.url ∈ pages → ∃ n, P.RowOf t (current n row.url) row

/-- What happens between a crawler and its pages: the network gets into another state, or the
crawler processes a page. -/
inductive RecrawlAct (ν : Type)
  | world (net : ν)
  | process (c : Readings) (item : FrontierItem)

/-- One call of `process` after the other; what it raises is caught. -/
def recrawls (start : PipelineState ν ω) : Machine (PipelineState ν ω) (RecrawlAct ν) where
  init := start
  step s
    | .world net => some { s with net := net }
    | .process c item => some (finalState ((P.process c item).run s))

/-- Only these pages are requested. -/
def Requests (pages : Set String) (_ : PipelineState ν ω) : RecrawlAct ν → Prop
  | .world _ => True
  | .process _ item => item.url ∈ pages

variable {P} {current : ν → String → FetchResult} {pages : Set String} {tablesOf : ω → Tables}
  {t : Tables} {version response : FetchResult} {record : PageRecord} {row : DocumentRow}
  {item : FrontierItem} {c : Readings}

/-- A record is one of every version of which the same is stored. -/
lemma RecordOf.congr {version' : FetchResult} (h : P.RecordOf version record)
    (heq : version.recorded = version'.recorded) : P.RecordOf version' record := by
  simp only [FetchResult.recorded, Prod.mk.injEq] at heq
  obtain ⟨hstatus, htype, hbody, hvalidators⟩ := heq
  have hhtml := FetchResult.isHtml_congr htype
  obtain ⟨h₁, h₂, h₃, h₄, h₅, h₆, h₇⟩ := h
  rw [hstatus] at h₁
  rw [htype] at h₂
  rw [hbody] at h₃ h₄
  rw [hvalidators] at h₅
  rw [hhtml, hbody] at h₆ h₇
  exact ⟨h₁, h₂, h₃, h₄, h₅, h₆, h₇⟩

lemma RowOf.congr {version' : FetchResult} (h : P.RowOf t version row)
    (heq : version.recorded = version'.recorded) : P.RowOf t version' row := by
  obtain ⟨record, now, base, hrecord, hrest⟩ := h
  exact ⟨record, now, base, hrecord.congr heq, hrest⟩

/-- A row keeps its version when edges are added. -/
lemma RowOf.mono {t' : Tables} (h : P.RowOf t version row)
    (hsub : t.targets row.id ⊆ t'.targets row.id) : P.RowOf t' version row := by
  obtain ⟨record, now, base, hrecord, hrow, hurl, hlinks⟩ := h
  exact ⟨record, now, base, hrecord, hrow, hurl, fun link hlink => hsub (hlinks link hlink)⟩

lemma RowOf.validators (h : P.RowOf t version row) :
    (row.etag, row.lastModified) = version.validators := by
  obtain ⟨record, now, base, hrecord, rfl, -, -⟩ := h
  exact hrecord.validators

/-- The row that a save writes. -/
lemma rowOf_savePage (h : P.RecordOf version record) (now : ℚ) :
    P.RowOf (t.savePage now record) version (writeColumns now record (t.baseRow now record)) := by
  refine ⟨record, now, t.baseRow now record, h, rfl, Tables.baseRow_url, ?_⟩
  intro link hlink
  rw [Tables.targets_savePage, writeColumns_id, if_pos rfl]
  exact Finset.mem_union_right _ (List.mem_toFinset.2 (List.mem_map_of_mem hlink))

lemma RowsOf.savePage {n : ν} (h : P.RowsOf current pages t) (now : ℚ)
    (hrecord : P.RecordOf (current n record.url) record) :
    P.RowsOf current pages (t.savePage now record) := by
  intro row hrow hpage
  rcases Tables.mem_documents_savePage.1 hrow with rfl | ⟨hold, -⟩
  · refine ⟨n, ?_⟩
    rw [writeColumns_url, Tables.baseRow_url]
    exact rowOf_savePage hrecord now
  · obtain ⟨m, hm⟩ := h row hold hpage
    refine ⟨m, hm.mono ?_⟩
    rw [Tables.targets_savePage]
    split_ifs
    · exact Finset.subset_union_left
    · exact Finset.Subset.refl _

/-! ### What `storePage` writes -/

/-- The record that is saved for a response. -/
lemma recordOf_storePage {url domain : String} {p : PageRecord × Bool} {record : PageRecord}
    {w w₁ w₂ : ω}
    (hread : (P.readPage response (P.newRecord item response url domain)).run w = .ok p w₁)
    (hbody : (P.storeBody response p.1 p.2).run w₁ = .ok record w₂) :
    P.RecordOf response record ∧ record.url = url := by
  have hp : P.RecordOf response p.1 ∧ p.1.url = url := by
    rcases readPage_eq_ok hread with ⟨hplain, -, rfl⟩ | ⟨hhtml, parsed, hparsed, hcases⟩
    · exact ⟨⟨rfl, rfl, rfl, rfl, rfl, fun _ => ⟨rfl, rfl⟩, fun h => absurd h hplain⟩, rfl⟩
    · rcases hcases with ⟨-, -, rfl⟩ | ⟨_, _, _, hdedup, -, -, rfl⟩
      · exact ⟨⟨rfl, rfl, rfl, rfl, rfl, fun h => absurd hhtml h,
          fun _ => ⟨parsed, hparsed, rfl, fun _ => rfl⟩⟩, rfl⟩
      · exact ⟨⟨rfl, rfl, rfl, rfl, rfl, fun h => absurd hhtml h,
          fun _ => ⟨parsed, hparsed, rfl, fun hnone => by simp [hdedup] at hnone⟩⟩, rfl⟩
  rcases storeBody_cases hbody with ⟨-, rfl⟩ | ⟨_, _, key, -, -, rfl⟩
  · exact hp
  · obtain ⟨⟨h₁, h₂, h₃, h₄, h₅, h₆, h₇⟩, hurl⟩ := hp
    exact ⟨⟨h₁, h₂, h₃, h₄, h₅, h₆, h₇⟩, hurl⟩

section Sink

variable (hW : P.WritesTables tablesOf)
include hW

lemma preserves_tables_conditionalHeaders (url : String) (t : Tables) :
    Preserves (fun w => tablesOf w = t) (P.conditionalHeaders url) := by
  rw [conditionalHeaders]
  split_ifs
  · refine (preserves_ofExcept _).bind ?_
    intro _ normalized _ _
    refine (hW.getValidators _ t).bind ?_
    intro _ v _ _
    cases v with
    | none => exact preserves_pure _
    | some v => exact preserves_pure _
  · exact preserves_pure _

lemma preserves_tables_readPage (record : PageRecord) (t : Tables) :
    Preserves (fun w => tablesOf w = t) (P.readPage response record) := by
  rw [readPage]
  split_ifs
  · refine (preserves_ofExcept _).bind ?_
    intro _ parsed _ _
    cases hd : P.contentDedup with
    | none => exact preserves_pure _
    | some isDuplicate =>
        refine (preserves_ofExcept _).bind ?_
        intro _ fingerprint _ _
        exact (hW.isDuplicate isDuplicate hd fingerprint t).bind fun _ _ _ _ => preserves_pure _
  · exact preserves_pure _

lemma preserves_tables_storeBody (record : PageRecord) (duplicate : Bool) (t : Tables) :
    Preserves (fun w => tablesOf w = t) (P.storeBody response record duplicate) := by
  rw [storeBody]
  split
  · next put contentHash hput _ =>
    split_ifs
    · exact preserves_pure _
    · exact (hW.put put hput _ _ _ t).bind fun _ _ _ _ => preserves_pure _
  · exact preserves_pure _

/-- The tables after `storePage`, wherever it stops: a save of the record that was made for the
response, or nothing. -/
lemma tables_storePage {w w' : ω} (h : Ends (P.storePage item response) w w') :
    tablesOf w' = tablesOf w ∨ ∃ url domain p record w₁ w₂ now,
      P.canonical item response = .ok url ∧
      (P.readPage response (P.newRecord item response url domain)).run w = .ok p w₁ ∧
      (P.storeBody response p.1 p.2).run w₁ = .ok record w₂ ∧
      tablesOf w' = (tablesOf w).savePage now record := by
  rw [storePage] at h
  rcases h.of_bind with ⟨e, herr⟩ | ⟨url, w₀, hok, h⟩
  · exact Or.inl ((preserves_ofExcept (I := fun v => tablesOf v = tablesOf w) _ w rfl).2 e w' herr)
  obtain ⟨hurl, rfl⟩ := run_ofExcept_eq_ok.1 hok
  rcases h.of_bind with ⟨e, herr⟩ | ⟨domain, w₀, hok, h⟩
  · exact Or.inl ((preserves_ofExcept (I := fun v => tablesOf v = tablesOf w) _ w rfl).2 e w' herr)
  obtain ⟨-, rfl⟩ := run_ofExcept_eq_ok.1 hok
  rcases h.of_bind with ⟨e, hread⟩ | ⟨p, w₁, hread, h⟩
  · exact Or.inl ((preserves_tables_readPage hW _ _ w rfl).2 e w' hread)
  · have h₁ := (preserves_tables_readPage hW _ _ w rfl).1 p w₁ hread
    rcases h.of_bind with ⟨e, hbody⟩ | ⟨record, w₂, hbody, h⟩
    · exact Or.inl ((preserves_tables_storeBody hW _ _ _ w₁ h₁).2 e w' hbody)
    · have h₂ := (preserves_tables_storeBody hW _ _ _ w₁ h₁).1 record w₂ hbody
      rcases h.of_bind with ⟨e, hsave⟩ | ⟨u, w₃, hsave, h⟩
      · rcases hW.save_error _ _ _ _ hsave with hsame | ⟨now, hsaved⟩
        · exact Or.inl (hsame.trans h₂)
        · exact Or.inr ⟨url, domain, p, record, w₁, w₂, now, hurl, hread, hbody,
          by rw [hsaved, h₂]⟩
      · obtain ⟨now, hsaved⟩ := hW.save_ok _ _ _ _ hsave
        obtain rfl := h.of_pure
        exact Or.inr ⟨url, domain, p, record, w₁, w₂, now, hurl, hread, hbody,
          by rw [hsaved, h₂]⟩

/-- Storing the current version of a page. -/
lemma preserves_rowsOf_storePage (hO : P.Origin current pages) {n : ν}
    (hitem : item.url ∈ pages) (hresponse : response = current n item.url) :
    Preserves (fun w => P.RowsOf current pages (tablesOf w)) (P.storePage item response) := by
  have hcanonical : P.canonical item response = .ok item.url := by
    rw [hresponse, hO.own n item hitem]
  have hends : ∀ w w', P.RowsOf current pages (tablesOf w) →
      Ends (P.storePage item response) w w' → P.RowsOf current pages (tablesOf w') := by
    intro w w' hw h
    rcases tables_storePage hW h with hsame |
      ⟨url, domain, p, record, w₁, w₂, now, hurl, hread, hbody, hsaved⟩
    · rw [hsame]
      exact hw
    · obtain ⟨hrecord, rfl⟩ := recordOf_storePage hread hbody
      rw [hcanonical, Except.ok.injEq] at hurl
      rw [hsaved]
      have hversion : response = current n record.url := by
        rw [← hurl, hresponse]
      exact hw.savePage now (hversion ▸ hrecord)
  exact fun w hw => ⟨fun r w' h => hends w w' hw (Or.inl ⟨r, h⟩),
    fun e w' h => hends w w' hw (Or.inr ⟨e, h⟩)⟩

lemma preserves_rowsOf_process (hO : P.Origin current pages) (hitem : item.url ∈ pages) :
    Preserves (fun s => P.RowsOf current pages (tablesOf s.store)) (P.process c item) := by
  refine preserves_store_process (J := fun w => P.RowsOf current pages (tablesOf w))
    (.of_view fun t => preserves_tables_conditionalHeaders hW item.url t) ?_
  · intro headers n response n' hfetch herr h304
    rcases hO.fetch _ hitem _ _ _ _ hfetch herr with ⟨hcurrent, -⟩ | ⟨h, -⟩
    · exact preserves_rowsOf_storePage hW hO hitem hcurrent
    · exact absurd h h304

/-- **The rows of every run.** -/
lemma rowsOf_of_reachable (hO : P.Origin current pages) {start s : PipelineState ν ω}
    (hstart : (tablesOf start.store).documents = [])
    (h : (P.recrawls start).ReachableBy (Requests pages) s) :
    P.RowsOf current pages (tablesOf s.store) := by
  refine h.inv (I := fun s => P.RowsOf current pages (tablesOf s.store)) ?_ ?_
  · intro row hrow
    have hnil : (tablesOf start.store).documents = [] := hstart
    rw [show (P.recrawls start).init = start from rfl, hnil] at hrow
    exact absurd hrow (by simp)
  · intro s a t hs hrequest hstep
    cases a with
    | world net =>
        obtain rfl := Option.some.inj hstep
        exact hs
    | process c item =>
        obtain rfl := Option.some.inj hstep
        have hkeep := preserves_rowsOf_process (c := c) hW hO hrequest s hs
        cases hrun : (P.process c item).run s with
        | ok r s' => exact hkeep.1 r s' hrun
        | error e s' => exact hkeep.2 e s' hrun

end Sink

/-! ### After a fetch -/

/-- The answer that a call which has fetched a page got, in the state of the network that it
leaves behind. -/
lemma answer_of_fetched {s s' : PipelineState ν ω} {r : ProcessResult}
    (h : (P.process c item).run s = .ok r s') (hfetched : r.fetched = true) :
    ∃ headers w response n, (P.conditionalHeaders item.url).run s.store = .ok headers w ∧
      (P.fetch item.url headers).run n = .ok response s'.net ∧ response.error = none ∧
      ((response.status = 304 ∧ s'.store = w) ∨
        (response.status ≠ 304 ∧ (P.storePage item response).run w = .ok r s'.store)) := by
  obtain ⟨host, s₁, s₂, s₃, hhost, h₁, h₂, h₃, hrun⟩ := guards_of_fetched h hfetched
  have hstore : s₃.store = s.store := (checkBudget_eq_ok h₃).trans
    ((checkBreaker_eq_ok hhost h₂).2.1.trans (checkRobots_eq_ok h₁).2.1)
  obtain ⟨headers, s₄, h₄, h₄'⟩ := run_bind_eq_ok.1 hrun
  obtain ⟨response, s₅, h₅, h₅'⟩ := run_bind_eq_ok.1 h₄'
  obtain ⟨u, s₆, h₆, h₆'⟩ := run_bind_eq_ok.1 h₅'
  obtain ⟨w, hheaders, rfl⟩ := run_zoom_eq_ok.1 h₄
  obtain ⟨n, hslot, rfl⟩ := run_zoom_eq_ok.1 h₅
  obtain ⟨n₁, hfetch⟩ := fetchInSlot_eq_ok hslot
  obtain ⟨hnet, hstore₆⟩ := recordOutcome_eq_ok h₆
  rw [hstore] at hheaders
  split_ifs at h₆' with herr h304
  · obtain ⟨rfl, -⟩ := run_pure_eq_ok.1 h₆'
    exact absurd hfetched (by simp)
  · obtain ⟨-, rfl⟩ := run_pure_eq_ok.1 h₆'
    exact ⟨headers, w, response, n₁, hheaders, hnet ▸ hfetch, by simpa using herr,
      Or.inl ⟨h304, hstore₆⟩⟩
  · obtain ⟨w', hpage, rfl⟩ := run_zoom_eq_ok.1 h₆'
    rw [hstore₆] at hpage
    exact ⟨headers, w, response, n₁, hheaders, hnet ▸ hfetch, by simpa using herr,
      Or.inr ⟨h304, hpage⟩⟩

/-- The headers are those of the row, if there is one. -/
lemma headers_of_row (hW : P.WritesTables tablesOf) 
    (hlookup : P.lookupUrl item.url = .ok item.url) {headers : List (String × String)} {w w' : ω}
    (h : (P.conditionalHeaders item.url).run w = .ok headers w') (hne : headers ≠ []) :
    ∃ row, (tablesOf w).document item.url = some row ∧
      headers = validatorHeaders (some (row.etag, row.lastModified)) := by
  rw [conditionalHeaders] at h
  split_ifs at h
  · obtain ⟨normalized, hnormalized, h⟩ := run_ofExcept_bind_eq_ok.1 h
    obtain ⟨v, w₁, hget, h⟩ := run_bind_eq_ok.1 h
    have hv := hW.validators _ _ _ _ hget
    have hown : normalized.getD item.url = item.url := by
      rw [lookupUrl, hnormalized] at hlookup
      exact Except.ok.inj hlookup
    rw [hown] at hv
    cases hrow : (tablesOf w).document item.url with
    | none =>
        rw [hrow] at hv
        subst hv
        exact absurd (run_pure_eq_ok.1 h).1.symm hne
    | some row =>
        rw [hrow] at hv
        subst hv
        exact ⟨row, rfl, (run_pure_eq_ok.1 h).1.symm⟩
  · exact absurd (run_pure_eq_ok.1 h).1.symm hne

/-- **A page that was fetched is stored as it is**, also if the server has only answered that it
has not changed. -/
theorem fetched_row_current (hO : P.Origin current pages) (hW : P.WritesTables tablesOf)
    {start s s' : PipelineState ν ω} (hstart : (tablesOf start.store).documents = [])
    (h : (P.recrawls start).ReachableBy (Requests pages) s) (c : Readings) (item : FrontierItem)
    (hitem : item.url ∈ pages) {r : ProcessResult}
    (hprocess : (P.process c item).run s = .ok r s') (hfetched : r.fetched = true) :
    ∃ row, (tablesOf s'.store).document item.url = some row ∧
      P.RowOf (tablesOf s'.store) (current s'.net item.url) row := by
  obtain ⟨headers, w, response, n, hheaders, hfetch, herr, hcases⟩ :=
    answer_of_fetched hprocess hfetched
  have hw := (preserves_tables_conditionalHeaders hW item.url _ s.store rfl).1 headers w hheaders
  rcases hO.fetch _ hitem _ _ _ _ hfetch herr with ⟨hcurrent, h304⟩ | ⟨h304, hvalidates⟩
  · -- a download is stored
    obtain ⟨hnot, -⟩ | ⟨-, hpage⟩ := hcases
    · exact absurd hnot h304
    · obtain ⟨url, domain, p, w₁, record, w₂, hread, hbody, hsave, -, hurl⟩ :=
        storePage_saves hpage
      obtain ⟨hrecord, -⟩ := recordOf_storePage hread hbody
      obtain ⟨now, hsaved⟩ := hW.save_ok _ _ _ _ hsave
      have hown : record.url = item.url := by
        rw [hcurrent, hO.own _ _ hitem, Except.ok.injEq] at hurl
        exact hurl.symm
      refine ⟨writeColumns now record ((tablesOf w₂).baseRow now record), ?_, ?_⟩
      · rw [hsaved, ← hown]
        exact Tables.document_savePage
      · rw [hsaved, ← hcurrent]
        exact rowOf_savePage hrecord now
  · -- the row was there before, with the validators of the current version
    obtain ⟨-, hstore⟩ | ⟨hnot, -⟩ := hcases
    · have hne : headers ≠ [] := by
        rintro rfl
        exact not_validates_nil _ hvalidates
      obtain ⟨row, hrow, rfl⟩ := headers_of_row hW (hO.lookup _ hitem) hheaders hne
      obtain ⟨hmem, hurl⟩ := ((tablesOf s.store).document_eq_some).1 hrow
      obtain ⟨m, hm⟩ := rowsOf_of_reachable hW hO hstart h row hmem (hurl ▸ hitem)
      rw [hurl] at hm
      rw [hm.validators] at hvalidates
      rw [hstore, hw]
      exact ⟨row, hrow, hm.congr (hO.strong _ hitem m _ hvalidates)⟩
    · exact absurd h304 hnot

/-- The entity tags of the versions of a page that changes at noon. -/
def etagOf (hour : ℕ) : String := if hour < 12 then "v1" else "v2"

/-- The versions of the page, with the hour of the answer. -/
def versionOf (hour : ℕ) : FetchResult :=
  { textResponse with
    headers := [("Date", toString hour), ("ETag", etagOf hour)]
    body := if hour < 12 then linkPage else [104, 105] }

/-- A server of the page; the state of the network is the hour. -/
def revalidating : Pipeline ℕ Stores where
  urls := plainUrls
  tools := linkPageTools
  fetch _ headers := fun hour =>
    if ("If-None-Match", etagOf hour) ∈ headers then .ok notModifiedResponse hour
    else .ok (versionOf hour) hour
  sink := sqlDocumentSink 0
  conditionalGet := true

lemma header_versionOf (hour : ℕ) : (versionOf hour).header "ETag" = some (etagOf hour) := by
  have hdate : ¬ lower "Date" = lower "ETag" := by decide
  simp [FetchResult.header, versionOf, hdate]

lemma validators_versionOf (hour : ℕ) :
    (versionOf hour).validators = (some (etagOf hour), none) := by
  have hdate : ¬ lower "Date" = lower "Last-Modified" := by decide
  have hetag : ¬ lower "ETag" = lower "Last-Modified" := by decide
  rw [FetchResult.validators, header_versionOf]
  simp [FetchResult.header, versionOf, hdate, hetag]

lemma headers_versionOf (hour : ℕ) :
    validatorHeaders (some (versionOf hour).validators) =
      [("If-None-Match", etagOf hour)] := by
  rw [validators_versionOf, etagOf]
  split_ifs
  · rfl
  · rfl

lemma recorded_versionOf {hour hour' : ℕ} (h : etagOf hour = etagOf hour') :
    (versionOf hour).recorded = (versionOf hour').recorded := by
  have hnoon : hour < 12 ↔ hour' < 12 := by
    rw [etagOf, etagOf] at h
    split_ifs at h with h₁ h₂ h₂
    · exact iff_of_true h₁ h₂
    · exact absurd h (by decide)
    · exact absurd h (by decide)
    · exact iff_of_false h₁ h₂
  have hbody : (versionOf hour).body = (versionOf hour').body := by
    simp only [versionOf, hnoon]
  rw [FetchResult.recorded, FetchResult.recorded, validators_versionOf, validators_versionOf, h,
    hbody]
  rfl

lemma origin_revalidating :
    revalidating.Origin (fun hour _ => versionOf hour) {"http://a.org/"} where
  lookup := by
    rintro _ rfl
    rfl
  own := by
    rintro hour item hitem
    have hnormal : plainUrls.normalizeUrl "http://a.org/" = .ok (some "http://a.org/") := by decide
    have hfinal : (versionOf hour).finalUrl = "http://a.org/" := rfl
    rw [canonical, hfinal, show revalidating.urls = plainUrls from rfl, hnormal,
      Set.mem_singleton_iff.1 hitem]
    rfl
  fetch := by
    rintro _ rfl headers hour response hour' h -
    rw [show (revalidating.fetch "http://a.org/" headers).run hour =
      if ("If-None-Match", etagOf hour) ∈ headers then .ok notModifiedResponse hour
      else .ok (versionOf hour) hour from rfl] at h
    split_ifs at h with hmem
    · obtain ⟨rfl, rfl⟩ := EStateM.Result.ok.inj h
      exact Or.inr ⟨rfl, Or.inl ⟨_, hmem, header_versionOf hour⟩⟩
    · obtain ⟨rfl, rfl⟩ := EStateM.Result.ok.inj h
      refine Or.inl ⟨rfl, ?_⟩
      show (200 : ℤ) ≠ 304
      norm_num
  strong := by
    rintro _ rfl hour hour' h
    rw [headers_versionOf] at h
    rcases h with ⟨etag, hmem, htag⟩ | ⟨time, hmem, -⟩
    · rw [List.mem_singleton, Prod.mk.injEq] at hmem
      rw [header_versionOf, hmem.2, Option.some.injEq] at htag
      exact recorded_versionOf htag.symm
    · exact absurd hmem (by simp)

/-- A pipeline that only has the SQL sink on the storage side. -/
lemma writesTables_of_sink {P : Pipeline ν Stores} {now : ℚ} (hsink : P.sink = sqlDocumentSink now)
    (hput : P.objectStore = none) (hdedup : P.contentDedup = none) :
    P.WritesTables Stores.tables where
  put put h := absurd h (by simp [hput])
  isDuplicate isDuplicate h := absurd h (by simp [hdedup])
  getValidators url t w hw := by
    rw [hsink]
    refine ⟨?_, fun e w' h => by cases h⟩
    intro v w' h
    obtain ⟨-, rfl⟩ := EStateM.Result.ok.inj h
    exact hw
  validators url w v w' h := by
    rw [hsink] at h
    exact (EStateM.Result.ok.inj h).1.symm
  save_ok record w u w' h := by
    rw [hsink] at h
    obtain ⟨-, rfl⟩ := EStateM.Result.ok.inj h
    exact ⟨now, rfl⟩
  save_error record w e w' h := by
    rw [hsink] at h
    cases h

/-- The page is crawled, it changes, it is crawled again, and an hour later a third time. -/
theorem fetched_row_current_notModified :
    ∃ r s s' row, (revalidating.recrawls ⟨{}, 10, {}⟩).ReachableBy
        (Requests {"http://a.org/"}) s ∧
      (revalidating.process ⟨2, 2⟩ { url := "http://a.org/" }).run s = .ok r s' ∧
      r.skipped = some .notModified ∧
      s'.store.tables.document "http://a.org/" = some row ∧
      revalidating.RowOf s'.store.tables (versionOf 14) row := by
  have hreach : (revalidating.recrawls ⟨{}, 10, {}⟩).ReachableBy
      (Requests {"http://a.org/"}) _ :=
    .step (a := .world 14)
      (.step (a := .process ⟨1, 1⟩ { url := "http://a.org/" })
        (.step (a := .world 13)
          (.step (a := .process ⟨0, 0⟩ { url := "http://a.org/" }) .init rfl rfl) trivial rfl)
        rfl rfl) trivial rfl
  obtain ⟨row, hrow, hof⟩ := fetched_row_current origin_revalidating
    (writesTables_of_sink rfl rfl rfl) rfl hreach ⟨2, 2⟩ { url := "http://a.org/" } rfl rfl rfl
  exact ⟨_, _, _, row, hreach, rfl, rfl, hrow, hof⟩

end Pipeline

end WebCrawler
