import WebCrawler.Pipeline.Validators

/-!
# Pages that are due for another crawl

`RecrawlRepository.select_stale` of `crawler/storage/repositories.py` and what the pipeline
does to the row of a page that it has selected.

The query leaves the order of rows with the same `last_crawled` open, so that its answer is
a relation, `SelectStale`; `selectStale` is the answer of a database that keeps the order of
the table.  Only a save of the page under its own URL writes `last_crawled`
(`recrawl_progress_iff`): a page that is answered with 304, or whose redirect leads to
another URL, is selected again at once.
-/

namespace WebCrawler

open Lib

/-- The key of the order of `select_stale`: pages that were never crawled come first. -/
def DocumentRow.crawlKey (row : DocumentRow) : WithBot ℚ := row.lastCrawled.elim ⊥ fun x => ↑x

/-- The page was never crawled, or before the cutoff. -/
def DocumentRow.IsStale (cutoff : ℚ) (row : DocumentRow) : Prop :=
  ∀ x ∈ row.lastCrawled, x < cutoff

instance (cutoff : ℚ) (row : DocumentRow) : Decidable (row.IsStale cutoff) :=
  inferInstanceAs (Decidable (∀ x ∈ row.lastCrawled, x < cutoff))

lemma DocumentRow.isStale_iff {cutoff : ℚ} {row : DocumentRow} :
    row.IsStale cutoff ↔ row.crawlKey < cutoff := by
  rw [IsStale, crawlKey]
  cases row.lastCrawled with
  | none => simp
  | some x => simp

lemma DocumentRow.IsStale.mono {cutoff cutoff' : ℚ} {row : DocumentRow}
    (h : row.IsStale cutoff) (hle : cutoff ≤ cutoff') : row.IsStale cutoff' :=
  fun x hx => (h x hx).trans_le hle

namespace Tables

/-- The stale rows at a time. -/
def staleRows (t : Tables) (now olderThan : ℚ) : List DocumentRow :=
  t.documents.filter fun row => row.IsStale (now - olderThan)

/-- The columns that are selected: the URL, the depth and the id of the crawl. -/
def selectColumns (row : DocumentRow) : String × ℤ × Option ℤ := (row.url, row.depth, row.crawlId)

/-- An answer of `select_stale`: the oldest stale rows, in some order that the sort key
permits. -/
def SelectStale (t : Tables) (now olderThan : ℚ) (limit : ℕ)
    (result : List (String × ℤ × Option ℤ)) : Prop :=
  ∃ rows : List DocumentRow, rows.Perm (t.staleRows now olderThan) ∧
    rows.Pairwise (fun a b => a.crawlKey ≤ b.crawlKey) ∧
    result = (rows.take limit).map selectColumns

/-- The rows sorted by the key. -/
def sortByKey (rows : List DocumentRow) : List DocumentRow :=
  rows.mergeSort fun a b => a.crawlKey ≤ b.crawlKey

/-- The answer that keeps the order of the table among rows with the same key. -/
def selectStale (t : Tables) (now olderThan : ℚ) (limit : ℕ) : List (String × ℤ × Option ℤ) :=
  ((sortByKey (t.staleRows now olderThan)).take limit).map selectColumns

lemma sortByKey_perm (rows : List DocumentRow) : (sortByKey rows).Perm rows :=
  List.mergeSort_perm rows _

lemma sortByKey_pairwise (rows : List DocumentRow) :
    (sortByKey rows).Pairwise fun a b => a.crawlKey ≤ b.crawlKey := by
  have h : (sortByKey rows).Pairwise fun a b => decide (a.crawlKey ≤ b.crawlKey) = true := by
    refine List.pairwise_mergeSort ?_ ?_ rows
    · intro a b c hab hbc
      exact decide_eq_true ((of_decide_eq_true hab).trans (of_decide_eq_true hbc))
    · intro a b
      simpa using le_total a.crawlKey b.crawlKey
  exact h.imp of_decide_eq_true

lemma selectStale_spec (t : Tables) (now olderThan : ℚ) (limit : ℕ) :
    t.SelectStale now olderThan limit (t.selectStale now olderThan limit) :=
  ⟨_, sortByKey_perm _, sortByKey_pairwise _, rfl⟩

variable {t t' : Tables} {now now' olderThan : ℚ} {limit : ℕ}
  {result : List (String × ℤ × Option ℤ)} {url : String}

lemma mem_staleRows {row : DocumentRow} :
    row ∈ t.staleRows now olderThan ↔ row ∈ t.documents ∧ row.IsStale (now - olderThan) := by
  rw [staleRows, List.mem_filter, decide_eq_true_eq]

lemma staleRows_nodup (t : Tables) (now olderThan : ℚ) : (t.staleRows now olderThan).Nodup :=
  (List.Nodup.of_map _ t.document_ids).filter _

/-- The row of a URL that was selected. -/
lemma SelectStale.document (h : t.SelectStale now olderThan limit result)
    (hurl : url ∈ result.map (·.1)) :
    ∃ row, t.document url = some row ∧ row.IsStale (now - olderThan) := by
  obtain ⟨rows, hperm, -, rfl⟩ := h
  simp only [List.map_map, List.mem_map, Function.comp_apply, selectColumns] at hurl
  obtain ⟨row, hrow, rfl⟩ := hurl
  have hmem := mem_staleRows.1 (hperm.mem_iff.1 (List.mem_of_mem_take hrow))
  exact ⟨row, (t.document_eq_some).2 ⟨hmem.1, rfl⟩, hmem.2⟩

/-- A row that was crawled after the cutoff is not selected. -/
lemma SelectStale.notMem {row : DocumentRow} (h : t.SelectStale now olderThan limit result)
    (hrow : t.document url = some row) (hfresh : ¬ row.IsStale (now - olderThan)) :
    url ∉ result.map (·.1) := by
  intro hurl
  obtain ⟨row', hrow', hstale⟩ := h.document hurl
  rw [hrow] at hrow'
  exact hfresh (Option.some.inj hrow' ▸ hstale)

/-- The rows in front of the selected one, and those behind it. -/
lemma SelectStale.split (h : t.SelectStale now olderThan limit result)
    (hurl : url ∈ result.map (·.1)) :
    ∃ (before : List DocumentRow) (row : DocumentRow) (after : List DocumentRow),
      (before ++ row :: after).Perm (t.staleRows now olderThan) ∧
      (before ++ row :: after).Pairwise (fun a b => a.crawlKey ≤ b.crawlKey) ∧
      before.length < limit ∧ row.url = url := by
  obtain ⟨rows, hperm, hsorted, rfl⟩ := h
  simp only [List.map_map, List.mem_map, Function.comp_apply, selectColumns] at hurl
  obtain ⟨row, hrow, rfl⟩ := hurl
  obtain ⟨before, mid, hsplit⟩ := List.append_of_mem hrow
  have hrows : rows = before ++ row :: (mid ++ rows.drop limit) := by
    calc rows = rows.take limit ++ rows.drop limit := (List.take_append_drop limit rows).symm
      _ = before ++ row :: (mid ++ rows.drop limit) := by simp [hsplit]
  have hlen : (rows.take limit).length ≤ limit := List.length_take_le limit rows
  rw [hsplit, List.length_append, List.length_cons] at hlen
  exact ⟨before, row, mid ++ rows.drop limit, hrows ▸ hperm, hrows ▸ hsorted, by omega, rfl⟩

/-- Rows can be sorted so that a given one comes right after those of `before` that are
among them, if all the others are younger. -/
lemma exists_sorted_behind {rows before : List DocumentRow} {row : DocumentRow}
    (hrows : rows.Nodup) (hrow : row ∈ rows) (hbefore : before.Nodup) (hnot : row ∉ before)
    (hsorted : before.Pairwise fun a b => a.crawlKey ≤ b.crawlKey)
    (holder : ∀ x ∈ before, x.crawlKey ≤ row.crawlKey)
    (hyounger : ∀ x ∈ rows, x ∉ before → row.crawlKey ≤ x.crawlKey) :
    ∃ front rest : List DocumentRow, (front ++ row :: rest).Perm rows ∧
      (front ++ row :: rest).Pairwise (fun a b => a.crawlKey ≤ b.crawlKey) ∧
      front.length ≤ before.length := by
  have hfront : ∀ x, x ∈ before.filter (· ∈ rows) ↔ x ∈ before ∧ x ∈ rows := by
    intro x
    simp
  have hrest : ∀ x, x ∈ sortByKey (rows.filter fun x => x ∉ before ∧ x ≠ row) ↔
      x ∈ rows ∧ x ∉ before ∧ x ≠ row := by
    intro x
    rw [(sortByKey_perm _).mem_iff]
    simp
  refine ⟨before.filter (· ∈ rows), sortByKey (rows.filter fun x => x ∉ before ∧ x ≠ row), ?_, ?_,
    List.length_filter_le _ _⟩
  · rw [List.perm_ext_iff_of_nodup _ hrows]
    · intro x
      rw [List.mem_append, List.mem_cons, hfront, hrest]
      constructor
      · rintro (hx | rfl | hx)
        · exact hx.2
        · exact hrow
        · exact hx.1
      · intro hx
        tauto
    · refine List.nodup_append.2 ⟨hbefore.filter _, List.nodup_cons.2 ⟨?_, ?_⟩, ?_⟩
      · intro hx
        exact ((hrest row).1 hx).2.2 rfl
      · exact (sortByKey_perm _).nodup_iff.2 (hrows.filter _)
      · rintro x hx y hy rfl
        rcases List.mem_cons.1 hy with rfl | hy
        · exact hnot ((hfront x).1 hx).1
        · exact ((hrest x).1 hy).2.1 ((hfront x).1 hx).1
  · have hle : ∀ y ∈ sortByKey (rows.filter fun x => x ∉ before ∧ x ≠ row),
        row.crawlKey ≤ y.crawlKey := by
      intro y hy
      obtain ⟨hmem, hy', -⟩ := (hrest y).1 hy
      exact hyounger y hmem hy'
    refine List.pairwise_append.2 ⟨hsorted.filter _,
      List.pairwise_cons.2 ⟨hle, sortByKey_pairwise _⟩, ?_⟩
    intro x hx y hy
    have hxrow := holder x ((hfront x).1 hx).1
    rcases List.mem_cons.1 hy with rfl | hy
    · exact hxrow
    · exact hxrow.trans (hle y hy)

/-- **A page whose row was not written is selected again**, at any later time and with the
same limit: the rows that have become stale since are younger than it. -/
lemma SelectStale.again (h : t.SelectStale now olderThan limit result)
    (hurl : url ∈ result.map (·.1)) (hrow : t'.document url = t.document url)
    (hsub : ∀ row ∈ t'.staleRows now' olderThan, row ∈ t.documents) (hle : now ≤ now') :
    ∃ result', t'.SelectStale now' olderThan limit result' ∧ url ∈ result'.map (·.1) := by
  obtain ⟨before, row, after, hperm, hsorted, hlen, rfl⟩ := h.split hurl
  obtain ⟨hsorted₁, hsorted₂, hcross⟩ := List.pairwise_append.1 hsorted
  have hnodup := hperm.nodup_iff.2 (t.staleRows_nodup now olderThan)
  obtain ⟨hnodup₁, -, hdisj⟩ := List.nodup_append.1 hnodup
  obtain ⟨hmem, hstale⟩ := mem_staleRows.1 (hperm.mem_iff.1 (by simp : row ∈ _ ++ row :: after))
  have hmem' : row ∈ t'.staleRows now' olderThan := by
    have hdoc : t'.document row.url = some row := by
      rw [hrow, document_eq_some]
      exact ⟨hmem, rfl⟩
    exact mem_staleRows.2 ⟨((document_eq_some _).1 hdoc).1, hstale.mono (by linarith)⟩
  have hyounger : ∀ x ∈ t'.staleRows now' olderThan, x ∉ before →
      row.crawlKey ≤ x.crawlKey := by
    intro x hx hbefore
    by_cases hxs : x.IsStale (now - olderThan)
    · have hxrows := hperm.mem_iff.2 (mem_staleRows.2 ⟨hsub x hx, hxs⟩)
      simp only [List.mem_append, List.mem_cons, hbefore, false_or] at hxrows
      rcases hxrows with rfl | hxrows
      · exact le_refl _
      · exact (List.pairwise_cons.1 hsorted₂).1 x hxrows
    · rw [DocumentRow.isStale_iff, not_lt] at hxs
      exact (DocumentRow.isStale_iff.1 hstale).le.trans hxs
  obtain ⟨front, rest, hperm', hsorted', hlen'⟩ :=
    exists_sorted_behind (t'.staleRows_nodup now' olderThan) hmem' hnodup₁
      (fun hx => hdisj row hx row (by simp) rfl) hsorted₁
      (fun x hx => hcross x hx row (by simp)) hyounger
  have htake : row ∈ (front ++ row :: rest).take limit := by
    rw [List.mem_take_iff_getElem]
    exact ⟨front.length, by simp; omega, by simp⟩
  exact ⟨_, ⟨front ++ row :: rest, hperm', hsorted', rfl⟩,
    List.mem_map.2 ⟨selectColumns row, List.mem_map_of_mem htake, rfl⟩⟩

end Tables

namespace Pipeline

variable {ν ω : Type} (P : Pipeline ν ω)

/-- A program on the tables next to the rest of the storage side. -/
def onTables {α : Type} (x : EStateM PyError Stores α) : EStateM PyError (ω × Tables) α :=
  zoom (fun p : ω × Tables => ({ tables := p.2 } : Stores)) (fun w p => (p.1, w.tables)) x

/-- A program on the rest of the storage side. -/
def onRest {α : Type} (x : EStateM PyError ω α) : EStateM PyError (ω × Tables) α :=
  zoom Prod.fst (fun w p => (w, p.2)) x

/-- The pipeline with the SQL sink, which works on tables of its own. -/
def withTables (now : ℚ) : Pipeline ν (ω × Tables) where
  urls := P.urls
  tools := P.tools
  fetch := P.fetch
  sink :=
    { savePage := fun record => onTables ((sqlDocumentSink now).savePage record)
      getValidators := fun url => onTables ((sqlDocumentSink now).getValidators url) }
  politeness := P.politeness
  contentDedup := P.contentDedup.map fun isDuplicate fingerprint =>
    onRest (isDuplicate fingerprint)
  objectStore := P.objectStore.map fun put contentHash body contentType =>
    onRest (put contentHash body contentType)
  conditionalGet := P.conditionalGet
  circuitBreaker := P.circuitBreaker
  domainBudget := P.domainBudget

variable {P} {now : ℚ} {c : Readings} {item : FrontierItem} {response : FetchResult}
  {r : ProcessResult} {w w' : ω × Tables}

lemma conditionalHeaders_withTables {headers : List (String × String)} {url : String}
    (h : ((P.withTables now).conditionalHeaders url).run w = .ok headers w') : w' = w := by
  refine conditionalHeaders_state ?_ h
  intro lookup v w₁ w₂ hget
  have hread : (.ok ((w₁.2.document lookup).map fun d => (d.etag, d.lastModified)) w₁ :
      EStateM.Result PyError (ω × Tables) _) = .ok v w₂ := hget
  exact (EStateM.Result.ok.inj hread).2.symm

lemma readPage_withTables {record : PageRecord} {p : PageRecord × Bool}
    (h : ((P.withTables now).readPage response record).run w = .ok p w') : w'.2 = w.2 := by
  rcases readPage_eq_ok h with ⟨-, rfl, -⟩ | ⟨-, parsed, -, ⟨-, rfl, -⟩ |
    ⟨isDuplicate, fingerprint, duplicate, hdedup, -, hdup, -⟩⟩
  · rfl
  · rfl
  · obtain ⟨_, -, rfl⟩ := Option.map_eq_some_iff.1 hdedup
    obtain ⟨x, -, rfl⟩ := run_zoom_eq_ok.1 hdup
    rfl

lemma storeBody_withTables {record record' : PageRecord} {duplicate : Bool}
    (h : ((P.withTables now).storeBody response record duplicate).run w = .ok record' w') :
    w'.2 = w.2 := by
  rcases storeBody_cases h with ⟨rfl, -⟩ | ⟨put, contentHash, key, hput, hrun, -⟩
  · rfl
  · obtain ⟨_, -, rfl⟩ := Option.map_eq_some_iff.1 hput
    obtain ⟨x, -, rfl⟩ := run_zoom_eq_ok.1 hrun
    rfl

/-- What storing a response does to the tables: one save, under the canonical URL. -/
lemma storePage_withTables
    (h : ((P.withTables now).storePage item response).run w = .ok r w') :
    ∃ record : PageRecord, P.canonical item response = .ok record.url ∧
      w'.2 = w.2.savePage now record := by
  obtain ⟨url, domain, p, w₁, record, w₂, hread, hbody, hsave, -, hurl⟩ := storePage_saves h
  have hsaved : (.ok () (w₂.1, w₂.2.savePage now record) :
      EStateM.Result PyError (ω × Tables) Unit) = .ok () w' := hsave
  obtain ⟨-, rfl⟩ := EStateM.Result.ok.inj hsaved
  refine ⟨record, hurl, ?_⟩
  show w₂.2.savePage now record = _
  rw [storeBody_withTables hbody, readPage_withTables hread]

/-- The tables after a page was fetched: a 304 leaves them as they are. -/
lemma fetched_withTables {s s' : PipelineState ν (ω × Tables)}
    (hfetch : ∀ url headers n x n', (P.fetch url headers).run n = .ok x n' → x = response)
    (h : ((P.withTables now).process c item).run s = .ok r s') (hfetched : r.fetched = true) :
    (response.status = 304 ∧ s'.store.2 = s.store.2) ∨
      (response.status ≠ 304 ∧ ∃ record : PageRecord,
        P.canonical item response = .ok record.url ∧
        s'.store.2 = s.store.2.savePage now record) := by
  obtain ⟨host, s₁, s₂, s₃, hhost, h₁, h₂, h₃, hrun⟩ := guards_of_fetched h hfetched
  have hstore : s₃.store = s.store := (checkBudget_eq_ok h₃).trans
    ((checkBreaker_eq_ok hhost h₂).2.1.trans (checkRobots_eq_ok h₁).2.1)
  obtain ⟨headers, w, answer, n, n', hheaders, hanswer, hcases⟩ := fetchAndStore_eq_ok hrun
  obtain rfl : w = s₃.store := conditionalHeaders_withTables hheaders
  obtain rfl : answer = response := hfetch _ _ _ _ _ hanswer
  rcases hcases with ⟨-, rfl⟩ | ⟨-, h304, hsame, -⟩ | ⟨-, h304, hpage⟩
  · exact absurd hfetched (by simp)
  · exact Or.inl ⟨h304, by rw [hsame, hstore]⟩
  · obtain ⟨record, hurl, hsaved⟩ := storePage_withTables hpage
    exact Or.inr ⟨h304, record, hurl, by rw [hsaved, hstore]⟩

/-- The page is not selected again before `older_than` has passed. -/
def Progress (t : Tables) (t₁ olderThan : ℚ) (limit : ℕ) (url : String) : Prop :=
  ∀ now, t₁ ≤ now → now ≤ t₁ + olderThan →
    ∀ result, t.SelectStale now olderThan limit result → url ∉ result.map (·.1)

lemma progress_savePage {t : Tables} {t₁ olderThan : ℚ} (limit : ℕ) (record : PageRecord) :
    Progress (t.savePage t₁ record) t₁ olderThan limit record.url := by
  intro now _ hnow result hselect
  refine hselect.notMem Tables.document_savePage ?_
  intro hstale
  have hlt : t₁ < now - olderThan := hstale t₁ rfl
  linarith

/-- A save under another URL only takes a row out of those that are stale. -/
lemma staleRows_savePage {t : Tables} {t₁ olderThan : ℚ} (holder : 0 ≤ olderThan)
    {record : PageRecord} {row : DocumentRow}
    (h : row ∈ (t.savePage t₁ record).staleRows t₁ olderThan) : row ∈ t.documents := by
  obtain ⟨hmem, hstale⟩ := Tables.mem_staleRows.1 h
  have hdoc : (t.savePage t₁ record).document row.url = some row :=
    (Tables.document_eq_some _).2 ⟨hmem, rfl⟩
  by_cases hurl : row.url = record.url
  · rw [hurl, Tables.document_savePage] at hdoc
    obtain rfl := Option.some.inj hdoc
    have hlt : t₁ < t₁ - olderThan := hstale t₁ rfl
    linarith
  · rw [Tables.document_savePage_of_ne hurl] at hdoc
    exact ((Tables.document_eq_some _).1 hdoc).1

/-- **Recrawl makes progress** exactly when the selected page is saved under its own URL: it
is not answered with 304, and its redirects do not lead to another URL. -/
theorem recrawl_progress_iff (P : Pipeline ν ω) (c : Readings) (item : FrontierItem)
    (response : FetchResult) (r : ProcessResult) (s s' : PipelineState ν (ω × Tables))
    (t₀ t₁ olderThan : ℚ) (limit : ℕ) (result : List (String × ℤ × Option ℤ)) (hclock : t₀ ≤ t₁)
    (hselect : s.store.2.SelectStale t₀ olderThan limit result)
    (hitem : item.url ∈ result.map (·.1))
    (hfetch : ∀ url headers n x n', (P.fetch url headers).run n = .ok x n' → x = response)
    (hprocess : ((P.withTables t₁).process c item).run s = .ok r s')
    (hfetched : r.fetched = true) :
    ((∀ limit', Progress s'.store.2 t₁ olderThan limit' item.url) ↔
      (0 ≤ olderThan → response.status ≠ 304 ∧ P.canonical item response = .ok item.url)) ∧
    (Progress s'.store.2 t₁ olderThan limit item.url ↔
      (0 ≤ olderThan → response.status ≠ 304 ∧ P.canonical item response = .ok item.url)) := by
  have hcases := fetched_withTables hfetch hprocess hfetched
  have hif : (0 ≤ olderThan → response.status ≠ 304 ∧ P.canonical item response = .ok item.url) →
      ∀ limit', Progress s'.store.2 t₁ olderThan limit' item.url := by
    intro hcond limit' now hfrom hto
    obtain ⟨h304, hurl⟩ := hcond (by linarith)
    rcases hcases with ⟨h, -⟩ | ⟨-, record, hrecord, hsaved⟩
    · exact absurd h h304
    · rw [hurl, Except.ok.injEq] at hrecord
      rw [hsaved, hrecord]
      exact progress_savePage limit' record now hfrom hto
  have honlyIf : Progress s'.store.2 t₁ olderThan limit item.url → 0 ≤ olderThan →
      response.status ≠ 304 ∧ P.canonical item response = .ok item.url := by
    intro hprogress holder
    -- otherwise the page is selected again at the very time at which it was processed
    have hagain : s'.store.2.document item.url = s.store.2.document item.url →
        (∀ row ∈ s'.store.2.staleRows t₁ olderThan, row ∈ s.store.2.documents) → False := by
      intro hrow hsub
      obtain ⟨result', hselect', hmem⟩ := hselect.again hitem hrow hsub hclock
      exact hprogress t₁ le_rfl (by linarith) result' hselect' hmem
    rcases hcases with ⟨-, hsame⟩ | ⟨h304, record, hrecord, hsaved⟩
    · rw [hsame] at hagain
      exact (hagain rfl fun row hrow => (Tables.mem_staleRows.1 hrow).1).elim
    · refine ⟨h304, ?_⟩
      rw [hrecord, Except.ok.injEq]
      by_contra hurl
      rw [hsaved] at hagain
      exact hagain (Tables.document_savePage_of_ne (Ne.symm hurl))
        fun row hrow => staleRows_savePage holder hrow
  exact ⟨⟨fun h => honlyIf (h limit), hif⟩, ⟨honlyIf, fun h => hif h limit⟩⟩

/-- A page that was crawled at time 0. -/
def oldPage : DocumentRow where
  id := 1
  url := "http://a.org/"
  registeredDomain := "a.org"
  etag := some "v1"
  firstSeen := 0
  lastCrawled := some 0

/-- Two hours later the page is the one to be crawled again. -/
lemma selectStale_oldPage :
    Tables.SelectStale { documents := [oldPage] } 7200 3600 1 [("http://a.org/", 0, none)] :=
  ⟨[oldPage], by rw [show Tables.staleRows { documents := [oldPage] } 7200 3600 = [oldPage] by
    decide +kernel], List.pairwise_singleton _ _, rfl⟩

theorem recrawl_progress_textResponse :
    ∃ r s', ((conditional.withTables 7200).process ⟨0, 0⟩ { url := "http://a.org/" }).run
        ⟨{}, (), ({}, { documents := [oldPage] })⟩ = .ok r s' ∧
      Progress s'.store.2 7200 3600 1 "http://a.org/" := by
  refine ⟨_, _, rfl, ?_⟩
  refine (recrawl_progress_iff conditional ⟨0, 0⟩ { url := "http://a.org/" } textResponse _
    ⟨{}, (), ({}, { documents := [oldPage] })⟩ _ 7200 7200 3600 1 _ le_rfl selectStale_oldPage
    (by decide) ?_ rfl rfl).2.2 fun _ => ⟨by decide, by decide⟩
  intro url headers n x n' h
  exact (run_pure_eq_ok.1 h).1.symm

/-- The answer of a server whose page has not changed. -/
def notModifiedResponse : FetchResult where
  finalUrl := "http://a.org/"
  status := 304

/-- A page that has not changed is fetched and selected again at once. -/
theorem notModified_selected_again :
    ∃ r s', Tables.SelectStale { documents := [oldPage] } 7200 3600 1 [("http://a.org/", 0, none)] ∧
      ((Pipeline.withTables { conditional with fetch := fun _ _ => pure notModifiedResponse }
        7200).process ⟨0, 0⟩ { url := "http://a.org/" }).run
        ⟨{}, (), ({}, { documents := [oldPage] })⟩ = .ok r s' ∧
      r.fetched = true ∧
      ¬ Progress s'.store.2 7200 3600 1 "http://a.org/" := by
  refine ⟨_, _, selectStale_oldPage, rfl, rfl, ?_⟩
  intro hprogress
  exact hprogress 7200 le_rfl (by norm_num) _ selectStale_oldPage (by simp)

end Pipeline

end WebCrawler
