import WebCrawler.Pipeline.ConditionalGet
import WebCrawler.Storage.Statistics

/-!
# What the pipeline stores of a web

A web that does not change has one page for each URL.  A call of `Pipeline.process` that stores a
page saves its columns and its links (`recordFor_process`), unless the page is taken for a
near-duplicate, whose links are left out.  What the saves of some pages leave in the tables is the
subject of `Engine/StoredGraph.lean`.
-/

namespace WebCrawler

open Lib

namespace Pipeline

variable {ν ω : Type}

/-- The links that the pipeline finds on a page. -/
def linksOf (P : Pipeline ν ω) (answers : String → FetchResult) (url : String) : List Link :=
  if (answers url).isHtml ∧ (answers url).body ≠ [] then
    match P.tools.parsePage url (answers url).body with
    | .ok parsed => parsed.links
    | .error _ => []
  else []

/-- A web that does not change: a URL is answered with its page, and the pages that are looked at
come from their own URLs. -/
structure Steady (P : Pipeline ν ω) (answers : String → FetchResult) (pages : Set String) :
    Prop where
  fetch : ∀ url headers n response n', (P.fetch url headers).run n = .ok response n' →
    response.error = none → response.status ≠ 304 → response = answers url
  own : ∀ item : FrontierItem, item.url ∈ pages →
    P.canonical item (answers item.url) = .ok item.url

/-- The record that is saved for an item: its page, with the links and the depth. -/
structure RecordFor (P : Pipeline ν ω) (answers : String → FetchResult) (item : FrontierItem)
    (record : PageRecord) : Prop where
  page : P.RecordOf (answers item.url) record
  url : record.url = item.url
  depth : record.depth = item.depth
  links : record.links = P.linksOf answers item.url

variable {P : Pipeline ν ω} {answers : String → FetchResult} {pages : Set String}
  {tablesOf : ω → Tables} {item : FrontierItem} {response : FetchResult} {c : Readings}
  {domain : String}

/-- The links are those of the page, unless it is a near-duplicate. -/
lemma links_of_readPage {p : PageRecord × Bool} {w w' : ω}
    (h : (P.readPage (answers item.url)
      (P.newRecord item (answers item.url) item.url domain)).run w = .ok p w') :
    p.1.depth = item.depth ∧ (p.2 = false → p.1.links = P.linksOf answers item.url) := by
  rcases readPage_eq_ok h with ⟨hplain, -, rfl⟩ | ⟨hhtml, parsed, hparsed, hcases⟩
  · exact ⟨rfl, fun _ => by rw [linksOf, if_neg hplain]; rfl⟩
  · have hparsed' : P.tools.parsePage item.url (answers item.url).body = .ok parsed := hparsed
    have hlinks : P.linksOf answers item.url = parsed.links := by
      rw [linksOf, if_pos hhtml, hparsed']
    rcases hcases with ⟨-, -, rfl⟩ | ⟨_, _, duplicate, -, -, -, rfl⟩
    · exact ⟨rfl, fun _ => hlinks.symm⟩
    · cases duplicate with
      | true => exact ⟨rfl, fun h => absurd h (by simp)⟩
      | false => exact ⟨rfl, fun _ => hlinks.symm⟩

/-- The record that is made for a page that is no near-duplicate. -/
lemma recordFor_of_parts {p : PageRecord × Bool} {record : PageRecord} {w w₁ w₂ : ω}
    (hread : (P.readPage (answers item.url)
      (P.newRecord item (answers item.url) item.url domain)).run w = .ok p w₁)
    (hbody : (P.storeBody (answers item.url) p.1 p.2).run w₁ = .ok record w₂)
    (hdup : p.2 = false) : P.RecordFor answers item record := by
  obtain ⟨hdepth, hlinks⟩ := links_of_readPage hread
  obtain ⟨hpage, hurl⟩ := recordOf_storePage hread hbody
  have hsame : record.links = p.1.links ∧ record.depth = p.1.depth := by
    rcases storeBody_cases hbody with ⟨-, rfl⟩ | ⟨_, _, key, -, -, rfl⟩
    · exact ⟨rfl, rfl⟩
    · exact ⟨rfl, rfl⟩
  exact ⟨hpage, hurl, hsame.2.trans hdepth, hsame.1.trans (hlinks hdup)⟩

/-- What storing a page writes and returns. -/
lemma recordFor_storePage (hW : P.WritesTables tablesOf)
    (hcanonical : P.canonical item (answers item.url) = .ok item.url) {r : ProcessResult}
    {w w' : ω}
    (h : (P.storePage item (answers item.url)).run w = .ok r w') (hdup : r.duplicate = false) :
    r.links = P.linksOf answers item.url ∧ ∃ record now, P.RecordFor answers item record ∧
      tablesOf w' = (tablesOf w).savePage now record := by
  obtain ⟨url, domain, p, w₁, record, w₂, hurl, -, hread, hbody, hsave, rfl⟩ := storePage_parts h
  obtain rfl := Except.ok.inj (hcanonical.symm.trans hurl)
  obtain ⟨now, hsaved⟩ := hW.save_ok _ _ _ _ hsave
  have hread' := (preserves_tables_readPage hW _ _ w rfl).1 p w₁ hread
  have hbody' := (preserves_tables_storeBody hW _ _ _ w₁ hread').1 record w₂ hbody
  have hfor := recordFor_of_parts hread hbody hdup
  exact ⟨hfor.links, record, now, hfor, by rw [hsaved, hbody']⟩

/-- A call of `process` that stores its page. -/
lemma recordFor_process (hW : P.WritesTables tablesOf) (hweb : P.Steady answers pages)
    (hitem : item.url ∈ pages) {r : ProcessResult} {s s' : PipelineState ν ω}
    (h : (P.process c item).run s = .ok r s') (hstored : r.stored = true)
    (hdup : r.duplicate = false) :
    r.fetched = true ∧ r.links = P.linksOf answers item.url ∧
      ∃ record now, P.RecordFor answers item record ∧
        tablesOf s'.store = (tablesOf s.store).savePage now record := by
  have hcanonical := hweb.own item hitem
  have hprocessed := processed_of_process h
  cases hprocessed with
  | robots => exact absurd hstored (by simp)
  | circuitOpen => exact absurd hstored (by simp)
  | budgetExhausted => exact absurd hstored (by simp)
  | fetchError => exact absurd hstored (by simp)
  | notModified => exact absurd hstored (by simp)
  | stored _ hheaders hfetch herr h304 hpage =>
      obtain ⟨hfetched, -, -⟩ := storePage_eq_ok hpage
      obtain rfl := hweb.fetch _ _ _ _ _ hfetch herr h304
      obtain ⟨hlinks, record, now, hrecord, hsaved⟩ := recordFor_storePage hW hcanonical hpage hdup
      have hheaders' := (preserves_tables_conditionalHeaders hW _ _ s.store rfl).1 _ _ hheaders
      exact ⟨hfetched, hlinks, record, now, hrecord, by rw [hsaved, hheaders']⟩

end Pipeline

end WebCrawler
