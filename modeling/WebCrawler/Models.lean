import Mathlib.Tactic

/-!
# The domain objects passed between the stages of the crawler

The records of `crawler/models.py`, with the fields that the modelled code reads.
The reasons for which a page is skipped are an enumeration, where the source
uses the strings `"robots"`, `"circuit_open"`, `"budget_exhausted"`,
`"fetch_error"` and `"not_modified"`.

This file also fixes what the crawler takes from the library functions behind
`crawler/url_utils.py`.  They parse the text with `urlsplit`, which raises
`ValueError` on a text such as `http://[`.
-/

namespace WebCrawler

/-- A Python exception (a subclass of `Exception`), by what it reports. -/
structure PyError where
  /-- The text of the exception. -/
  what : String
deriving DecidableEq, Repr

/-- `ValueError`. -/
def valueError : PyError := { what := "ValueError" }

/-- A URL waiting to be crawled. -/
structure FrontierItem where
  url : String
  depth : ℤ := 0
  crawlId : Option ℤ := none
deriving DecidableEq, Repr

/-- An outbound link discovered on a page. -/
structure Link where
  url : String
  anchor : Option String := none
deriving DecidableEq, Repr

/-- The frontier item made from a link of the page of `item`. -/
def child (item : FrontierItem) (link : Link) : FrontierItem :=
  { url := link.url, depth := item.depth + 1, crawlId := item.crawlId }

@[simp] lemma child_url (item : FrontierItem) (link : Link) : (child item link).url = link.url :=
  rfl

@[simp] lemma child_depth (item : FrontierItem) (link : Link) :
    (child item link).depth = item.depth + 1 := rfl

/-- The text in lower case, as the list of its characters. -/
def lower (s : String) : List Char := s.toList.map Char.toLower

/-- `int(q)`: the part of a rational before the point. -/
def truncate (q : ℚ) : ℤ := q.num.tdiv q.den

/-- The answer of the fetcher for one URL. -/
structure FetchResult where
  finalUrl : String
  status : ℤ
  headers : List (String × String) := []
  body : List UInt8 := []
  contentType : Option String := none
  error : Option String := none
deriving DecidableEq, Repr

namespace FetchResult

/-- Whether the content type names an HTML page. -/
def isHtml (r : FetchResult) : Bool :=
  let ct := lower (r.contentType.getD "")
  decide ("text/html".toList <:+: ct) || decide ("application/xhtml+xml".toList <:+: ct)

/-- Case-insensitive header lookup: the first header with that name. -/
def header (r : FetchResult) (name : String) : Option String :=
  (r.headers.find? fun h => lower h.1 = lower name).map (·.2)

end FetchResult

/-- What the parser extracts from an HTML page. -/
structure ParsedPage where
  title : Option String := none
  links : List Link := []
deriving DecidableEq, Repr

/-- Everything that is persisted about a single fetched page. -/
structure PageRecord where
  url : String
  registeredDomain : String
  depth : ℤ
  httpStatus : Option ℤ := none
  contentType : Option String := none
  contentLength : Option ℕ := none
  title : Option String := none
  contentHash : Option String := none
  simhash : Option ℕ := none
  storageKey : Option String := none
  etag : Option String := none
  lastModified : Option String := none
  crawlId : Option ℤ := none
  links : List Link := []
deriving DecidableEq, Repr

/-- The reasons for which the pipeline does not store a page. -/
inductive Skip
  /-- The robots rules forbid the URL. -/
  | robots
  /-- The circuit breaker of the host is open. -/
  | circuitOpen
  /-- The budget of the domain is used up. -/
  | budgetExhausted
  /-- The fetch ended in a transport error. -/
  | fetchError
  /-- The server answered 304 to a conditional request. -/
  | notModified
deriving DecidableEq, Repr

/-- The outcome of running one item through the pipeline. -/
structure ProcessResult where
  item : FrontierItem
  fetched : Bool := false
  stored : Bool := false
  duplicate : Bool := false
  skipped : Option Skip := none
  links : List Link := []
  record : Option PageRecord := none
deriving DecidableEq, Repr

/-- The functions of `crawler/url_utils.py` that the crawl logic calls, on top of
`urlsplit`, `w3lib` and `tldextract`. -/
structure UrlUtils where
  /-- The canonical absolute http(s) URL, or `none` if the text is not crawlable. -/
  normalizeUrl : String → Except PyError (Option String)
  /-- The lower-case host name, empty if there is none. -/
  hostOf : String → Except PyError String
  /-- The registrable domain that `tldextract` finds in a host, empty if none. -/
  extractRegistered : String → String

/-- The registrable domain of a URL; the bare host when no suffix is known. -/
def UrlUtils.registeredDomain (U : UrlUtils) (url : String) : Except PyError String := do
  let host ← U.hostOf url
  if host = "" then return ""
  let extracted := U.extractRegistered host
  return if extracted = "" then host else extracted

/-- The answers on canonical URLs of the form `http://name.tld/path`, the ones that
the examples use, and on the texts with an open bracket in place of the name. -/
def plainUrls : UrlUtils where
  normalizeUrl u :=
    if "http://[".toList <+: u.toList then .error valueError
    else .ok (if "http://".toList <+: u.toList then some u else none)
  hostOf u :=
    if "http://[".toList <+: u.toList then .error valueError
    else .ok (String.ofList ((u.toList.drop 7).takeWhile (· ≠ '/')))
  extractRegistered host := host

end WebCrawler
