import WebCrawler.Url.Urllib
import Mathlib.Data.List.DropRight
import Mathlib.Data.List.Sort
import Mathlib.Data.List.Lex
import Mathlib.Data.Prod.Lex

/-!
# Canonical URLs

`normalize_url` of `crawler/url_utils.py`.  A reference is resolved against a base, and an
absolute http(s) URL goes through two functions of `w3lib`: `url_query_cleaner` drops the
tracking parameters, `canonicalize_url` sorts and re-encodes the rest.  Both are called under
`except Exception`, the calls of `urljoin` and `urlsplit` before them are not.

`w3lib` is a parameter.  `W3libDocumented` states what its documentation says: the cleaner
compares the *raw* text of a key with the list and keeps the first piece of every key; the
canonicalizer strips its input, *decodes* keys and values, sorts the pairs and encodes them again.
What the two different notions of a key do to a query is the subject of `Url/Query.lean`.

`normalize_url` strips the reference, but a fragment or a dropped piece may stand behind white
space at the end of the query or of the authority, which is stripped when they are gone.
-/

namespace WebCrawler

open Lib

/-- `TRACKING_PARAMS`. -/
def trackingParams : List Text :=
  ["utm_source", "utm_medium", "utm_campaign", "utm_term", "utm_content", "gclid", "fbclid",
   "mc_cid", "mc_eid", "ref", "ref_src", "_ga"].map String.toList

/-- `_SKIP_SCHEME_PREFIXES`. -/
def skipSchemePrefixes : List Text :=
  ["javascript:", "mailto:", "tel:", "data:", "#"].map String.toList

/-- The code points of white space. -/
def spaceCodes : List ℕ :=
  [9, 10, 11, 12, 13, 28, 29, 30, 31, 32, 133, 160, 5760, 8192, 8193, 8194, 8195, 8196, 8197, 8198,
   8199, 8200, 8201, 8202, 8232, 8233, 8239, 8287, 12288]

/-- `str.isspace` on a character. -/
def isSpace (c : Char) : Bool := c.toNat ∈ spaceCodes

/-- `str.strip`. -/
def strip (t : Text) : Text := ((t.dropWhile isSpace).reverse.dropWhile isSpace).reverse

/-- The text starts with one of the prefixes, in upper or lower case. -/
def isSkipped (t : Text) : Bool := skipSchemePrefixes.any fun s => s.isPrefixOf (t.map Char.toLower)

/-- The libraries under `normalize_url`. -/
structure UrlLibs where
  checks : NetlocChecks
  /-- `url_query_cleaner(url, parameterlist, remove=True)`. -/
  urlQueryCleaner : Text → List Text → Except PyError Text
  canonicalizeUrl : Text → Except PyError Text

variable (L : UrlLibs)

/-- The reference that an `href` holds: its text without surrounding space, if this is neither
empty nor of a scheme that is skipped. -/
def reference (href : Option Text) : Option Text :=
  (href.map strip).filter fun t => t ≠ [] ∧ isSkipped t = false

/-- `urljoin(base, href) if base else href`. -/
def resolve (base : Option Text) (t : Text) : Except PyError Text :=
  match base with
  | none => .ok t
  | some b => if b = [] then .ok t else urljoin L.checks b t

/-- The block under `except Exception`. -/
def canonicalOf (url : Text) : Option Text :=
  match L.urlQueryCleaner url trackingParams >>= L.canonicalizeUrl with
  | .ok canonical => if canonical = [] then none else some canonical
  | .error _ => none

/-- `normalize_url`. -/
def normalizeUrl (href base : Option Text) : Except PyError (Option Text) :=
  match reference href with
  | none => .ok none
  | some t => do
      let url ← resolve L base t
      let parts ← urlsplit L.checks url
      if IsHttp parts.scheme ∧ parts.netloc ≠ [] then pure (canonicalOf L url) else pure none

/-! ### What `w3lib` documents -/

/-- The loop of `url_query_cleaner`: a piece is dropped if its key was seen or is in the list. -/
def cleanPieces (params seen : List Text) : List Text → List Text
  | [] => []
  | piece :: ps =>
      if keyOf piece ∈ seen ∨ keyOf piece ∈ params then cleanPieces params seen ps
      else piece :: cleanPieces params (keyOf piece :: seen) ps

/-- The text that is left when the pieces of its query are cleaned. -/
def cleanQuery (params : List Text) (t : Text) : Text :=
  let kept := cleanPieces params [] (pieces (behind '?' t))
  if kept = [] then before '?' t else before '?' t ++ '?' :: ['&'].intercalate kept

/-- The order of the pairs: by key, then by value. -/
def pairLe (a b : Bytes × Bytes) : Prop :=
  toLex (a.1.map UInt8.toNat, a.2.map UInt8.toNat) ≤
    toLex (b.1.map UInt8.toNat, b.2.map UInt8.toNat)

instance : DecidableRel pairLe := fun _ _ => inferInstanceAs (Decidable (toLex _ ≤ toLex _))

/-- The pairs of a query, sorted and encoded. -/
def canonicalQuery (q : Text) : Text := urlencode ((parseQsl q).insertionSort pairLe)

/-- The text without the blank characters at its ends. -/
def trim (blank : Char → Bool) (t : Text) : Text := (t.dropWhile blank).rdropWhile blank

/-- What depends on the version of `w3lib`. -/
structure W3libVersion where
  /-- How `url_query_cleaner` cuts off the fragment. -/
  defrag : Text → Except PyError Text
  /-- The characters that `canonicalize_url` strips. -/
  blank : Char → Bool
  /-- How `canonicalize_url` writes an authority. -/
  canonicalNetloc : Text → Text

/-- The documented behaviour of `w3lib`.  A fragment is cut off in a way that leaves the other parts
of an http URL as `urlsplit` reads them: by `urldefrag`, which also drops tabs and line breaks, or
at the first `#`.  What is stripped is white space or a control character.  The path of the result
has a leading slash, and its unsafe characters are escaped. -/
structure W3libDocumented (V : W3libVersion) : Prop where
  defrag_self : ∀ {url : Text}, '#' ∉ url → V.defrag url = .ok url
  defrag : ∀ {url : Text} {p : SplitResult}, urlsplit L.checks url = .ok p → IsHttp p.scheme →
    p.netloc ≠ [] → ∃ t, V.defrag url = .ok t ∧ '#' ∉ t ∧ ∃ p', urlsplit L.checks t = .ok p' ∧
      p'.scheme = p.scheme ∧ p'.netloc = p.netloc ∧ p'.query = p.query
  cleaner : ∀ url params, L.urlQueryCleaner url params = (V.defrag url).map (cleanQuery params)
  blank : ∀ c, V.blank c = true → isSpace c = true ∨ c.toNat ≤ 32
  canonical : ∀ {url u : Text}, L.canonicalizeUrl url = .ok u →
    ∃ p, urlsplit L.checks (trim V.blank url) = .ok p ∧
      (IsHttp p.scheme → p.netloc ≠ [] ∨ p.path = [] →
        ∃ path : Text, path.head? = some '/' ∧ (∀ c ∈ path, isSpace c = false) ∧
          u = urlunsplit ⟨p.scheme, V.canonicalNetloc p.netloc, path, canonicalQuery p.query, []⟩ ∧
          urlsplit L.checks u =
            .ok ⟨p.scheme, V.canonicalNetloc p.netloc, path, canonicalQuery p.query, []⟩)
  idempotent : ∀ {url u : Text}, L.canonicalizeUrl url = .ok u → L.canonicalizeUrl u = .ok u

/-! ### A URL that was accepted -/

variable {L} {href base : Option Text} {u url : Text} {p : SplitResult}

/-- What the result of `normalize_url` comes from. -/
lemma normalizeUrl_eq_some (h : normalizeUrl L href base = .ok (some u)) :
    ∃ t url p cleaned, reference href = some t ∧ resolve L base t = .ok url ∧
      urlsplit L.checks url = .ok p ∧ IsHttp p.scheme ∧ p.netloc ≠ [] ∧
      L.urlQueryCleaner url trackingParams = .ok cleaned ∧ L.canonicalizeUrl cleaned = .ok u := by
  rw [normalizeUrl] at h
  cases ht : reference href with
  | none => simp [ht] at h
  | some t =>
      cases hurl : resolve L base t with
      | error e => simp [ht, hurl, bind, Except.bind] at h
      | ok url =>
          cases hp : urlsplit L.checks url with
          | error e => simp [ht, hurl, hp, bind, Except.bind] at h
          | ok p =>
              simp only [ht, hurl, hp, bind, Except.bind] at h
              split_ifs at h with hhttp
              · have hcanonical : canonicalOf L url = some u := by simpa [pure, Except.pure] using h
                rw [canonicalOf] at hcanonical
                cases hcleaned : L.urlQueryCleaner url trackingParams with
                | error e => simp [hcleaned, bind, Except.bind] at hcanonical
                | ok cleaned =>
                    cases hu : L.canonicalizeUrl cleaned with
                    | error e => simp [hcleaned, hu, bind, Except.bind] at hcanonical
                    | ok u' =>
                        simp only [hcleaned, hu, bind, Except.bind] at hcanonical
                        split_ifs at hcanonical
                        obtain rfl := Option.some.inj hcanonical
                        exact ⟨t, url, p, cleaned, rfl, hurl, hp, hhttp.1, hhttp.2, hcleaned, hu⟩
              · simp [pure, Except.pure] at h

/-- `normalize_url` after its two calls that may raise. -/
lemma normalizeUrl_eq {t : Text} (ht : reference href = some t) (hurl : resolve L base t = .ok url)
    (hp : urlsplit L.checks url = .ok p) :
    normalizeUrl L href base =
      .ok (if IsHttp p.scheme ∧ p.netloc ≠ [] then canonicalOf L url else none) := by
  simp only [normalizeUrl, ht, hurl, hp, bind, Except.bind]
  split_ifs <;> rfl

/-! ### References that are absolute URLs -/

lemma trim_eq_self {blank : Char → Bool} {t : Text} (hfirst : ∀ c ∈ t.head?, blank c = false)
    (hlast : ∀ c ∈ t.getLast?, blank c = false) : trim blank t = t := by
  have hdrop : t.dropWhile blank = t := by
    cases t with
    | nil => rfl
    | cons c t => exact List.dropWhile_cons_of_neg (by simp [hfirst c (by simp)])
  rw [trim, hdrop, List.rdropWhile_eq_self_iff]
  intro hne
  rw [hlast _ (List.getLast?_eq_some_getLast hne)]
  exact Bool.false_ne_true

/-- A text that starts with http and does not end with blank characters. -/
lemma trim_http {blank : Char → Bool} {scheme mid last : Text} (hscheme : IsHttp scheme)
    (hblank : blank 'h' = false) (hne : last ≠ []) (hlast : ∀ c ∈ last, blank c = false) :
    trim blank (scheme ++ mid ++ last) = scheme ++ mid ++ last := by
  refine trim_eq_self ?_ ?_
  · intro c hc
    obtain rfl : 'h' = c := by
      rcases hscheme with rfl | rfl
      · simpa using hc
      · simpa using hc
    exact hblank
  · intro c hc
    rw [List.getLast?_append, List.getLast?_eq_some_getLast hne, Option.some_or] at hc
    rw [← Option.some.inj hc]
    exact hlast _ (List.getLast_mem hne)

lemma strip_eq_trim (t : Text) : strip t = trim isSpace t := rfl

/-- A text that starts with http is not skipped. -/
lemma isSkipped_http {scheme rest : Text} (hscheme : IsHttp scheme) :
    isSkipped (scheme ++ rest) = false := by
  rcases hscheme with rfl | rfl
  · simp [isSkipped, skipSchemePrefixes, List.isPrefixOf]
  · simp [isSkipped, skipSchemePrefixes, List.isPrefixOf]

end WebCrawler
