import WebCrawler.Lib.SeenSet
import WebCrawler.Pipeline.Pipeline
import WebCrawler.Url.Join
import WebCrawler.Url.Query

/-!
# The links of a page

`parse_page` of `crawler/parser/html_parser.py`, over the elements that the HTML library finds
in a page.  The links are the first occurrences of the URLs that `normalize_url` returns; but
`normalize_url` raises for a reference with a malformed authority, and then the page has no
links at all.
-/

namespace WebCrawler

open Lib

/-- What `HTMLParser` finds in a page, as far as `parse_page` reads it. -/
structure HtmlTree where
  /-- The `href` of the first `base[href]` element. -/
  baseHref : Option Text := none
  /-- The text of the first `title` element. -/
  title : Option String := none
  /-- The `a[href]` elements in document order, by their `href` and their text. -/
  anchors : List (Option Text × Text) := []

/-- The base against which the links of a page are resolved. -/
def pageBase (chk : NetlocChecks) (url : Text) (tree : HtmlTree) : Except PyError Text :=
  match tree.baseHref with
  | none => .ok url
  | some baseHref => if baseHref = [] then .ok url else urljoin chk url baseHref

variable (L : UrlLibs)

/-- The link to a URL, with the text of its anchor. -/
def mkLink (a : Text × Text) : Link :=
  { url := String.ofList a.1, anchor := if a.2 = [] then none else some (String.ofList a.2) }

/-- The variables of the loop over the anchors. -/
structure LinkScan where
  links : List Link := []
  seen : Finset Text := ∅

/-- One round of the loop. -/
def scanAnchor (base : Text) (s : LinkScan) (a : Option Text × Text) : Except PyError LinkScan := do
  match ← normalizeUrl L a.1 (some base) with
  | none => pure s
  | some normalized =>
      if normalized = [] ∨ normalized ∈ s.seen then pure s
      else pure { links := s.links ++ [mkLink (normalized, a.2)], seen := insert normalized s.seen }

/-- `parse_page`. -/
def parsePage (url : Text) (tree : HtmlTree) : Except PyError ParsedPage := do
  let base ← pageBase L.checks url tree
  let s ← tree.anchors.foldlM (scanAnchor L base) {}
  pure { title := tree.title, links := s.links }

/-- The tools of a pipeline that parses its pages so. -/
def htmlParser (readTree : List UInt8 → HtmlTree) (T : PageTools) : PageTools :=
  { T with parsePage := fun url body => parsePage L url.toList (readTree body) }

/-! ### The loop -/

/-- The values of `normalize_url` that are not `None`, with the texts of their anchors. -/
def crawlable (base : Text) (anchors : List (Option Text × Text)) : List (Text × Text) :=
  anchors.filterMap fun a =>
    match normalizeUrl L a.1 (some base) with
    | .ok (some u) => some (u, a.2)
    | _ => none

section Loop

variable {L} {base : Text} {a : Option Text × Text} {anchors anchors' : List (Option Text × Text)}
  {s : LinkScan}

/-- The loop has gone through these anchors. -/
structure Scanned (L : UrlLibs) (base : Text) (anchors : List (Option Text × Text))
    (s : LinkScan) : Prop where
  links : s.links = (firstByKey (crawlable L base anchors)).map mkLink
  seen : ∀ u, u ∈ s.seen ↔ u ∈ (crawlable L base anchors).map Prod.fst

lemma ne_nil_of_canonicalOf {url u : Text} (h : canonicalOf L url = some u) : u ≠ [] := by
  rw [canonicalOf] at h
  cases hc : L.urlQueryCleaner url trackingParams >>= L.canonicalizeUrl with
  | error e => simp [hc] at h
  | ok canonical =>
      rw [hc] at h
      simp only at h
      split_ifs at h with hnil
      exact Option.some.inj h ▸ hnil

lemma ne_nil_of_normalizeUrl {href base : Option Text} {u : Text}
    (h : normalizeUrl L href base = .ok (some u)) : u ≠ [] := by
  obtain ⟨t, url, p, -, ht, hurl, hp, hscheme, hnetloc, -, -⟩ := normalizeUrl_eq_some h
  rw [normalizeUrl_eq ht hurl hp, if_pos ⟨hscheme, hnetloc⟩] at h
  exact ne_nil_of_canonicalOf (Except.ok.inj h)

lemma crawlable_append_none (hv : normalizeUrl L a.1 (some base) = .ok none) :
    crawlable L base (anchors ++ [a]) = crawlable L base anchors := by
  rw [crawlable, List.filterMap_append, List.filterMap_cons_none (by simp [hv])]
  exact List.append_nil _

lemma crawlable_append_some {u : Text} (hv : normalizeUrl L a.1 (some base) = .ok (some u)) :
    crawlable L base (anchors ++ [a]) = crawlable L base anchors ++ [(u, a.2)] := by
  rw [crawlable, List.filterMap_append, List.filterMap_cons_some (b := (u, a.2)) (by simp [hv])]
  rfl

/-- One round. -/
lemma scanAnchor_scanned (hs : Scanned L base anchors s) {v : Option Text}
    (hv : normalizeUrl L a.1 (some base) = .ok v) :
    ∃ s', scanAnchor L base s a = .ok s' ∧ Scanned L base (anchors ++ [a]) s' := by
  cases v with
  | none =>
      refine ⟨s, by simp [scanAnchor, hv, bind, Except.bind]; rfl, ?_, ?_⟩
      · rw [crawlable_append_none hv, hs.links]
      · rw [crawlable_append_none hv]
        exact hs.seen
  | some u =>
      have hround : scanAnchor L base s a = if u ∈ s.seen then pure s
          else pure { links := s.links ++ [mkLink (u, a.2)], seen := insert u s.seen } := by
        simp only [scanAnchor, hv, bind, Except.bind, ne_nil_of_normalizeUrl hv, false_or]
      rw [hround]
      by_cases hseen : u ∈ s.seen
      · have hold := (hs.seen u).1 hseen
        refine ⟨s, by rw [if_pos hseen]; rfl, ?_, ?_⟩
        · rw [crawlable_append_some hv, firstByKey_append_singleton, if_pos hold, hs.links]
        · intro u'
          rw [crawlable_append_some hv, List.map_append, List.mem_append, hs.seen]
          refine (or_iff_left_of_imp fun h => ?_).symm
          rwa [List.mem_singleton.1 h]
      · have hnew := fun h => hseen ((hs.seen u).2 h)
        refine ⟨_, by rw [if_neg hseen]; rfl, ?_, ?_⟩
        · rw [crawlable_append_some hv, firstByKey_append_singleton, if_neg hnew, List.map_append,
            ← hs.links]
          rfl
        · intro u'
          rw [crawlable_append_some hv, List.map_append, List.mem_append, ← hs.seen,
            Finset.mem_insert, or_comm]
          simp

/-- The whole loop. -/
lemma foldlM_scanned (hs : Scanned L base anchors s)
    (hall : ∀ a ∈ anchors', ∃ v, normalizeUrl L a.1 (some base) = .ok v) :
    ∃ s', anchors'.foldlM (scanAnchor L base) s = .ok s' ∧
      Scanned L base (anchors ++ anchors') s' := by
  induction anchors' generalizing anchors s with
  | nil => exact ⟨s, rfl, by rwa [List.append_nil]⟩
  | cons a anchors' ih =>
      obtain ⟨⟨v, hv⟩, hall⟩ := List.forall_mem_cons.1 hall
      obtain ⟨s₁, hs₁, hscan₁⟩ := scanAnchor_scanned hs hv
      obtain ⟨s₂, hs₂, hscan₂⟩ := ih hscan₁ hall
      refine ⟨s₂, ?_, ?_⟩
      · rw [List.foldlM_cons, hs₁]
        exact hs₂
      · rwa [List.append_assoc] at hscan₂

/-- The loop raises if one of its calls does. -/
lemma exists_of_foldlM {s' : LinkScan} (h : anchors.foldlM (scanAnchor L base) s = .ok s') :
    ∀ a ∈ anchors, ∃ v, normalizeUrl L a.1 (some base) = .ok v := by
  induction anchors generalizing s with
  | nil => simp
  | cons a anchors ih =>
      rw [List.foldlM_cons] at h
      cases hv : normalizeUrl L a.1 (some base) with
      | error e => simp [scanAnchor, hv, bind, Except.bind] at h
      | ok v =>
          rw [List.forall_mem_cons]
          refine ⟨⟨v, hv⟩, ?_⟩
          cases hs : scanAnchor L base s a with
          | error e => simp [hs, bind, Except.bind] at h
          | ok s₁ =>
              rw [hs] at h
              exact ih h

end Loop

/-! ### Which pages are parsed -/

section Page

variable {L} {url : Text} {tree : HtmlTree} {base : Text} {page : ParsedPage}

/-- The links of a page that is parsed. -/
lemma parsePage_eq_ok (hbase : pageBase L.checks url tree = .ok base) :
    parsePage L url tree = .ok page ↔
      (∀ a ∈ tree.anchors, ∃ v, normalizeUrl L a.1 (some base) = .ok v) ∧
        page = { title := tree.title,
                 links := (firstByKey (crawlable L base tree.anchors)).map mkLink } := by
  have hstart : Scanned L base [] {} := ⟨rfl, by simp [crawlable]⟩
  rw [parsePage, hbase]
  constructor
  · intro h
    cases hloop : tree.anchors.foldlM (scanAnchor L base) {} with
    | error e => simp [hloop, bind, Except.bind] at h
    | ok s =>
        have hall := exists_of_foldlM hloop
        obtain ⟨s', hs', hscan⟩ := foldlM_scanned hstart hall
        obtain rfl := Except.ok.inj (hloop.symm.trans hs')
        simp only [hloop, bind, Except.bind] at h
        refine ⟨hall, (Except.ok.inj h).symm.trans ?_⟩
        rw [hscan.links, List.nil_append]
  · rintro ⟨hall, rfl⟩
    obtain ⟨s, hs, hscan⟩ := foldlM_scanned hstart hall
    rw [List.nil_append] at hscan
    simp only [bind, Except.bind, hs, ← hscan.links]
    rfl

/-- The URLs of the links are pairwise different, and the links stand in the order of their
anchors. -/
theorem links_of_parsePage (hbase : pageBase L.checks url tree = .ok base)
    (h : parsePage L url tree = .ok page) :
    (page.links.map Link.url).Nodup ∧
      page.links.Sublist ((crawlable L base tree.anchors).map mkLink) := by
  obtain ⟨-, rfl⟩ := (parsePage_eq_ok hbase).1 h
  constructor
  · have hurls : Link.url ∘ mkLink = String.ofList ∘ Prod.fst := rfl
    rw [List.map_map, hurls, ← List.map_map]
    exact (nodup_keys_firstByKey _).map fun _ _ h => String.ofList_injective h
  · exact (firstByKey_sublist _).map mkLink

/-- A link is the one of the first anchor with its URL. -/
theorem mem_links_of_parsePage (hbase : pageBase L.checks url tree = .ok base)
    (h : parsePage L url tree = .ok page) {link : Link} :
    link ∈ page.links ↔ ∃ l₁ a l₂, crawlable L base tree.anchors = l₁ ++ a :: l₂ ∧
      a.1 ∉ l₁.map Prod.fst ∧ mkLink a = link := by
  obtain ⟨-, rfl⟩ := (parsePage_eq_ok hbase).1 h
  rw [List.mem_map]
  constructor
  · rintro ⟨a, ha, hlink⟩
    obtain ⟨l₁, l₂, heq, hnew⟩ := mem_firstByKey_iff.1 ha
    exact ⟨l₁, a, l₂, heq, hnew, hlink⟩
  · rintro ⟨l₁, a, l₂, heq, hnew, hlink⟩
    exact ⟨a, mem_firstByKey_iff.2 ⟨l₁, l₂, heq, hnew⟩, hlink⟩

/-- No call raises, and the links are the first occurrences of the URLs of the anchors. -/
def ExactLinks (L : UrlLibs) (url : Text) (tree : HtmlTree) : Prop :=
  ∃ base page, pageBase L.checks url tree = .ok base ∧
    (∀ a ∈ tree.anchors, ∃ v, normalizeUrl L a.1 (some base) = .ok v) ∧
    parsePage L url tree = .ok page ∧
    page.links = (firstByKey (crawlable L base tree.anchors)).map mkLink

/-- The base can be joined to the URL of the page, and every reference to the base. -/
structure ResolvablePage (chk : NetlocChecks) (url : Text) (tree : HtmlTree) : Prop where
  base : ∀ baseHref ∈ tree.baseHref, baseHref ≠ [] →
    url = [] ∨ (WellFormed chk url ∧ WellFormed chk baseHref)
  anchors : ∀ base, pageBase chk url tree = .ok base →
    ∀ a ∈ tree.anchors, ∀ t, reference a.1 = some t → Resolvable chk base t

lemma exists_pageBase_iff :
    (∃ base, pageBase L.checks url tree = .ok base) ↔
      ∀ baseHref ∈ tree.baseHref, baseHref ≠ [] →
        url = [] ∨ (WellFormed L.checks url ∧ WellFormed L.checks baseHref) := by
  rw [pageBase]
  cases tree.baseHref with
  | none => simp
  | some baseHref =>
      simp only [Option.mem_def, Option.some.injEq, forall_eq']
      split_ifs with hnil
      · simp [hnil]
      · rw [exists_urljoin_iff, or_iff_right hnil]
        exact ⟨fun h _ => h, fun h => h hnil⟩

lemma exactLinks_iff : ExactLinks L url tree ↔ ResolvablePage L.checks url tree := by
  constructor
  · rintro ⟨base, page, hbase, hall, -, -⟩
    refine ⟨exists_pageBase_iff.1 ⟨base, hbase⟩, fun base' hbase' a ha => ?_⟩
    obtain rfl := Except.ok.inj (hbase.symm.trans hbase')
    exact exists_normalizeUrl_iff.1 (hall a ha)
  · rintro ⟨hbase, hanchors⟩
    obtain ⟨base, hbase⟩ := exists_pageBase_iff.2 hbase
    have hall : ∀ a ∈ tree.anchors, ∃ v, normalizeUrl L a.1 (some base) = .ok v :=
      fun a ha => exists_normalizeUrl_iff.2 (hanchors base hbase a ha)
    exact ⟨base, _, hbase, hall, (parsePage_eq_ok hbase).2 ⟨hall, rfl⟩, rfl⟩

/-- The base of a page with an http URL has a scheme. -/
lemma pageBase_http (hwf : WellFormed L.checks url) (hhttp : IsHttp (ownScheme url))
    (hbase : pageBase L.checks url tree = .ok base) :
    WellFormed L.checks base ∧ ownScheme base ≠ [] := by
  have hscheme : ownScheme url ≠ [] := by
    rcases hhttp with h | h
    · rw [h]; decide
    · rw [h]; decide
  rw [pageBase] at hbase
  cases hb : tree.baseHref with
  | none =>
      rw [hb] at hbase
      exact Except.ok.inj hbase ▸ ⟨hwf, hscheme⟩
  | some baseHref =>
      simp only [hb] at hbase
      split_ifs at hbase
      · exact Except.ok.inj hbase ▸ ⟨hwf, hscheme⟩
      · obtain ⟨hwf', hscheme'⟩ := wellFormed_urljoin hwf hscheme hbase
        exact ⟨hwf', hscheme' hhttp⟩

end Page

/-- **When link extraction is total and exact.**  For an http page it is so exactly if neither the
base nor a reference has a malformed authority; for other pages the texts that result from
joining count as well. -/
theorem exactLinks_iff_resolvablePage (url : Text) (tree : HtmlTree) :
    (ExactLinks L url tree ↔ ResolvablePage L.checks url tree) ∧
      (WellFormed L.checks url → IsHttp (ownScheme url) →
        (ExactLinks L url tree ↔
          (∀ baseHref ∈ tree.baseHref, WellFormed L.checks baseHref) ∧
            ∀ a ∈ tree.anchors, ∀ t, reference a.1 = some t → WellFormed L.checks t)) := by
  refine ⟨exactLinks_iff, fun hwf hhttp => exactLinks_iff.trans ?_⟩
  have hurl : url ≠ [] := by
    rintro rfl
    exact absurd hhttp (by decide)
  constructor
  · rintro ⟨hbase, hanchors⟩
    obtain ⟨base, hb⟩ := exists_pageBase_iff.2 hbase
    refine ⟨fun baseHref hmem => ?_, fun a ha t ht => (hanchors base hb a ha t ht).1⟩
    by_cases hnil : baseHref = []
    · exact hnil ▸ rfl
    · exact ((hbase baseHref hmem hnil).resolve_left hurl).2
  · rintro ⟨hbase, hanchors⟩
    refine ⟨fun baseHref hmem _ => Or.inr ⟨hwf, hbase baseHref hmem⟩, ?_⟩
    intro base hb a ha t ht
    obtain ⟨hwf', hscheme'⟩ := pageBase_http hwf hhttp hb
    exact (resolvable_iff_of_ownScheme hwf' hscheme').2 (hanchors a ha t ht)

/-- One reference with an open bracket, and the other link of the page is lost. -/
theorem malformed_reference_loses_links :
    let tree : HtmlTree :=
      { anchors := [(some "http://[".toList, "x".toList), (some "/b".toList, "b".toList)] }
    parsePage plainLibs "http://a.org/".toList tree = .error valueError ∧
      normalizeUrl plainLibs (some "http://[".toList) (some "http://a.org/".toList) =
        .error valueError ∧
      normalizeUrl plainLibs (some "/b".toList) (some "http://a.org/".toList) =
        .ok (some "http://a.org/b".toList) ∧
      ¬ ExactLinks plainLibs "http://a.org/".toList tree := by
  intro tree
  have hraise : normalizeUrl plainLibs (some "http://[".toList) (some "http://a.org/".toList) =
      .error valueError := by decide +kernel
  refine ⟨?_, hraise, by decide +kernel, ?_⟩
  · rfl
  · rintro ⟨base, page, hbase, hall, -, -⟩
    obtain rfl := Except.ok.inj hbase
    obtain ⟨v, hv⟩ := hall _ List.mem_cons_self
    rw [hraise] at hv
    cases hv

end WebCrawler
