import WebCrawler.Url.Trim

/-!
# What happens to the query of a URL

The cleaner and the canonicalizer see a query in different ways.  For the cleaner a key is the
raw text before `=`, and a key that it has seen is dropped; the canonicalizer decodes the keys
and keeps every pair.  So a repeated key loses its later values, and a tracking parameter with
an escaped letter is kept by the cleaner and spelled out by the canonicalizer.  White space at the
end of what the cleaner leaves is stripped by the canonicalizer before it decodes.

`keepsQuery_iff` says for which queries exactly the tracking parameters are dropped, and
`normalizeUrl_fixed_iff` for which ones the result is a fixed point of `normalize_url`.
-/

namespace WebCrawler

open Lib

/-- The keys of `TRACKING_PARAMS` as bytes. -/
def trackingKeys : List Bytes := trackingParams.map utf8

/-- The bytes that the raw text of a key stands for. -/
def keyBytes (key : Text) : Bytes := unquotePlus (dropUnsafe key)

/-- The pairs that pieces of raw text stand for, once tabs and line breaks are dropped. -/
def pairsOf (ps : List Text) : List (Bytes × Bytes) :=
  ((ps.map dropUnsafe).filter (· ≠ [])).map decodePiece

/-- The decoded pairs of the query of a URL. -/
def decodedPairs (L : UrlLibs) (url : Text) : List (Bytes × Bytes) :=
  match urlsplit L.checks url with
  | .ok p => parseQsl p.query
  | .error _ => []

section Versions

variable (V : W3libVersion)

/-- The pieces that `url_query_cleaner` goes through. -/
def cleanerPieces (url : Text) : List Text :=
  match V.defrag url with
  | .ok t => pieces (behind '?' t)
  | .error _ => []

/-- The query that `url_query_cleaner` leaves. -/
def keptQuery (url : Text) : Text :=
  ['&'].intercalate (cleanPieces trackingParams [] (cleanerPieces V url))

/-- The text that `canonicalize_url` reads: what the cleaner leaves of a URL, stripped. -/
def readText (url : Text) : Text :=
  match V.defrag url with
  | .ok t => trim V.blank (cleanQuery trackingParams t)
  | .error _ => []

end Versions

/-! ### The pairs of the result -/

lemma parseQsl_dropUnsafe (q : Text) : parseQsl (dropUnsafe q) = pairsOf (pieces q) := by
  rw [parseQsl, dropUnsafe, pieces_filter (by decide)]
  rfl

lemma length_pairsOf_le (ps : List Text) : (pairsOf ps).length ≤ ps.length := by
  rw [pairsOf, List.length_map]
  exact (List.length_filter_le _ _).trans (List.length_map _).le

lemma parseQsl_canonicalQuery (q : Text) :
    parseQsl (canonicalQuery q) = (parseQsl q).insertionSort pairLe := parseQsl_urlencode _

lemma cleanPieces_sublist (params seen ps : List Text) :
    (cleanPieces params seen ps).Sublist ps := by
  induction ps generalizing seen with
  | nil => exact List.Sublist.slnil
  | cons piece ps ih =>
      rw [cleanPieces]
      split_ifs
      · exact (ih seen).cons _
      · exact (ih _).cons_cons _

lemma pieces_kept (params : List Text) (q : Text) :
    pieces (['&'].intercalate (cleanPieces params [] (pieces q))) =
      cleanPieces params [] (pieces q) := by
  have hsub := cleanPieces_sublist params [] (pieces q)
  exact pieces_intercalate (fun piece h => (of_mem_pieces (hsub.subset h)).1)
    fun piece h => (of_mem_pieces (hsub.subset h)).2.1

section CleanQuery

variable {params : List Text} {t : Text}

/-- The cleaned text, cut at the query. -/
lemma before_behind_cleanQuery (params : List Text) (t : Text) :
    before '?' (cleanQuery params t) = before '?' t ∧
      behind '?' (cleanQuery params t) =
        ['&'].intercalate (cleanPieces params [] (pieces (behind '?' t))) := by
  have hq : '?' ∉ before '?' t := notMem_before _ _
  rw [cleanQuery]
  split_ifs with hnil
  · rw [hnil, before_of_notMem hq, behind_of_notMem hq]
    exact ⟨rfl, rfl⟩
  · exact ⟨before_append hq _, behind_append hq _⟩

lemma hash_notMem_cleanQuery (h : '#' ∉ t) : '#' ∉ cleanQuery params t := by
  have hkept : '#' ∉ ['&'].intercalate (cleanPieces params [] (pieces (behind '?' t))) := by
    intro hmem
    rcases mem_intercalate hmem with hmem | ⟨piece, hpiece, hmem⟩
    · exact absurd hmem (by decide)
    · have hp := (cleanPieces_sublist params [] _).subset hpiece
      exact h (mem_of_mem_behind ((of_mem_pieces hp).2.2 _ hmem))
  rw [cleanQuery]
  split_ifs
  · exact fun hmem => h (mem_of_mem_before hmem)
  · rw [List.mem_append, List.mem_cons]
    rintro (hmem | hmem | hmem)
    · exact h (mem_of_mem_before hmem)
    · exact absurd hmem (by decide)
    · exact hkept hmem

lemma headOf_cleanQuery (params : List Text) (h : '#' ∉ t) :
    headOf (cleanQuery params t) = headOf t := by
  rw [headOf_eq, headOf_eq, before_of_notMem (hash_notMem_cleanQuery h), before_of_notMem h,
    (before_behind_cleanQuery params t).1]

end CleanQuery

section Accepted

variable {L : UrlLibs} {V : W3libVersion} {href base : Option Text} {u url : Text}
  {p : SplitResult}

/-- What `url_query_cleaner` makes of an http URL. -/
lemma cleaned_of_http (hL : W3libDocumented L V)
    (hp : urlsplit L.checks url = .ok p) (hscheme : IsHttp p.scheme) (hnetloc : p.netloc ≠ [])
    {cleaned : Text} (hcleaned : L.urlQueryCleaner url trackingParams = .ok cleaned) :
    parseQsl p.query = pairsOf (cleanerPieces V url) ∧ readText V url = trim V.blank cleaned ∧
      '#' ∉ cleaned ∧ behind '?' cleaned = keptQuery V url ∧
      ∃ p', urlsplit L.checks cleaned = .ok p' ∧ p'.scheme = p.scheme ∧ p'.netloc = p.netloc := by
  obtain ⟨t, ht, hhash, p₁, hp₁, hscheme₁, hnetloc₁, hquery⟩ := hL.defrag hp hscheme hnetloc
  have hpieces : cleanerPieces V url = pieces (behind '?' t) := by rw [cleanerPieces, ht]
  rw [query_of_urlsplit hp₁, before_of_notMem hhash] at hquery
  rw [hL.cleaner, ht] at hcleaned
  obtain rfl := Except.ok.inj hcleaned
  refine ⟨by rw [hpieces, ← parseQsl_dropUnsafe, hquery], by rw [readText, ht],
    hash_notMem_cleanQuery hhash, ?_, ?_⟩
  · rw [(before_behind_cleanQuery _ _).2, keptQuery, hpieces]
  · obtain ⟨p', hp', hscheme', hnetloc', -⟩ :=
      urlsplit_of_headOf hp₁ (headOf_cleanQuery trackingParams hhash)
    exact ⟨p', hp', hscheme'.trans hscheme₁, hnetloc'.trans hnetloc₁⟩

/-- **What `canonicalize_url` makes of a cleaned http URL.** -/
lemma canonicalized_of_http (hL : W3libDocumented L V)
    (hp : urlsplit L.checks url = .ok p) (hscheme : IsHttp p.scheme) (hnetloc : p.netloc ≠ [])
    {cleaned : Text} (hcleaned : L.urlQueryCleaner url trackingParams = .ok cleaned)
    (hu : L.canonicalizeUrl cleaned = .ok u) :
    ∃ p' path, urlsplit L.checks (readText V url) = .ok p' ∧ p'.scheme = p.scheme ∧
      p'.query = dropUnsafe ((keptQuery V url).rdropWhile V.blank) ∧
      path.head? = some '/' ∧ (∀ c ∈ path, isSpace c = false) ∧
      u = urlunsplit ⟨p'.scheme, V.canonicalNetloc p'.netloc, path, canonicalQuery p'.query, []⟩ ∧
      urlsplit L.checks u =
        .ok ⟨p'.scheme, V.canonicalNetloc p'.netloc, path, canonicalQuery p'.query, []⟩ := by
  obtain ⟨-, hread, hhash, hbehind, p₁, hp₁, hscheme₁, hnetloc₁⟩ :=
    cleaned_of_http hL hp hscheme hnetloc hcleaned
  obtain ⟨p', hp', hcanonical⟩ := hL.canonical hu
  obtain ⟨hscheme', hrooted, hquery⟩ := urlsplit_trim hL.blank hp₁ (hscheme₁.symm ▸ hscheme)
    (hnetloc₁.symm ▸ hnetloc) hhash hp'
  have hsame : p'.scheme = p.scheme := hscheme'.trans hscheme₁
  obtain ⟨path, hroot, hspace, htext, hsplit⟩ := hcanonical (hsame.symm ▸ hscheme) hrooted
  rw [hbehind] at hquery
  exact ⟨p', path, hread ▸ hp', hsame, hquery, hroot, hspace, htext, hsplit⟩

/-- **The result of `normalize_url`**: its parts, and the pairs of its query. -/
lemma parts_of_normalizeUrl (hL : W3libDocumented L V)
    (h : normalizeUrl L href base = .ok (some u)) :
    ∃ t url p p' path, reference href = some t ∧ resolve L base t = .ok url ∧
      urlsplit L.checks url = .ok p ∧ parseQsl p.query = pairsOf (cleanerPieces V url) ∧
      urlsplit L.checks (readText V url) = .ok p' ∧ IsHttp p'.scheme ∧
      p'.query = dropUnsafe ((keptQuery V url).rdropWhile V.blank) ∧
      path.head? = some '/' ∧ (∀ c ∈ path, isSpace c = false) ∧
      u = urlunsplit ⟨p'.scheme, V.canonicalNetloc p'.netloc, path, canonicalQuery p'.query, []⟩ ∧
      urlsplit L.checks u =
        .ok ⟨p'.scheme, V.canonicalNetloc p'.netloc, path, canonicalQuery p'.query, []⟩ ∧
      L.canonicalizeUrl u = .ok u := by
  obtain ⟨t, url, p, cleaned, ht, hurl, hp, hscheme, hnetloc, hcleaned, hu⟩ :=
    normalizeUrl_eq_some h
  obtain ⟨hpairs, -⟩ := cleaned_of_http hL hp hscheme hnetloc hcleaned
  obtain ⟨p', path, hp', hscheme', hrest⟩ :=
    canonicalized_of_http hL hp hscheme hnetloc hcleaned hu
  obtain ⟨hquery, hroot, hspace, htext, hsplit⟩ := hrest
  exact ⟨t, url, p, p', path, ht, hurl, hp, hpairs, hp', hscheme'.symm ▸ hscheme, hquery, hroot,
    hspace, htext, hsplit, hL.idempotent hu⟩

end Accepted

/-! ### Queries that lose exactly their tracking parameters -/

/-- The pairs that are not tracking parameters. -/
def realPairs (kvs : List (Bytes × Bytes)) : List (Bytes × Bytes) :=
  kvs.filter fun kv => kv.1 ∉ trackingKeys

/-- The pairs of the result are those of the URL that are not tracking parameters. -/
def KeepsQuery (L : UrlLibs) (url u : Text) : Prop :=
  (decodedPairs L u : Multiset (Bytes × Bytes)) = realPairs (decodedPairs L url)

/-- The piece counts, and the cleaner does not take it for a tracking parameter. -/
def IsReal (piece : Text) : Prop := dropUnsafe piece ≠ [] ∧ keyOf piece ∉ trackingParams

instance (piece : Text) : Decidable (IsReal piece) := inferInstanceAs (Decidable (_ ∧ _))

/-- No such piece repeats the raw key of an earlier piece, and none is a tracking parameter in
disguise. -/
structure PlainQuery (ps : List Text) : Prop where
  distinct : ps.Pairwise fun piece piece' => IsReal piece' → keyOf piece ≠ keyOf piece'
  undisguised : ∀ piece ∈ ps, IsReal piece → keyBytes (keyOf piece) ∉ trackingKeys

lemma keyBytes_mem_trackingKeys {key : Text} (h : key ∈ trackingParams) :
    keyBytes key ∈ trackingKeys := by
  have hall : ∀ key ∈ trackingParams, keyBytes key ∈ trackingKeys := by decide +kernel
  exact hall key h

lemma decodePiece_fst (piece : Text) :
    (decodePiece (dropUnsafe piece)).1 = keyBytes (keyOf piece) := by
  rw [decodePiece, keyOf, before_dropUnsafe (by decide)]
  rfl

/-- The key of a piece that vanishes is empty. -/
lemma keyBytes_of_vanishing {piece : Text} (h : dropUnsafe piece = []) :
    keyBytes (keyOf piece) ∉ trackingKeys := by
  rw [← decodePiece_fst, h]
  decide +kernel

lemma pairsOf_cons_of_vanishing {piece : Text} (h : dropUnsafe piece = []) (ps : List Text) :
    pairsOf (piece :: ps) = pairsOf ps := by
  rw [pairsOf, List.map_cons, List.filter_cons_of_neg (by simpa using h), pairsOf]

lemma pairsOf_cons {piece : Text} (h : dropUnsafe piece ≠ []) (ps : List Text) :
    pairsOf (piece :: ps) = decodePiece (dropUnsafe piece) :: pairsOf ps := by
  rw [pairsOf, List.map_cons, List.filter_cons_of_pos (by simpa using h), List.map_cons, pairsOf]

lemma realPairs_cons_tracking {piece : Text} (h : keyBytes (keyOf piece) ∈ trackingKeys)
    (ps : List Text) : realPairs (pairsOf (piece :: ps)) = realPairs (pairsOf ps) := by
  have hvisible : dropUnsafe piece ≠ [] := fun hnil => keyBytes_of_vanishing hnil h
  rw [pairsOf_cons hvisible, realPairs, List.filter_cons_of_neg, realPairs]
  rw [decodePiece_fst]
  simpa using h

lemma realPairs_cons {piece : Text} (hvisible : dropUnsafe piece ≠ [])
    (h : keyBytes (keyOf piece) ∉ trackingKeys) (ps : List Text) :
    realPairs (pairsOf (piece :: ps)) =
      decodePiece (dropUnsafe piece) :: realPairs (pairsOf ps) := by
  rw [pairsOf_cons hvisible, realPairs, List.filter_cons_of_pos, realPairs]
  rw [decodePiece_fst]
  simpa using h

/-- The same for the rest of a query, when the cleaner has seen some keys already. -/
structure PlainFrom (seen ps : List Text) : Prop extends PlainQuery ps where
  fresh : ∀ piece ∈ ps, IsReal piece → keyOf piece ∉ seen

section Clean

variable {seen seen' ps : List Text} {piece : Text}

lemma plainFrom_nil_left : PlainFrom [] ps ↔ PlainQuery ps :=
  ⟨fun h => h.toPlainQuery, fun h => ⟨h, fun _ _ _ => by simp⟩⟩

lemma PlainFrom.tail (h : PlainFrom seen (piece :: ps)) : PlainFrom seen ps where
  distinct := (List.pairwise_cons.1 h.distinct).2
  undisguised piece' hmem := h.undisguised piece' (List.mem_cons_of_mem _ hmem)
  fresh piece' hmem := h.fresh piece' (List.mem_cons_of_mem _ hmem)

/-- The key of the first piece has been seen when the rest is looked at. -/
lemma PlainFrom.tail_seen (h : PlainFrom seen (piece :: ps)) :
    PlainFrom (keyOf piece :: seen) ps where
  toPlainQuery := h.tail.toPlainQuery
  fresh := by
    intro piece' hmem hreal
    rw [List.mem_cons, not_or]
    exact ⟨((List.pairwise_cons.1 h.distinct).1 piece' hmem hreal).symm,
      h.tail.fresh piece' hmem hreal⟩

/-- A first piece that does no harm, before a rest with no more keys than have been seen. -/
lemma PlainFrom.cons (h : PlainFrom seen' ps) (hsub : seen ⊆ seen')
    (hkey : keyOf piece ∈ trackingParams ∨ keyOf piece ∈ seen')
    (hfresh : IsReal piece → keyOf piece ∉ seen)
    (hbytes : IsReal piece → keyBytes (keyOf piece) ∉ trackingKeys) :
    PlainFrom seen (piece :: ps) where
  distinct := by
    refine List.pairwise_cons.2 ⟨?_, h.distinct⟩
    intro piece' hmem hreal heq
    rcases hkey with hkey | hkey
    · exact hreal.2 (heq ▸ hkey)
    · exact h.fresh piece' hmem hreal (heq ▸ hkey)
  undisguised := List.forall_mem_cons.2 ⟨hbytes, h.undisguised⟩
  fresh := List.forall_mem_cons.2 ⟨hfresh, fun piece' hmem hreal hseen =>
    h.fresh piece' hmem hreal (hsub hseen)⟩

/-- A plain query loses its tracking parameters and nothing else. -/
lemma PlainFrom.pairsOf_cleanPieces (h : PlainFrom seen ps) :
    pairsOf (cleanPieces trackingParams seen ps) = realPairs (pairsOf ps) := by
  induction ps generalizing seen with
  | nil => rfl
  | cons piece ps ih =>
      rw [cleanPieces]
      by_cases htracking : keyOf piece ∈ trackingParams
      · rw [if_pos (Or.inr htracking), ih h.tail,
          realPairs_cons_tracking (keyBytes_mem_trackingKeys htracking)]
      · by_cases hvisible : dropUnsafe piece = []
        · rw [pairsOf_cons_of_vanishing hvisible]
          split_ifs
          · exact ih h.tail
          · rw [pairsOf_cons_of_vanishing hvisible]
            exact ih h.tail_seen
        · have hreal : IsReal piece := ⟨hvisible, htracking⟩
          have hnew : keyOf piece ∉ seen := h.fresh piece List.mem_cons_self hreal
          rw [if_neg (not_or.2 ⟨hnew, htracking⟩), pairsOf_cons hvisible, ih h.tail_seen,
            realPairs_cons hvisible (h.undisguised piece List.mem_cons_self hreal)]

/-- If the cleaner keeps no tracking parameter, it keeps at most the other pairs, and all of
them only if the query is plain. -/
lemma plainFrom_of_cleanPieces (hseen : ∀ key ∈ seen, keyBytes key ∉ trackingKeys)
    (hkept : ∀ kv ∈ pairsOf (cleanPieces trackingParams seen ps), kv.1 ∉ trackingKeys) :
    (pairsOf (cleanPieces trackingParams seen ps)).length ≤ (realPairs (pairsOf ps)).length ∧
      ((pairsOf (cleanPieces trackingParams seen ps)).length = (realPairs (pairsOf ps)).length →
        PlainFrom seen ps) := by
  induction ps generalizing seen with
  | nil => exact ⟨le_refl _, fun _ => ⟨⟨List.Pairwise.nil, by simp⟩, by simp⟩⟩
  | cons piece ps ih =>
      rw [cleanPieces] at hkept ⊢
      by_cases htracking : keyOf piece ∈ trackingParams
      · rw [if_pos (Or.inr htracking)] at hkept ⊢
        rw [realPairs_cons_tracking (keyBytes_mem_trackingKeys htracking)]
        obtain ⟨hle, heq⟩ := ih hseen hkept
        exact ⟨hle, fun h => (heq h).cons (List.Subset.refl _) (Or.inl htracking)
          (fun hreal => absurd htracking hreal.2) (fun hreal => absurd htracking hreal.2)⟩
      · by_cases hold : keyOf piece ∈ seen
        · rw [if_pos (Or.inl hold)] at hkept ⊢
          obtain ⟨hle, heq⟩ := ih hseen hkept
          by_cases hvisible : dropUnsafe piece = []
          · rw [pairsOf_cons_of_vanishing hvisible]
            exact ⟨hle, fun h => (heq h).cons (List.Subset.refl _) (Or.inr hold)
              (fun hreal => absurd hvisible hreal.1) (fun hreal => absurd hvisible hreal.1)⟩
          · -- a pair is lost
            rw [realPairs_cons hvisible (hseen _ hold), List.length_cons]
            exact ⟨by omega, fun h => absurd h (by omega)⟩
        · rw [if_neg (not_or.2 ⟨hold, htracking⟩)] at hkept ⊢
          have hself : keyOf piece ∈ keyOf piece :: seen := List.mem_cons_self
          by_cases hvisible : dropUnsafe piece = []
          · rw [pairsOf_cons_of_vanishing hvisible] at hkept
            rw [pairsOf_cons_of_vanishing hvisible, pairsOf_cons_of_vanishing hvisible]
            have hbytes := keyBytes_of_vanishing hvisible
            obtain ⟨hle, heq⟩ := ih (List.forall_mem_cons.2 ⟨hbytes, hseen⟩) hkept
            exact ⟨hle, fun h => (heq h).cons (List.subset_cons_self _ _) (Or.inr hself)
              (fun hreal => absurd hvisible hreal.1) (fun hreal => absurd hvisible hreal.1)⟩
          · rw [pairsOf_cons hvisible] at hkept ⊢
            obtain ⟨hfirst, hkept⟩ := List.forall_mem_cons.1 hkept
            rw [decodePiece_fst] at hfirst
            rw [realPairs_cons hvisible hfirst, List.length_cons, List.length_cons]
            obtain ⟨hle, heq⟩ := ih (List.forall_mem_cons.2 ⟨hfirst, hseen⟩) hkept
            exact ⟨by omega, fun h => (heq (by omega)).cons (List.subset_cons_self _ _)
              (Or.inr hself) (fun _ => hold) (fun _ => hfirst)⟩

/-- **When the cleaner drops exactly the tracking parameters.** -/
lemma perm_realPairs_iff :
    (pairsOf (cleanPieces trackingParams [] ps)).Perm (realPairs (pairsOf ps)) ↔ PlainQuery ps := by
  constructor
  · intro hperm
    have hkept : ∀ kv ∈ pairsOf (cleanPieces trackingParams [] ps), kv.1 ∉ trackingKeys :=
      fun kv hkv => of_decide_eq_true (List.mem_filter.1 (hperm.subset hkv)).2
    exact plainFrom_nil_left.1 ((plainFrom_of_cleanPieces (by simp) hkept).2 hperm.length_eq)
  · intro hplain
    rw [(plainFrom_nil_left.2 hplain).pairsOf_cleanPieces]

end Clean

/-! ### White space at the end of a query -/

/-- Only tabs and line breaks are stripped from the end, which are dropped anyway. -/
def KeepsEnd (blank : Char → Bool) (q : Text) : Prop :=
  dropUnsafe (q.rdropWhile blank) = dropUnsafe q

instance (blank : Char → Bool) (q : Text) : Decidable (KeepsEnd blank q) :=
  inferInstanceAs (Decidable (_ = _))

/-- The number of bytes in the pairs. -/
def weight (kvs : List (Bytes × Bytes)) : ℕ := (kvs.map fun kv => kv.1.length + kv.2.length).sum

lemma weight_append (kvs : List (Bytes × Bytes)) (kv : Bytes × Bytes) :
    weight (kvs ++ [kv]) = weight kvs + (kv.1.length + kv.2.length) := by
  rw [weight, List.map_append, List.sum_append, List.map_singleton, List.sum_singleton, weight]

section Blank

variable {blank : Char → Bool} {w : Text}

/-- What is stripped from the end of a query. -/
lemma exists_stripped (q : Text) :
    KeepsEnd blank q ∨ ∃ w, (∀ c ∈ w, blank c = true) ∧ w ≠ [] ∧
      dropUnsafe q = dropUnsafe (q.rdropWhile blank) ++ w := by
  have hparts : dropUnsafe q =
      dropUnsafe (q.rdropWhile blank) ++ dropUnsafe (q.rtakeWhile blank) := by
    conv_lhs => rw [← List.rdropWhile_append_rtakeWhile (p := blank) (l := q)]
    exact List.filter_append _ _
  by_cases hnil : dropUnsafe (q.rtakeWhile blank) = []
  · rw [hnil, List.append_nil] at hparts
    exact Or.inl hparts.symm
  · exact Or.inr ⟨_, fun c hc => List.mem_rtakeWhile_imp (mem_of_mem_dropUnsafe hc), hnil, hparts⟩

variable (hblank : ∀ c, blank c = true → isSpace c = true ∨ c.toNat ≤ 32)
include hblank

/-- The keys of the tracking parameters are printable. -/
lemma append_notMem_trackingKeys (hw : ∀ c ∈ w, blank c = true) (hne : utf8 w ≠ []) (key : Bytes) :
    key ++ utf8 w ∉ trackingKeys := by
  have hprintable : ∀ key ∈ trackingKeys, ∀ b ∈ key, 32 < b.toNat ∧ b.toNat < 128 := by
    decide +kernel
  intro hmem
  obtain ⟨b, hb⟩ := List.exists_mem_of_ne_nil _ hne
  have hcode := of_mem_utf8_blank hblank hw hb
  have hb' := hprintable _ hmem b (List.mem_append_right _ hb)
  omega

/-- What is stripped from the end makes the pairs lighter, and hides no tracking parameter. -/
lemma stripped_pairs (hw : ∀ c ∈ w, blank c = true) (hne : w ≠ []) (q : Text) :
    (parseQsl q).length ≤ (parseQsl (q ++ w)).length ∧
      weight (parseQsl q) < weight (parseQsl (q ++ w)) ∧
      ((∀ kv ∈ parseQsl q, kv.1 ∉ trackingKeys) →
        ∀ kv ∈ parseQsl (q ++ w), kv.1 ∉ trackingKeys) := by
  have hbytes : utf8 w ≠ [] := by
    intro hnil
    obtain ⟨c, hc⟩ := List.exists_mem_of_ne_nil _ hne
    have hlen := String.length_utf8EncodeChar c
    rw [List.flatMap_eq_nil_iff.1 hnil c hc] at hlen
    exact absurd hlen.symm c.utf8Size_pos.ne'
  have hpos := List.length_pos_iff.2 hbytes
  obtain ⟨kvs, kv, hlong, ⟨hshort, rfl⟩ | ⟨kv', hshort, rfl | rfl⟩⟩ :=
    (inert_of_blank hblank hw).parseQsl_append hne q
  · rw [hlong, hshort, weight_append, List.length_append]
    refine ⟨Nat.le_add_right _ _, by simp only [List.length_nil]; omega, ?_⟩
    intro hall
    exact List.forall_mem_append.2 ⟨hall, List.forall_mem_singleton.2
      (append_notMem_trackingKeys hblank hw hbytes [])⟩
  · rw [hlong, hshort, weight_append, weight_append, List.length_append, List.length_append]
    refine ⟨le_refl _, by simp only [List.length_append]; omega, ?_⟩
    intro hall
    obtain ⟨hinit, hlast⟩ := List.forall_mem_append.1 hall
    exact List.forall_mem_append.2 ⟨hinit, List.forall_mem_singleton.2
      (hlast kv' List.mem_cons_self)⟩
  · rw [hlong, hshort, weight_append, weight_append, List.length_append, List.length_append]
    refine ⟨le_refl _, by simp only [List.length_append]; omega, ?_⟩
    intro hall
    exact List.forall_mem_append.2 ⟨(List.forall_mem_append.1 hall).1,
      List.forall_mem_singleton.2 (append_notMem_trackingKeys hblank hw hbytes kv'.1)⟩

lemma length_parseQsl_stripped_le (q : Text) :
    (parseQsl (dropUnsafe (q.rdropWhile blank))).length ≤ (parseQsl (dropUnsafe q)).length := by
  rcases exists_stripped q with hend | ⟨w, hw, hne, hparts⟩
  · rw [show dropUnsafe (q.rdropWhile blank) = dropUnsafe q from hend]
  · rw [hparts]
    exact (stripped_pairs hblank hw hne _).1

/-- **When the two rewriters drop exactly the tracking parameters.** -/
lemma perm_realPairs_stripped_iff {q kept : Text}
    (hk : kept = ['&'].intercalate (cleanPieces trackingParams [] (pieces q))) :
    (parseQsl (dropUnsafe (kept.rdropWhile blank))).Perm (realPairs (pairsOf (pieces q))) ↔
      PlainQuery (pieces q) ∧ KeepsEnd blank kept := by
  have hkept : parseQsl (dropUnsafe kept) = pairsOf (cleanPieces trackingParams [] (pieces q)) := by
    rw [hk, parseQsl_dropUnsafe, pieces_kept]
  rcases exists_stripped kept with hend | ⟨w, hw, hne, hparts⟩
  · rw [show dropUnsafe (kept.rdropWhile blank) = dropUnsafe kept from hend, hkept,
      perm_realPairs_iff, and_iff_left hend]
  · obtain ⟨hlength, hweight, hkeys⟩ :=
      stripped_pairs hblank hw hne (dropUnsafe (kept.rdropWhile blank))
    rw [← hparts, hkept] at hlength hweight hkeys
    refine iff_of_false ?_ fun h => hne ?_
    · intro hperm
      -- nothing can be lost but by stripping, and what is stripped is missed
      have hreal := hkeys fun kv hkv => of_decide_eq_true (List.mem_filter.1 (hperm.subset hkv)).2
      obtain ⟨hle, heq⟩ := plainFrom_of_cleanPieces (by simp) hreal
      have hplain := heq (le_antisymm hle (hperm.length_eq ▸ hlength))
      have hsame := (hperm.map fun kv => kv.1.length + kv.2.length).sum_eq
      rw [← hplain.pairsOf_cleanPieces] at hsame
      exact absurd hsame hweight.ne
    · have hend : dropUnsafe (kept.rdropWhile blank) = dropUnsafe kept := h.2
      rw [hend] at hparts
      exact List.append_cancel_left (hparts.symm.trans (List.append_nil _).symm)

end Blank

section Keeps

variable {L : UrlLibs} {V : W3libVersion} {href u : Text}

/-- The pairs of an absolute URL that was accepted, and those of the result. -/
lemma decodedPairs_of_normalizeUrl (hL : W3libDocumented L V)
    (h : normalizeUrl L (some href) none = .ok (some u)) :
    decodedPairs L (strip href) = pairsOf (cleanerPieces V (strip href)) ∧
      (decodedPairs L u).Perm
        (parseQsl (dropUnsafe ((keptQuery V (strip href)).rdropWhile V.blank))) := by
  obtain ⟨t, url, p, p', path, ht, hurl, hp, hpairs, -, -, hquery, -, -, -, hsplit, -⟩ :=
    parts_of_normalizeUrl hL h
  obtain rfl : strip href = t := (Option.filter_eq_some_iff.1 ht).1 |> Option.some.inj
  obtain rfl := Except.ok.inj hurl
  constructor
  · rw [decodedPairs, hp]
    exact hpairs
  · rw [decodedPairs, hsplit, ← hquery]
    simp only [parseQsl_canonicalQuery]
    exact List.perm_insertionSort _ _

/-- The query is plain, and nothing of what is left of it is stripped. -/
def LosesNothing (V : W3libVersion) (url : Text) : Prop :=
  PlainQuery (cleanerPieces V url) ∧ KeepsEnd V.blank (keptQuery V url)

/-- **What `normalize_url` does to a query.**  The pairs of the result are those of the URL
without the tracking parameters, exactly if the query is plain and what the cleaner leaves of it
does not end in white space.  Two such URLs that differ in their other pairs have different
results. -/
theorem keepsQuery_iff (hL : W3libDocumented L V)
    (h : normalizeUrl L (some href) none = .ok (some u)) :
    (KeepsQuery L (strip href) u ↔ LosesNothing V (strip href)) ∧
      ∀ href' u' : Text, normalizeUrl L (some href') none = .ok (some u') →
        LosesNothing V (strip href) → LosesNothing V (strip href') →
        ¬ (realPairs (decodedPairs L (strip href))).Perm
          (realPairs (decodedPairs L (strip href'))) → u ≠ u' := by
  have hiff : ∀ {href u : Text}, normalizeUrl L (some href) none = .ok (some u) →
      (KeepsQuery L (strip href) u ↔ LosesNothing V (strip href)) := by
    intro href u h
    obtain ⟨hpairs, hkept⟩ := decodedPairs_of_normalizeUrl hL h
    have hpieces : ∃ q, cleanerPieces V (strip href) = pieces q := by
      rw [cleanerPieces]
      split
      · exact ⟨_, rfl⟩
      · exact ⟨[], rfl⟩
    obtain ⟨q, hq⟩ := hpieces
    have hk : keptQuery V (strip href) =
        ['&'].intercalate (cleanPieces trackingParams [] (pieces q)) := by rw [keptQuery, hq]
    rw [KeepsQuery, Multiset.coe_eq_coe, hpairs, LosesNothing, hq,
      ← perm_realPairs_stripped_iff hL.blank hk]
    exact ⟨hkept.symm.trans, hkept.trans⟩
  refine ⟨hiff h, ?_⟩
  rintro href' u' h' hplain hplain' hne rfl
  have hkeeps := Multiset.coe_eq_coe.1 ((hiff h).2 hplain)
  have hkeeps' := Multiset.coe_eq_coe.1 ((hiff h').2 hplain')
  exact hne (hkeeps.symm.trans hkeeps')

end Keeps

/-! ### The canonical query as text -/

instance : Std.Total pairLe := ⟨fun _ _ => le_total (toLex _) (toLex _)⟩

instance : IsTrans (Bytes × Bytes) pairLe := ⟨fun _ _ _ hab hbc => le_trans hab hbc⟩

lemma canonicalQuery_idem (q : Text) : canonicalQuery (canonicalQuery q) = canonicalQuery q := by
  rw [canonicalQuery, parseQsl_canonicalQuery,
    (List.pairwise_insertionSort pairLe _).insertionSort_eq, canonicalQuery]

/-- No white space is written by an encoder. -/
lemma isSpace_of_isFormChar {c : Char} (h : IsFormChar c ∨ c = '=' ∨ c = '&') :
    isSpace c = false := by
  have hcodes : ∀ n ∈ spaceCodes,
      ¬ (IsFormChar (Char.ofNat n) ∨ Char.ofNat n = '=' ∨ Char.ofNat n = '&') := by decide +kernel
  by_contra hspace
  have hmem : c.toNat ∈ spaceCodes := by simpa [isSpace] using hspace
  have hc := hcodes _ hmem
  rw [Char.ofNat_toNat] at hc
  exact hc h

lemma isSpace_of_isUnsafe {c : Char} (h : isUnsafe c = true) : isSpace c = true := by
  simp only [isUnsafe, Bool.or_eq_true, beq_iff_eq] at h
  rcases h with (rfl | rfl) | rfl
  · decide
  · decide
  · decide

lemma of_mem_canonicalQuery {q : Text} {c : Char} (hc : c ∈ canonicalQuery q) :
    c ≠ '#' ∧ isUnsafe c = false ∧ isSpace c = false := by
  have hform := isFormChar_of_mem_urlencode hc
  have hspace := isSpace_of_isFormChar hform
  refine ⟨?_, ?_, hspace⟩
  · rintro rfl
    exact absurd hform (by decide)
  · by_contra hunsafe
    rw [isSpace_of_isUnsafe (by simpa using hunsafe)] at hspace
    exact absurd hspace (by decide)

/-! ### Fixed points -/

/-- The cleaner leaves a query as it is if its raw keys are different and none of them is in the
list. -/
lemma cleanPieces_eq_self_iff {params seen ps : List Text} :
    cleanPieces params seen ps = ps ↔
      (ps.map keyOf).Nodup ∧ ∀ piece ∈ ps, keyOf piece ∉ seen ∧ keyOf piece ∉ params := by
  induction ps generalizing seen with
  | nil => simp [cleanPieces]
  | cons piece ps ih =>
      rw [cleanPieces]
      split_ifs with hdrop
      · refine iff_of_false ?_ ?_
        · intro heq
          have hlen := (cleanPieces_sublist params seen ps).length_le
          rw [heq, List.length_cons] at hlen
          omega
        · rintro ⟨-, hall⟩
          exact not_or.2 (hall piece List.mem_cons_self) hdrop
      · rw [List.cons_inj_right, ih, List.map_cons, List.nodup_cons, List.forall_mem_cons]
        simp only [List.mem_cons, not_or, List.mem_map]
        constructor
        · rintro ⟨hnodup, hall⟩
          refine ⟨⟨?_, hnodup⟩, not_or.1 hdrop,
            fun piece' h => ⟨(hall piece' h).1.2, (hall piece' h).2⟩⟩
          rintro ⟨piece', hmem, hkey⟩
          exact (hall piece' hmem).1.1 hkey
        · rintro ⟨⟨hnew, hnodup⟩, -, hall⟩
          refine ⟨hnodup, fun piece' hmem =>
            ⟨⟨?_, (hall piece' hmem).1⟩, (hall piece' hmem).2⟩⟩
          intro hkey
          exact hnew ⟨piece', hmem, hkey⟩

lemma quotePlus_mem_trackingParams {key : Bytes} :
    quotePlus key ∈ trackingParams ↔ key ∈ trackingKeys := by
  have hself : ∀ t ∈ trackingParams, quotePlus (utf8 t) = t := by decide +kernel
  rw [trackingKeys, List.mem_map]
  constructor
  · intro hmem
    exact ⟨_, hmem, quotePlus_injective (hself _ hmem)⟩
  · rintro ⟨t, hmem, rfl⟩
    rwa [hself t hmem]

/-- The keys are different, and none of them is a tracking parameter. -/
def DistinctKeys (kvs : List (Bytes × Bytes)) : Prop :=
  (kvs.map Prod.fst).Nodup ∧ ∀ kv ∈ kvs, kv.1 ∉ trackingKeys

lemma DistinctKeys.perm {kvs kvs' : List (Bytes × Bytes)} (hperm : kvs.Perm kvs') :
    DistinctKeys kvs ↔ DistinctKeys kvs' := by
  rw [DistinctKeys, DistinctKeys, (hperm.map _).nodup_iff]
  refine and_congr_right ?_
  intro _
  exact ⟨fun h kv hkv => h kv (hperm.symm.subset hkv), fun h kv hkv => h kv (hperm.subset hkv)⟩

/-- The cleaner leaves an encoded query as it is if the keys that it encodes are distinct. -/
lemma cleanPieces_encoded_iff {kvs : List (Bytes × Bytes)} :
    cleanPieces trackingParams [] (kvs.map encodePair) = kvs.map encodePair ↔ DistinctKeys kvs := by
  have hkeys : (kvs.map encodePair).map keyOf = (kvs.map Prod.fst).map quotePlus := by
    rw [List.map_map, List.map_map]
    exact List.map_congr_left fun kv _ => keyOf_encodePair kv
  rw [cleanPieces_eq_self_iff, hkeys, List.nodup_map_iff quotePlus_injective, DistinctKeys]
  refine and_congr_right ?_
  intro _
  constructor
  · intro hall kv hkv hmem
    have h := (hall _ (List.mem_map_of_mem hkv)).2
    rw [keyOf_encodePair, quotePlus_mem_trackingParams] at h
    exact h hmem
  · intro hall piece hpiece
    obtain ⟨kv, hkv, rfl⟩ := List.mem_map.1 hpiece
    rw [keyOf_encodePair, quotePlus_mem_trackingParams]
    exact ⟨by simp, hall kv hkv⟩

section Fixed

variable {L : UrlLibs} {V : W3libVersion} {scheme netloc path q : Text}

/-- A canonical URL ends with its query, or else with its path. -/
lemma exists_last_canonical (netloc : Text) (hscheme : IsHttp scheme)
    (hroot : path.head? = some '/') (q : Text) :
    ∃ mid last : Text,
      urlunsplit ⟨scheme, netloc, path, canonicalQuery q, []⟩ = scheme ++ mid ++ last ∧
        last ≠ [] ∧ ∀ c ∈ last, c ∈ path ∨ c ∈ canonicalQuery q := by
  have hpath : path ≠ [] := by
    rintro rfl
    simp at hroot
  rw [urlunsplit_http hscheme (Or.inr hroot) rfl]
  split_ifs with hnil
  · exact ⟨':' :: '/' :: '/' :: netloc, path, by simp, hpath, fun c hc => Or.inl hc⟩
  · exact ⟨':' :: '/' :: '/' :: (netloc ++ path) ++ ['?'], canonicalQuery q, by simp, hnil,
      fun c hc => Or.inr hc⟩

/-- A canonical URL is read as a reference as it is. -/
lemma reference_canonical (hscheme : IsHttp scheme) (hroot : path.head? = some '/')
    (hspace : ∀ c ∈ path, isSpace c = false) :
    reference (some (urlunsplit ⟨scheme, netloc, path, canonicalQuery q, []⟩)) =
      some (urlunsplit ⟨scheme, netloc, path, canonicalQuery q, []⟩) := by
  obtain ⟨mid, last, htext, hne, hmem⟩ := exists_last_canonical netloc hscheme hroot q
  have hlast : ∀ c ∈ last, isSpace c = false := fun c hc =>
    (hmem c hc).elim (hspace c) fun hq => (of_mem_canonicalQuery hq).2.2
  rw [htext, reference, Option.map_some, strip_eq_trim,
    trim_http hscheme (by decide) hne hlast, Option.filter_some_pos]
  refine decide_eq_true ⟨?_, ?_⟩
  · simp [hne]
  · rw [List.append_assoc]
    exact isSkipped_http hscheme

/-- What `url_query_cleaner` leaves of a canonical URL: everything, exactly if the keys of the
query are distinct. -/
lemma cleanQuery_canonical (hL : W3libDocumented L V) (hscheme : IsHttp scheme)
    (hw : WellSplit L.checks netloc path) :
    let u := urlunsplit ⟨scheme, netloc, path, canonicalQuery q, []⟩
    V.defrag u = .ok u ∧
      cleanerPieces V u = ((parseQsl q).insertionSort pairLe).map encodePair ∧
      (DistinctKeys (parseQsl q) → cleanQuery trackingParams u = u) := by
  intro u
  have hhash : '#' ∉ u := fun h =>
    (of_mem_urlunsplit (p := ⟨scheme, netloc, path, canonicalQuery q, []⟩) hscheme hw rfl
      (fun c hc => ⟨(of_mem_canonicalQuery hc).1, (of_mem_canonicalQuery hc).2.1⟩) h).1 rfl
  obtain ⟨hbefore, hbehind⟩ :=
    before_behind_urlunsplit (p := ⟨scheme, netloc, path, canonicalQuery q, []⟩) hscheme hw rfl
  have hdefrag : V.defrag u = .ok u := hL.defrag_self hhash
  have hpieces : pieces (behind '?' u) = ((parseQsl q).insertionSort pairLe).map encodePair := by
    rw [hbehind]
    exact pieces_urlencode _
  refine ⟨hdefrag, by rw [cleanerPieces, hdefrag]; exact hpieces, ?_⟩
  intro hkeys
  have hclean := cleanPieces_encoded_iff.2
    ((DistinctKeys.perm (List.perm_insertionSort pairLe (parseQsl q))).2 hkeys)
  have htext : u = httpHead ⟨scheme, netloc, path, canonicalQuery q, []⟩ ++
      (if canonicalQuery q = [] then [] else '?' :: canonicalQuery q) :=
    urlunsplit_http hscheme hw.rooted rfl
  have hquery : ['&'].intercalate (((parseQsl q).insertionSort pairLe).map encodePair) =
      canonicalQuery q := rfl
  rw [cleanQuery, hpieces, hclean, hbefore, htext]
  split_ifs with h₁ h₂ h₂
  · rw [List.append_nil]
  · rw [h₁] at hquery
    exact absurd hquery.symm h₂
  · have hnil := pieces_urlencode ((parseQsl q).insertionSort pairLe)
    rw [← canonicalQuery, h₂] at hnil
    exact absurd hnil.symm h₁
  · rw [hquery]

/-- The second pass over a canonical URL. -/
lemma canonicalOf_canonical_iff (hL : W3libDocumented L V) (hscheme : IsHttp scheme)
    (hnetloc : netloc ≠ []) {u : Text}
    (hu : u = urlunsplit ⟨scheme, netloc, path, canonicalQuery q, []⟩)
    (hsplit : urlsplit L.checks u = .ok ⟨scheme, netloc, path, canonicalQuery q, []⟩)
    (hfix : L.canonicalizeUrl u = .ok u) :
    canonicalOf L u = some u ↔ DistinctKeys (parseQsl q) := by
  have hw : WellSplit L.checks netloc path := wellSplit_of_urlsplit hsplit hnetloc
  obtain ⟨hdefrag, hpieces, hsame⟩ := cleanQuery_canonical (q := q) hL hscheme hw
  rw [← hu] at hdefrag hpieces hsame
  have hcleaner : L.urlQueryCleaner u trackingParams = .ok (cleanQuery trackingParams u) := by
    rw [hL.cleaner, hdefrag]
    rfl
  constructor
  · intro hcanonical
    rw [canonicalOf, hcleaner] at hcanonical
    cases hv : L.canonicalizeUrl (cleanQuery trackingParams u) with
    | error e => simp [hv, bind, Except.bind] at hcanonical
    | ok v =>
        simp only [bind, Except.bind, hv] at hcanonical
        split_ifs at hcanonical
        obtain rfl := Option.some.inj hcanonical
        -- the query of the result has lost nothing
        obtain ⟨p', path', -, -, hquery', -, -, -, hsplit'⟩ :=
          canonicalized_of_http hL hsplit hscheme hnetloc hcleaner hv
        rw [hsplit] at hsplit'
        have hquery : canonicalQuery q = canonicalQuery p'.query := by
          simpa using congrArg SplitResult.query (Except.ok.inj hsplit')
        have hlen : (parseQsl q).length =
            (parseQsl (dropUnsafe ((keptQuery V v).rdropWhile V.blank))).length := by
          have := congrArg List.length (congrArg parseQsl hquery)
          rwa [parseQsl_canonicalQuery, parseQsl_canonicalQuery, List.length_insertionSort,
            List.length_insertionSort, hquery'] at this
        have hsub := cleanPieces_sublist trackingParams []
          (((parseQsl q).insertionSort pairLe).map encodePair)
        have hall : cleanPieces trackingParams []
            (((parseQsl q).insertionSort pairLe).map encodePair) =
              ((parseQsl q).insertionSort pairLe).map encodePair := by
          refine hsub.eq_of_length_le ?_
          rw [List.length_map, List.length_insertionSort, hlen]
          refine (length_parseQsl_stripped_le hL.blank _).trans ?_
          rw [parseQsl_dropUnsafe, keptQuery, hpieces]
          refine (length_pairsOf_le _).trans (le_of_eq ?_)
          rw [← pieces_urlencode, pieces_kept]
        exact (DistinctKeys.perm (List.perm_insertionSort pairLe (parseQsl q))).1
          (cleanPieces_encoded_iff.1 hall)
  · intro hkeys
    have hne : u ≠ [] := by
      rw [hu, urlunsplit_http hscheme hw.rooted rfl]
      simp
    rw [canonicalOf, hcleaner, hsame hkeys]
    simp [bind, Except.bind, hfix, hne]

/-- **Fixed points.**  The result of `normalize_url` is normalized to itself exactly if, of the
text that `canonicalize_url` has read, the authority has not become empty, and the pairs of the
query have different keys, none of them a tracking parameter. -/
theorem normalizeUrl_fixed_iff (hL : W3libDocumented L V) {href base : Option Text}
    {u t url : Text} (h : normalizeUrl L href base = .ok (some u))
    (ht : reference href = some t) (hurl : resolve L base t = .ok url) :
    ∃ p, urlsplit L.checks (readText V url) = .ok p ∧
      (normalizeUrl L (some u) none = .ok (some u) ↔
        V.canonicalNetloc p.netloc ≠ [] ∧ DistinctKeys (parseQsl p.query)) := by
  obtain ⟨t', url', -, p, path, ht', hurl', -, -, hp, hscheme, -, hroot, hspace, htext, hsplit,
    hfix⟩ := parts_of_normalizeUrl hL h
  obtain rfl := Option.some.inj (ht.symm.trans ht')
  obtain rfl := Except.ok.inj (hurl.symm.trans hurl')
  refine ⟨p, hp, ?_⟩
  have href : reference (some u) = some u := by
    rw [htext]
    exact reference_canonical hscheme hroot hspace
  rw [normalizeUrl_eq href rfl hsplit]
  by_cases hnetloc : V.canonicalNetloc p.netloc = []
  · rw [if_neg fun h => h.2 hnetloc]
    exact iff_of_false (by simp) fun h => h.1 hnetloc
  · rw [if_pos ⟨hscheme, hnetloc⟩, Except.ok.injEq, and_iff_right hnetloc]
    exact canonicalOf_canonical_iff hL hscheme hnetloc htext hsplit hfix

end Fixed

/-! ### Plain URLs

On http(s) URLs whose authority and path need no rewriting, the libraries can be written
down. -/

/-- The authority and the path are canonical as they are. -/
def IsPlainUrl (p : SplitResult) : Prop :=
  IsHttp p.scheme ∧ p.netloc ≠ [] ∧ p.path.head? = some '/' ∧
    ∀ c ∈ p.path, isUnreserved c = true ∨ c = '/'

instance (p : SplitResult) : Decidable (IsPlainUrl p) :=
  -- over the characters of the path, not over all characters
  letI : Decidable (∀ c ∈ p.path, isUnreserved c = true ∨ c = '/') :=
    List.decidableBAll (fun c => isUnreserved c = true ∨ c = '/') p.path
  inferInstanceAs (Decidable (_ ∧ _ ∧ _ ∧ _))

/-- No authority has brackets or characters outside ASCII. -/
def plainChecks : NetlocChecks := { bracketed := fun _ => false, nfkc := fun _ => false }

/-- A version that strips control characters and spaces. -/
def plainVersion : W3libVersion where
  defrag := urldefrag plainChecks
  blank c := c.toNat ≤ 32
  canonicalNetloc := id

/-- The libraries on plain URLs; other URLs are refused. -/
def plainLibs : UrlLibs where
  checks := plainChecks
  urlQueryCleaner url params := (urldefrag plainChecks url).map (cleanQuery params)
  canonicalizeUrl url := do
    let p ← urlsplit plainChecks (trim plainVersion.blank url)
    if IsPlainUrl p then
      pure (urlunsplit { p with query := canonicalQuery p.query, fragment := [] })
    else throw valueError

section PlainLibs

variable {url u : Text} {p : SplitResult}

lemma canonicalizeUrl_of_isPlainUrl
    (hp : urlsplit plainChecks (trim plainVersion.blank url) = .ok p) (hplain : IsPlainUrl p) :
    plainLibs.canonicalizeUrl url =
      .ok (urlunsplit { p with query := canonicalQuery p.query, fragment := [] }) := by
  simp only [plainLibs, hp, bind, Except.bind, if_pos hplain]
  rfl

lemma canonicalizeUrl_plainLibs (hu : plainLibs.canonicalizeUrl url = .ok u) :
    ∃ p, urlsplit plainChecks (trim plainVersion.blank url) = .ok p ∧ IsPlainUrl p ∧
      urlunsplit { p with query := canonicalQuery p.query, fragment := [] } = u := by
  cases hp : urlsplit plainChecks (trim plainVersion.blank url) with
  | error e =>
      simp only [plainLibs, hp, bind, Except.bind] at hu
      cases hu
  | ok p =>
      by_cases hplain : IsPlainUrl p
      · rw [canonicalizeUrl_of_isPlainUrl hp hplain] at hu
        exact ⟨p, rfl, hplain, Except.ok.inj hu⟩
      · simp only [plainLibs, hp, bind, Except.bind, if_neg hplain] at hu
        cases hu

/-- The parts of the canonical form. -/
lemma urlsplit_canonical {t : Text} (hp : urlsplit plainChecks t = .ok p) (hplain : IsPlainUrl p) :
    urlsplit plainChecks (urlunsplit { p with query := canonicalQuery p.query, fragment := [] }) =
      .ok { p with query := canonicalQuery p.query, fragment := [] } := by
  have hw : WellSplit plainChecks p.netloc p.path := wellSplit_of_urlsplit hp hplain.2.1
  refine urlsplit_urlunsplit hplain.1 hw rfl ?_
  intro c hc
  have hc := of_mem_canonicalQuery hc
  exact ⟨hc.1, hc.2.1⟩

lemma plainVersion_blank {c : Char} (hc : IsFormChar c ∨ c = '=' ∨ c = '&' ∨ c = '/') :
    plainVersion.blank c = false := by
  by_contra hblank
  have hle : c.toNat < 33 := by simpa [plainVersion, Nat.lt_succ_iff] using hblank
  have hno : ∀ n < 33, ¬ (IsFormChar (Char.ofNat n) ∨ Char.ofNat n = '=' ∨ Char.ofNat n = '&' ∨
      Char.ofNat n = '/') := by decide +kernel
  have hc' := hno _ hle
  rw [Char.ofNat_toNat] at hc'
  exact hc' hc

/-- Nothing is stripped from the canonical form. -/
lemma trim_canonical (hplain : IsPlainUrl p) :
    trim plainVersion.blank
        (urlunsplit { p with query := canonicalQuery p.query, fragment := [] }) =
      urlunsplit { p with query := canonicalQuery p.query, fragment := [] } := by
  obtain ⟨hscheme, -, hroot, hpath⟩ := hplain
  obtain ⟨mid, last, htext, hne, hmem⟩ :=
    exists_last_canonical p.netloc hscheme hroot p.query
  have hlast : ∀ c ∈ last, plainVersion.blank c = false := by
    intro c hc
    rcases hmem c hc with hc | hc
    · rcases hpath c hc with hc | hc
      · exact plainVersion_blank (Or.inl (Or.inl hc))
      · exact plainVersion_blank (by simp [hc])
    · rcases isFormChar_of_mem_urlencode hc with hc | hc | hc
      · exact plainVersion_blank (Or.inl hc)
      · exact plainVersion_blank (by simp [hc])
      · exact plainVersion_blank (by simp [hc])
  have htrim : trim plainVersion.blank (p.scheme ++ mid ++ last) = p.scheme ++ mid ++ last :=
    trim_http hscheme (by decide) hne hlast
  rwa [← htext] at htrim

end PlainLibs

lemma plainLibs_documented : W3libDocumented plainLibs plainVersion where
  defrag_self := by
    intro url hhash
    show urldefrag plainChecks url = _
    rw [urldefrag, if_neg hhash]
    rfl
  defrag := by
    intro url p hp hscheme hnetloc
    obtain ⟨t, ht, hhash, hquery, p', hp', hscheme', hnetloc'⟩ := urldefrag_http hp hscheme hnetloc
    refine ⟨t, ht, hhash, p', hp', hscheme', hnetloc', ?_⟩
    rw [query_of_urlsplit hp', before_of_notMem hhash, hquery]
  cleaner _ _ := rfl
  blank c h := Or.inr (of_decide_eq_true h)
  canonical := by
    intro url u hu
    obtain ⟨p, hp, hplain, rfl⟩ := canonicalizeUrl_plainLibs hu
    refine ⟨p, hp, fun _ _ => ⟨p.path, hplain.2.2.1, ?_, rfl,
      urlsplit_canonical hp hplain⟩⟩
    intro c hc
    rcases hplain.2.2.2 c hc with hc | rfl
    · exact isSpace_of_isFormChar (Or.inl (Or.inl hc))
    · decide
  idempotent := by
    intro url u hu
    obtain ⟨p, hp, hplain, rfl⟩ := canonicalizeUrl_plainLibs hu
    have hread := (congrArg (urlsplit plainChecks) (trim_canonical hplain)).trans
      (urlsplit_canonical hp hplain)
    rw [canonicalizeUrl_of_isPlainUrl hread hplain]
    simp only [canonicalQuery_idem]

/-- A repeated key loses its second value, and two different URLs get one key. -/
theorem repeated_key_collapses :
    ∃ u, normalizeUrl plainLibs (some "http://a.org/?a=1&a=2".toList) none = .ok (some u) ∧
      normalizeUrl plainLibs (some "http://a.org/?a=1".toList) none = .ok (some u) ∧
      ¬ KeepsQuery plainLibs "http://a.org/?a=1&a=2".toList u := by
  refine ⟨"http://a.org/?a=1".toList, ?_, ?_, ?_⟩
  · decide +kernel
  · rfl
  · rw [KeepsQuery]
    decide +kernel

/-- A plain query: the tracking parameter goes, the rest stays. -/
theorem keepsQuery_id :
    KeepsQuery plainLibs (strip "http://a.org/?utm_source=x&id=5".toList)
      "http://a.org/?id=5".toList := by
  have h : normalizeUrl plainLibs (some "http://a.org/?utm_source=x&id=5".toList) none =
      .ok (some "http://a.org/?id=5".toList) := by decide +kernel
  exact (keepsQuery_iff plainLibs_documented h).1.2
    ⟨⟨by decide +kernel, by decide +kernel⟩, by decide +kernel⟩

/-- The space before a fragment goes with it. -/
example : normalizeUrl plainLibs (some "http://a.org/?a=1 #x".toList) none =
    .ok (some "http://a.org/?a=1".toList) := by decide +kernel

/-- A tracking parameter with an escaped letter is spelled out by the first pass and dropped by
the second one. -/
theorem disguised_parameter_moves :
    ∃ u, normalizeUrl plainLibs (some "http://a.org/?%72ef=1".toList) none = .ok (some u) ∧
      normalizeUrl plainLibs (some u) none = .ok (some "http://a.org/".toList) ∧
      u ≠ "http://a.org/".toList :=
  ⟨"http://a.org/?ref=1".toList, by decide +kernel, by decide +kernel, by decide⟩

/-- A canonical URL with two different keys stays as it is. -/
theorem normalizeUrl_fixed_ab :
    normalizeUrl plainLibs (some "http://a.org/?a=2&b=1".toList) none =
      .ok (some "http://a.org/?a=2&b=1".toList) := by
  have h : normalizeUrl plainLibs (some "http://a.org/?b=1&a=2".toList) none =
      .ok (some "http://a.org/?a=2&b=1".toList) := by decide +kernel
  have ht : reference (some "http://a.org/?b=1&a=2".toList) =
      some "http://a.org/?b=1&a=2".toList := by decide +kernel
  have hread : urlsplit plainLibs.checks
      (readText plainVersion "http://a.org/?b=1&a=2".toList) =
      .ok ⟨"http".toList, "a.org".toList, "/".toList, "b=1&a=2".toList, []⟩ := by decide +kernel
  obtain ⟨p, hp, hiff⟩ := normalizeUrl_fixed_iff plainLibs_documented h ht rfl
  obtain rfl := Except.ok.inj (hread.symm.trans hp)
  exact hiff.2 ⟨by decide, by decide +kernel, by decide +kernel⟩

end WebCrawler
