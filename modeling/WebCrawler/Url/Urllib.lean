import WebCrawler.Models
import WebCrawler.Lib.FormEncoding

/-!
# Splitting and joining URLs

The functions `urlsplit`, `urljoin` and `urldefrag` of Python's `urllib.parse`, on which
`crawler/url_utils.py`, the HTML parser and the robots cache rest.  Texts are lists of
characters.

`urlsplit` drops leading control characters and spaces, and every tab and line break; then it
cuts off the fragment, the query, the scheme and the authority.  The cuts do not interfere: a
scheme contains neither `?` nor `#`, and an authority ends before them.  It raises
`ValueError` for an authority with unbalanced brackets, with brackets around something that is
no IP address, or with a character that becomes a delimiter under NFKC; the two last checks
are parameters.
-/

namespace WebCrawler

open Lib

/-- The checks of an authority that rest on `ipaddress` and `unicodedata`. -/
structure NetlocChecks where
  /-- What stands between the brackets is an IP address. -/
  bracketed : Text → Bool
  /-- No character becomes a delimiter under NFKC. -/
  nfkc : Text → Bool

/-- The five components of a URL. -/
structure SplitResult where
  scheme : Text := []
  netloc : Text := []
  path : Text := []
  query : Text := []
  fragment : Text := []
deriving DecidableEq, Repr

/-- A tab or a line break. -/
def isUnsafe (c : Char) : Bool := c == '\t' || c == '\r' || c == '\n'

/-- The text without tabs and line breaks. -/
def dropUnsafe (t : Text) : Text := t.filter fun c => !isUnsafe c

/-- `lstrip` of control characters and spaces. -/
def lstripControl (t : Text) : Text := t.dropWhile fun c => c.toNat ≤ 32

def isSchemeChar (c : Char) : Bool := c.isAlphanum || c == '+' || c == '-' || c == '.'

/-- The scheme and the rest of a text; the default if it has no scheme. -/
def splitScheme (default t : Text) : Text × Text :=
  let name := before ':' t
  if ':' ∈ t ∧ (name.head?.any Char.isAlpha) ∧ name.all isSchemeChar then
    (name.map Char.toLower, behind ':' t)
  else (default, t)

/-- A character that ends an authority. -/
def endsNetloc (c : Char) : Bool := c == '/' || c == '?' || c == '#'

/-- The authority and the path, for a text that starts with `//`. -/
def splitNetloc (t : Text) : Text × Text :=
  if "//".toList <+: t then
    ((t.drop 2).takeWhile fun c => !endsNetloc c, (t.drop 2).dropWhile fun c => !endsNetloc c)
  else ([], t)

/-- The authority is well formed. -/
def NetlocChecks.accepts (chk : NetlocChecks) (netloc : Text) : Bool :=
  (decide ('[' ∈ netloc) == decide (']' ∈ netloc)) &&
    (decide ('[' ∉ netloc) || chk.bracketed netloc) &&
    (netloc.all (fun c => c.toNat < 128) || chk.nfkc netloc)

/-- What is left of a URL before its query and its fragment. -/
def headOf (url : Text) : Text := before '?' (before '#' (dropUnsafe (lstripControl url)))

/-- `urlsplit(url, scheme)`. -/
def urlsplit (chk : NetlocChecks) (url : Text) (scheme : Text := []) : Except PyError SplitResult :=
  let t := dropUnsafe (lstripControl url)
  let (scheme, rest) := splitScheme scheme (headOf url)
  let (netloc, path) := splitNetloc rest
  if chk.accepts netloc then
    .ok { scheme, netloc, path, query := behind '?' (before '#' t), fragment := behind '#' t }
  else .error valueError

/-- `uses_relative`, `uses_netloc` and `uses_params`: the schemes with relative references,
authorities and parameters. -/
def usesRelative : List String :=
  ["", "ftp", "http", "gopher", "nntp", "imap", "wais", "file", "https", "shttp", "mms",
   "prospero", "rtsp", "rtsps", "rtspu", "sftp", "svn", "svn+ssh", "ws", "wss"]

@[inherit_doc usesRelative]
def usesNetloc : List String :=
  ["", "ftp", "http", "gopher", "nntp", "telnet", "imap", "wais", "file", "mms", "https", "shttp",
   "snews", "prospero", "rtsp", "rtsps", "rtspu", "rsync", "svn", "svn+ssh", "sftp", "nfs", "git",
   "git+ssh", "ws", "wss"]

@[inherit_doc usesRelative]
def usesParams : List String :=
  ["", "ftp", "hdl", "prospero", "http", "imap", "https", "shttp", "rtsp", "rtsps", "rtspu", "sip",
   "sips", "mms", "sftp", "tel"]

/-- `urlunsplit`. -/
def urlunsplit (p : SplitResult) : Text :=
  let url :=
    if p.netloc ≠ [] ∨ (p.scheme ≠ [] ∧ String.ofList p.scheme ∈ usesNetloc) ∨
        "//".toList <+: p.path then
      "//".toList ++ p.netloc ++
        (if p.path = [] ∨ p.path.head? = some '/' then p.path else '/' :: p.path)
    else p.path
  (if p.scheme = [] then [] else p.scheme ++ [':']) ++ url ++
    (if p.query = [] then [] else '?' :: p.query) ++
    (if p.fragment = [] then [] else '#' :: p.fragment)

/-- `_splitparams`: the parameters of the last segment of a path. -/
def splitParams (path : Text) : Text × Text :=
  let segment := (path.reverse.takeWhile (· ≠ '/')).reverse
  let directory := (path.reverse.dropWhile (· ≠ '/')).reverse
  (directory ++ before ';' segment, behind ';' segment)

/-- The path and the parameters that `urlparse` finds. -/
def pathAndParams (p : SplitResult) : Text × Text :=
  if String.ofList p.scheme ∈ usesParams then splitParams p.path else (p.path, [])

/-- The path with its parameters, as `urlunparse` writes it. -/
def withParams (path params : Text) : Text := if params = [] then path else path ++ ';' :: params

/-- The loop over the segments of a path in `urljoin`. -/
def resolveSegments (segments : List Text) : List Text :=
  let resolved := segments.foldl (fun acc seg =>
    if seg = "..".toList then acc.dropLast else if seg = ".".toList then acc else acc ++ [seg]) []
  if segments.getLast? = some ".".toList ∨ segments.getLast? = some "..".toList then
    resolved ++ [[]]
  else resolved

/-- `segments[1:-1] = filter(None, segments[1:-1])`. -/
def dropEmptyInside : List Text → List Text
  | [] => []
  | first :: rest => first :: (rest.dropLast.filter (· ≠ []) ++ rest.getLast?.toList)

/-- The path of a reference, resolved against the path of the base. -/
def resolvePath (bpath path : Text) : Text :=
  let parts := bpath.splitOn '/'
  let baseParts := if parts.getLast? = some [] then parts else parts.dropLast
  let segments :=
    if path.head? = some '/' then path.splitOn '/'
    else dropEmptyInside (baseParts ++ path.splitOn '/')
  let joined := ['/'].intercalate (resolveSegments segments)
  if joined = [] then ['/'] else joined

/-- `urljoin`. -/
def urljoin (chk : NetlocChecks) (base url : Text) : Except PyError Text :=
  if base = [] then .ok url
  else if url = [] then .ok base
  else do
    let b ← urlsplit chk base
    let p ← urlsplit chk url b.scheme
    let (bpath, bparams) := pathAndParams b
    let (path, params) := pathAndParams p
    if p.scheme ≠ b.scheme ∨ String.ofList p.scheme ∉ usesRelative then pure url
    else if String.ofList p.scheme ∈ usesNetloc ∧ p.netloc ≠ [] then
      pure (urlunsplit { p with path := withParams path params })
    else
      let netloc := if String.ofList p.scheme ∈ usesNetloc then b.netloc else p.netloc
      if path = [] ∧ params = [] then
        pure (urlunsplit { p with
          netloc := netloc
          path := withParams bpath bparams
          query := if p.query = [] then b.query else p.query })
      else
        pure (urlunsplit { p with
          netloc := netloc
          path := withParams (resolvePath bpath path) params })

/-- `urldefrag(url).url`. -/
def urldefrag (chk : NetlocChecks) (url : Text) : Except PyError Text :=
  if '#' ∈ url then do
    let p ← urlsplit chk url
    let (path, params) := pathAndParams p
    pure (urlunsplit { p with path := withParams path params, fragment := [] })
  else pure url

/-! ### What `urlsplit` finds -/

section Urlsplit

variable {chk : NetlocChecks} {t t' scheme : Text} {p : SplitResult} {c : Char}

lemma dropUnsafe_eq_self (h : ∀ c ∈ t, isUnsafe c = false) : dropUnsafe t = t :=
  List.filter_eq_self.2 fun c hc => by rw [h c hc]; rfl

lemma isUnsafe_of_mem_dropUnsafe (h : c ∈ dropUnsafe t) : isUnsafe c = false := by
  simpa using (List.mem_filter.1 h).2

lemma mem_of_mem_dropUnsafe (h : c ∈ dropUnsafe t) : c ∈ t := (List.mem_filter.1 h).1

lemma before_dropUnsafe (hc : isUnsafe c = false) (t : Text) :
    before c (dropUnsafe t) = dropUnsafe (before c t) :=
  before_filter (by rw [hc]; rfl) t

lemma behind_dropUnsafe (hc : isUnsafe c = false) (t : Text) :
    behind c (dropUnsafe t) = dropUnsafe (behind c t) :=
  behind_filter (by rw [hc]; rfl) t

/-- The characters that are stripped from the front, and the rest. -/
lemma exists_lstripControl (t : Text) :
    ∃ w, t = w ++ lstripControl t ∧ ∀ c ∈ w, c.toNat ≤ 32 := by
  refine ⟨t.takeWhile fun c => c.toNat ≤ 32, List.takeWhile_append_dropWhile.symm, ?_⟩
  intro c hc
  simpa using List.mem_takeWhile_imp hc

lemma before_lstripControl (hc : 32 < c.toNat) (t : Text) :
    before c (lstripControl t) = lstripControl (before c t) := by
  induction t with
  | nil => rfl
  | cons d t ih =>
      by_cases hd : d.toNat ≤ 32
      · have hne : d ≠ c := by
          rintro rfl
          omega
        rw [before_cons_of_ne hne, lstripControl, List.dropWhile_cons_of_pos (by simpa using hd),
          lstripControl, List.dropWhile_cons_of_pos (by simpa using hd)]
        exact ih
      · rw [lstripControl, List.dropWhile_cons_of_neg (by simpa using hd)]
        by_cases hne : d = c
        · subst hne
          simp [before, lstripControl]
        · rw [before_cons_of_ne hne, lstripControl, List.dropWhile_cons_of_neg (by simpa using hd)]

lemma behind_lstripControl (hc : 32 < c.toNat) (t : Text) :
    behind c (lstripControl t) = behind c t := by
  obtain ⟨w, hw, hsmall⟩ := exists_lstripControl t
  have hcw : c ∉ w := fun h => by
    have := hsmall c h
    omega
  conv_rhs => rw [hw, behind_append_of_notMem hcw]

/-- The head of a URL is found in the text before `?` and `#`. -/
lemma headOf_eq (t : Text) : headOf t = dropUnsafe (lstripControl (before '?' (before '#' t))) := by
  rw [headOf, before_dropUnsafe (by decide), before_dropUnsafe (by decide),
    before_lstripControl (by decide), before_lstripControl (by decide)]

/-- The query is found between `?` and `#`. -/
lemma query_of_urlsplit (h : urlsplit chk t scheme = .ok p) :
    p.query = dropUnsafe (behind '?' (before '#' t)) := by
  rw [urlsplit] at h
  simp only at h
  split_ifs at h
  obtain rfl := Except.ok.inj h
  simp only
  rw [before_dropUnsafe (by decide), behind_dropUnsafe (by decide),
    before_lstripControl (by decide), behind_lstripControl (by decide)]

/-- Scheme, authority and path depend on the head alone. -/
lemma urlsplit_of_headOf (h : urlsplit chk t scheme = .ok p) (hhead : headOf t' = headOf t) :
    ∃ p', urlsplit chk t' scheme = .ok p' ∧ p'.scheme = p.scheme ∧ p'.netloc = p.netloc ∧
      p'.path = p.path := by
  rw [urlsplit] at h ⊢
  simp only [hhead] at h ⊢
  split_ifs at h with haccept
  obtain rfl := Except.ok.inj h
  rw [if_pos haccept]
  exact ⟨_, rfl, rfl, rfl, rfl⟩

end Urlsplit

/-! ### URLs with the scheme http or https -/

/-- The scheme is http or https. -/
def IsHttp (scheme : Text) : Prop := scheme = "http".toList ∨ scheme = "https".toList

instance (scheme : Text) : Decidable (IsHttp scheme) := inferInstanceAs (Decidable (_ ∨ _))

/-- An authority and a path that `urlsplit` has found. -/
structure WellSplit (chk : NetlocChecks) (netloc path : Text) : Prop where
  accepts : chk.accepts netloc = true
  of_mem_netloc : ∀ c ∈ netloc, endsNetloc c = false ∧ isUnsafe c = false
  of_mem_path : ∀ c ∈ path, c ≠ '?' ∧ c ≠ '#' ∧ isUnsafe c = false
  rooted : path = [] ∨ path.head? = some '/'

section Http

variable {chk : NetlocChecks} {t : Text} {p : SplitResult} {c : Char}

lemma of_mem_headOf (h : c ∈ headOf t) : c ≠ '?' ∧ c ≠ '#' ∧ isUnsafe c = false := by
  rw [headOf] at h
  refine ⟨?_, ?_, ?_⟩
  · rintro rfl
    exact notMem_before _ _ h
  · rintro rfl
    exact notMem_before _ _ (mem_of_mem_before h)
  · exact isUnsafe_of_mem_dropUnsafe (mem_of_mem_before (mem_of_mem_before h))

lemma mem_of_mem_splitScheme {default : Text} (h : c ∈ (splitScheme default t).2) : c ∈ t := by
  rw [splitScheme] at h
  split_ifs at h
  · exact mem_of_mem_behind h
  · exact h

/-- What is left behind an authority starts with a slash. -/
lemma rooted_dropWhile {rest : Text} (h : ∀ c ∈ rest, c ≠ '?' ∧ c ≠ '#') :
    rest.dropWhile (fun c => !endsNetloc c) = [] ∨
      (rest.dropWhile fun c => !endsNetloc c).head? = some '/' := by
  induction rest with
  | nil => exact Or.inl rfl
  | cons d rest ih =>
      obtain ⟨hq, hf⟩ := h d (by simp)
      by_cases hd : d = '/'
      · subst hd
        exact Or.inr rfl
      · have hends : endsNetloc d = false := by simp [endsNetloc, hd, hq, hf]
        rw [List.dropWhile_cons_of_pos (by rw [hends]; rfl)]
        exact ih fun c hc => h c (by simp [hc])

lemma wellSplit_splitNetloc {rest : Text}
    (h : ∀ c ∈ rest, c ≠ '?' ∧ c ≠ '#' ∧ isUnsafe c = false)
    (haccept : chk.accepts (splitNetloc rest).1 = true) (hnetloc : (splitNetloc rest).1 ≠ []) :
    WellSplit chk (splitNetloc rest).1 (splitNetloc rest).2 := by
  have hdrop : ∀ c ∈ rest.drop 2, c ≠ '?' ∧ c ≠ '#' ∧ isUnsafe c = false :=
    fun c hc => h c (List.mem_of_mem_drop hc)
  rw [splitNetloc] at haccept hnetloc ⊢
  split_ifs at haccept hnetloc ⊢ with hslashes
  · refine ⟨haccept, fun c hc => ⟨?_, ?_⟩, ?_, ?_⟩
    · simpa using List.mem_takeWhile_imp hc
    · exact (hdrop c (List.takeWhile_subset _ hc)).2.2
    · intro c hc
      exact hdrop c (List.dropWhile_subset _ hc)
    · exact rooted_dropWhile fun c hc => ⟨(hdrop c hc).1, (hdrop c hc).2.1⟩
  · exact absurd rfl hnetloc

/-- The parts of a URL with an authority. -/
lemma wellSplit_of_urlsplit (h : urlsplit chk t = .ok p) (hnetloc : p.netloc ≠ []) :
    WellSplit chk p.netloc p.path := by
  rw [urlsplit] at h
  simp only at h
  split_ifs at h with haccept
  obtain rfl := Except.ok.inj h
  exact wellSplit_splitNetloc (fun c hc => of_mem_headOf (mem_of_mem_splitScheme hc)) haccept
    hnetloc

/-- The text of an http URL. -/
lemma urlunsplit_http (hscheme : IsHttp p.scheme) (hrooted : p.path = [] ∨ p.path.head? = some '/')
    (hfragment : p.fragment = []) :
    urlunsplit p = (p.scheme ++ ':' :: '/' :: '/' :: (p.netloc ++ p.path)) ++
      (if p.query = [] then [] else '?' :: p.query) := by
  have hne : p.scheme ≠ [] := by
    rcases hscheme with h | h
    · rw [h]; decide
    · rw [h]; decide
  have huses : String.ofList p.scheme ∈ usesNetloc := by
    rcases hscheme with h | h
    · rw [h]; decide
    · rw [h]; decide
  rw [urlunsplit]
  simp only [hne, huses, hrooted, hfragment, ne_eq, not_false_eq_true, and_self, true_or, or_true,
    if_true, if_false, List.append_nil]
  simp

lemma splitScheme_http {scheme rest : Text} (hscheme : IsHttp scheme) :
    splitScheme [] (scheme ++ ':' :: rest) = (scheme, rest) := by
  have hcolon : ':' ∉ scheme := by
    rcases hscheme with rfl | rfl
    · decide
    · decide
  rw [splitScheme]
  simp only [before_append hcolon, behind_append hcolon]
  rw [if_pos]
  · rcases hscheme with rfl | rfl
    · rfl
    · rfl
  · refine ⟨by simp, ?_⟩
    rcases hscheme with rfl | rfl
    · decide
    · decide

lemma splitNetloc_append {netloc path : Text} (hw : WellSplit chk netloc path) :
    splitNetloc ('/' :: '/' :: (netloc ++ path)) = (netloc, path) := by
  have hnetloc : ∀ c ∈ netloc, (!endsNetloc c) = true := fun c hc => by
    rw [(hw.of_mem_netloc c hc).1]
    rfl
  rw [splitNetloc, if_pos (by simp)]
  simp only [List.drop_succ_cons, List.drop_zero]
  rw [List.takeWhile_append_of_pos hnetloc, List.dropWhile_append_of_pos hnetloc]
  rcases hw.rooted with rfl | hroot
  · simp
  · obtain ⟨l, rfl⟩ : ∃ l, path = '/' :: l := by
      cases path with
      | nil => simp at hroot
      | cons d l => exact ⟨l, by simpa using hroot⟩
    simp [endsNetloc]

/-- The text of an http URL before its query. -/
def httpHead (p : SplitResult) : Text := p.scheme ++ ':' :: '/' :: '/' :: (p.netloc ++ p.path)

lemma of_mem_httpHead (hscheme : IsHttp p.scheme) (hw : WellSplit chk p.netloc p.path)
    (hc : c ∈ httpHead p) : c ≠ '?' ∧ c ≠ '#' ∧ isUnsafe c = false := by
  simp only [httpHead, List.mem_append, List.mem_cons] at hc
  rcases hc with hc | rfl | rfl | rfl | hc | hc
  · have hall : p.scheme.all (fun c => c ≠ '?' ∧ c ≠ '#' ∧ isUnsafe c = false) = true := by
      rcases hscheme with h | h
      · rw [h]; decide
      · rw [h]; decide
    exact of_decide_eq_true (List.all_eq_true.1 hall c hc)
  · decide
  · decide
  · decide
  · obtain ⟨hends, hsafe⟩ := hw.of_mem_netloc c hc
    refine ⟨?_, ?_, hsafe⟩
    · rintro rfl
      exact absurd hends (by decide)
    · rintro rfl
      exact absurd hends (by decide)
  · exact hw.of_mem_path c hc

section RoundTrip

variable (hscheme : IsHttp p.scheme) (hw : WellSplit chk p.netloc p.path)
  (hfragment : p.fragment = [])

include hscheme hw hfragment

lemma of_mem_urlunsplit (hquery : ∀ c ∈ p.query, c ≠ '#' ∧ isUnsafe c = false)
    (hc : c ∈ urlunsplit p) : c ≠ '#' ∧ isUnsafe c = false := by
  rw [urlunsplit_http hscheme hw.rooted hfragment, List.mem_append] at hc
  rcases hc with hc | hc
  · exact (of_mem_httpHead hscheme hw hc).2
  · split_ifs at hc
    · simp at hc
    · rcases List.mem_cons.1 hc with rfl | hc
      · decide
      · exact hquery c hc

/-- The text, cut at the query. -/
lemma before_behind_urlunsplit :
    before '?' (urlunsplit p) = httpHead p ∧ behind '?' (urlunsplit p) = p.query := by
  have hq : '?' ∉ httpHead p := fun h => (of_mem_httpHead hscheme hw h).1 rfl
  rw [urlunsplit_http hscheme hw.rooted hfragment, ← httpHead]
  split_ifs with hnil
  · rw [List.append_nil, before_of_notMem hq, behind_of_notMem hq, hnil]
    exact ⟨rfl, rfl⟩
  · exact ⟨before_append hq _, behind_append hq _⟩

/-- **Round trip.**  `urlsplit` finds the parts of an http URL that `urlunsplit` has written. -/
lemma urlsplit_urlunsplit (hquery : ∀ c ∈ p.query, c ≠ '#' ∧ isUnsafe c = false) :
    urlsplit chk (urlunsplit p) = .ok p := by
  have hmem := fun c (hc : c ∈ urlunsplit p) => of_mem_urlunsplit hscheme hw hfragment hquery hc
  have hf : '#' ∉ urlunsplit p := fun h => (hmem _ h).1 rfl
  have hsafe : dropUnsafe (urlunsplit p) = urlunsplit p :=
    dropUnsafe_eq_self fun c hc => (hmem c hc).2
  have hstrip : lstripControl (urlunsplit p) = urlunsplit p := by
    rw [urlunsplit_http hscheme hw.rooted hfragment]
    rcases hscheme with h | h
    · rw [h]
      exact List.dropWhile_cons_of_neg (by decide)
    · rw [h]
      exact List.dropWhile_cons_of_neg (by decide)
  obtain ⟨hbefore, hbehind⟩ := before_behind_urlunsplit hscheme hw hfragment
  rw [urlsplit]
  simp only [headOf, hstrip, hsafe, before_of_notMem hf, behind_of_notMem hf, hbefore, hbehind]
  rw [httpHead, splitScheme_http hscheme]
  simp only [splitNetloc_append hw, hw.accepts, if_true]
  rw [← hfragment]

end RoundTrip

/-! ### `urldefrag` -/

lemma mem_of_mem_pathAndParams (hc : c ∈ (pathAndParams p).1 ∨ c ∈ (pathAndParams p).2) :
    c ∈ p.path := by
  rw [pathAndParams] at hc
  split_ifs at hc
  · have hsegment : ∀ c ∈ (p.path.reverse.takeWhile (· ≠ '/')).reverse, c ∈ p.path := by
      intro c hc
      exact List.mem_reverse.1 (List.takeWhile_subset _ (List.mem_reverse.1 hc))
    simp only [splitParams, List.mem_append] at hc
    rcases hc with (hc | hc) | hc
    · exact List.mem_reverse.1 (List.dropWhile_subset _ (List.mem_reverse.1 hc))
    · exact hsegment c (mem_of_mem_before hc)
    · exact hsegment c (mem_of_mem_behind hc)
  · exact hc.resolve_right (by simp)

/-- The path without its parameters starts as the path does. -/
lemma rooted_pathAndParams (h : p.path = [] ∨ p.path.head? = some '/') :
    (pathAndParams p = ([], []) ∨ (pathAndParams p).1.head? = some '/') := by
  rw [pathAndParams]
  rcases h with h | h
  · left
    rw [h]
    split_ifs <;> rfl
  · right
    split_ifs
    · obtain ⟨l, hl⟩ : ∃ l, p.path = '/' :: l := by
        cases hpath : p.path with
        | nil => simp [hpath] at h
        | cons d l => exact ⟨l, by simpa [hpath] using h⟩
      -- the directory of the path is not empty
      have hdir : (p.path.reverse.dropWhile (· ≠ '/')).reverse =
          '/' :: (l.reverse.dropWhile (· ≠ '/')).reverse := by
        rw [hl, List.reverse_cons, List.dropWhile_append]
        split_ifs with hnil
        · rw [List.isEmpty_iff.1 hnil]
          rfl
        · rw [List.reverse_append]
          rfl
      simp only [splitParams, hdir, List.cons_append, List.head?_cons]
    · exact h

/-- The path as `urlunparse` writes it back. -/
def unparsedPath (p : SplitResult) : Text := withParams (pathAndParams p).1 (pathAndParams p).2

lemma wellSplit_unparsedPath (hw : WellSplit chk p.netloc p.path) :
    WellSplit chk p.netloc (unparsedPath p) where
  accepts := hw.accepts
  of_mem_netloc := hw.of_mem_netloc
  of_mem_path := by
    intro c hc
    rw [unparsedPath, withParams] at hc
    split_ifs at hc
    · exact hw.of_mem_path c (mem_of_mem_pathAndParams (Or.inl hc))
    · rcases List.mem_append.1 hc with hc | hc
      · exact hw.of_mem_path c (mem_of_mem_pathAndParams (Or.inl hc))
      · rcases List.mem_cons.1 hc with rfl | hc
        · decide
        · exact hw.of_mem_path c (mem_of_mem_pathAndParams (Or.inr hc))
  rooted := by
    rw [unparsedPath, withParams]
    rcases rooted_pathAndParams hw.rooted with h | h
    · left
      rw [h]
      rfl
    · right
      split_ifs
      · exact h
      · rw [List.head?_append, h]
        rfl

lemma of_mem_query (h : urlsplit chk t = .ok p) (hc : c ∈ p.query) :
    c ≠ '#' ∧ isUnsafe c = false := by
  rw [query_of_urlsplit h] at hc
  refine ⟨?_, isUnsafe_of_mem_dropUnsafe hc⟩
  rintro rfl
  exact notMem_before _ _ (mem_of_mem_behind (mem_of_mem_dropUnsafe hc))

/-- `urldefrag` keeps the scheme, the authority and the query of an http URL. -/
lemma urldefrag_http (h : urlsplit chk t = .ok p) (hscheme : IsHttp p.scheme)
    (hnetloc : p.netloc ≠ []) :
    ∃ t', urldefrag chk t = .ok t' ∧ '#' ∉ t' ∧ dropUnsafe (behind '?' t') = p.query ∧
      ∃ p', urlsplit chk t' = .ok p' ∧ p'.scheme = p.scheme ∧ p'.netloc = p.netloc := by
  rw [urldefrag]
  split_ifs with hhash
  · have hw := wellSplit_unparsedPath (wellSplit_of_urlsplit h hnetloc)
    let q : SplitResult := { p with path := unparsedPath p, fragment := [] }
    have hq : ∀ c ∈ q.query, c ≠ '#' ∧ isUnsafe c = false := fun c hc => of_mem_query h hc
    refine ⟨urlunsplit q, by rw [h]; rfl, ?_, ?_, q, ?_, rfl, rfl⟩
    · intro hmem
      exact (of_mem_urlunsplit (p := q) hscheme hw rfl hq hmem).1 rfl
    · rw [(before_behind_urlunsplit (p := q) hscheme hw rfl).2]
      exact dropUnsafe_eq_self fun c hc => (hq c hc).2
    · exact urlsplit_urlunsplit (p := q) hscheme hw rfl hq
  · refine ⟨t, rfl, hhash, ?_, p, h, rfl, rfl⟩
    rw [query_of_urlsplit h, before_of_notMem hhash]

end Http

end WebCrawler
