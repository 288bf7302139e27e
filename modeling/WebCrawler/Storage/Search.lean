import WebCrawler.Lib.Wildcard
import WebCrawler.Storage.Tables

/-!
# The search for documents

`list_documents` of `AnalyticsRepository` and of `SqlCrawlService`.  The query goes into a
pattern for `ILIKE` as it is, so that a `%` or a `_` in it is a wildcard.  How the database
folds upper and lower case is a parameter.

Every document that contains the query is found, and the pages neither skip nor repeat a
document.  But documents that do not contain it are found too if the query has wildcards, and
for such a query there always is a table in which that happens (`search_iff`).
-/

namespace WebCrawler

open Lib

/-- The case folding of a database, which leaves the wildcards alone. -/
structure CaseFold where
  fold : Char → Char
  fold_percent : ∀ c, fold c = '%' ↔ c = '%'
  fold_underscore : ∀ c, fold c = '_' ↔ c = '_'

/-- What a character of a pattern stands for. -/
def likeElement (c : Char) : Wildcard Char :=
  if c = '%' then .many else if c = '_' then .one else .lit c

namespace CaseFold

variable (F : CaseFold)

def foldText (text : String) : List Char := text.toList.map F.fold

/-- `column.ilike(pattern)`. -/
def ilike (text pattern : String) : Bool :=
  Wildcard.Matches ((F.foldText pattern).map likeElement) (F.foldText text)

/-- The filter for a query: on the URL, or on the title if there is one. -/
def matchesQuery (q : String) (row : DocumentRow) : Bool :=
  let pattern := "%" ++ q ++ "%"
  F.ilike row.url pattern || row.title.any fun title => F.ilike title pattern

/-- The filters of `list_documents`; a filter that is missing or empty keeps every row. -/
def keeps (domain q : Option String) (row : DocumentRow) : Bool :=
  (domain.all fun domain => domain = "" || row.registeredDomain = domain) &&
    q.all fun q => q = "" || F.matchesQuery q row

end CaseFold

/-- The rows, most recent first. -/
def recentFirst (rows : List DocumentRow) : List DocumentRow :=
  rows.mergeSort fun a b => b.id ≤ a.id

/-- `AnalyticsRepository.list_documents`: a page of the documents, and their total. -/
def Tables.listDocuments (F : CaseFold) (t : Tables) (limit offset : ℕ)
    (domain q : Option String) : List DocumentRow × ℕ :=
  let rows := t.documents.filter (F.keeps domain q)
  (((recentFirst rows).drop offset).take limit, rows.length)

/-- `DocumentSummary`. -/
structure DocumentSummary where
  id : ℕ
  url : String
  registeredDomain : String
  httpStatus : Option ℤ
  title : Option String
  depth : ℤ
  inDegree : ℕ
  outDegree : ℕ
deriving DecidableEq, Repr

def summaryOf (row : DocumentRow) : DocumentSummary where
  id := row.id
  url := row.url
  registeredDomain := row.registeredDomain
  httpStatus := row.httpStatus
  title := row.title
  depth := row.depth
  inDegree := row.inDegree
  outDegree := row.outDegree

/-- `DocumentPage`. -/
structure DocumentPage where
  total : ℕ
  limit : ℕ
  offset : ℕ
  items : List DocumentSummary
deriving DecidableEq, Repr

/-- `SqlCrawlService.list_documents`. -/
def documentPage (F : CaseFold) (t : Tables) (limit offset : ℕ) (domain q : Option String) :
    DocumentPage :=
  let (docs, total) := t.listDocuments F limit offset domain q
  { total, limit, offset, items := docs.map summaryOf }

/-! ### The specification -/

namespace CaseFold

variable (F : CaseFold)

/-- The text contains the query, up to case. -/
def Contains (q text : String) : Prop := F.foldText q <:+: F.foldText text

instance (q text : String) : Decidable (F.Contains q text) :=
  inferInstanceAs (Decidable (_ <:+: _))

/-- The URL or the title of the document contains the query. -/
def FoundIn (q : String) (row : DocumentRow) : Prop :=
  F.Contains q row.url ∨ ∃ title ∈ row.title, F.Contains q title

instance (q : String) (row : DocumentRow) : Decidable (F.FoundIn q row) :=
  inferInstanceAs (Decidable (_ ∨ ∃ title ∈ row.title, F.Contains q title))

/-- The search returns the documents that contain the query: `total` is their number, and the
pages of any size, up to the last one, have each of them once. -/
def SearchRight (t : Tables) (q : String) : Prop :=
  ∀ limit : ℕ, 0 < limit →
    let page offset := documentPage F t limit offset none (some q)
    let found := t.documents.filter fun row => F.FoundIn q row
    (∀ offset, (page offset).total = found.length) ∧
      ∀ n, (page 0).total ≤ n * limit →
        ((List.range n).flatMap fun k => (page (k * limit)).items).Perm (found.map summaryOf)

end CaseFold

/-! ### The pattern -/

section Pattern

variable {F : CaseFold} {q text : String}

/-- Folding does not change what a character stands for. -/
lemma likeElement_fold (F : CaseFold) (c : Char) :
    likeElement (F.fold c) =
      if c = '%' then .many else if c = '_' then .one else .lit (F.fold c) := by
  rw [likeElement]
  simp only [F.fold_percent, F.fold_underscore]

lemma ilike_iff :
    F.ilike text ("%" ++ q ++ "%") = true ↔
      ∃ part, part <:+: F.foldText text ∧
        Wildcard.Matches ((F.foldText q).map likeElement) part := by
  have hpattern : (F.foldText ("%" ++ q ++ "%")).map likeElement =
      .many :: ((F.foldText q).map likeElement ++ [.many]) := by
    simp [CaseFold.foldText, String.toList_append, likeElement_fold]
  rw [CaseFold.ilike, hpattern, Wildcard.matches_many_append_many]

/-- A text matches itself as a pattern. -/
lemma matches_self (w : List Char) : Wildcard.Matches (w.map likeElement) w = true := by
  induction w with
  | nil => rfl
  | cons c w ih =>
      rw [List.map_cons, likeElement]
      split_ifs
      · exact Wildcard.matches_many_cons.2 ⟨w, List.suffix_cons c w, ih⟩
      · exact Wildcard.matches_one_cons.2 ⟨c, w, rfl, ih⟩
      · exact Wildcard.matches_lit_cons.2 ⟨w, rfl, ih⟩

lemma ilike_of_contains (h : F.Contains q text) : F.ilike text ("%" ++ q ++ "%") = true :=
  ilike_iff.2 ⟨_, h, matches_self _⟩

/-- The query has a character that is a wildcard. -/
def HasWildcard (q : String) : Prop := '%' ∈ q.toList ∨ '_' ∈ q.toList

instance (q : String) : Decidable (HasWildcard q) := inferInstanceAs (Decidable (_ ∨ _))

/-- Without wildcards the pattern is the query. -/
lemma contains_of_ilike (hq : ¬ HasWildcard q) (h : F.ilike text ("%" ++ q ++ "%") = true) :
    F.Contains q text := by
  obtain ⟨part, hpart, hmatch⟩ := ilike_iff.1 h
  have hlit : (F.foldText q).map likeElement = (F.foldText q).map .lit := by
    refine List.map_congr_left fun c hc => ?_
    obtain ⟨c, hmem, rfl⟩ := List.mem_map.1 hc
    rw [likeElement_fold, if_neg, if_neg]
    · exact fun h => hq (Or.inr (h ▸ hmem))
    · exact fun h => hq (Or.inl (h ▸ hmem))
  rw [hlit, Wildcard.matches_map_lit] at hmatch
  rw [CaseFold.Contains, ← hmatch]
  exact hpart

/-- A text that matches the query and has none of its wildcards: each `_` is filled in, and
each `%` is left out. -/
def fillIn (w : List Char) : List Char :=
  w.flatMap fun c => if c = '%' then [] else if c = '_' then ['a'] else [c]

lemma matches_fillIn (F : CaseFold) (w : List Char) :
    Wildcard.Matches ((w.map F.fold).map likeElement) ((fillIn w).map F.fold) = true := by
  induction w with
  | nil => rfl
  | cons c w ih =>
      rw [List.map_cons, List.map_cons, likeElement_fold, fillIn, List.flatMap_cons,
        List.map_append, ← fillIn]
      split_ifs
      · exact Wildcard.matches_many_cons.2 ⟨_, List.suffix_rfl, ih⟩
      · exact Wildcard.matches_one_cons.2 ⟨_, _, rfl, ih⟩
      · exact Wildcard.matches_lit_cons.2 ⟨_, rfl, ih⟩

lemma not_mem_fillIn {w : List Char} : '%' ∉ fillIn w ∧ '_' ∉ fillIn w := by
  have hnot : ∀ c ∈ fillIn w, c ≠ '%' ∧ c ≠ '_' := by
    intro c hc
    obtain ⟨d, -, hd⟩ := List.mem_flatMap.1 hc
    split_ifs at hd with hp hu
    · simp at hd
    · rw [List.mem_singleton.1 hd]
      decide
    · rw [List.mem_singleton.1 hd]
      exact ⟨hp, hu⟩
  exact ⟨fun h => (hnot _ h).1 rfl, fun h => (hnot _ h).2 rfl⟩

end Pattern

/-! ### The pages -/

section Pages

/-- Pages that follow each other. -/
lemma flatMap_pages {α : Type*} (l : List α) (limit n : ℕ) :
    ((List.range n).flatMap fun k => (l.drop (k * limit)).take limit) = l.take (n * limit) := by
  induction n with
  | zero => simp
  | succ n ih =>
      rw [List.range_succ, List.flatMap_append, ih, List.flatMap_singleton, Nat.add_mul, one_mul,
        List.take_add]

variable {F : CaseFold} {t : Tables} {q : String}

lemma matchesQuery_iff {row : DocumentRow} :
    F.matchesQuery q row = true ↔ F.ilike row.url ("%" ++ q ++ "%") = true ∨
      ∃ title ∈ row.title, F.ilike title ("%" ++ q ++ "%") = true := by
  rw [CaseFold.matchesQuery, Bool.or_eq_true, Option.any_eq_true]
  rfl

/-- What contains the query is matched. -/
lemma matchesQuery_of_foundIn {row : DocumentRow} (h : F.FoundIn q row) :
    F.matchesQuery q row = true := by
  rw [matchesQuery_iff]
  exact h.imp ilike_of_contains fun ⟨title, htitle, hc⟩ => ⟨title, htitle, ilike_of_contains hc⟩

lemma foundIn_of_matchesQuery {row : DocumentRow} (hq : ¬ HasWildcard q)
    (h : F.matchesQuery q row = true) : F.FoundIn q row := by
  rw [matchesQuery_iff] at h
  exact h.imp (contains_of_ilike hq) fun ⟨title, htitle, hm⟩ =>
    ⟨title, htitle, contains_of_ilike hq hm⟩

/-- **The pages** have every row that the filter keeps once, and `total` is their number. -/
lemma pages_perm (F : CaseFold) (t : Tables) (domain q : Option String) {limit n : ℕ}
    (hn : (t.documents.filter (F.keeps domain q)).length ≤ n * limit) :
    ((List.range n).flatMap fun k =>
        (documentPage F t limit (k * limit) domain q).items).Perm
      ((t.documents.filter (F.keeps domain q)).map summaryOf) := by
  have hperm : (recentFirst (t.documents.filter (F.keeps domain q))).Perm
      (t.documents.filter (F.keeps domain q)) := List.mergeSort_perm _ _
  have hpages : ((List.range n).flatMap fun k =>
      (documentPage F t limit (k * limit) domain q).items) =
      (recentFirst (t.documents.filter (F.keeps domain q))).map summaryOf := by
    calc ((List.range n).flatMap fun k => (documentPage F t limit (k * limit) domain q).items)
        = ((List.range n).flatMap fun k =>
            (((recentFirst (t.documents.filter (F.keeps domain q))).drop (k * limit)).take
              limit)).map summaryOf := List.map_flatMap.symm
      _ = (recentFirst (t.documents.filter (F.keeps domain q))).map summaryOf := by
          rw [flatMap_pages, List.take_of_length_le (hperm.length_eq ▸ hn)]
  rw [hpages]
  exact hperm.map _

end Pages

/-! ### When the search is right -/

section Right

variable {F : CaseFold} {t : Tables} {q : String}

lemma keeps_query (F : CaseFold) (hq : q ≠ "") : F.keeps none (some q) = F.matchesQuery q := by
  funext row
  simp [CaseFold.keeps, hq]

/-- The search is right for a table if no other document is matched. -/
lemma searchRight_iff (hq : q ≠ "") :
    F.SearchRight t q ↔
      ∀ row ∈ t.documents, F.matchesQuery q row = true → F.FoundIn q row := by
  constructor
  · intro h row hrow hmatch
    have htotal := (h 1 Nat.one_pos).1 0
    change (t.documents.filter (F.keeps none (some q))).length = _ at htotal
    rw [keeps_query F hq] at htotal
    -- the documents that contain the query are a part of the others, of the same length
    have hsub : (t.documents.filter fun row => F.FoundIn q row).Sublist
        (t.documents.filter (F.matchesQuery q)) :=
      List.monotone_filter_right _ fun row hfound =>
        matchesQuery_of_foundIn (of_decide_eq_true hfound)
    have hmem := List.mem_filter.2 ⟨hrow, hmatch⟩
    rw [← hsub.eq_of_length htotal.symm] at hmem
    exact of_decide_eq_true (List.mem_filter.1 hmem).2
  · intro h limit hlimit
    have hsame : t.documents.filter (F.keeps none (some q)) =
        t.documents.filter fun row => F.FoundIn q row := by
      rw [keeps_query F hq]
      refine List.filter_congr fun row hrow => ?_
      rw [Bool.eq_iff_iff, decide_eq_true_eq]
      exact ⟨h row hrow, matchesQuery_of_foundIn⟩
    refine ⟨fun offset => congrArg List.length hsame, fun n hn => ?_⟩
    have hpages := pages_perm F t none (some q) hn
    rwa [hsame] at hpages

/-- A character that only folds to itself is in what contains it. -/
lemma mem_of_contains {w : Char} (hw : ∀ c, F.fold c = w ↔ c = w) {text : String}
    (hmem : w ∈ q.toList) (h : F.Contains q text) : w ∈ text.toList := by
  obtain ⟨c, hc, hfold⟩ := List.mem_map.1
    (h.subset (List.mem_map.2 ⟨w, hmem, (hw w).2 rfl⟩))
  exact (hw c).1 hfold ▸ hc

/-- A table with one document. -/
def oneDocument (url : String) : Tables :=
  { Tables.empty with
    documents := [{ id := 1, url, registeredDomain := "example.com", firstSeen := 0 }]
    document_ids := List.nodup_singleton _
    document_urls := List.nodup_singleton _
    edge_src := fun _ he => absurd he List.not_mem_nil }

/-- The URL of the document matches the pattern, but has neither `%` nor `_`. -/
lemma not_searchRight_of_hasWildcard (F : CaseFold) (hq : q ≠ "") (hwild : HasWildcard q) :
    ¬ F.SearchRight
      (oneDocument ("http://example.com/" ++ String.ofList (fillIn q.toList))) q := by
  intro hright
  have hfound := (searchRight_iff hq).1 hright _ List.mem_cons_self <| by
    refine matchesQuery_iff.2 (Or.inl (ilike_iff.2 ⟨_, ?_, matches_fillIn F q.toList⟩))
    refine List.IsSuffix.isInfix ⟨F.foldText "http://example.com/", ?_⟩
    simp [CaseFold.foldText, String.toList_append]
  rcases hfound with hurl | ⟨title, htitle, -⟩
  · obtain ⟨hpercent, hunderscore⟩ := not_mem_fillIn (w := q.toList)
    rcases hwild with hmem | hmem
    · have := mem_of_contains F.fold_percent hmem hurl
      simp [String.toList_append, hpercent] at this
    · have := mem_of_contains F.fold_underscore hmem hurl
      simp [String.toList_append, hunderscore] at this
  · cases htitle

/-- **When the search is right.**  For a query without `%` and `_` it is, whatever the table;
for any other query there is a table for which it is not.  In a given table it is right
exactly if no document that does not contain the query is matched by the pattern. -/
theorem search_iff (F : CaseFold) (q : String) (hq : q ≠ "") :
    ((∀ t, F.SearchRight t q) ↔ ¬ HasWildcard q) ∧
      ∀ t : Tables, F.SearchRight t q ↔
        ∀ row ∈ t.documents, ¬ F.FoundIn q row → F.matchesQuery q row = false := by
  refine ⟨⟨fun hall hwild => ?_, fun hplain t => ?_⟩, fun t => ?_⟩
  · exact not_searchRight_of_hasWildcard F hq hwild (hall _)
  · exact (searchRight_iff hq).2 fun row _ => foundIn_of_matchesQuery hplain
  · rw [searchRight_iff hq]
    refine forall₂_congr fun row _ => ?_
    rw [not_imp_comm, Bool.not_eq_false]

/-- Characters outside the alphabet fold to themselves only. -/
lemma toLower_eq_iff {w : Char} (hw : w.toNat < 65 ∨ 90 < w.toNat ∧ w.toNat < 97) (c : Char) :
    c.toLower = w ↔ c = w := by
  unfold Char.toLower
  split_ifs with hupper
  · -- an upper case letter, which becomes a lower case one
    have hc : 65 ≤ c.toNat ∧ c.toNat ≤ 90 := ⟨UInt32.le_iff_toNat_le.1 hupper.1,
      UInt32.le_iff_toNat_le.1 hupper.2⟩
    constructor
    · rintro rfl
      have hval : (c.val + ('a'.val - 'A'.val)).toNat = c.toNat + 32 := by
        rw [UInt32.toNat_add]
        show (c.toNat + 32) % 2 ^ 32 = c.toNat + 32
        omega
      change (c.val + ('a'.val - 'A'.val)).toNat < 65 ∨
        90 < (c.val + ('a'.val - 'A'.val)).toNat ∧ (c.val + ('a'.val - 'A'.val)).toNat < 97 at hw
      omega
    · rintro rfl
      omega
  · rfl

lemma toLower_percent (c : Char) : c.toLower = '%' ↔ c = '%' := toLower_eq_iff (by decide) c

lemma toLower_underscore (c : Char) : c.toLower = '_' ↔ c = '_' := toLower_eq_iff (by decide) c

/-- The folding of the letters of ASCII. -/
def asciiFold : CaseFold where
  fold := Char.toLower
  fold_percent := toLower_percent
  fold_underscore := toLower_underscore

theorem search_iff_user_id :
    ¬ (∀ t, asciiFold.SearchRight t "user_id") ∧ ∀ t, asciiFold.SearchRight t "user-id" :=
  ⟨fun h => (search_iff asciiFold "user_id" (by decide)).1.1 h (by decide),
    (search_iff asciiFold "user-id" (by decide)).1.2 (by decide)⟩

/-- A search for `user_id` finds a page whose URL has another character in its place. -/
theorem search_user_id :
    let t := oneDocument "http://example.com/user-id"
    (documentPage asciiFold t 50 0 none (some "user_id")).total = 1 ∧
      (t.documents.filter fun row => asciiFold.FoundIn "user_id" row) = [] ∧
      ¬ asciiFold.SearchRight t "user_id" := by
  intro t
  have htotal : (documentPage asciiFold t 50 0 none (some "user_id")).total = 1 := by decide +kernel
  have hfound : (t.documents.filter fun row => asciiFold.FoundIn "user_id" row) = [] := by
    decide +kernel
  refine ⟨htotal, hfound, fun hright => ?_⟩
  have heq := (hright 50 (by decide)).1 0
  rw [htotal, hfound] at heq
  exact absurd heq (by decide)

end Right

end WebCrawler
