import WebCrawler.Lib.Paging
import WebCrawler.Storage.Search
import WebCrawler.Storage.Statistics

/-!
# Browsing the documents while they are crawled

The dashboard goes through the documents with the offsets 0, `limit`, 2 `limit` and so on, most
recent first, and the crawl goes on between two requests: pages are stored for the first time or
again, and `recompute_degrees` runs.

A page that is stored for the first time gets the largest id and comes first, and one that is
stored again keeps its id and its registered domain.  So every document that was there at the
first request is listed, with or without a filter on the domain (`browsing_misses_nothing`).  A
search is different: a title that changes takes a document out of the answer, and those behind it
move to a page that was read before (`search_misses`).
-/

namespace WebCrawler

open Lib

/-- What no write changes in a row. -/
def DocumentRow.identity (row : DocumentRow) : ℕ × String × String :=
  (row.id, row.url, row.registeredDomain)

namespace Tables

/-- The tables when the page with a number is read, with the writes after each read. -/
def during (t : Tables) (writes : ℕ → List GraphAct) : ℕ → Tables
  | 0 => t
  | i + 1 => (writes i).foldl perform (t.during writes i)

/-- The identities of the rows of a domain, most recent first. -/
def listed (t : Tables) (keep : String → Bool) : List (ℕ × String × String) :=
  ((t.documents.map (·.identity)).filter (keep ·.2.2)).mergeSort fun a b => b.1 ≤ a.1

variable {t : Tables} {keep : String → Bool}

lemma listed_perm (t : Tables) (keep : String → Bool) :
    (t.listed keep).Perm ((t.documents.map (·.identity)).filter (keep ·.2.2)) :=
  List.mergeSort_perm _ _

lemma listed_pairwise (t : Tables) (keep : String → Bool) :
    (t.listed keep).Pairwise fun a b => b.1 ≤ a.1 := by
  have h : (t.listed keep).Pairwise fun a b => decide (b.1 ≤ a.1) = true := by
    refine List.pairwise_mergeSort (fun a b c hab hbc => ?_) (fun a b => ?_) _
    · exact decide_eq_true ((of_decide_eq_true hbc).trans (of_decide_eq_true hab))
    · simpa using le_total b.1 a.1
  exact h.imp of_decide_eq_true

/-- The listing is the only one with these entries in this order. -/
lemma listed_eq {entries : List (ℕ × String × String)}
    (hperm : entries.Perm ((t.documents.map (·.identity)).filter (keep ·.2.2)))
    (hsorted : entries.Pairwise fun a b => b.1 ≤ a.1) : t.listed keep = entries := by
  have hids : ((t.documents.map (·.identity)).map (·.1)).Nodup := by
    rw [List.map_map]
    exact t.document_ids
  refine List.Perm.eq_of_pairwise (fun a b ha hb hab hba => ?_) (t.listed_pairwise keep)
    hsorted ((t.listed_perm keep).trans hperm.symm)
  have ha' := (List.mem_filter.1 ((t.listed_perm keep).mem_iff.1 ha)).1
  have hb' := (List.mem_filter.1 (hperm.mem_iff.1 hb)).1
  exact List.inj_on_of_nodup_map hids ha' hb' (le_antisymm hba hab)

/-- Rows that are written keep their place. -/
lemma listed_of_identities {t' : Tables}
    (h : t'.documents.map (·.identity) = t.documents.map (·.identity)) :
    t'.listed keep = t.listed keep := by
  rw [listed, h, listed]

/-- A new row comes first. -/
lemma listed_of_insert {t' : Tables} (row : DocumentRow)
    (h : t'.documents.map (·.identity) = t.documents.map (·.identity) ++ [row.identity])
    (hnew : ∀ old ∈ t.documents, old.id < row.id) :
    t.listed keep <:+ t'.listed keep := by
  by_cases hkeep : keep row.registeredDomain = true
  · have hlist : t'.listed keep = row.identity :: t.listed keep := by
      refine listed_eq ?_ (List.pairwise_cons.2 ⟨fun old hold => ?_, t.listed_pairwise _⟩)
      · rw [h, List.filter_append,
          List.filter_cons_of_pos (by simpa [DocumentRow.identity] using hkeep), List.filter_nil]
        exact ((t.listed_perm keep).cons _).trans (List.perm_append_singleton _ _).symm
      · have hmem := (List.mem_filter.1 ((t.listed_perm keep).mem_iff.1 hold)).1
        obtain ⟨row', hrow', rfl⟩ := List.mem_map.1 hmem
        exact (hnew row' hrow').le
    rw [hlist]
    exact List.suffix_cons _ _
  · have hlist : t'.listed keep = t.listed keep := by
      refine listed_eq ?_ (t.listed_pairwise _)
      rw [h, List.filter_append,
        List.filter_cons_of_neg (by simpa [DocumentRow.identity] using hkeep), List.filter_nil,
        List.append_nil]
      exact t.listed_perm keep
    rw [hlist]

/-- **A write only adds at the front.** -/
lemma listed_perform (act : GraphAct) :
    t.listed keep <:+ (t.perform act).listed keep := by
  cases act with
  | save now record =>
      cases hrow : t.document record.url with
      | some row =>
          have hdocuments : (t.savePage now record).documents.map (·.identity) =
              t.documents.map (·.identity) := by
            rw [savePage, documents_addLinkEdges, upsertDocument]
            split
            · simp only [updateDocument, List.map_map]
              refine List.map_congr_left fun old _ => ?_
              rw [Function.comp_apply, writeRow]
              split_ifs <;> rfl
            · next hnone => simp [hrow] at hnone
          rw [perform, listed_of_identities hdocuments]
      | none =>
          refine listed_of_insert (writeColumns now record
            (newDocument (nextId (t.documents.map (·.id))) now record)) ?_ fun old hold => ?_
          · rw [perform, savePage, documents_addLinkEdges, upsertDocument]
            split
            · next hsome => simp [hrow] at hsome
            · simp [insertDocument]
          · exact lt_nextId (List.mem_map_of_mem hold)
  | recompute =>
      have hdocuments : t.recomputeDegrees.documents.map (·.identity) =
          t.documents.map (·.identity) := by
        rw [documents_recomputeDegrees, List.map_map]
        rfl
      rw [perform, listed_of_identities hdocuments]

lemma listed_during (writes : ℕ → List GraphAct) (i : ℕ) :
    (t.during writes i).listed keep <:+ (t.during writes (i + 1)).listed keep := by
  have hfold : ∀ (acts : List GraphAct) (t : Tables),
      t.listed keep <:+ (acts.foldl perform t).listed keep := by
    intro acts
    induction acts with
    | nil => exact fun t => List.suffix_rfl
    | cons act acts ih => exact fun t => (listed_perform act).trans (ih (t.perform act))
  exact hfold (writes i) _

/-! ### The pages -/

/-- The filter on the domain. -/
def keepsDomain (domain : Option String) (registeredDomain : String) : Bool :=
  domain.all fun domain => domain = "" || registeredDomain = domain

lemma keeps_domain (F : CaseFold) (domain : Option String) (row : DocumentRow) :
    F.keeps domain none row = keepsDomain domain row.identity.2.2 := by
  rw [CaseFold.keeps, Option.all_none, Bool.and_true]
  rfl

/-- The identity of an entry of the answer. -/
def summaryIdentity (item : DocumentSummary) : ℕ × String × String :=
  (item.id, item.url, item.registeredDomain)

/-- A page of the answer is a page of the listing. -/
lemma items_documentPage (F : CaseFold) (t : Tables) (limit i : ℕ) (domain : Option String) :
    (documentPage F t limit (i * limit) domain none).items.map summaryIdentity =
      page limit i (t.listed (keepsDomain domain)) := by
  have hlisted : (recentFirst (t.documents.filter (F.keeps domain none))).map (·.identity) =
      t.listed (keepsDomain domain) := by
    have hsort := List.map_mergeSort (l := t.documents.filter (F.keeps domain none))
      (r := fun a b : DocumentRow => decide (b.id ≤ a.id))
      (s := fun a b : ℕ × String × String => decide (b.1 ≤ a.1))
      (f := (·.identity)) fun _ _ _ _ => rfl
    have hfilter : t.documents.filter (F.keeps domain none) =
        t.documents.filter ((keepsDomain domain ·.2.2) ∘ (·.identity)) :=
      List.filter_congr fun row _ => keeps_domain F domain row
    rw [recentFirst, hsort, listed, List.filter_map, hfilter]
  rw [← hlisted, page, ← List.map_drop, ← List.map_take]
  show List.map summaryIdentity (List.map summaryOf _) = _
  rw [List.map_map]
  rfl

/-- **Browsing misses no document**, whatever is stored between the requests, if the last page
that is read reaches the end of the list as it is then. -/
theorem browsing_misses_nothing (F : CaseFold) (t : Tables) (writes : ℕ → List GraphAct)
    (domain : Option String) {limit n : ℕ}
    (hlast : (documentPage F (t.during writes n) limit (n * limit) domain none).total ≤
      (n + 1) * limit) (row : DocumentRow) (hrow : row ∈ t.documents)
    (hdomain : F.keeps domain none row = true) :
    ∃ i ≤ n, ∃ item ∈ (documentPage F (t.during writes i) limit (i * limit) domain none).items,
      item.id = row.id ∧ item.url = row.url ∧ item.registeredDomain = row.registeredDomain := by
  have hlength : ((t.during writes n).listed (keepsDomain domain)).length ≤ (n + 1) * limit := by
    have hfilter : ((t.during writes n).documents.filter (F.keeps domain none)).length =
        ((t.during writes n).listed (keepsDomain domain)).length := by
      rw [(listed_perm _ _).length_eq, List.filter_map, List.length_map]
      congr 1
      exact List.filter_congr fun row _ => keeps_domain F domain row
    rw [← hfilter]
    exact hlast
  have hmem : row.identity ∈ (t.during writes 0).listed (keepsDomain domain) := by
    refine (listed_perm _ _).mem_iff.2 (List.mem_filter.2 ⟨List.mem_map_of_mem hrow, ?_⟩)
    rw [← keeps_domain F]
    exact hdomain
  obtain ⟨i, hi, hpage⟩ := exists_mem_page (listed_during writes) hlength hmem
  rw [← items_documentPage F] at hpage
  obtain ⟨item, hitem, hidentity⟩ := List.mem_map.1 hpage
  simp only [summaryIdentity, DocumentRow.identity, Prod.mk.injEq] at hidentity
  exact ⟨i, hi, item, hitem, hidentity⟩

/-- A document, and a version of it. -/
def titled (id : ℕ) (url : String) : DocumentRow where
  id := id
  url := url
  registeredDomain := "a.org"
  title := some "x"
  firstSeen := 0

def untitled (url : String) : PageRecord where
  url := url
  registeredDomain := "a.org"
  depth := 0

/-- Two documents. -/
def twoDocuments : Tables where
  documents := [titled 1 "http://a.org/1", titled 2 "http://a.org/2"]
  edge_ids := Tables.empty.edge_ids
  edge_keys := Tables.empty.edge_keys

/-- The pages have one entry.  A third document is stored after the first page was read: the second
page repeats the entry of the first, and the third has the oldest document. -/
theorem browsing_misses_nothing_newDocument :
    ∃ i ≤ 2, ∃ item ∈ (documentPage asciiFold
        (twoDocuments.during
          (fun i => if i = 0 then [.save 0 (untitled "http://a.org/3")] else []) i)
        1 (i * 1) (some "a.org") none).items,
      item.id = 1 ∧ item.url = "http://a.org/1" ∧ item.registeredDomain = "a.org" :=
  browsing_misses_nothing asciiFold twoDocuments
    (fun i => if i = 0 then [.save 0 (untitled "http://a.org/3")] else []) (some "a.org")
    (by decide +kernel) (titled 1 "http://a.org/1") (by decide +kernel) (by decide +kernel)

/-- A search for `x` with pages of one entry: after the first page was read its document loses the
title, so that the second page is empty and the other document is not listed. -/
theorem search_misses :
    let during := twoDocuments.during fun _ => [.save 0 (untitled "http://a.org/2")]
    (documentPage asciiFold (during 0) 1 0 none (some "x")).items.map (·.id) = [2] ∧
      (documentPage asciiFold (during 1) 1 1 none (some "x")).items = [] ∧
      (documentPage asciiFold (during 1) 1 1 none (some "x")).total = 1 := by
  have hbefore : twoDocuments.documents.filter (asciiFold.keeps none (some "x")) =
      [titled 1 "http://a.org/1", titled 2 "http://a.org/2"] := by decide +kernel
  have hafter : (twoDocuments.during (fun _ => [.save 0 (untitled "http://a.org/2")])
      1).documents.filter (asciiFold.keeps none (some "x")) = [titled 1 "http://a.org/1"] := by
    decide +kernel
  have hsorted : recentFirst [titled 1 "http://a.org/1", titled 2 "http://a.org/2"] =
      [titled 2 "http://a.org/2", titled 1 "http://a.org/1"] := by
    simp [recentFirst, List.mergeSort, titled]
  refine ⟨?_, ?_, ?_⟩
  · rw [documentPage, listDocuments, Tables.during, hbefore, hsorted]
    rfl
  · simp [documentPage, listDocuments, recentFirst, hafter]
  · simp [documentPage, listDocuments, hafter]

end Tables

end WebCrawler
