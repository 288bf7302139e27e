import WebCrawler.Scheduler.StalestFirst
import WebCrawler.Storage.Statistics

/-!
# Recrawling round by round

`crawler recrawl` takes no more than `limit` pages at a time, and is run again and again.  Between
two runs the workers save the pages that it has published, and they save new pages as well.

A page that is overdue can be passed over, but only for pages that are overdue for as long.  These
are then saved and do not come before it again, and a page that is saved meanwhile, for the first
time or again, comes behind it too.  So each run takes `limit` of the overdue pages, as long as
there are so many, and all of them have been crawled again after as many runs as it takes
(`overdue_recrawled`).
-/

namespace WebCrawler.Cli

open Lib

/-- The tables between the runs of `_recrawl`. -/
structure RecrawlRounds where
  now : ℚ
  tables : Tables
  /-- The URLs that were published and have not been saved since. -/
  waiting : List String := []
  /-- How often `_recrawl` was run. -/
  rounds : ℕ := 0

inductive RoundAct
  | advance (d : ℚ)
  /-- `_recrawl`, with an answer of `select_stale` and the readings of its clock. -/
  | recrawl (clock : ℕ → ℚ) (stale : List StaleRow)
  /-- A worker saves a page. -/
  | save (record : PageRecord)
  | recompute

def roundStep (s : RecrawlRounds) : RoundAct → Option RecrawlRounds
  | .advance d => if 0 ≤ d then some { s with now := s.now + d } else none
  | .recrawl clock stale =>
      some { s with
        waiting := s.waiting ++ (recrawl clock stale).map (·.url)
        rounds := s.rounds + 1 }
  | .save record =>
      some { s with
        tables := s.tables.savePage s.now record
        waiting := s.waiting.filter (· ≠ record.url) }
  | .recompute => some { s with tables := s.tables.recomputeDegrees }

/-- What comes after a time. -/
def recrawlRounds (start : ℚ) (t : Tables) : Machine RecrawlRounds RoundAct where
  init := { now := start, tables := t }
  step := roundStep

/-- `_recrawl` is run when all pages of the last run have been saved. -/
def RoundByRound (olderThan : ℚ) (limit : ℕ) (s : RecrawlRounds) : RoundAct → Prop
  | .recrawl clock stale =>
      s.waiting = [] ∧ Monotone clock ∧ s.tables.SelectStale s.now olderThan limit stale
  | _ => True

lemma roundByRound_recrawl {olderThan : ℚ} {limit : ℕ} {s : RecrawlRounds} {clock : ℕ → ℚ}
    {stale : List StaleRow} (hwaiting : s.waiting = []) (hclock : Monotone clock)
    (hselect : s.tables.SelectStale s.now olderThan limit stale) :
    RoundByRound olderThan limit s (.recrawl clock stale) :=
  ⟨hwaiting, hclock, hselect⟩

lemma roundByRound_save {olderThan : ℚ} {limit : ℕ} {s : RecrawlRounds} (record : PageRecord) :
    RoundByRound olderThan limit s (.save record) := trivial

/-! ### The first of a sorted list -/

/-- The first `limit` entries of a sorted list are below a bound, or all that are below it are
among them. -/
lemma take_below {α κ : Type} [LinearOrder κ] {rows : List α} {key : α → κ}
    (h : rows.Pairwise fun a b => key a ≤ key b) (bound : κ) (limit : ℕ) :
    (∀ x ∈ rows, key x < bound → x ∈ rows.take limit) ∨
      (rows.take limit).length = limit ∧ ∀ x ∈ rows.take limit, key x < bound := by
  by_cases hbehind : ∃ x ∈ rows.drop limit, key x < bound
  · obtain ⟨x, hx, hlt⟩ := hbehind
    have hlong : 0 < (rows.drop limit).length := List.length_pos_of_mem hx
    rw [List.length_drop] at hlong
    have hcross := (List.pairwise_append.1 ((List.take_append_drop limit rows).symm ▸ h)).2.2
    refine Or.inr ⟨?_, fun y hy => (hcross y hy x hx).trans_lt hlt⟩
    rw [List.length_take]
    omega
  · push Not at hbehind
    refine Or.inl fun x hx hlt => ?_
    rw [← List.take_append_drop limit rows] at hx
    rcases List.mem_append.1 hx with hx | hx
    · exact hx
    · exact absurd hlt (hbehind x hx).not_gt

/-! ### The overdue pages -/

/-- The URLs of the pages that were not crawled since a time. -/
def overdue (cutoff : ℚ) (t : Tables) : Finset String :=
  ((t.documents.filter fun row => row.IsStale cutoff).map (·.url)).toFinset

variable {cutoff : ℚ} {t : Tables} {url : String}

lemma mem_overdue :
    url ∈ overdue cutoff t ↔ ∃ row, t.document url = some row ∧ row.IsStale cutoff := by
  simp only [overdue, List.mem_toFinset, List.mem_map, List.mem_filter, decide_eq_true_eq,
    Tables.document_eq_some]
  constructor
  · rintro ⟨row, ⟨hrow, hstale⟩, hurl⟩
    exact ⟨row, ⟨hrow, hurl⟩, hstale⟩
  · rintro ⟨row, ⟨hrow, hurl⟩, hstale⟩
    exact ⟨row, ⟨hrow, hstale⟩, hurl⟩

/-- A page that is saved is not overdue any more. -/
lemma overdue_savePage {now : ℚ} {record : PageRecord} (hnow : cutoff ≤ now) :
    overdue cutoff (t.savePage now record) ⊆ (overdue cutoff t).erase record.url := by
  intro url hurl
  obtain ⟨row, hrow, hstale⟩ := mem_overdue.1 hurl
  have hne : url ≠ record.url := by
    rintro rfl
    rw [Tables.document_savePage, Option.some.injEq] at hrow
    subst hrow
    exact absurd (hstale now rfl) (not_lt.2 hnow)
  rw [Tables.document_savePage_of_ne hne] at hrow
  exact Finset.mem_erase.2 ⟨hne, mem_overdue.2 ⟨row, hrow, hstale⟩⟩

lemma overdue_recomputeDegrees : overdue cutoff t.recomputeDegrees = overdue cutoff t := by
  ext url
  simp only [mem_overdue, Tables.document_recomputeDegrees, Option.map_eq_some_iff]
  constructor
  · rintro ⟨_, ⟨row, hrow, rfl⟩, hstale⟩
    exact ⟨row, hrow, hstale⟩
  · rintro ⟨row, hrow, hstale⟩
    exact ⟨_, ⟨row, hrow, rfl⟩, hstale⟩

/-- The pages that `_recrawl` publishes. -/
lemma urls_recrawl {clock : ℕ → ℚ} (hclock : Monotone clock) (stale : List StaleRow) :
    ((recrawl clock stale).map (·.url)).Perm (stale.map (·.1)) := by
  have h := (recrawl_perm hclock stale).map (·.url)
  rwa [List.map_map] at h

/-- An answer of `select_stale` has all overdue pages, or as many of them as the limit allows. -/
lemma overdue_of_selectStale {now olderThan : ℚ} {limit : ℕ} {stale : List StaleRow}
    (h : t.SelectStale now olderThan limit stale) (hcutoff : cutoff ≤ now - olderThan) :
    overdue cutoff t ⊆ (stale.map (·.1)).toFinset ∨
      (stale.map (·.1)).toFinset ⊆ overdue cutoff t ∧
        (stale.map (·.1)).toFinset.card = limit := by
  have hnodup := selectStale_nodup h
  obtain ⟨rows, hperm, hsorted, rfl⟩ := h
  have hmap : ((rows.take limit).map Tables.selectColumns).map (·.1) =
      (rows.take limit).map (·.url) := by
    rw [List.map_map]
    rfl
  rw [hmap] at hnodup ⊢
  have hmem : ∀ row ∈ rows, row ∈ t.documents := fun row hrow =>
    (Tables.mem_staleRows.1 (hperm.mem_iff.1 hrow)).1
  rcases take_below hsorted (cutoff : WithBot ℚ) limit with hall | ⟨hlength, hbelow⟩
  · refine Or.inl fun url hurl => ?_
    obtain ⟨row, hrow, hstale⟩ := mem_overdue.1 hurl
    obtain ⟨hdoc, rfl⟩ := (Tables.document_eq_some _).1 hrow
    have hrows : row ∈ rows :=
      hperm.mem_iff.2 (Tables.mem_staleRows.2 ⟨hdoc, hstale.mono hcutoff⟩)
    rw [List.mem_toFinset]
    exact List.mem_map_of_mem (hall row hrows (DocumentRow.isStale_iff.1 hstale))
  · refine Or.inr ⟨fun url hurl => ?_, ?_⟩
    · obtain ⟨row, hrow, rfl⟩ := List.mem_map.1 (List.mem_toFinset.1 hurl)
      have hdoc : t.document row.url = some row :=
        (Tables.document_eq_some _).2 ⟨hmem row (List.mem_of_mem_take hrow), rfl⟩
      exact mem_overdue.2 ⟨row, hdoc, DocumentRow.isStale_iff.2 (hbelow row hrow)⟩
    · rw [List.toFinset_card_of_nodup hnodup, List.length_map, hlength]

/-! ### Round by round -/

/-- What was overdue at the start is overdue or has been crawled, and the runs so far have left
few pages that are overdue and not published. -/
structure Sweeping (start olderThan : ℚ) (limit : ℕ) (t : Tables) (s : RecrawlRounds) : Prop where
  later : start ≤ s.now
  crawled : ∀ url ∈ overdue (start - olderThan) t, ∃ row, s.tables.document url = some row ∧
    (row.IsStale (start - olderThan) ∨ ∃ x ∈ row.lastCrawled, start ≤ x)
  few : overdue (start - olderThan) s.tables ⊆ s.waiting.toFinset ∨
    (overdue (start - olderThan) s.tables \ s.waiting.toFinset).card + limit * s.rounds ≤
      (overdue (start - olderThan) t).card

variable {start olderThan : ℚ} {limit : ℕ} {s s' : RecrawlRounds} {a : RoundAct}

lemma Sweeping.save (h : Sweeping start olderThan limit t s) (holder : 0 ≤ olderThan)
    (record : PageRecord) :
    Sweeping start olderThan limit t
      { s with
        tables := s.tables.savePage s.now record
        waiting := s.waiting.filter (· ≠ record.url) } := by
  have hcutoff : start - olderThan ≤ s.now := by linarith [h.later]
  have hsub : overdue (start - olderThan) (s.tables.savePage s.now record) ⊆
      (overdue (start - olderThan) s.tables).erase record.url := overdue_savePage hcutoff
  refine ⟨h.later, fun url hurl => ?_, ?_⟩
  · by_cases hsame : url = record.url
    · subst hsame
      exact ⟨_, Tables.document_savePage, Or.inr ⟨s.now, rfl, h.later⟩⟩
    · rw [Tables.document_savePage_of_ne hsame]
      exact h.crawled url hurl
  · rcases h.few with hall | hfew
    · refine Or.inl fun url hurl => ?_
      obtain ⟨hne, hold⟩ := Finset.mem_erase.1 (hsub hurl)
      have hwaiting := List.mem_toFinset.1 (hall hold)
      exact List.mem_toFinset.2 (List.mem_filter.2 ⟨hwaiting, by simpa using hne⟩)
    · refine Or.inr (le_trans (Nat.add_le_add_right (Finset.card_le_card ?_) _) hfew)
      intro url hurl
      obtain ⟨hnew, hnot⟩ := Finset.mem_sdiff.1 hurl
      obtain ⟨hne, hold⟩ := Finset.mem_erase.1 (hsub hnew)
      refine Finset.mem_sdiff.2 ⟨hold, fun hwaiting => hnot ?_⟩
      rw [List.mem_toFinset, List.mem_filter]
      exact ⟨List.mem_toFinset.1 hwaiting, by simpa using hne⟩

lemma Sweeping.recrawl (h : Sweeping start olderThan limit t s) {clock : ℕ → ℚ}
    {stale : List StaleRow} (hwaiting : s.waiting = []) (hclock : Monotone clock)
    (hselect : s.tables.SelectStale s.now olderThan limit stale) :
    Sweeping start olderThan limit t
      { s with
        waiting := s.waiting ++ (recrawl clock stale).map (·.url)
        rounds := s.rounds + 1 } := by
  refine ⟨h.later, h.crawled, ?_⟩
  have hpublished : (s.waiting ++ (Cli.recrawl clock stale).map (·.url)).toFinset =
      (stale.map (·.1)).toFinset := by
    rw [hwaiting, List.nil_append]
    exact List.toFinset_eq_of_perm _ _ (urls_recrawl hclock stale)
  have hfew := h.few
  rw [hwaiting, List.toFinset_nil, Finset.sdiff_empty, Finset.subset_empty] at hfew
  simp only [hpublished]
  have hcutoff : start - olderThan ≤ s.now - olderThan := by linarith [h.later]
  rcases overdue_of_selectStale hselect hcutoff with hall | ⟨hsub, hcard⟩
  · exact Or.inl hall
  · rcases hfew with hnone | hfew
    · rw [hnone]
      exact Or.inl (Finset.empty_subset _)
    · have hle := Finset.card_le_card hsub
      refine Or.inr ?_
      rw [Finset.card_sdiff_of_subset hsub, hcard, Nat.mul_succ]
      omega

lemma Sweeping.step (h : Sweeping start olderThan limit t s) (holder : 0 ≤ olderThan)
    (ha : RoundByRound olderThan limit s a) (hstep : roundStep s a = some s') :
    Sweeping start olderThan limit t s' := by
  cases a with
  | advance d =>
      simp only [roundStep, Option.ite_none_right_eq_some, Option.some.injEq] at hstep
      obtain ⟨hd, rfl⟩ := hstep
      exact ⟨h.later.trans (by linarith), h.crawled, h.few⟩
  | recrawl clock stale =>
      obtain rfl := Option.some.inj hstep
      obtain ⟨hwaiting, hclock, hselect⟩ := ha
      exact h.recrawl hwaiting hclock hselect
  | save record =>
      obtain rfl := Option.some.inj hstep
      exact h.save holder record
  | recompute =>
      obtain rfl := Option.some.inj hstep
      refine ⟨h.later, fun url hurl => ?_, ?_⟩
      · obtain ⟨row, hrow, hcases⟩ := h.crawled url hurl
        have hrow' : s.tables.recomputeDegrees.document url = some (s.tables.withDegrees row) := by
          rw [Tables.document_recomputeDegrees, hrow]
          rfl
        exact ⟨_, hrow', hcases⟩
      · rw [overdue_recomputeDegrees]
        exact h.few

lemma sweeping_of_reachable (holder : 0 ≤ olderThan)
    (h : (recrawlRounds start t).ReachableBy (RoundByRound olderThan limit) s) :
    Sweeping start olderThan limit t s := by
  refine h.inv ⟨le_refl _, fun url hurl => ?_, Or.inr ?_⟩ fun s a s' hs ha hstep =>
    hs.step holder ha hstep
  · obtain ⟨row, hrow, hstale⟩ := mem_overdue.1 hurl
    exact ⟨row, hrow, Or.inl hstale⟩
  · show (overdue (start - olderThan) t \ ∅).card + limit * 0 ≤ _
    rw [Finset.sdiff_empty, Nat.mul_zero, Nat.add_zero]

/-- **Every overdue page is crawled again.**  If each run of `_recrawl` finds the pages of the one
before saved, then the pages that are overdue at a time have all been crawled since after as many
runs as it takes to select so many pages, whatever else is saved in between. -/
theorem overdue_recrawled (start olderThan : ℚ) (holder : 0 ≤ olderThan) (limit : ℕ) (t : Tables)
    {s : RecrawlRounds}
    (h : (recrawlRounds start t).ReachableBy (RoundByRound olderThan limit) s)
    (hwaiting : s.waiting = [])
    (hrounds : (t.staleRows start olderThan).length ≤ limit * s.rounds) :
    ∀ row ∈ t.staleRows start olderThan, ∃ row', s.tables.document row.url = some row' ∧
      ∃ x ∈ row'.lastCrawled, start ≤ x := by
  have hsweeping := sweeping_of_reachable holder h
  have hcard : (overdue (start - olderThan) t).card ≤ limit * s.rounds := by
    refine (List.toFinset_card_le _).trans ?_
    rw [List.length_map]
    exact hrounds
  have hnone : overdue (start - olderThan) s.tables = ∅ := by
    have hfew := hsweeping.few
    rw [hwaiting, List.toFinset_nil, Finset.sdiff_empty, Finset.subset_empty] at hfew
    rcases hfew with hnone | hfew
    · exact hnone
    · exact Finset.card_eq_zero.1 (by omega)
  intro row hrow
  obtain ⟨hmem, hstale⟩ := Tables.mem_staleRows.1 hrow
  have hdoc : t.document row.url = some row := (Tables.document_eq_some _).2 ⟨hmem, rfl⟩
  obtain ⟨row', hrow', hstale' | hcrawled⟩ :=
    hsweeping.crawled row.url (mem_overdue.2 ⟨row, hdoc, hstale⟩)
  · have hoverdue := mem_overdue.2 ⟨row', hrow', hstale'⟩
    rw [hnone] at hoverdue
    exact absurd hoverdue (Finset.notMem_empty _)
  · exact ⟨row', hrow', hcrawled⟩

/-- A page that was crawled at time 0. -/
def oldRow (id : ℕ) (url : String) : DocumentRow where
  id := id
  url := url
  registeredDomain := "a.org"
  firstSeen := 0
  lastCrawled := some 0

/-- Two of them. -/
def twoOld : Tables where
  documents := [oldRow 1 "http://a.org/1", oldRow 2 "http://a.org/2"]
  edge_ids := Tables.empty.edge_ids
  edge_keys := Tables.empty.edge_keys

/-- The page as it is when it is crawled again. -/
def anew (url : String) : PageRecord where
  url := url
  registeredDomain := "a.org"
  depth := 0

/-- One page at a time, and a new page in between. -/
theorem overdue_recrawled_twoOld :
    ∃ s, (recrawlRounds 7200 twoOld).ReachableBy (RoundByRound 3600 1) s ∧ s.rounds = 2 ∧
      ∀ row ∈ twoOld.staleRows 7200 3600, ∃ row', s.tables.document row.url = some row' ∧
        ∃ x ∈ row'.lastCrawled, (7200 : ℚ) ≤ x := by
  have hfirst : twoOld.SelectStale 7200 3600 1 [("http://a.org/1", 0, none)] :=
    ⟨twoOld.documents, by decide +kernel, by decide +kernel, rfl⟩
  have hsecond : ((twoOld.savePage 7200 (anew "http://a.org/1")).savePage 7200
      (anew "http://a.org/3")).SelectStale 7200 3600 1 [("http://a.org/2", 0, none)] :=
    ⟨[oldRow 2 "http://a.org/2"], by decide +kernel, List.pairwise_singleton _ _, rfl⟩
  have hclock : Monotone fun _ : ℕ => (7200 : ℚ) := monotone_const
  have h₁ := (Machine.ReachableBy.init (M := recrawlRounds 7200 twoOld)).step
    (roundByRound_recrawl rfl hclock hfirst) rfl
  have h₂ := h₁.step (roundByRound_save (anew "http://a.org/1")) rfl
  have h₃ := h₂.step (roundByRound_save (anew "http://a.org/3")) rfl
  have h₄ := h₃.step (roundByRound_recrawl (by decide +kernel) hclock hsecond) rfl
  have h := h₄.step (roundByRound_save (anew "http://a.org/2")) rfl
  exact ⟨_, h, rfl, overdue_recrawled 7200 3600 (by norm_num) 1 twoOld h (by decide +kernel)
    (by decide +kernel)⟩

end WebCrawler.Cli
