import WebCrawler.Pipeline.Distributed
import WebCrawler.Lib.SeenSet

/-!
# Repeated attempts on one item

A message whose processing raises comes back through the retry topic, so that
`process_message` runs again on the same item.  The environment decides what each call
of `pipeline.process` returns or raises and which calls of `enqueue` raise; the seen-set
is exact.

A link is entered into the seen-set before it is enqueued.  If that call raises, every
later attempt finds the URL in the seen-set and passes over it: the link is lost
(`enqueue_failure_loses_link`).  Over a whole run each new URL leads to exactly one
call of `enqueue`, whatever the number of attempts, so that no link is lost exactly if
none of these calls raises (`links_enqueued_iff`).
-/

namespace WebCrawler

open Lib

/-- The behaviour of the environment during a run. -/
structure Script where
  /-- What the `n`-th call of `pipeline.process` returns or raises. -/
  outcome : ℕ → Except PyError ProcessResult
  /-- Whether the `n`-th call of `enqueue` raises. -/
  raises : ℕ → Bool

/-- The state of a run. -/
structure Attempts where
  seen : Finset String
  /-- The number of calls of `pipeline.process`. -/
  attempts : ℕ := 0
  /-- The number of calls of `enqueue`. -/
  calls : ℕ := 0
  /-- The items whose `enqueue` has completed. -/
  enqueued : List FrontierItem := []
deriving DecidableEq

/-- The state after a link to a new URL, before it is known how `enqueue` ends. -/
def Attempts.mark (s : Attempts) (url : String) : Attempts :=
  { s with seen := insert url s.seen, calls := s.calls + 1 }

namespace Script

variable (E : Script)

/-- `pipeline.process`. -/
def process (_ : FrontierItem) : EStateM PyError Attempts ProcessResult := fun s =>
  match E.outcome s.attempts with
  | .ok r => .ok r { s with attempts := s.attempts + 1 }
  | .error e => .error e { s with attempts := s.attempts + 1 }

/-- `frontier.add`. -/
def enqueue (item : FrontierItem) : EStateM PyError Attempts Unit := fun s =>
  if E.raises s.calls then .error { what := "KafkaTimeoutError" } { s with calls := s.calls + 1 }
  else .ok () { s with calls := s.calls + 1, enqueued := s.enqueued ++ [item] }

/-- `seen.check_and_add`, on the exact seen-set. -/
def checkAndAdd (url : String) : EStateM PyError Attempts Bool := fun s =>
  let answer := (SeenSet.exact String).checkAndAdd s.seen url
  .ok answer.1 { s with seen := answer.2 }

/-- One attempt. -/
def attemptOnce (item : FrontierItem) (maxDepth : ℤ) : EStateM PyError Attempts ProcessResult :=
  processMessage E.process E.enqueue checkAndAdd item maxDepth

/-- At most `n` attempts: one that raises or ends in a fetch error is followed by
another one. -/
def runAttempts (item : FrontierItem) (maxDepth : ℤ) : ℕ → EStateM PyError Attempts ProcessResult
  | 0 => throw { what := "no attempt is left" }
  | n + 1 => do
      match ← attempt (E.attemptOnce item maxDepth) with
      | .ok r =>
          if r.skipped = some .fetchError then runAttempts item maxDepth n else pure r
      | .error _ => runAttempts item maxDepth n

/-! ### One link -/

variable {E} {item : FrontierItem} {maxDepth : ℤ} {link : Link} {links : List Link}
  {seen₀ : Finset String} {s s' : Attempts}

/-- One turn of the loop over the links. -/
lemma run_offerLink :
    (offerLink E.enqueue checkAndAdd item link).run s =
      if link.url ∈ s.seen then .ok () s
      else if E.raises s.calls then .error { what := "KafkaTimeoutError" } (s.mark link.url)
      else .ok () { s.mark link.url with enqueued := s.enqueued ++ [child item link] } := by
  have hcheck : (checkAndAdd link.url).run s =
      .ok (decide (link.url ∉ s.seen)) { s with seen := insert link.url s.seen } := rfl
  rw [offerLink, EStateM.run_bind, hcheck]
  by_cases hmem : link.url ∈ s.seen
  · simp [hmem]
  · simp only [hmem, not_false_eq_true, decide_true, if_true, if_false]
    rfl

/-- The books of a run: the URLs added to the seen-set are links of the page, each of
them has led to one call of `enqueue`, and the items of the calls that did not raise
are enqueued. -/
structure Tally (E : Script) (links : List Link) (seen₀ : Finset String) (s : Attempts) : Prop where
  mono : seen₀ ⊆ s.seen
  new : s.seen \ seen₀ ⊆ (links.map (·.url)).toFinset
  card : (s.seen \ seen₀).card = s.calls
  urls : ∀ i ∈ s.enqueued, i.url ∈ s.seen \ seen₀
  nodup : (s.enqueued.map (·.url)).Nodup
  length : s.enqueued.length = ((Finset.range s.calls).filter fun n => E.raises n = false).card

lemma tally_start (links : List Link) (seen₀ : Finset String) :
    Tally E links seen₀ { seen := seen₀ } :=
  ⟨Finset.Subset.refl _, by simp, by simp, by simp, by simp, by simp⟩

lemma Tally.sdiff_mark (h : Tally E links seen₀ s) {url : String} (hnew : url ∉ s.seen) :
    (s.mark url).seen \ seen₀ = insert url (s.seen \ seen₀) :=
  Finset.insert_sdiff_of_notMem _ fun hmem => hnew (h.mono hmem)

/-- Entering a new link of the page into the seen-set. -/
lemma Tally.marked (h : Tally E links seen₀ s) (hlink : link ∈ links) (hnew : link.url ∉ s.seen) :
    seen₀ ⊆ (s.mark link.url).seen ∧
      (s.mark link.url).seen \ seen₀ ⊆ (links.map (·.url)).toFinset ∧
      ((s.mark link.url).seen \ seen₀).card = (s.mark link.url).calls := by
  have hnot : link.url ∉ s.seen \ seen₀ := fun hmem => hnew (Finset.mem_sdiff.1 hmem).1
  rw [h.sdiff_mark hnew]
  refine ⟨h.mono.trans (Finset.subset_insert _ _), Finset.insert_subset ?_ h.new, ?_⟩
  · exact List.mem_toFinset.2 (List.mem_map_of_mem hlink)
  · rw [Finset.card_insert_of_notMem hnot, h.card]
    rfl

/-- A link to a new URL whose `enqueue` raises. -/
lemma Tally.mark_raised (h : Tally E links seen₀ s) (hlink : link ∈ links)
    (hnew : link.url ∉ s.seen) (hr : E.raises s.calls = true) :
    Tally E links seen₀ (s.mark link.url) := by
  obtain ⟨hmono, hsub, hcard⟩ := h.marked hlink hnew
  refine ⟨hmono, hsub, hcard, fun i hi => ?_, h.nodup, ?_⟩
  · rw [h.sdiff_mark hnew]
    exact Finset.mem_insert_of_mem (h.urls i hi)
  · simp only [Attempts.mark]
    rw [h.length, Finset.range_add_one, Finset.filter_insert, if_neg (by simp [hr])]

/-- A link to a new URL that is enqueued. -/
lemma Tally.mark_enqueued (h : Tally E links seen₀ s) (hlink : link ∈ links)
    (hnew : link.url ∉ s.seen) (hr : E.raises s.calls = false) :
    Tally E links seen₀ { s.mark link.url with enqueued := s.enqueued ++ [child item link] } := by
  obtain ⟨hmono, hsub, hcard⟩ := h.marked hlink hnew
  refine ⟨hmono, hsub, hcard, fun i hi => ?_, ?_, ?_⟩
  · show i.url ∈ (s.mark link.url).seen \ seen₀
    rw [h.sdiff_mark hnew]
    rcases List.mem_append.1 hi with hi | hi
    · exact Finset.mem_insert_of_mem (h.urls i hi)
    · rw [List.mem_singleton.1 hi]
      exact Finset.mem_insert_self _ _
  · simp only [List.map_append, List.map_cons, List.map_nil, child_url]
    refine List.nodup_append.2 ⟨h.nodup, by simp, ?_⟩
    rintro u hu v hv rfl
    obtain ⟨i, hi, hurl⟩ := List.mem_map.1 hu
    have hmem := (Finset.mem_sdiff.1 (h.urls i hi)).1
    rw [hurl, List.mem_singleton.1 hv] at hmem
    exact hnew hmem
  · simp only [Attempts.mark, List.length_append, List.length_singleton]
    rw [h.length, Finset.range_add_one, Finset.filter_insert, if_pos hr,
      Finset.card_insert_of_notMem (by simp)]

/-- A turn of the loop keeps the books, whether it raises or not. -/
lemma preserves_offerLink (hlink : link ∈ links) :
    Preserves (Tally E links seen₀) (offerLink E.enqueue checkAndAdd item link) := by
  refine preserves_of_finalState fun s hs => ?_
  rw [run_offerLink]
  split_ifs with hmem hr
  · exact hs
  · exact hs.mark_raised hlink hmem hr
  · exact hs.mark_enqueued hlink hmem (by simpa using hr)

/-- After a turn that returns, the URL of the link is in the seen-set. -/
lemma mem_seen_of_offerLink {u : Unit}
    (h : (offerLink E.enqueue checkAndAdd item link).run s = .ok u s') : link.url ∈ s'.seen := by
  rw [run_offerLink] at h
  split_ifs at h with hmem hr
  · obtain ⟨-, rfl⟩ := EStateM.Result.ok.inj h
    exact hmem
  · obtain ⟨-, rfl⟩ := EStateM.Result.ok.inj h
    exact Finset.mem_insert_self _ _

lemma preserves_mem_seen (url : String) :
    Preserves (fun s : Attempts => url ∈ s.seen) (offerLink E.enqueue checkAndAdd item link) := by
  refine preserves_of_finalState fun s hs => ?_
  rw [run_offerLink]
  split_ifs with hmem hr
  · exact hs
  · exact Finset.mem_insert_of_mem hs
  · exact Finset.mem_insert_of_mem hs

/-! ### One attempt -/

/-- The page of the item has the same links each time its links are followed. -/
def SamePage (E : Script) (item : FrontierItem) (maxDepth : ℤ) (links : List Link) : Prop :=
  ∀ n r, E.outcome n = .ok r → r.expands item maxDepth = true → r.links = links

/-- A call of `pipeline.process` only moves on to the next outcome. -/
lemma process_cases (item : FrontierItem) (s : Attempts) :
    (∃ r, E.outcome s.attempts = .ok r ∧
        (E.process item).run s = .ok r { s with attempts := s.attempts + 1 }) ∨
      ∃ e, (E.process item).run s = .error e { s with attempts := s.attempts + 1 } := by
  cases h : E.outcome s.attempts with
  | ok r => exact Or.inl ⟨r, rfl, by simp [process, EStateM.run, h]⟩
  | error e => exact Or.inr ⟨e, by simp [process, EStateM.run, h]⟩

lemma preserves_process : Preserves (Tally E links seen₀) (E.process item) := by
  refine preserves_of_finalState fun s hs => ?_
  have hs' : Tally E links seen₀ { s with attempts := s.attempts + 1 } :=
    ⟨hs.mono, hs.new, hs.card, hs.urls, hs.nodup, hs.length⟩
  rcases process_cases (E := E) item s with ⟨r, -, hr⟩ | ⟨e, he⟩
  · rw [hr]
    exact hs'
  · rw [he]
    exact hs'

lemma outcome_of_process {r : ProcessResult} (h : (E.process item).run s = .ok r s') :
    ∃ n, E.outcome n = .ok r := by
  rcases process_cases (E := E) item s with ⟨r', hr', hrun⟩ | ⟨e, he⟩
  · rw [hrun] at h
    obtain ⟨rfl, -⟩ := EStateM.Result.ok.inj h
    exact ⟨_, hr'⟩
  · rw [he] at h
    exact absurd h (by simp)

/-- An attempt keeps the books, whether it raises or not. -/
lemma preserves_attemptOnce (hsame : SamePage E item maxDepth links) :
    Preserves (Tally E links seen₀) (E.attemptOnce item maxDepth) := by
  refine preserves_process.bind fun s r t hr => ?_
  obtain ⟨n, hn⟩ := outcome_of_process hr
  refine Preserves.bind ?_ fun _ _ _ _ => preserves_pure _
  rw [offerLinks]
  split_ifs with hexp
  · rw [hsame n r hn hexp]
    exact Preserves.forM fun link hlink => preserves_offerLink hlink
  · exact preserves_pure _

/-- After an attempt that returns and follows the links, all of them are in the seen-set. -/
lemma links_seen_of_attemptOnce {r : ProcessResult}
    (h : (E.attemptOnce item maxDepth).run s = .ok r s') (hexp : r.expands item maxDepth = true) :
    ∀ link ∈ r.links, link.url ∈ s'.seen := by
  obtain ⟨r', t, -, h₁⟩ := run_bind_eq_ok.1 h
  obtain ⟨u, t', hlinks, h₂⟩ := run_bind_eq_ok.1 h₁
  obtain ⟨rfl, rfl⟩ := run_pure_eq_ok.1 h₂
  rw [offerLinks, if_pos hexp] at hlinks
  exact forall_mem_of_run_forM (Q := fun link s => link.url ∈ s.seen)
    (fun link _ s s' u hrun => mem_seen_of_offerLink hrun)
    (fun link _ link' => preserves_mem_seen link'.url) hlinks

/-! ### All attempts -/

/-- A run that returns ends with an attempt that returns. -/
lemma last_attempt (hsame : SamePage E item maxDepth links) {n : ℕ} {r : ProcessResult}
    (hs : Tally E links seen₀ s) (h : (E.runAttempts item maxDepth n).run s = .ok r s') :
    ∃ t, Tally E links seen₀ t ∧ (E.attemptOnce item maxDepth).run t = .ok r s' := by
  induction n generalizing s with
  | zero => cases h
  | succ n ih =>
      obtain ⟨x, t, hx, hrest⟩ := run_bind_eq_ok.1 h
      have ht : Tally E links seen₀ t := ((preserves_attemptOnce hsame).attempt s hs).1 x t hx
      -- an attempt that raises or ends in a fetch error hands its tally on to the next one
      rcases run_attempt_eq_ok.1 hx with ⟨a, rfl, ha⟩ | ⟨e, rfl, -⟩
      · simp only at hrest
        split_ifs at hrest with hskip
        · exact ih ht hrest
        · obtain ⟨rfl, rfl⟩ := run_pure_eq_ok.1 hrest
          exact ⟨s, hs, ha⟩
      · exact ih ht hrest

/-- Nothing is lost exactly if no call of `enqueue` has raised. -/
lemma Tally.all_enqueued_iff (h : Tally E links seen₀ s) :
    (∀ u ∈ s.seen \ seen₀, ∃ i ∈ s.enqueued, i.url = u) ↔ ∀ n < s.calls, E.raises n = false := by
  have hsub : (s.enqueued.map (·.url)).toFinset ⊆ s.seen \ seen₀ := by
    intro u hu
    obtain ⟨i, hi, rfl⟩ := List.mem_map.1 (List.mem_toFinset.1 hu)
    exact h.urls i hi
  have hcard : (s.enqueued.map (·.url)).toFinset.card =
      ((Finset.range s.calls).filter fun n => E.raises n = false).card := by
    rw [List.toFinset_card_of_nodup h.nodup, List.length_map, h.length]
  calc (∀ u ∈ s.seen \ seen₀, ∃ i ∈ s.enqueued, i.url = u)
      ↔ s.seen \ seen₀ ⊆ (s.enqueued.map (·.url)).toFinset := by
        simp [Finset.subset_iff]
    _ ↔ (s.enqueued.map (·.url)).toFinset.card = (s.seen \ seen₀).card := by
        refine ⟨fun hle => ?_, fun heq => ?_⟩
        · rw [Finset.Subset.antisymm hsub hle]
        · rw [Finset.eq_of_subset_of_card_le hsub heq.ge]
    _ ↔ ((Finset.range s.calls).filter fun n => E.raises n = false).card =
          (Finset.range s.calls).card := by
        rw [hcard, h.card, Finset.card_range]
    _ ↔ ∀ n < s.calls, E.raises n = false := by
        rw [Finset.card_filter_eq_iff]
        simp

/-- **Which links survive failures.**  In a run of attempts on one item that ends with
an attempt whose links are followed, every link that was not in the seen-set before
has been enqueued, exactly if none of the calls of `enqueue` raises; there is one call
for each new URL. -/
theorem links_enqueued_iff (hsame : SamePage E item maxDepth links) {n : ℕ} {r : ProcessResult}
    (h : (E.runAttempts item maxDepth n).run { seen := seen₀ } = .ok r s')
    (hfetched : r.fetched = true) (hdup : r.duplicate = false) (hdepth : item.depth < maxDepth) :
    (∀ link ∈ r.links, link.url ∉ seen₀ → ∃ i ∈ s'.enqueued, i.url = link.url) ↔
      ∀ k < ((r.links.map (·.url)).toFinset \ seen₀).card, E.raises k = false := by
  obtain ⟨t, ht, hlast⟩ := last_attempt hsame (tally_start links seen₀) h
  have hexp : r.expands item maxDepth = true := by
    simp [ProcessResult.expands, hfetched, hdup, hdepth]
  have hlinks : r.links = links := by
    obtain ⟨r', t₁, hr', h₁⟩ := run_bind_eq_ok.1 hlast
    obtain ⟨u, t₂, -, h₂⟩ := run_bind_eq_ok.1 h₁
    obtain ⟨rfl, -⟩ := run_pure_eq_ok.1 h₂
    obtain ⟨m, hm⟩ := outcome_of_process hr'
    exact hsame m r' hm hexp
  have hs' : Tally E links seen₀ s' := ((preserves_attemptOnce hsame) t ht).1 r s' hlast
  have hseen := links_seen_of_attemptOnce hlast hexp
  -- the new URLs of the seen-set are the links of the page that were not seen before
  have hnew : s'.seen \ seen₀ = (r.links.map (·.url)).toFinset \ seen₀ := by
    refine Finset.Subset.antisymm (fun u hu => ?_) (fun u hu => ?_)
    · exact Finset.mem_sdiff.2 ⟨hlinks ▸ hs'.new hu, (Finset.mem_sdiff.1 hu).2⟩
    · obtain ⟨hmem, hnot⟩ := Finset.mem_sdiff.1 hu
      obtain ⟨link, hlink, rfl⟩ := List.mem_map.1 (List.mem_toFinset.1 hmem)
      exact Finset.mem_sdiff.2 ⟨hseen link hlink, hnot⟩
  rw [← hnew, hs'.card, ← hs'.all_enqueued_iff, hnew]
  simp

/-! ### A page with one link -/

/-- The page of `http://a.org/` with its only link. -/
def onePage : ProcessResult where
  item := { url := "http://a.org/" }
  fetched := true
  stored := true
  links := [{ url := "http://a.org/b" }]

/-- The first call of `pipeline.process` raises, and no call of `enqueue` does. -/
def processFails : Script where
  outcome n := if n = 0 then .error { what := "TimeoutError" } else .ok onePage
  raises _ := false

/-- The first call of `enqueue` raises. -/
def enqueueFails : Script where
  outcome _ := .ok onePage
  raises n := n = 0

/-- A failure of the pipeline does no harm. -/
theorem links_enqueued_processFails :
    ∃ r s', (processFails.runAttempts { url := "http://a.org/" } 2 2).run { seen := ∅ } = .ok r s' ∧
      s'.attempts = 2 ∧
      ∀ link ∈ r.links, link.url ∉ (∅ : Finset String) → ∃ i ∈ s'.enqueued, i.url = link.url := by
  have hsame : SamePage processFails { url := "http://a.org/" } 2 onePage.links := by
    intro n r hr _
    simp only [processFails] at hr
    split_ifs at hr
    exact (Except.ok.inj hr) ▸ rfl
  exact ⟨_, _, rfl, rfl, (links_enqueued_iff hsame (n := 2) rfl rfl rfl (by decide)).2
    fun k _ => rfl⟩

/-- **A link is lost when its `enqueue` raises.**  The second attempt returns, but it
finds the URL in the seen-set. -/
theorem enqueue_failure_loses_link :
    SamePage enqueueFails { url := "http://a.org/" } 2 onePage.links ∧
    ∃ r s', (enqueueFails.runAttempts { url := "http://a.org/" } 2 2).run { seen := ∅ } =
        .ok r s' ∧
      r.fetched = true ∧ r.duplicate = false ∧ s'.attempts = 2 ∧
      ¬ ∀ link ∈ r.links, link.url ∉ (∅ : Finset String) → ∃ i ∈ s'.enqueued, i.url = link.url := by
  refine ⟨fun n r hr _ => ?_, _, _, rfl, rfl, rfl, rfl, by decide⟩
  exact (Except.ok.inj hr) ▸ rfl

end Script

end WebCrawler
