import WebCrawler.Api.CreateCrawl
import WebCrawler.Fleet.Loop

/-!
# The limits of a crawl on both backends

A request for a crawl names a depth and a list of domains.  The engine filters the
links of a page by both and by the length of the URL; `process_message` compares the
depth with the setting that all crawls share and looks at nothing else.  So a fleet
enqueues links that the limits of the crawl rule out (`link_outside_limits`).

The two loops over the links of one page let the same children through exactly if they agree
on every link that is new (`fleetChildren_eq_iff`): both enqueue the first occurrences of
the new URLs, the engine those of them that pass its filters.  Both loops break off at a URL
that does not parse, the fleet only at a new one.

On the fleet the limits hold in every state of a run in which no link outside them is
new to the seen-set when it is checked, unless its URL has no registered domain.  The
invariant is about items of any kind
(`Carried`): what holds of the seeds and of every link that is let through holds of all
records and of all calls under way, across retries, redeliveries and crashes.
-/

namespace WebCrawler

open Lib

/-! ### One page on both backends -/

/-- The links with an admitted URL that is not seen yet, each URL once. -/
def newLinks (passes : String → Bool) : Finset String → List Link → List Link
  | _, [] => []
  | seen, l :: links =>
      if passes l.url = true ∧ l.url ∉ seen then l :: newLinks passes (insert l.url seen) links
      else newLinks passes seen links

/-- The new links that pass a filter are the new ones among those that pass it.  The two
seen-sets need to agree on the URLs that pass. -/
lemma newLinks_eq_filter {passes : String → Bool} {links : List Link} {seen seen' : Finset String}
    (h : ∀ u, passes u = true → (u ∈ seen ↔ u ∈ seen')) :
    newLinks passes seen links =
      (newLinks (fun _ => true) seen' links).filter fun l => passes l.url := by
  induction links generalizing seen seen' with
  | nil => rfl
  | cons l links ih =>
      simp only [newLinks, true_and]
      by_cases hadm : passes l.url = true
      · by_cases hseen : l.url ∈ seen
        · have hseen' := (h _ hadm).1 hseen
          rw [if_neg (by simp [hseen]), if_neg (by simp [hseen'])]
          exact ih h
        · have hseen' : l.url ∉ seen' := fun hmem => hseen ((h _ hadm).2 hmem)
          rw [if_pos ⟨hadm, hseen⟩, if_pos hseen', List.filter_cons_of_pos (by simpa using hadm)]
          refine congrArg _ (ih ?_)
          intro u hu
          rw [Finset.mem_insert, Finset.mem_insert, h u hu]
      · -- a link that does not pass changes only the second seen-set
        have hother : ∀ u, passes u = true → (u ∈ seen ↔ u ∈ insert l.url seen') := by
          intro u hu
          have hne : u ≠ l.url := fun heq => hadm (heq ▸ hu)
          rw [Finset.mem_insert, or_iff_right hne, h u hu]
        rw [if_neg (by simp [hadm])]
        by_cases hseen' : l.url ∈ seen'
        · rw [if_neg (not_not.2 hseen')]
          exact ih h
        · rw [if_pos hseen', List.filter_cons_of_neg (by simpa using hadm)]
          exact ih hother

/-- The URLs of the new links. -/
lemma mem_newLinks_url {links : List Link} {seen : Finset String} {u : String} :
    u ∈ (newLinks (fun _ => true) seen links).map (·.url) ↔
      u ∈ links.map (·.url) ∧ u ∉ seen := by
  induction links generalizing seen with
  | nil => simp [newLinks]
  | cons l links ih =>
      simp only [newLinks, true_and]
      rw [List.map_cons, List.mem_cons]
      by_cases hseen : l.url ∈ seen
      · rw [if_neg (not_not.2 hseen), ih]
        constructor
        · rintro ⟨hu, hnot⟩
          exact ⟨Or.inr hu, hnot⟩
        · rintro ⟨hu, hnot⟩
          exact ⟨hu.resolve_left fun heq => hnot (heq ▸ hseen), hnot⟩
      · rw [if_pos hseen, List.map_cons, List.mem_cons, ih, Finset.mem_insert]
        by_cases hu : u = l.url
        · simp [hu, hseen]
        · simp [hu]

/-- The new links among the first ones are those of the new links whose URL is there. -/
lemma newLinks_prefix (pre post : List Link) (seen : Finset String) :
    newLinks (fun _ => true) seen pre =
      (newLinks (fun _ => true) seen (pre ++ post)).filter fun l => l.url ∈ pre.map (·.url) := by
  induction pre generalizing seen with
  | nil => simp [newLinks]
  | cons l pre ih =>
      have hrest : ∀ seen' : Finset String, l.url ∈ seen' →
          (newLinks (fun _ => true) seen' (pre ++ post)).filter
              (fun k => decide (k.url ∈ (l :: pre).map (·.url))) =
            (newLinks (fun _ => true) seen' (pre ++ post)).filter
              fun k => decide (k.url ∈ pre.map (·.url)) := by
        intro seen' hl
        refine List.filter_congr ?_
        intro k hk
        have hne : k.url ≠ l.url := fun heq =>
          (mem_newLinks_url.1 (List.mem_map_of_mem hk)).2 (heq ▸ hl)
        simp [hne]
      simp only [newLinks, List.cons_append, true_and]
      by_cases hseen : l.url ∈ seen
      · rw [if_neg (not_not.2 hseen), if_neg (not_not.2 hseen), hrest _ hseen]
        exact ih seen
      · rw [if_pos hseen, if_pos hseen, List.filter_cons_of_pos (by simp),
          hrest _ (Finset.mem_insert_self _ _)]
        exact congrArg _ (ih _)

/-- The first ones of some links. -/
lemma newLinks_takeWhile (q : Link → Bool) (links : List Link) (seen : Finset String) :
    newLinks (fun _ => true) seen (links.takeWhile q) =
      (newLinks (fun _ => true) seen links).filter fun l =>
        l.url ∈ (links.takeWhile q).map (·.url) := by
  have hsplit := newLinks_prefix (links.takeWhile q) (links.dropWhile q) seen
  rwa [List.takeWhile_append_dropWhile] at hsplit

/-- Two selections from the new links lead to the same children only if they are the same. -/
lemma map_filter_newLinks_eq_iff {links : List Link} {seen : Finset String} {item : FrontierItem}
    {p q : String → Bool} :
    ((newLinks (fun _ => true) seen links).filter fun l => p l.url).map (child item) =
        ((newLinks (fun _ => true) seen links).filter fun l => q l.url).map (child item) ↔
      ∀ l ∈ links, l.url ∉ seen → p l.url = q l.url := by
  have hchosen : ∀ (c : String → Bool) (u : String), u ∈ (((newLinks (fun _ => true) seen
      links).filter fun l => c l.url).map (child item)).map (·.url) ↔
        (u ∈ links.map (·.url) ∧ u ∉ seen) ∧ c u = true := by
    intro c u
    rw [← mem_newLinks_url]
    simp only [List.map_map, List.mem_map, List.mem_filter, Function.comp_apply, child_url]
    constructor
    · rintro ⟨l, ⟨hl, hc⟩, rfl⟩
      exact ⟨⟨l, hl, rfl⟩, hc⟩
    · rintro ⟨⟨l, hl, rfl⟩, hc⟩
      exact ⟨l, ⟨hl, hc⟩, rfl⟩
  constructor
  · intro h l hl hnew
    have hp := hchosen p l.url
    have hq := hchosen q l.url
    rw [h] at hp
    have hmem : l.url ∈ links.map (·.url) ∧ l.url ∉ seen := ⟨List.mem_map_of_mem hl, hnew⟩
    rw [and_iff_right hmem] at hp hq
    exact Bool.eq_iff_iff.2 (hp.symm.trans hq)
  · intro h
    refine congrArg _ (List.filter_congr ?_)
    intro l hl
    obtain ⟨hurl, hnew⟩ := mem_newLinks_url.1 (List.mem_map_of_mem (f := (·.url)) hl)
    obtain ⟨l', hl', heq⟩ := List.mem_map.1 hurl
    exact heq ▸ h l' hl' (heq ▸ hnew)

namespace CrawlEngine

variable (E : CrawlEngine) (U : UrlUtils)

/-- The loop over the links, without a switch to another worker. -/
def offerAll (item : FrontierItem) : EngineState → List Link → EngineState
  | s, [] => s
  | s, l :: links =>
      match E.offer U s item l with
      -- the exception leaves the loop
      | .error _ => s
      | .ok t => offerAll item t links

/-- `_handle` after `pipeline.process` has returned. -/
def handleLinks (s : EngineState) (item : FrontierItem) (r : ProcessResult) : EngineState :=
  if r.duplicate || decide (item.depth ≥ E.maxDepth) then s else E.offerAll U item s r.links

/-- Whether `_handle` offers a link to the frontier. -/
def follows (seedDomains : Finset String) (item : FrontierItem) (r : ProcessResult)
    (url : String) : Bool :=
  !r.duplicate && decide (item.depth < E.maxDepth) &&
    decide (url ∈ (E.followed U r.links).map (·.url)) &&
    decide (E.admits U seedDomains url = .ok true)

variable {E U}

/-- The loop over the links puts the new ones that pass the filters on the queue, as far as it
comes. -/
lemma put_offerAll (links : List Link) (s : EngineState) (item : FrontierItem) :
    (E.offerAll U item s links).put = s.put ++
      (newLinks (fun u => decide (E.admits U s.seedDomains u = .ok true)) s.frontier.seen
        (E.followed U links)).map (child item) := by
  induction links generalizing s with
  | nil => simp [offerAll, newLinks]
  | cons l links ih =>
      rw [offerAll, offer_eq]
      rcases hadm : E.admits U s.seedDomains l.url with e | admitted
      · simp [followed_cons_of_error links hadm, Except.map, newLinks]
      · rw [followed_cons_of_ok links hadm]
        simp only [Except.map, newLinks]
        cases admitted with
        | false => simp [ih, hadm]
        | true =>
            by_cases hseen : (child item l).url ∈ s.frontier.seen
            · have hold : l.url ∈ s.frontier.seen := hseen
              simp [ih, hadm, hold, EngineState.add_of_mem hseen]
            · have hnew : l.url ∉ s.frontier.seen := hseen
              simp [ih, hadm, hnew, EngineState.add_of_notMem hseen]

/-- What `_handle` puts on the queue. -/
lemma put_handleLinks (s : EngineState) (item : FrontierItem) (r : ProcessResult) :
    (E.handleLinks U s item r).put = s.put ++
      ((newLinks (fun _ => true) s.frontier.seen r.links).filter fun l =>
        E.follows U s.seedDomains item r l.url).map (child item) := by
  rw [handleLinks]
  by_cases hstop : r.duplicate = true ∨ item.depth ≥ E.maxDepth
  · have hnone : ∀ u, E.follows U s.seedDomains item r u = false := by
      intro u
      rcases hstop with hdup | hd
      · simp [follows, hdup]
      · simp [follows, not_lt.2 hd]
    simp [hnone, hstop]
  · obtain ⟨hdup, hd⟩ := not_or.1 hstop
    rw [if_neg (by simpa using hstop), put_offerAll, newLinks_eq_filter (fun u _ => Iff.rfl),
      followed, newLinks_takeWhile, List.filter_filter]
    refine congrArg _ (congrArg _ (List.filter_congr ?_))
    intro l _
    simp [follows, followed, hdup, not_le.1 hd, Bool.and_comm]

end CrawlEngine

/-- An exact seen-set and the items enqueued so far. -/
abbrev Offered : Type := Finset String × List FrontierItem

namespace Offered

/-- `enqueue`: without a registered domain for its key nothing is sent. -/
def enqueue (U : UrlUtils) (i : FrontierItem) : EStateM PyError Offered Unit := do
  let _ ← ofExcept (U.registeredDomain i.url)
  modify fun w => (w.1, w.2 ++ [i])

/-- `seen.check_and_add`. -/
def checkAndAdd (u : String) : EStateM PyError Offered Bool := modifyGet fun w =>
  (((SeenSet.exact String).checkAndAdd w.1 u).1, ((SeenSet.exact String).checkAndAdd w.1 u).2, w.2)

/-- The URL is no new one without a registered domain. -/
def passes (U : UrlUtils) (seen : Finset String) (url : String) : Bool :=
  decide (url ∈ seen) || (U.registeredDomain url).isOk

/-- The links to which the loop comes: those before the first new URL without a registered
domain. -/
def followed (U : UrlUtils) (seen : Finset String) (links : List Link) : List Link :=
  links.takeWhile fun l => passes U seen l.url

variable {U : UrlUtils}

lemma run_offerLink_ok (item : FrontierItem) (l : Link) (seen : Finset String)
    (out : List FrontierItem)
    (h : passes U seen l.url = true) :
    (offerLink (enqueue U) checkAndAdd item l).run (seen, out) =
      .ok () (insert l.url seen, if l.url ∉ seen then out ++ [child item l] else out) := by
  have hrun : (checkAndAdd l.url).run (seen, out) =
      .ok (decide (l.url ∉ seen)) (insert l.url seen, out) := rfl
  rw [offerLink, EStateM.run_bind, hrun]
  by_cases hseen : l.url ∈ seen
  · simp [hseen]
  · rcases hdomain : U.registeredDomain l.url with e | domain
    · simp [passes, hdomain, hseen, Except.isOk, Except.toBool] at h
    · have henqueue : (enqueue U (child item l)).run (insert l.url seen, out) =
          .ok () (insert l.url seen, out ++ [child item l]) :=
        run_ofExcept_bind_eq_ok.2 ⟨domain, hdomain, rfl⟩
      simpa [hseen] using henqueue

lemma run_offerLink_error (item : FrontierItem) (l : Link) (seen : Finset String)
    (out : List FrontierItem)
    (h : passes U seen l.url = false) :
    ∃ e, (offerLink (enqueue U) checkAndAdd item l).run (seen, out) =
      .error e (insert l.url seen, out) := by
  have hrun : (checkAndAdd l.url).run (seen, out) =
      .ok (decide (l.url ∉ seen)) (insert l.url seen, out) := rfl
  obtain ⟨hseen, hnone⟩ := Bool.or_eq_false_iff.1 h
  rcases hdomain : U.registeredDomain l.url with e | domain
  · refine ⟨e, ?_⟩
    have henqueue : (enqueue U (child item l)).run (insert l.url seen, out) =
        .error e (insert l.url seen, out) := by
      rw [enqueue, child_url, hdomain]
      rfl
    rw [offerLink, EStateM.run_bind, hrun]
    simpa [of_decide_eq_false hseen] using henqueue
  · rw [hdomain] at hnone
    cases hnone

/-- The loop over the links enqueues the new ones, as far as it comes. -/
lemma run_forM_offerLink (links : List Link) (item : FrontierItem) (seen : Finset String)
    (out : List FrontierItem) {seen₀ : Finset String} (hsub : seen₀ ⊆ seen)
    (hpasses : ∀ u ∈ seen, passes U seen₀ u = true) :
    (finalState ((forM links (offerLink (enqueue U) checkAndAdd item)).run (seen, out))).2 =
      out ++ (newLinks (fun _ => true) seen (followed U seen₀ links)).map (child item) := by
  induction links generalizing seen out with
  | nil => simp [followed, newLinks, finalState]
  | cons l links ih =>
      -- the seen-set has grown by URLs with a registered domain
      have hsame : passes U seen₀ l.url = passes U seen l.url := by
        have hgrow : l.url ∈ seen → passes U seen₀ l.url = true := hpasses l.url
        have hold : l.url ∈ seen₀ → l.url ∈ seen := fun h => hsub h
        simp only [passes, Bool.or_eq_true, decide_eq_true_eq] at hgrow
        rw [passes, passes, Bool.eq_iff_iff, Bool.or_eq_true, Bool.or_eq_true, decide_eq_true_eq,
          decide_eq_true_eq]
        tauto
      have hcons : followed U seen₀ (l :: links) =
          if passes U seen l.url then l :: followed U seen₀ links else [] := by
        rw [followed, List.takeWhile_cons, hsame]
        rfl
      rw [List.forM_cons, EStateM.run_bind, hcons]
      by_cases hkey : passes U seen l.url = true
      · have hgrown : ∀ u ∈ insert l.url seen, passes U seen₀ u = true := by
          intro u hu
          rcases Finset.mem_insert.1 hu with rfl | hu
          · exact hsame.trans hkey
          · exact hpasses u hu
        have hnext := ih (insert l.url seen)
          (if l.url ∉ seen then out ++ [child item l] else out)
          (hsub.trans (Finset.subset_insert _ _)) hgrown
        rw [run_offerLink_ok item l seen out hkey, if_pos hkey]
        simp only
        rw [hnext, newLinks]
        by_cases hseen : l.url ∈ seen
        · simp [hseen]
        · simp [hseen]
      · obtain ⟨e, he⟩ := run_offerLink_error item l seen out (Bool.eq_false_iff.2 hkey)
        rw [he, if_neg hkey]
        simp [newLinks, finalState]

end Offered

/-- The children that `process_message` enqueues for a page, with an exact seen-set. -/
def fleetChildren (U : UrlUtils) (maxDepth : ℤ) (seen : Finset String) (item : FrontierItem)
    (r : ProcessResult) : List FrontierItem :=
  (finalState ((offerLinks (Offered.enqueue U) Offered.checkAndAdd item maxDepth r).run
    (seen, []))).2

/-- Whether `process_message` enqueues a link that is new to the seen-set. -/
def fleetFollows (U : UrlUtils) (maxDepth : ℤ) (seen : Finset String) (item : FrontierItem)
    (r : ProcessResult) (url : String) : Bool :=
  r.expands item maxDepth && decide (url ∈ (Offered.followed U seen r.links).map (·.url))

lemma fleetChildren_eq (U : UrlUtils) (maxDepth : ℤ) (seen : Finset String) (item : FrontierItem)
    (r : ProcessResult) :
    fleetChildren U maxDepth seen item r =
      ((newLinks (fun _ => true) seen r.links).filter fun l =>
        fleetFollows U maxDepth seen item r l.url).map (child item) := by
  rw [fleetChildren, offerLinks]
  by_cases hexp : r.expands item maxDepth = true
  · have hpasses : ∀ u ∈ seen, Offered.passes U seen u = true := by
      intro u hu
      simp [Offered.passes, hu]
    rw [if_pos hexp, Offered.run_forM_offerLink _ _ _ _ (Finset.Subset.refl _) hpasses,
      List.nil_append, Offered.followed, newLinks_takeWhile]
    simp only [fleetFollows, hexp, Bool.true_and]
    rfl
  · rw [if_neg hexp]
    simp [fleetFollows, hexp, finalState]

/-- **One page.**  On the same result and the same seen-set, the fleet enqueues exactly the
children that the engine puts on its queue if and only if the two agree on every new
link. -/
lemma fleetChildren_eq_iff {E : CrawlEngine} {U : UrlUtils} {maxDepth : ℤ} (s : EngineState)
    (item : FrontierItem) (r : ProcessResult) :
    (E.handleLinks U s item r).put = s.put ++ fleetChildren U maxDepth s.frontier.seen item r ↔
      ∀ l ∈ r.links, l.url ∉ s.frontier.seen →
        fleetFollows U maxDepth s.frontier.seen item r l.url =
          E.follows U s.seedDomains item r l.url := by
  rw [CrawlEngine.put_handleLinks, fleetChildren_eq, List.append_cancel_left_eq, eq_comm,
    map_filter_newLinks_eq_iff]

/-! ### What all records carry -/

/-- The child that a call is about to enqueue. -/
def Point.claimedChild : Point → Option FrontierItem
  | .enqueuing m _ l _ => some (child m.toItem l)
  | _ => none

/-- The child that a call makes of the link it checks next, if the link is new. -/
def Point.nextChild : Point → Option FrontierItem
  | .linking m _ (l :: _) => some (child m.toItem l)
  | _ => none

/-- The message of a call has a property, and the child that it is about to enqueue, if that
can be published. -/
def Point.Bears (F : Fleet) (P : FrontierItem → Prop) (p : Point) : Prop :=
  P p.message.toItem ∧ ∀ i ∈ p.claimedChild, F.hasKey i.url = true → P i

lemma Point.bears_of_claimedChild_eq_none {F : Fleet} {P : FrontierItem → Prop} {p : Point}
    (hp : p.claimedChild = none) (h : P p.message.toItem) : p.Bears F P :=
  ⟨h, by simp [hp]⟩

namespace Fleet

variable {σ : Type} {F : Fleet} {S : SeenSet σ String} {N : Numerals} {s t : FleetState σ}
  {a : FleetAct} {P : FrontierItem → Prop}

/-- The child that a step is about to let through. -/
def checkedChild (s : FleetState σ) : FleetAct → Option FrontierItem
  | .check i => s.calls[i]?.bind (·.point.nextChild)
  | _ => none

/-- A property of the seeds, of all records and of all calls under way. -/
structure Carried (F : Fleet) (P : FrontierItem → Prop) (s : FleetState σ) : Prop where
  seeds : ∀ m ∈ s.seeds, P m.toItem
  log : ∀ e ∈ s.log, ∃ m : FrontierMessage, e.value = m.toBytes ∧ P m.toItem
  pending : s.pending ⊆ s.log
  uncommitted : s.uncommitted ⊆ s.log
  calls : ∀ call ∈ s.calls, call.point.Bears F P

namespace Carried

/-- Only the calls have changed. -/
lemma of_calls (h : Carried F P s) {seen : σ} {calls : List Call}
    (hcalls : ∀ call ∈ calls, call.point.Bears F P) :
    Carried F P { s with seen := seen, calls := calls } :=
  ⟨h.seeds, h.log, h.pending, h.uncommitted, hcalls⟩

lemma publish (h : Carried F P s) {topic : Topic} {ℓ : ℕ} {m : FrontierMessage} (hm : P m.toItem) :
    Carried F P (s.publish topic ℓ m) := by
  refine ⟨h.seeds, forall_mem_append_singleton h.log ⟨m, rfl, hm⟩,
    FleetState.pending_publish_subset h.pending topic ℓ m, ?_, h.calls⟩
  exact List.Subset.trans h.uncommitted (List.subset_append_left _ _)

lemma produce (h : Carried F P s) {m : FrontierMessage} (hm : P m.toItem) :
    Carried F P (s.produce m) := by
  have hroot : Carried F P { s with roots := s.roots ++ [m] } :=
    ⟨h.seeds, h.log, h.pending, h.uncommitted, h.calls⟩
  exact hroot.publish hm

/-- A record has been handed to a worker. -/
lemma take (h : Carried F P s) {pre post : List Entry} {e : Entry}
    (hs : s.pending = pre ++ e :: post) :
    Carried F P { s with pending := pre ++ post, uncommitted := s.uncommitted ++ [e] } := by
  have hsub := hs ▸ h.pending
  refine ⟨h.seeds, h.log, forall_mem_remove hsub, ?_, h.calls⟩
  exact forall_mem_append_singleton h.uncommitted (hsub (by simp))

/-- The message of a pending record. -/
lemma message (h : Carried F P s) {e : Entry} (he : e ∈ s.pending) {m : FrontierMessage}
    (hm : FrontierMessage.fromBytes N e.value = .ok m) : P m.toItem := by
  obtain ⟨m', hvalue, hP⟩ := h.log e (h.pending he)
  rw [hvalue, FrontierMessage.fromBytes_toBytes, Except.ok.injEq] at hm
  exact hm ▸ hP

/-- A step that lets through only children with the property keeps it. -/
lemma step (h : Carried F P s)
    (hnext : ∀ i ∈ checkedChild s a, (S.checkAndAdd s.seen i.url).1 = true →
      F.hasKey i.url = true → P i)
    (hm : Moves F S N s a t) : Carried F P t := by
  have hcalls := h.calls
  cases hm with
  | abort hs =>
      exact ⟨by simp, h.log, h.pending, h.uncommitted, h.calls⟩
  | @seed m rest hs hkey =>
      have hseeds := h.seeds
      rw [hs] at hseeds
      have h' : Carried F P { s with seeds := rest } :=
        ⟨fun m hm => hseeds m (by simp [hm]), h.log, h.pending, h.uncommitted, h.calls⟩
      exact h'.produce (hseeds m (by simp))
  | drop hs => exact h.take hs
  | @wait pre post e m hs hm =>
      have hok : (Point.requeuing m).Bears F P :=
        Point.bears_of_claimedChild_eq_none rfl (h.message (by simp [hs]) hm)
      exact (h.take hs).of_calls (forall_mem_append_singleton hcalls hok)
  | @visit pre post e m hs hm hd =>
      have hok : (Point.processing m).Bears F P :=
        Point.bears_of_claimedChild_eq_none rfl (h.message (by simp [hs]) hm)
      have h' := h.take hs
      exact ⟨h'.seeds, h'.log, h'.pending, h'.uncommitted, forall_mem_append_singleton hcalls hok⟩
  | redeliver he =>
      exact ⟨h.seeds, h.log, forall_mem_append_singleton h.pending (h.uncommitted he),
        h.uncommitted, h.calls⟩
  | commit =>
      exact ⟨h.seeds, h.log, h.pending,
        List.Subset.trans (List.eraseIdx_sublist _ _).subset h.uncommitted, h.calls⟩
  | @expand pre post ℓ m r hs hexp =>
      rw [hs] at hcalls
      have hok := (hcalls ⟨ℓ, .processing m⟩ (by simp)).1
      exact h.of_calls (forall_mem_replace hcalls (Point.bears_of_claimedChild_eq_none rfl hok))
  | @known pre post ℓ m r l rest hs =>
      rw [hs] at hcalls
      have hok := (hcalls ⟨ℓ, .linking m r (l :: rest)⟩ (by simp)).1
      exact h.of_calls (forall_mem_replace hcalls (Point.bears_of_claimedChild_eq_none rfl hok))
  | @fresh pre post ℓ m r l rest hs hnew =>
      -- the link is new, so that its child has the property
      have hchild : F.hasKey (child m.toItem l).url = true → P (child m.toItem l) :=
        hnext (child m.toItem l) (by simp [checkedChild, hs, Point.nextChild]) hnew
      rw [hs] at hcalls
      have hok := (hcalls ⟨ℓ, .linking m r (l :: rest)⟩ (by simp)).1
      refine h.of_calls (forall_mem_replace hcalls ⟨hok, ?_⟩)
      intro i hi
      obtain rfl : child m.toItem l = i := by simpa [Point.claimedChild] using hi
      exact hchild
  | @enqueue pre post ℓ m r l rest hs hkey =>
      rw [hs] at hcalls
      obtain ⟨hok, hclaimed⟩ := hcalls ⟨ℓ, .enqueuing m r l rest⟩ (by simp)
      have hchild : P (child m.toItem l) := hclaimed _ rfl hkey
      have hgo : (⟨ℓ, .linking m r rest⟩ : Call).point.Bears F P :=
        Point.bears_of_claimedChild_eq_none rfl hok
      exact (h.of_calls (forall_mem_replace hcalls hgo)).produce
        (m := .fromItem (child m.toItem l)) hchild
  | @fail _ pre post ℓ p hs hp =>
      rw [hs] at hcalls
      have hok := (hcalls ⟨ℓ, p⟩ (by simp)).1
      exact h.of_calls (forall_mem_replace hcalls (Point.bears_of_claimedChild_eq_none rfl hok))
  | @retry pre post ℓ m now hs =>
      rw [hs] at hcalls
      have hok := (hcalls ⟨ℓ, .retrying m⟩ (by simp)).1
      refine (h.of_calls (forall_mem_remove hcalls)).publish ?_
      -- the copy differs in its attempts and its time
      rw [CrawlWorker.afterFailure]
      split_ifs
      · exact hok
      · exact hok
  | @requeue pre post ℓ m hs =>
      rw [hs] at hcalls
      have hok := (hcalls ⟨ℓ, .requeuing m⟩ (by simp)).1
      exact (h.of_calls (forall_mem_remove hcalls)).publish hok
  | finish hs =>
      rw [hs] at hcalls
      exact h.of_calls (forall_mem_remove hcalls)

end Carried

/-! ### The limits of one crawl -/

/-- The fleet with the settings of the API. -/
def ofSettings (settings : Settings) (U : UrlUtils) : Fleet where
  maxDepth := settings.maxDepth
  maxRetries := settings.maxRetries
  hasKey url := (U.registeredDomain url).isOk

section Limits

variable (req : CrawlCreate) (U : UrlUtils) (settings : Settings) (crawlId : ℤ)

/-- No link of a page of the crawl that is outside its limits is new to the seen-set when
it is checked, unless its URL has no registered domain, so that it cannot be enqueued. -/
def LimitsKept (S : SeenSet σ String) (s : FleetState σ) (a : FleetAct) : Prop :=
  ∀ i ∈ checkedChild s a, i.crawlId = some crawlId →
    req.WithinLimits U settings i ∨ (S.checkAndAdd s.seen i.url).1 = false ∨
      (U.registeredDomain i.url).isOk = false

instance (S : SeenSet σ String) (s : FleetState σ) (a : FleetAct) :
    Decidable (LimitsKept req U settings crawlId S s a) :=
  inferInstanceAs (Decidable (∀ i ∈ checkedChild s a, _))

/-- Every item of the crawl on any topic is one of its seeds or within its limits. -/
def LimitsHold (N : Numerals) (messages : List FrontierMessage) (s : FleetState σ) : Prop :=
  ∀ e ∈ s.log, ∀ m, FrontierMessage.fromBytes N e.value = .ok m → m.crawlId = some crawlId →
    m.toItem ∈ messages.map (·.toItem) ∨ req.WithinLimits U settings m.toItem

/-- What the records of the crawl carry. -/
def CrawlItem (messages : List FrontierMessage) (i : FrontierItem) : Prop :=
  i.crawlId = some crawlId → 0 ≤ i.depth ∧
    (i ∈ messages.map (·.toItem) ∨ req.WithinLimits U settings i)

variable {req U settings crawlId} {messages : List FrontierMessage}

lemma limitsHold_of_carried (h : Carried F (CrawlItem req U settings crawlId messages) s) :
    LimitsHold req U settings crawlId N messages s := by
  intro e he m hm hid
  obtain ⟨m', hvalue, hP⟩ := h.log e he
  rw [hvalue, FrontierMessage.fromBytes_toBytes, Except.ok.injEq] at hm
  subst hm
  exact (hP hid).2

/-- The call that a step checks a link for. -/
lemma exists_of_mem_checkedChild {i : FrontierItem} (hi : i ∈ checkedChild s a) :
    ∃ pre post ℓ m r l rest, s.calls = pre ++ ⟨ℓ, .linking m r (l :: rest)⟩ :: post ∧
      a = .check pre.length ∧ i = child m.toItem l := by
  cases a with
  | check k =>
      obtain ⟨call, hcall, hpoint⟩ := Option.bind_eq_some_iff.1 hi
      obtain ⟨pre, post, hs, rfl⟩ := exists_split_of_getElem? hcall
      obtain ⟨ℓ, p⟩ := call
      cases p with
      | linking m r rest =>
          cases rest with
          | nil => cases hpoint
          | cons l rest =>
              exact ⟨pre, post, ℓ, m, r, l, rest, hs, rfl, (Option.some.inj hpoint).symm⟩
      | processing m => cases hpoint
      | enqueuing m r l rest => cases hpoint
      | retrying m => cases hpoint
      | requeuing m => cases hpoint
  | seed => cases hi
  | deliver k => cases hi
  | redeliver k => cases hi
  | commit k => cases hi
  | process k out => cases hi
  | enqueue k => cases hi
  | raise k => cases hi
  | retry k now => cases hi
  | requeue k => cases hi
  | crash k => cases hi

/-- Children of items of the crawl lie below them. -/
lemma nonneg_of_mem_checkedChild (h : Carried F (CrawlItem req U settings crawlId messages) s)
    {i : FrontierItem} (hi : i ∈ checkedChild s a) (hid : i.crawlId = some crawlId) :
    0 < i.depth := by
  obtain ⟨pre, post, ℓ, m, r, l, rest, hs, rfl, rfl⟩ := exists_of_mem_checkedChild hi
  have hcall := h.calls ⟨ℓ, .linking m r (l :: rest)⟩ (by simp [hs])
  have hdepth : 0 ≤ m.toItem.depth := (hcall.1 hid).1
  rw [child_depth]
  omega

lemma Carried.step_limits
    (h : Carried (ofSettings settings U) (CrawlItem req U settings crawlId messages) s)
    (hkept : LimitsKept req U settings crawlId S s a)
    (hm : Moves (ofSettings settings U) S N s a t) :
    Carried (ofSettings settings U) (CrawlItem req U settings crawlId messages) t := by
  refine h.step ?_ hm
  intro i hi hnew hkey hid
  rcases hkept i hi hid with hlim | hold | hnone
  · exact ⟨(nonneg_of_mem_checkedChild h hi hid).le, Or.inr hlim⟩
  · exact absurd hnew (by simp [hold])
  · exact absurd (show (U.registeredDomain i.url).isOk = true from hkey) (by simp [hnone])

/-- Only the seeds of the crawl carry its id before it has started. -/
lemma carried_init {seeds : List FrontierMessage} (seen : σ)
    (hmessages : ∀ m ∈ messages, m.depth = 0)
    (hseeds : seeds.filter (fun m => m.crawlId = some crawlId) = messages) :
    Carried F (CrawlItem req U settings crawlId messages)
      ({ seeds := seeds, seen := seen } : FleetState σ) := by
  refine ⟨?_, by simp, by simp, by simp, by simp⟩
  intro m hm hid
  have hmem : m ∈ messages := by
    rw [← hseeds]
    exact List.mem_filter.2 ⟨hm, by simpa [FrontierMessage.toItem] using hid⟩
  exact ⟨(hmessages m hmem).ge, Or.inl (List.mem_map_of_mem hmem)⟩

/-- A link outside the limits that is new to the seen-set gets enqueued. -/
lemma exists_enqueue_of_not_limitsKept
    (h : Carried (ofSettings settings U) (CrawlItem req U settings crawlId messages) s)
    (hmessages : ∀ m ∈ messages, m.depth = 0)
    (hkept : ¬ LimitsKept req U settings crawlId S s a)
    (hst : (ofSettings settings U).step S N s a = some t) :
    ∃ b t', (ofSettings settings U).step S N t b = some t' ∧
      ¬ LimitsHold req U settings crawlId N messages t' := by
  simp only [LimitsKept, not_forall, not_or, Bool.not_eq_false] at hkept
  obtain ⟨i, hi, hid, hout, hnew, hkey⟩ := hkept
  have hpos := nonneg_of_mem_checkedChild h hi hid
  obtain ⟨pre, post, ℓ, m, r, l, rest, hs, rfl, rfl⟩ := exists_of_mem_checkedChild hi
  have hnew' : (S.checkAndAdd s.seen l.url).1 = true := hnew
  have hkey' : (ofSettings settings U).hasKey l.url = true := hkey
  obtain rfl : { s with
      seen := (S.checkAndAdd s.seen l.url).2
      calls := pre ++ ⟨ℓ, .enqueuing m r l rest⟩ :: post } = t := by
    simpa [Fleet.step, hs, hnew', FleetState.setCall] using hst
  refine ⟨.enqueue pre.length, _, by simp [Fleet.step, hkey']; rfl, ?_⟩
  intro hhold
  -- the record of the child is the last one of the log
  have hmem : (⟨.frontier, s.roots.length, (FrontierMessage.fromItem (child m.toItem l)).toBytes⟩ :
      Entry) ∈ s.log ++ [⟨.frontier, s.roots.length,
        (FrontierMessage.fromItem (child m.toItem l)).toBytes⟩] := by simp
  rcases hhold _ hmem _ (FrontierMessage.fromBytes_toBytes N _) hid with hseed | hlim
  · obtain ⟨m₀, hm₀, heq⟩ := List.mem_map.1 hseed
    have hdepth : m₀.depth = (child m.toItem l).depth := congrArg FrontierItem.depth heq
    have hzero := hmessages m₀ hm₀
    omega
  · exact hout hlim

end Limits

/-- **The limits of a crawl on both backends.**  With the memory backend every item that
is not a seed is within the limits of the crawl, in every state of every run.  With the
Kafka backend this holds in every run in which no link outside the limits that can be
enqueued is new to the seen-set when it is checked; a single such link is enqueued by the next
step of its worker.  On one page the two backends let the same children through exactly if they
agree on every new link. -/
theorem limits_on_both_backends (req : CrawlCreate) (U : UrlUtils) (settings : Settings)
    (crawlId : ℤ) (S : SeenSet σ String) (N : Numerals) (seen : σ) :
    (∀ E seeds, req.Launches U settings crawlId (.inProcess E seeds) →
      ∀ site s, (E.machine U site seeds (some crawlId)).Reachable s →
        ∀ i ∈ s.put, CrawlEngine.IsSeed U seeds i ∨ req.WithinLimits U settings i) ∧
    (∀ messages seeds, req.Launches U settings crawlId (.published messages) →
      seeds.filter (fun m => m.crawlId = some crawlId) = messages →
      ∀ s, ((ofSettings settings U).machine S N seen seeds).ReachableBy
          (LimitsKept req U settings crawlId S) s →
        LimitsHold req U settings crawlId N messages s ∧
        ∀ a t, (ofSettings settings U).step S N s a = some t →
          ¬ LimitsKept req U settings crawlId S s a →
          ∃ b t', (ofSettings settings U).step S N t b = some t' ∧
            ¬ LimitsHold req U settings crawlId N messages t') ∧
    ∀ (s : EngineState) (item : FrontierItem) (r : ProcessResult),
      ((req.engine settings).handleLinks U s item r).put =
          s.put ++ fleetChildren U settings.maxDepth s.frontier.seen item r ↔
        ∀ l ∈ r.links, l.url ∉ s.frontier.seen →
          fleetFollows U settings.maxDepth s.frontier.seen item r l.url =
            (req.engine settings).follows U s.seedDomains item r l.url := by
  refine ⟨?_, ?_, fun s item r => fleetChildren_eq_iff s item r⟩
  · intro E seeds hlaunch site s hs i hi
    obtain ⟨urls, -, h | ⟨-, h⟩ | ⟨-, h⟩⟩ := CrawlCreate.launch_cases hlaunch
    · cases h
    · cases h
    · obtain ⟨rfl, rfl⟩ := Launch.inProcess.inj h
      exact CrawlCreate.put_withinLimits hs hi
  · intro messages seeds hlaunch hseeds s hs
    -- the published messages have depth zero
    have hzero : ∀ m ∈ messages, m.depth = 0 := by
      obtain ⟨urls, -, h | ⟨-, h⟩ | ⟨-, h⟩⟩ := CrawlCreate.launch_cases hlaunch
      · cases h
      · obtain rfl := Launch.published.inj h
        intro m hm
        obtain ⟨url, -, rfl⟩ := List.mem_map.1 hm
        rfl
      · cases h
    have hcarried : Carried (ofSettings settings U)
        (CrawlItem req U settings crawlId messages) s :=
      Machine.ReachableBy.inv (carried_init seen hzero hseeds)
        (fun _ _ _ ih hkept hst => ih.step_limits hkept (moves_of_step hst)) hs
    refine ⟨limitsHold_of_carried hcarried, ?_⟩
    intro a t hst hkept
    exact exists_enqueue_of_not_limitsKept hcarried hzero hkept hst

/-- A request for the pages of `a.org` up to a depth. -/
def oneDomain (maxDepth : ℤ) (h : 0 ≤ maxDepth ∧ maxDepth ≤ 20) : CrawlCreate where
  seeds := ["http://a.org/"]
  maxDepth := maxDepth
  allowedDomains := some ["a.org"]
  seeds_ne_nil := by simp
  maxDepth_mem := h
  one_le_maxPages := by omega

/-- The page of `http://a.org/` in the crawl 1, with one link. -/
def crawlPage (url : String) : ProcessResult where
  item := { url := "http://a.org/", crawlId := some 1 }
  fetched := true
  stored := true
  links := [{ url := url }]

/-- A link on the same domain is within the limits, and both backends follow it. -/
theorem limits_on_both_backends_same_domain :
    (∃ s, ((ofSettings { backend := .kafka } plainUrls).machine (SeenSet.exact String) noNumerals ∅
        [{ url := "http://a.org/", crawlId := some 1 }]).ReachableBy
          (LimitsKept (oneDomain 1 (by omega)) plainUrls { backend := .kafka } 1
            (SeenSet.exact String)) s ∧
      s.roots.map (·.url) = ["http://a.org/", "http://a.org/b"] ∧
      LimitsHold (oneDomain 1 (by omega)) plainUrls { backend := .kafka } 1 noNumerals
        [{ url := "http://a.org/", crawlId := some 1 }] s) ∧
    (((oneDomain 1 (by omega)).engine { backend := .kafka }).handleLinks plainUrls
      (CrawlEngine.start plainUrls ["http://a.org/"] (some 1)) { url := "http://a.org/" }
        (crawlPage "http://a.org/b")).put =
      (CrawlEngine.start plainUrls ["http://a.org/"] (some 1)).put ++
        fleetChildren plainUrls 3 {"http://a.org/"} { url := "http://a.org/" }
          (crawlPage "http://a.org/b") := by
  have h := Machine.reachableBy_of_exec
    (M := (ofSettings { backend := .kafka } plainUrls).machine (SeenSet.exact String) noNumerals ∅
      [{ url := "http://a.org/", crawlId := some 1 }])
    (P := LimitsKept (oneDomain 1 (by omega)) plainUrls { backend := .kafka } 1
      (SeenSet.exact String))
    [.seed, .deliver 0, .process 0 (.ok (crawlPage "http://a.org/b")), .check 0, .enqueue 0] rfl
  obtain ⟨-, hfleet, hpage⟩ := limits_on_both_backends (oneDomain 1 (by omega)) plainUrls
    { backend := .kafka } 1 (SeenSet.exact String) noNumerals ∅
  refine ⟨⟨_, h, rfl, (hfleet _ _ ⟨_, _, rfl⟩ rfl _ h).1⟩, (hpage _ _ _).2 ?_⟩
  intro l hl _
  obtain rfl := List.mem_singleton.1 hl
  rfl

/-- **A link outside the limits.**  The crawl is limited to depth zero and to `a.org`; the
fleet enqueues `http://b.org/` at depth one, the engine does not. -/
theorem link_outside_limits :
    (oneDomain 0 (by omega)).Launches plainUrls { backend := .kafka } 1
      (.published [{ url := "http://a.org/", crawlId := some 1 }]) ∧
    (∃ s, ((ofSettings { backend := .kafka } plainUrls).machine (SeenSet.exact String) noNumerals ∅
        [{ url := "http://a.org/", crawlId := some 1 }]).Reachable s ∧
      s.roots.map (·.toItem) = [{ url := "http://a.org/", crawlId := some 1 },
        { url := "http://b.org/", depth := 1, crawlId := some 1 }] ∧
      ¬ LimitsHold (oneDomain 0 (by omega)) plainUrls { backend := .kafka } 1 noNumerals
        [{ url := "http://a.org/", crawlId := some 1 }] s) ∧
    fleetChildren plainUrls 3 {"http://a.org/"} (crawlPage "http://b.org/").item
        (crawlPage "http://b.org/") =
      [{ url := "http://b.org/", depth := 1, crawlId := some 1 }] ∧
    (((oneDomain 0 (by omega)).engine { backend := .kafka }).handleLinks plainUrls
      (CrawlEngine.start plainUrls ["http://a.org/"] (some 1)) (crawlPage "http://b.org/").item
        (crawlPage "http://b.org/")).put = [{ url := "http://a.org/", crawlId := some 1 }] := by
  have hrun := Machine.reachableBy_of_exec
    (M := (ofSettings { backend := .kafka } plainUrls).machine (SeenSet.exact String) noNumerals ∅
      [{ url := "http://a.org/", crawlId := some 1 }]) (P := fun _ _ => True)
    [.seed, .deliver 0, .process 0 (.ok (crawlPage "http://b.org/")), .check 0, .enqueue 0] rfl
  refine ⟨⟨_, _, rfl⟩, ⟨_, hrun, rfl, ?_⟩, rfl, rfl⟩
  intro h
  have hout := h ⟨.frontier, 1, (FrontierMessage.fromItem
    { url := "http://b.org/", depth := 1, crawlId := some 1 }).toBytes⟩
    (List.mem_cons_of_mem _ List.mem_cons_self) _ (FrontierMessage.fromBytes_toBytes _ _) rfl
  revert hout
  decide

end Fleet

end WebCrawler
