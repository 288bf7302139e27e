import WebCrawler.Dedup.Bloom
import WebCrawler.Fleet.Loop

/-!
# Is every URL enqueued at most once?

`process_message` lets a link through to the frontier only if the shared seen-set does
not know it, so that no two workers enqueue the same link.  The seeding code publishes
the seeds without entering them into the seen-set.  A page that links back to a seed
therefore gets the seed enqueued a second time (`cycle_enqueues_seed_again`).

As long as no link to a seed is new to the seen-set when it is checked, every URL is
produced at most once, in every interleaving of any number of workers, with
redeliveries, crashes and retries, and with an exact seen-set as well as with the Bloom
filter (`new_urls_nodup`).  The invariant counts, for each URL, the productions that
have happened, the ones that a worker is about to make and the seeds that are still to
be published.
-/

namespace WebCrawler

open Lib

/-- The URL that a call is about to enqueue. -/
def Point.claimed : Point → Option String
  | .enqueuing _ _ l _ => some l.url
  | _ => none

/-- The link that a call checks next. -/
def Point.nextLink : Point → Option Link
  | .linking _ _ (l :: _) => some l
  | _ => none

/-- The URLs that the calls under way are about to enqueue. -/
def claimedUrls (calls : List Call) : List String := calls.filterMap (·.point.claimed)

@[simp] lemma claimedUrls_append (calls calls' : List Call) :
    claimedUrls (calls ++ calls') = claimedUrls calls ++ claimedUrls calls' :=
  List.filterMap_append

@[simp] lemma claimedUrls_cons (call : Call) (calls : List Call) :
    claimedUrls (call :: calls) = call.point.claimed.toList ++ claimedUrls calls := by
  cases h : call.point.claimed with
  | none => simp [claimedUrls, h]
  | some u => simp [claimedUrls, h]

@[simp] lemma claimedUrls_nil : claimedUrls [] = [] := rfl

namespace Fleet

variable {σ : Type} {F : Fleet} {S : SeenSet σ String} {N : Numerals} {s t : FleetState σ}
  {a : FleetAct} {seedUrls : List String}

/-- The link that a step checks. -/
def checkedLink (s : FleetState σ) : FleetAct → Option Link
  | .check i => s.calls[i]?.bind (·.point.nextLink)
  | _ => none

/-- A link to a seed is not new to the seen-set when it is checked. -/
def SeedsKnown (S : SeenSet σ String) (seedUrls : List String) (s : FleetState σ) (a : FleetAct) :
    Prop :=
  ∀ l ∈ checkedLink s a, l.url ∈ seedUrls → (S.checkAndAdd s.seen l.url).1 = false

instance (S : SeenSet σ String) (seedUrls : List String) (s : FleetState σ) (a : FleetAct) :
    Decidable (SeedsKnown S seedUrls s a) :=
  inferInstanceAs (Decidable (∀ l ∈ checkedLink s a, _))

/-- Each URL was produced, is about to be enqueued or is a seed still to be published,
at most once in all; those that are no seeds are in the seen-set. -/
structure Once (S : SeenSet σ String) (seedUrls : List String) (s : FleetState σ) : Prop where
  count_le : ∀ u, (s.roots.map (·.url)).count u + (claimedUrls s.calls).count u +
    (s.seeds.map (·.url)).count u ≤ 1
  marked : ∀ u, u ∉ seedUrls → u ∈ s.roots.map (·.url) ++ claimedUrls s.calls → S.Mem s.seen u
  seeds_subset : s.seeds.map (·.url) ⊆ seedUrls

/-- A step that produces nothing and claims nothing new keeps the invariant. -/
lemma Once.of_claimed (h : Once S seedUrls s) (hroots : t.roots = s.roots)
    (hseeds : t.seeds.Sublist s.seeds) (hseen : ∀ u, S.Mem s.seen u → S.Mem t.seen u)
    (hclaimed : (claimedUrls t.calls).Sublist (claimedUrls s.calls)) : Once S seedUrls t := by
  have hurls := hseeds.map (·.url)
  refine ⟨?_, ?_, List.Subset.trans hurls.subset h.seeds_subset⟩
  · intro u
    rw [hroots]
    have h₁ := h.count_le u
    have h₂ := hclaimed.count_le u
    have h₃ := hurls.count_le u
    omega
  · intro u hu hmem
    rw [hroots] at hmem
    refine hseen u (h.marked u hu ?_)
    rcases List.mem_append.1 hmem with hmem | hmem
    · exact List.mem_append_left _ hmem
    · exact List.mem_append_right _ (hclaimed.subset hmem)

/-- A seed is published. -/
lemma Once.seed (h : Once S seedUrls s) {m : FrontierMessage} {rest : List FrontierMessage}
    (hs : s.seeds = m :: rest) : Once S seedUrls ({ s with seeds := rest }.produce m) := by
  have hseeds := h.seeds_subset
  rw [hs, List.map_cons] at hseeds
  refine ⟨?_, ?_, ?_⟩
  · intro u
    have hcount := h.count_le u
    simp only [hs, List.map_cons, List.count_cons] at hcount
    simp only [FleetState.produce, FleetState.publish, List.map_append, List.map_cons, List.map_nil,
      List.count_append, List.count_singleton]
    omega
  · intro u hu hmem
    refine h.marked u hu ?_
    have hne : u ≠ m.url := fun heq => hu (heq ▸ hseeds (by simp))
    simpa [FleetState.produce, FleetState.publish, hne] using hmem
  · exact List.Subset.trans (List.subset_cons_self _ _) hseeds

/-- A link that is new to the seen-set is claimed by the worker that has checked it. -/
lemma Once.fresh (h : Once S seedUrls s) {pre post : List Call} {ℓ : ℕ} {m : FrontierMessage}
    {r : ProcessResult} {l : Link} {rest : List Link}
    (hs : s.calls = pre ++ ⟨ℓ, .linking m r (l :: rest)⟩ :: post)
    (hnew : (S.checkAndAdd s.seen l.url).1 = true) (hseed : l.url ∉ seedUrls) :
    Once S seedUrls
      { s with
        seen := (S.checkAndAdd s.seen l.url).2
        calls := pre ++ ⟨ℓ, .enqueuing m r l rest⟩ :: post } := by
  -- the URL is not in the seen-set, so that nobody has produced or claimed it
  have hnot : l.url ∉ s.roots.map (·.url) ++ claimedUrls s.calls :=
    fun hmem => (S.fst_iff _ _).1 hnew (h.marked _ hseed hmem)
  have hseeds : l.url ∉ s.seeds.map (·.url) := fun hmem => hseed (h.seeds_subset hmem)
  rw [List.mem_append, not_or] at hnot
  refine ⟨?_, ?_, h.seeds_subset⟩
  · intro u
    have hcount := h.count_le u
    simp only [hs, claimedUrls_append, claimedUrls_cons, Point.claimed, Option.toList,
      List.nil_append, List.count_append, List.count_singleton] at hcount ⊢
    by_cases hul : u = l.url
    · -- all three counts of the new URL are zero before the step
      have h₁ := List.count_eq_zero.2 hnot.1
      have h₂ := List.count_eq_zero.2 hnot.2
      have h₃ := List.count_eq_zero.2 hseeds
      simp only [hs, claimedUrls_append, claimedUrls_cons, Point.claimed, Option.toList,
        List.nil_append, List.count_append] at h₂
      rw [hul]
      simp only [BEq.rfl, if_true]
      omega
    · have hlu : (l.url == u) = false := by simpa using Ne.symm hul
      simp only [hlu, Bool.false_eq_true, if_false]
      omega
  · intro u hu hmem
    by_cases hul : u = l.url
    · exact hul ▸ S.mem_self _ _
    · refine S.mem_mono _ _ _ (h.marked u hu ?_)
      simpa [hs, Point.claimed, hul] using hmem

/-- A claimed link is enqueued. -/
lemma Once.enqueue (h : Once S seedUrls s) {pre post : List Call} {ℓ : ℕ} {m : FrontierMessage}
    {r : ProcessResult} {l : Link} {rest : List Link}
    (hs : s.calls = pre ++ ⟨ℓ, .enqueuing m r l rest⟩ :: post) :
    Once S seedUrls (FleetState.produce { s with calls := pre ++ ⟨ℓ, .linking m r rest⟩ :: post }
      (.fromItem (child m.toItem l))) := by
  have hurl : (FrontierMessage.fromItem (child m.toItem l)).url = l.url := rfl
  refine ⟨?_, ?_, h.seeds_subset⟩
  · intro u
    have hcount := h.count_le u
    simp only [FleetState.produce, FleetState.publish, hs, hurl, claimedUrls_append,
      claimedUrls_cons, Point.claimed, Option.toList, List.nil_append, List.map_append,
      List.map_cons, List.map_nil, List.count_append] at hcount ⊢
    omega
  · intro u hu hmem
    refine h.marked u hu ?_
    simp only [FleetState.produce, FleetState.publish, hs, hurl, claimedUrls_append,
      claimedUrls_cons, Point.claimed, Option.toList, List.nil_append, List.map_append,
      List.map_cons, List.map_nil, List.mem_append] at hmem ⊢
    tauto

/-- A step at which no link to a seed is new keeps the invariant. -/
lemma Once.step (h : Once S seedUrls s) (hknown : SeedsKnown S seedUrls s a)
    (hm : Moves F S N s a t) : Once S seedUrls t := by
  cases hm with
  | seed hs hkey => exact h.seed hs
  | abort hs =>
      exact h.of_claimed rfl (List.nil_sublist _) (fun _ hu => hu) (.refl _)
  | drop hs => exact h.of_claimed rfl (.refl _) (fun _ hu => hu) (.refl _)
  | wait hs hm => exact h.of_claimed rfl (.refl _) (fun _ hu => hu) (by simp [Point.claimed])
  | visit hs hm hd => exact h.of_claimed rfl (.refl _) (fun _ hu => hu) (by simp [Point.claimed])
  | redeliver he => exact h.of_claimed rfl (.refl _) (fun _ hu => hu) (.refl _)
  | commit => exact h.of_claimed rfl (.refl _) (fun _ hu => hu) (.refl _)
  | expand hs hexp =>
      exact h.of_claimed rfl (.refl _) (fun _ hu => hu) (by simp [hs, Point.claimed])
  | known hs =>
      exact h.of_claimed rfl (.refl _) (fun u hu => S.mem_mono _ _ _ hu)
        (by simp [hs, Point.claimed])
  | @fresh pre post ℓ m r l rest hs hnew =>
      refine h.fresh hs hnew ?_
      intro hseed
      have hold := hknown l (by simp [checkedLink, hs, Point.nextLink]) hseed
      exact absurd hnew (by simp [hold])
  | enqueue hs hkey => exact h.enqueue hs
  | fail hs hp => exact h.of_claimed rfl (.refl _) (fun _ hu => hu) (by simp [hs, Point.claimed])
  | retry hs hkey =>
      exact h.of_claimed rfl (.refl _) (fun _ hu => hu)
        (by simp [FleetState.publish, hs, Point.claimed])
  | requeue hs hkey =>
      exact h.of_claimed rfl (.refl _) (fun _ hu => hu)
        (by simp [FleetState.publish, hs, Point.claimed])
  | finish hs => exact h.of_claimed rfl (.refl _) (fun _ hu => hu) (by simp [hs])

/-- **Every URL is enqueued at most once.**  In every run of the fleet on distinct
seeds in which no link to a seed is new to the seen-set when it is checked, the URLs
produced to the frontier, seeds and links, are distinct. -/
theorem new_urls_nodup {seen : σ} {seeds : List FrontierMessage}
    (hseeds : (seeds.map (·.url)).Nodup)
    (h : (F.machine S N seen seeds).ReachableBy (SeedsKnown S (seeds.map (·.url))) s) :
    (s.roots.map (·.url)).Nodup := by
  have hinit : Once S (seeds.map (·.url)) (F.machine S N seen seeds).init := by
    refine ⟨?_, ?_, List.Subset.refl _⟩
    · intro u
      simpa [machine] using List.nodup_iff_count_le_one.1 hseeds u
    · intro u _ hmem
      simp [machine] at hmem
  have hs : Once S (seeds.map (·.url)) s :=
    Machine.ReachableBy.inv hinit (fun _ _ _ ih hknown hst => ih.step hknown (moves_of_step hst)) h
  refine List.nodup_iff_count_le_one.2 ?_
  intro u
  have := hs.count_le u
  omega

/-! ### A link and a cycle -/

/-- MurmurHash3 of `http://a.org/` and of `http://a.org/b`, with the seeds that the
filter uses. -/
def linkMurmur : Murmur := fun key seed =>
  if key = "http://a.org/b" then if seed = 0 then 3083063019 else 916160388
  else if seed = 0 then 3830248346 else 2218902872

/-- An empty filter for one insertion with a false-positive rate of one percent. -/
def smallFilter : BloomFilter where
  m := 10
  k := 7
  bytes := [0, 0]
  m_pos := by decide
  length_bytes := rfl

/-- The page of `http://a.org/` with one link. -/
def pageLinkingTo (url : String) : ProcessResult where
  item := { url := "http://a.org/" }
  fetched := true
  stored := true
  links := [{ url := url }]

/-- With the Bloom filter, a link of a page that is handled twice is enqueued once. -/
theorem new_urls_nodup_redelivery :
    ∃ s, ((({} : Fleet).machine (BloomFilter.seenSet linkMurmur) noNumerals smallFilter
        [{ url := "http://a.org/" }]).ReachableBy
          (SeedsKnown (BloomFilter.seenSet linkMurmur) ["http://a.org/"]) s) ∧
      s.roots.map (·.url) = ["http://a.org/", "http://a.org/b"] ∧
      s.processed = [0, 0] ∧ (s.roots.map (·.url)).Nodup := by
  have h := Machine.reachableBy_of_exec
    (M := ({} : Fleet).machine (BloomFilter.seenSet linkMurmur) noNumerals smallFilter
      [{ url := "http://a.org/" }])
    (P := SeedsKnown (BloomFilter.seenSet linkMurmur) ["http://a.org/"])
    [.seed, .deliver 0, .process 0 (.ok (pageLinkingTo "http://a.org/b")), .redeliver 0,
      .deliver 0, .process 1 (.ok (pageLinkingTo "http://a.org/b")), .check 1, .check 0,
      .enqueue 1] rfl
  exact ⟨_, h, rfl, rfl, new_urls_nodup (by decide) h⟩

/-- **A cycle enqueues a seed again.**  The page of the seed links to itself, and the
seen-set does not know the seed. -/
theorem cycle_enqueues_seed_again :
    ∃ s, ((({} : Fleet).machine (SeenSet.exact String) noNumerals ∅
        [{ url := "http://a.org/" }]).Reachable s) ∧
      s.roots.map (·.url) = ["http://a.org/", "http://a.org/"] ∧
      ¬ (s.roots.map (·.url)).Nodup :=
  ⟨_, Machine.reachableBy_of_exec
    [.seed, .deliver 0, .process 0 (.ok (pageLinkingTo "http://a.org/")), .check 0,
      .enqueue 0] rfl, rfl, by decide⟩

end Fleet

end WebCrawler
