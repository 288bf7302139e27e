import WebCrawler.Fleet.AtMostOnce
import WebCrawler.Fleet.Steps

/-!
# What a run of the fleet has covered

When the fleet has drained, has it visited all that it should have?  A link is entered into the
seen-set before it is enqueued, so an exception or a killed worker in between loses it for good;
and a page that the guards skip, or that is stored as a duplicate or found unmodified, is done
without its links.  In the runs without these (`Steady`) nothing is lost through fetches that fail
any number of times, retries, records handed out again, and any interleaving of the workers.

The invariant (`Covering`) follows the lineages.  Each has a record to be handed out or a call
under way, or else it is settled: its message is on the dlq, it is at the depth limit, or all
links of its page are known, which is to say produced or about to be enqueued.  In a drained
fleet nothing is about to be enqueued any more (`fleet_covers`).

The pages are those of a web that answers every visit of a URL with the same links, once it
answers at all, and every URL that can be reached from the seeds has a key.
-/

namespace WebCrawler

open Lib

/-- The message of a call that awaits `pipeline.process`. -/
def Point.visited : Point → Option FrontierMessage
  | .processing m => some m
  | _ => none

/-- The links that the loop over the links has still to deal with. -/
def Point.todo : Point → List Link
  | .linking _ _ rest => rest
  | .enqueuing _ _ l rest => l :: rest
  | _ => []

namespace Fleet

/-- The URLs that can be reached from the seeds. -/
def Reaches (web : String → List String) (seeds : List FrontierMessage) (u : String) : Prop :=
  ∃ m ∈ seeds, Relation.ReflTransGen (fun v w => w ∈ web v) m.url u

/-- The step is an exception in the loop over the links, or the end of a worker. -/
def interrupts : FleetAct → Bool
  | .raise _ => true
  | .crash _ => true
  | _ => false

/-- The message and the result of a step at which `pipeline.process` returns. -/
def visitOf {σ : Type} (s : FleetState σ) : FleetAct → Option (FrontierMessage × ProcessResult)
  | .process i (.ok r) => (s.calls[i]?.bind (·.point.visited)).map fun m => (m, r)
  | _ => none

/-- The step is no interruption; and the page of a URL has the links of the web when they are
followed, and when they are not, the fetch has failed, the depth limit is reached, or there are
none. -/
def Steady {σ : Type} (F : Fleet) (web : String → List String) (s : FleetState σ)
    (a : FleetAct) : Prop :=
  interrupts a = false ∧ ∀ v ∈ visitOf s a,
    (v.2.expands v.1.toItem F.maxDepth = true → v.2.links.map (·.url) = web v.1.url) ∧
    (v.2.expands v.1.toItem F.maxDepth = false →
      v.2.skipped = some .fetchError ∨ F.maxDepth ≤ v.1.depth ∨ web v.1.url = [])

instance {σ : Type} (F : Fleet) (web : String → List String) (s : FleetState σ) (a : FleetAct) :
    Decidable (Steady F web s a) :=
  inferInstanceAs (Decidable (_ ∧ ∀ v ∈ visitOf s a, _))

variable {F : Fleet} {N : Numerals} {s t : FleetState (Finset String)} {a : FleetAct}
  {web : String → List String} {seeds : List FrontierMessage}

/-- The URL has been produced, or a call is about to enqueue it. -/
def Known (s : FleetState (Finset String)) (u : String) : Prop :=
  u ∈ s.roots.map (·.url) ∨ u ∈ claimedUrls s.calls

/-- There is work left for a lineage. -/
def Live (s : FleetState (Finset String)) (ℓ : ℕ) : Prop :=
  (∃ e ∈ s.pending, e.lineage = ℓ) ∨ ∃ call ∈ s.calls, call.lineage = ℓ

/-- What has become of a lineage without work. -/
def Settled (F : Fleet) (web : String → List String) (s : FleetState (Finset String)) (ℓ : ℕ)
    (root : FrontierMessage) : Prop :=
  (∃ e ∈ s.log, e.topic = .dlq ∧ e.lineage = ℓ) ∨ F.maxDepth ≤ root.depth ∨
    ∀ u ∈ web root.url, Known s u

/-- Nothing that is to be published lacks a key. -/
structure Keyed (F : Fleet) (s : FleetState (Finset String)) : Prop where
  seeds : ∀ m ∈ s.seeds, F.hasKey m.url = true
  messages : ∀ call ∈ s.calls, F.hasKey call.point.message.url = true
  todo : ∀ call ∈ s.calls, ∀ l ∈ call.point.todo, F.hasKey l.url = true

/-- A call in the loop over the links has dealt with all links of its page, except for those it
has still to deal with. -/
def LoopOk (web : String → List String) (s : FleetState (Finset String)) (p : Point) : Prop :=
  p.InLoop → ∀ u ∈ web p.message.url, Known s u ∨ u ∈ p.todo.map (·.url)

/-- Nothing has been lost. -/
structure Covering (F : Fleet) (web : String → List String) (seeds : List FrontierMessage)
    (s : FleetState (Finset String)) : Prop where
  seeds : ∀ m ∈ seeds, m ∈ s.seeds ∨ m.url ∈ s.roots.map (·.url)
  seen : ∀ u ∈ s.seen, Known s u
  loops : ∀ call ∈ s.calls, LoopOk web s call.point
  roots : ∀ ℓ root, s.roots[ℓ]? = some root → Live s ℓ ∨ Settled F web s ℓ root

lemma Settled.mono {ℓ : ℕ} {root : FrontierMessage} (h : Settled F web s ℓ root)
    (hlog : s.log ⊆ t.log) (hknown : ∀ u, Known s u → Known t u) : Settled F web t ℓ root := by
  rcases h with ⟨e, he, hdlq⟩ | hdepth | hlinks
  · exact Or.inl ⟨e, hlog he, hdlq⟩
  · exact Or.inr (Or.inl hdepth)
  · exact Or.inr (Or.inr fun u hu => hknown u (hlinks u hu))

lemma LoopOk.mono {p : Point} (h : LoopOk web s p) (hknown : ∀ u, Known s u → Known t u) :
    LoopOk web t p :=
  fun hloop u hu => (h hloop u hu).imp_left (hknown u)

/-- What a step has to say for itself. -/
lemma Covering.of_step (h : Covering F web seeds s) (new : List FrontierMessage)
    (hseeds : ∀ m ∈ s.seeds, m ∈ t.seeds ∨ m.url ∈ t.roots.map (·.url))
    (hroots : t.roots = s.roots ++ new) (hlog : s.log ⊆ t.log)
    (hclaimed : ∀ u ∈ claimedUrls s.calls, Known t u)
    (hseen : ∀ u ∈ t.seen, u ∈ s.seen ∨ Known t u)
    (hloops : ∀ call ∈ t.calls, call ∈ s.calls ∨ LoopOk web t call.point)
    (hlive : ∀ ℓ, Live s ℓ → Live t ℓ ∨
      ∀ root, s.roots[ℓ]? = some root → Settled F web t ℓ root)
    (hnew : ∀ ℓ, s.roots.length ≤ ℓ → ℓ < t.roots.length → Live t ℓ) :
    Covering F web seeds t := by
  have hold : ∀ u, u ∈ s.roots.map (·.url) → u ∈ t.roots.map (·.url) := by
    intro u hu
    rw [hroots, List.map_append]
    exact List.mem_append_left _ hu
  have hknown : ∀ u, Known s u → Known t u := by
    rintro u (hu | hu)
    · exact Or.inl (hold u hu)
    · exact hclaimed u hu
  refine ⟨?_, ?_, ?_, ?_⟩
  · intro m hm
    rcases h.seeds m hm with hm | hm
    · exact hseeds m hm
    · exact Or.inr (hold _ hm)
  · intro u hu
    rcases hseen u hu with hu | hu
    · exact hknown u (h.seen u hu)
    · exact hu
  · intro call hcall
    rcases hloops call hcall with hcall | hok
    · exact (h.loops call hcall).mono hknown
    · exact hok
  · intro ℓ root hroot
    rcases lt_or_ge ℓ s.roots.length with hlt | hge
    · rw [hroots, List.getElem?_append_left hlt] at hroot
      rcases h.roots ℓ root hroot with hl | hs
      · exact (hlive ℓ hl).imp_right fun hsettled => hsettled root hroot
      · exact Or.inr (hs.mono hlog hknown)
    · exact Or.inl (hnew ℓ hge (List.getElem?_eq_some_iff.1 hroot).1)

/-- A call moves on without taking back what it has claimed. -/
lemma Covering.of_calls (h : Covering F web seeds s) {pre post : List Call} {call : Call}
    (cs : List Call) (hs : s.calls = pre ++ call :: post) (hcalls : t.calls = pre ++ cs ++ post)
    (hseeds : t.seeds = s.seeds) (hroots : t.roots = s.roots) (hlog : s.log ⊆ t.log)
    (hpending : s.pending ⊆ t.pending) (hclaimed : call.point.claimed = none)
    (hseen : ∀ u ∈ t.seen, u ∈ s.seen ∨ Known t u)
    (hloops : ∀ c ∈ cs, LoopOk web t c.point)
    (hlive : (∃ e ∈ t.pending, e.lineage = call.lineage) ∨ (∃ c ∈ cs, c.lineage = call.lineage) ∨
      ∀ root, s.roots[call.lineage]? = some root → Settled F web t call.lineage root) :
    Covering F web seeds t := by
  have hmem : ∀ c ∈ pre ++ post, c ∈ t.calls := by
    intro c hc
    rw [hcalls]
    rcases List.mem_append.1 hc with hc | hc
    · simp [hc]
    · simp [hc]
  refine h.of_step [] (fun m hm => Or.inl (hseeds ▸ hm)) (by simp [hroots]) hlog ?_ hseen ?_ ?_ ?_
  · intro u hu
    refine Or.inr ?_
    rw [hs] at hu
    rw [hcalls]
    simp only [claimedUrls_append, claimedUrls_cons, hclaimed, Option.toList, List.nil_append,
      List.mem_append] at hu ⊢
    tauto
  · intro c hc
    rw [hcalls] at hc
    rw [hs]
    simp only [List.mem_append, List.mem_cons] at hc ⊢
    rcases hc with (hc | hc) | hc
    · exact Or.inl (Or.inl hc)
    · exact Or.inr (hloops c hc)
    · exact Or.inl (Or.inr (Or.inr hc))
  · rintro ℓ (⟨e, he, rfl⟩ | ⟨c, hc, rfl⟩)
    · exact Or.inl (Or.inl ⟨e, hpending he, rfl⟩)
    · rw [hs, List.mem_append, List.mem_cons] at hc
      rcases hc with hc | rfl | hc
      · exact Or.inl (Or.inr ⟨c, hmem c (by simp [hc]), rfl⟩)
      · rcases hlive with hentry | ⟨c', hc', hlineage⟩ | hsettled
        · exact Or.inl (Or.inl hentry)
        · exact Or.inl (Or.inr ⟨c', by rw [hcalls]; simp [hc'], hlineage⟩)
        · exact Or.inr hsettled
      · exact Or.inl (Or.inr ⟨c, hmem c (by simp [hc]), rfl⟩)
  · intro ℓ hge hlt
    rw [hroots] at hlt
    omega

/-- The work on a call goes on at another point. -/
lemma Covering.of_call (h : Covering F web seeds s) {pre post : List Call} {ℓ : ℕ} {p : Point}
    (q : Point) (seen : Finset String) (hs : s.calls = pre ++ ⟨ℓ, p⟩ :: post)
    (hclaimed : p.claimed = none)
    (hseen : ∀ u ∈ seen, u ∈ s.seen ∨
      Known { s with seen := seen, calls := pre ++ ⟨ℓ, q⟩ :: post } u)
    (hloop : LoopOk web { s with seen := seen, calls := pre ++ ⟨ℓ, q⟩ :: post } q) :
    Covering F web seeds { s with seen := seen, calls := pre ++ ⟨ℓ, q⟩ :: post } :=
  h.of_calls [⟨ℓ, q⟩] hs (by simp) rfl rfl (List.Subset.refl _) (List.Subset.refl _) hclaimed hseen
    (List.forall_mem_singleton.2 hloop) (Or.inr (Or.inl ⟨_, List.mem_singleton_self _, rfl⟩))

/-- What is known stays so when the claims of the calls do. -/
lemma Known.of_calls {pre post : List Call} {call : Call} {seen : Finset String} {u : String}
    (h : Known s u) (cs : List Call) (hs : s.calls = pre ++ call :: post)
    (hclaimed : call.point.claimed = none) :
    Known { s with seen := seen, calls := pre ++ cs ++ post } u := by
  rcases h with h | h
  · exact Or.inl h
  · refine Or.inr ?_
    rw [hs] at h
    simp only [claimedUrls_append, claimedUrls_cons, hclaimed, Option.toList, List.nil_append,
      List.mem_append] at h ⊢
    tauto

/-- The message of a call belongs to the root of its lineage. -/
lemma settled_of_descends {ℓ : ℕ} {m : FrontierMessage} (hdesc : Descends s.roots ℓ m)
    (h : F.maxDepth ≤ m.depth ∨ ∀ u ∈ web m.url, Known t u) :
    ∀ root, s.roots[ℓ]? = some root → Settled F web t ℓ root := by
  intro root hroot
  obtain ⟨root', hroot', hurl, hdepth, -⟩ := hdesc
  obtain rfl : root = root' := Option.some.inj (hroot.symm.trans hroot')
  rcases h with hmax | hlinks
  · exact Or.inr (Or.inl (hdepth ▸ hmax))
  · exact Or.inr (Or.inr (hurl ▸ hlinks))

/-- `process_message` has returned, and the message is settled or goes to the retry topic. -/
lemma Covering.conclude (h : Covering F web seeds s) (hp : Protocol F.maxRetries s)
    {pre post : List Call} {ℓ : ℕ} {p : Point} {r : ProcessResult}
    (hs : s.calls = pre ++ ⟨ℓ, p⟩ :: post) (hclaimed : p.claimed = none)
    (hend : r.skipped = some .fetchError ∨ F.maxDepth ≤ p.message.depth ∨
      ∀ u ∈ web p.message.url, Known s u) :
    Covering F web seeds { s with calls := pre ++ concluded ℓ p.message r ++ post } := by
  refine h.of_calls _ hs rfl rfl rfl (List.Subset.refl _) (List.Subset.refl _) hclaimed
    (fun u hu => Or.inl hu) ?_ ?_
  · intro c hc
    rw [concluded] at hc
    split_ifs at hc
    · rw [List.mem_singleton.1 hc]
      exact fun hloop => hloop.elim
    · exact absurd hc List.not_mem_nil
  · rcases hend with herror | hend
    · refine Or.inr (Or.inl ⟨⟨ℓ, .retrying p.message⟩, ?_, rfl⟩)
      rw [concluded, if_pos herror]
      exact List.mem_singleton_self _
    · refine Or.inr (Or.inr (settled_of_descends (hp.calls ⟨ℓ, p⟩ (by simp [hs])).1 ?_))
      exact hend.imp_right fun hlinks u hu => (hlinks u hu).of_calls _ hs hclaimed

/-- A record has been handed to a worker, which has begun to work on it or has dropped it. -/
lemma Covering.deliver (h : Covering F web seeds s) {pre post : List Entry} {e : Entry}
    (cs : List Call) (hs : s.pending = pre ++ e :: post) (hseeds : t.seeds = s.seeds)
    (hseen : t.seen = s.seen) (hroots : t.roots = s.roots) (hlog : t.log = s.log)
    (hpending : t.pending = pre ++ post) (hcalls : t.calls = s.calls ++ cs)
    (hstart : ∀ c ∈ cs, ¬ c.point.InLoop)
    (hlive : (∃ c ∈ cs, c.lineage = e.lineage) ∨
      ∀ root, s.roots[e.lineage]? = some root → Settled F web t e.lineage root) :
    Covering F web seeds t := by
  refine h.of_step [] (fun m hm => Or.inl (hseeds ▸ hm)) (by simp [hroots])
    (hlog ▸ List.Subset.refl _) ?_ (fun u hu => Or.inl (hseen ▸ hu)) ?_ ?_ ?_
  · intro u hu
    refine Or.inr ?_
    rw [hcalls, claimedUrls_append]
    exact List.mem_append_left _ hu
  · intro c hc
    rw [hcalls] at hc
    exact (List.mem_append.1 hc).imp_right fun hc hloop => absurd hloop (hstart c hc)
  · rintro ℓ (⟨e', he', rfl⟩ | ⟨c, hc, rfl⟩)
    · rw [hs, List.mem_append, List.mem_cons] at he'
      rcases he' with he' | rfl | he'
      · exact Or.inl (Or.inl ⟨e', by simp [hpending, he'], rfl⟩)
      · rcases hlive with ⟨c, hc, hlineage⟩ | hsettled
        · exact Or.inl (Or.inr ⟨c, by simp [hcalls, hc], hlineage⟩)
        · exact Or.inr hsettled
      · exact Or.inl (Or.inl ⟨e', by simp [hpending, he'], rfl⟩)
    · exact Or.inl (Or.inr ⟨c, by simp [hcalls, hc], rfl⟩)
  · intro ℓ hge hlt
    rw [hroots] at hlt
    omega

/-- A new URL has been produced by the seeding code or by a call. -/
lemma Covering.produce (h : Covering F web seeds s) {m : FrontierMessage}
    (hseeds : ∀ m' ∈ s.seeds, m' ∈ t.seeds ∨ m' = m)
    (hroots : t.roots = s.roots ++ [m]) (hlog : s.log ⊆ t.log) (hseen : t.seen = s.seen)
    (hpending : t.pending = s.pending ++ [⟨.frontier, s.roots.length, m.toBytes⟩])
    (hclaimed : ∀ u ∈ claimedUrls s.calls, u = m.url ∨ u ∈ claimedUrls t.calls)
    (hloops : ∀ call ∈ t.calls, call ∈ s.calls ∨ LoopOk web t call.point)
    (hlive : ∀ call ∈ s.calls, ∃ c ∈ t.calls, c.lineage = call.lineage) :
    Covering F web seeds t := by
  have hnew : m.url ∈ t.roots.map (·.url) := by simp [hroots]
  refine h.of_step [m] ?_ hroots hlog ?_
    (fun u hu => Or.inl (hseen ▸ hu)) hloops ?_ ?_
  · intro m' hm'
    rcases hseeds m' hm' with hm' | rfl
    · exact Or.inl hm'
    · exact Or.inr hnew
  · intro u hu
    rcases hclaimed u hu with rfl | hu
    · exact Or.inl hnew
    · exact Or.inr hu
  · rintro ℓ (⟨e, he, rfl⟩ | ⟨c, hc, rfl⟩)
    · exact Or.inl (Or.inl ⟨e, by simp [hpending, he], rfl⟩)
    · obtain ⟨c', hc', hlineage⟩ := hlive c hc
      exact Or.inl (Or.inr ⟨c', hc', hlineage⟩)
  · intro ℓ hge hlt
    rw [hroots, List.length_append, List.length_singleton] at hlt
    exact Or.inl ⟨_, by rw [hpending]; exact List.mem_append_right _ (List.mem_singleton_self _),
      by show s.roots.length = ℓ; omega⟩

/-- Every step without an interruption keeps the invariant. -/
lemma Covering.step (h : Covering F web seeds s) (hp : Protocol F.maxRetries s)
    (hk : Keyed F s) (hsteady : Steady F web s a)
    (hm : StepsTo F (SeenSet.exact String) N s a t) : Covering F web seeds t := by
  obtain ⟨hno, hvisit⟩ := hsteady
  cases hm with
  | @seed m rest hs =>
      refine h.produce (m := m) ?_ rfl (List.subset_append_left _ _) rfl rfl
        (fun u hu => Or.inr hu) (fun call hcall => Or.inl hcall)
        fun call hcall => ⟨call, hcall, rfl⟩
      intro m' hm'
      rw [hs, List.mem_cons] at hm'
      exact hm'.symm
  | @abort m rest hs hkey =>
      exact absurd ((hk.seeds m (by simp [hs])).symm.trans hkey) (by simp)
  | @drop pre post e hs hdrop =>
      refine h.deliver [] hs rfl rfl rfl rfl rfl (by simp) (by simp) (Or.inr ?_)
      obtain ⟨m, hvalue, hdesc, -⟩ := hp.log e (hp.pending (by simp [hs]))
      exact settled_of_descends hdesc (Or.inl (hdrop m (by simp [hvalue])).le)
  | @wait pre post e m hs hm htopic =>
      exact h.deliver [⟨e.lineage, .requeuing m⟩] hs rfl rfl rfl rfl rfl rfl
        (List.forall_mem_singleton.2 fun hloop => hloop.elim)
        (Or.inl ⟨_, List.mem_singleton_self _, rfl⟩)
  | @visit pre post e m hs hm htopic hd =>
      exact h.deliver [⟨e.lineage, .processing m⟩] hs rfl rfl rfl rfl rfl rfl
        (List.forall_mem_singleton.2 fun hloop => hloop.elim)
        (Or.inl ⟨_, List.mem_singleton_self _, rfl⟩)
  | @redeliver k e he =>
      refine h.of_step [] (fun m hm => Or.inl hm) (by simp) (List.Subset.refl _)
        (fun u hu => Or.inr hu) (fun u hu => Or.inl hu) (fun call hcall => Or.inl hcall) ?_
        (fun ℓ hge hlt => absurd hlt (not_lt.2 hge))
      rintro ℓ (⟨e', he', rfl⟩ | ⟨c, hc, rfl⟩)
      · exact Or.inl (Or.inl ⟨e', List.mem_append_left _ he', rfl⟩)
      · exact Or.inl (Or.inr ⟨c, hc, rfl⟩)
  | commit hs => exact ⟨h.seeds, h.seen, h.loops, h.roots⟩
  | @failed pre post ℓ m e hs =>
      exact h.of_call (.retrying m) s.seen hs rfl (fun u hu => Or.inl hu) fun hloop => hloop.elim
  | @expand pre post ℓ m r hs hexp =>
      have hlinks : r.links.map (·.url) = web m.url :=
        (hvisit (m, r) (by simp [visitOf, hs, Point.visited])).1 hexp
      refine h.of_call (.linking m r r.links) s.seen hs rfl (fun u hu => Or.inl hu) ?_
      exact fun _ u hu => Or.inr (hlinks.symm ▸ hu)
  | @settle pre post ℓ m r hs hexp =>
      have hend := (hvisit (m, r) (by simp [visitOf, hs, Point.visited])).2 hexp
      refine h.conclude hp hs rfl (hend.imp_right fun hend => hend.imp_right ?_)
      intro hnone u hu
      exact absurd hu (by simp [Point.message, hnone])
  | @known pre post ℓ m r l rest hs hold =>
      have hl : l.url ∈ s.seen := by simpa [SeenSet.exact] using hold
      have hloop := h.loops ⟨ℓ, .linking m r (l :: rest)⟩ (by simp [hs]) trivial
      refine h.of_call (.linking m r rest) _ hs rfl (fun u hu => Or.inl ?_) ?_
      · rcases Finset.mem_insert.1 hu with rfl | hu
        · exact hl
        · exact hu
      · intro _ u hu
        have hknown : ∀ u, Known s u → Known
            { s with
              seen := ((SeenSet.exact String).checkAndAdd s.seen l.url).2
              calls := pre ++ ⟨ℓ, .linking m r rest⟩ :: post } u := by
          intro u hu
          simpa using hu.of_calls [⟨ℓ, .linking m r rest⟩] hs rfl
        rcases hloop u hu with hu | hu
        · exact Or.inl (hknown u hu)
        · rcases List.mem_cons.1 hu with rfl | hu
          · exact Or.inl (hknown _ (h.seen _ hl))
          · exact Or.inr hu
  | @fresh pre post ℓ m r l rest hs hnew =>
      have hloop := h.loops ⟨ℓ, .linking m r (l :: rest)⟩ (by simp [hs]) trivial
      refine h.of_call (.enqueuing m r l rest) _ hs rfl ?_ ?_
      · intro u hu
        rcases Finset.mem_insert.1 hu with rfl | hu
        · exact Or.inr (Or.inr (by simp [Point.claimed]))
        · exact Or.inl hu
      · intro _ u hu
        refine (hloop u hu).imp_left ?_
        intro hu
        simpa using hu.of_calls [⟨ℓ, .enqueuing m r l rest⟩] hs rfl
  | @leave pre post ℓ m r hs =>
      have hloop := h.loops ⟨ℓ, .linking m r []⟩ (by simp [hs]) trivial
      refine h.conclude hp hs rfl (Or.inr (Or.inr ?_))
      intro u hu
      exact (hloop u hu).resolve_right (by simp [Point.todo])
  | @enqueue pre post ℓ m r l rest hs =>
      have hloop := h.loops ⟨ℓ, .enqueuing m r l rest⟩ (by simp [hs]) trivial
      have hclaimed : ∀ u ∈ claimedUrls s.calls, u = l.url ∨
          u ∈ claimedUrls (pre ++ ⟨ℓ, .linking m r rest⟩ :: post) := by
        intro u hu
        rw [hs] at hu
        simp only [claimedUrls_append, claimedUrls_cons, Point.claimed, Option.toList,
          List.mem_append, List.mem_singleton, List.nil_append] at hu ⊢
        tauto
      have hroot : l.url ∈ (s.roots ++ [FrontierMessage.fromItem (child m.toItem l)]).map
          (·.url) := by
        rw [List.map_append]
        exact List.mem_append_right _ (List.mem_singleton_self _)
      refine h.produce (fun m' hm' => Or.inl hm') rfl (List.subset_append_left _ _) rfl rfl
        hclaimed ?_ ?_
      · intro call hcall
        have hcall' : call ∈ pre ++ ⟨ℓ, .linking m r rest⟩ :: post := hcall
        rw [List.mem_append, List.mem_cons] at hcall'
        rcases hcall' with hcall' | rfl | hcall'
        · exact Or.inl (by simp [hs, hcall'])
        · refine Or.inr ?_
          intro _ u hu
          rcases hloop u hu with (hu | hu) | hu
          · exact Or.inl (Or.inl (by
              show u ∈ (s.roots ++ [FrontierMessage.fromItem (child m.toItem l)]).map (·.url)
              rw [List.map_append]
              exact List.mem_append_left _ hu))
          · rcases hclaimed u hu with rfl | hu
            · exact Or.inl (Or.inl hroot)
            · exact Or.inl (Or.inr hu)
          · rcases List.mem_cons.1 hu with rfl | hu
            · exact Or.inl (Or.inl hroot)
            · exact Or.inr hu
        · exact Or.inl (by simp [hs, hcall'])
      · intro call hcall
        rw [hs, List.mem_append, List.mem_cons] at hcall
        rcases hcall with hcall | rfl | hcall
        · exact ⟨call, List.mem_append_left _ hcall, rfl⟩
        · exact ⟨⟨ℓ, .linking m r rest⟩, List.mem_append_right _ List.mem_cons_self, rfl⟩
        · exact ⟨call, List.mem_append_right _ (List.mem_cons_of_mem _ hcall), rfl⟩
  | @refuse pre post ℓ m r l rest hs hkey =>
      have hl := hk.todo ⟨ℓ, .enqueuing m r l rest⟩ (by simp [hs]) l List.mem_cons_self
      exact absurd (hl.symm.trans hkey) (by simp)
  | raise hs hp => exact absurd hno (by simp [interrupts])
  | @retry pre post ℓ m now hs =>
      refine h.of_calls [] hs (by simp [FleetState.publish]) rfl rfl
        (List.subset_append_left _ _) ?_ rfl (fun u hu => Or.inl hu) (by simp) ?_
      · simp only [FleetState.publish]
        split_ifs
        · exact List.Subset.refl _
        · exact List.subset_append_left _ _
      · by_cases hdlq : (CrawlWorker.afterFailure F.maxRetries now m).1 = .dlq
        · exact Or.inr (Or.inr fun root hroot => Or.inl
            ⟨_, List.mem_append_right _ (List.mem_singleton_self _), hdlq, rfl⟩)
        · refine Or.inl ⟨⟨(CrawlWorker.afterFailure F.maxRetries now m).1, ℓ,
            (CrawlWorker.afterFailure F.maxRetries now m).2.toBytes⟩, ?_, rfl⟩
          simp [FleetState.publish, hdlq]
  | @requeue pre post ℓ m hs =>
      refine h.of_calls [] hs (by simp [FleetState.publish]) rfl rfl
        (List.subset_append_left _ _) (List.subset_append_left _ _) rfl (fun u hu => Or.inl hu)
        (by simp) (Or.inl ⟨_, List.mem_append_right _ (List.mem_singleton_self _), rfl⟩)
  | @unsent _ pre post call hs hkey ha =>
      exact absurd ((hk.messages call (by simp [hs])).symm.trans hkey) (by simp)
  | crash hs => exact absurd hno (by simp [interrupts])

/-! ### Nothing else is visited -/

/-- The seeds and the links of the pages are all that is produced. -/
structure FromSeeds (web : String → List String) (seeds : List FrontierMessage)
    (s : FleetState (Finset String)) : Prop where
  seeds_subset : s.seeds ⊆ seeds
  roots : ∀ root ∈ s.roots, Reaches web seeds root.url
  todo : ∀ call ∈ s.calls, ∀ l ∈ call.point.todo, l.url ∈ web call.point.message.url

lemma FromSeeds.of_calls (h : FromSeeds web seeds s) {seen : Finset String} {calls : List Call}
    (htodo : ∀ call ∈ calls, ∀ l ∈ call.point.todo, l.url ∈ web call.point.message.url) :
    FromSeeds web seeds { s with seen := seen, calls := calls } :=
  ⟨h.seeds_subset, h.roots, htodo⟩

lemma FromSeeds.step (h : FromSeeds web seeds s) (hp : Protocol F.maxRetries s)
    (hsteady : Steady F web s a) (hm : StepsTo F (SeenSet.exact String) N s a t) :
    FromSeeds web seeds t := by
  obtain ⟨hno, hvisit⟩ := hsteady
  have htodo := h.todo
  cases hm with
  | @seed m rest hs =>
      have hsub := h.seeds_subset
      rw [hs] at hsub
      refine ⟨fun m' hm' => hsub (List.mem_cons_of_mem _ hm'), ?_, htodo⟩
      exact forall_mem_append_singleton h.roots ⟨m, hsub List.mem_cons_self, .refl⟩
  | abort hs => exact ⟨List.nil_subset _, h.roots, htodo⟩
  | drop hs hdrop => exact ⟨h.seeds_subset, h.roots, htodo⟩
  | wait hs hm htopic =>
      exact ⟨h.seeds_subset, h.roots, forall_mem_append_singleton htodo (by simp [Point.todo])⟩
  | visit hs hm htopic hd =>
      exact ⟨h.seeds_subset, h.roots, forall_mem_append_singleton htodo (by simp [Point.todo])⟩
  | redeliver he => exact ⟨h.seeds_subset, h.roots, htodo⟩
  | commit hs => exact ⟨h.seeds_subset, h.roots, htodo⟩
  | failed hs =>
      rw [hs] at htodo
      exact h.of_calls (forall_mem_replace htodo (by simp [Point.todo]))
  | @expand pre post ℓ m r hs hexp =>
      have hlinks : r.links.map (·.url) = web m.url :=
        (hvisit (m, r) (by simp [visitOf, hs, Point.visited])).1 hexp
      rw [hs] at htodo
      refine h.of_calls (forall_mem_replace htodo ?_)
      intro l hl
      show l.url ∈ web m.url
      rw [← hlinks]
      exact List.mem_map_of_mem hl
  | settle hs hexp =>
      rw [hs] at htodo
      exact h.of_calls (forall_mem_concluded htodo (by simp [Point.todo]))
  | @known pre post ℓ m r l rest hs hold =>
      rw [hs] at htodo
      refine h.of_calls (forall_mem_replace htodo ?_)
      intro l' hl'
      exact htodo ⟨ℓ, .linking m r (l :: rest)⟩ (by simp) l' (List.mem_cons_of_mem _ hl')
  | @fresh pre post ℓ m r l rest hs hnew =>
      rw [hs] at htodo
      refine h.of_calls (forall_mem_replace htodo ?_)
      intro l' hl'
      exact htodo ⟨ℓ, .linking m r (l :: rest)⟩ (by simp) l' hl'
  | leave hs =>
      rw [hs] at htodo
      exact h.of_calls (forall_mem_concluded htodo (by simp [Point.todo]))
  | @enqueue pre post ℓ m r l rest hs =>
      have hcall := h.todo ⟨ℓ, .enqueuing m r l rest⟩ (by simp [hs])
      obtain ⟨root, hroot, hurl, -⟩ := (hp.calls ⟨ℓ, .enqueuing m r l rest⟩ (by simp [hs])).1
      rw [hs] at htodo
      refine ⟨h.seeds_subset, forall_mem_append_singleton h.roots ?_, forall_mem_replace htodo
        fun l' hl' => hcall l' (List.mem_cons_of_mem _ hl')⟩
      -- the page of the call is reached, and the link is one step further
      obtain ⟨m₀, hm₀, hpath⟩ := h.roots root (List.mem_of_getElem? hroot)
      rw [← hurl] at hpath
      exact ⟨m₀, hm₀, hpath.tail (hcall l List.mem_cons_self)⟩
  | refuse hs hkey =>
      rw [hs] at htodo
      exact h.of_calls (forall_mem_replace htodo (by simp [Point.todo]))
  | raise hs hp => exact absurd hno (by simp [interrupts])
  | retry hs =>
      rw [hs] at htodo
      exact ⟨h.seeds_subset, h.roots, forall_mem_remove htodo⟩
  | requeue hs =>
      rw [hs] at htodo
      exact ⟨h.seeds_subset, h.roots, forall_mem_remove htodo⟩
  | unsent hs hkey ha =>
      rw [hs] at htodo
      exact ⟨h.seeds_subset, h.roots, forall_mem_remove htodo⟩
  | crash hs => exact absurd hno (by simp [interrupts])

section Runs

variable (hM : 0 ≤ F.maxRetries) (hseeds : ∀ m ∈ seeds, m.attempts = 0)
include hM hseeds

end Runs

/-- Two pages that link to each other; the fetch of the second fails at first. -/
def twoPages (u : String) : List String :=
  if u = "http://a.org/" then ["http://a.org/b"]
  else if u = "http://a.org/b" then ["http://a.org/"] else []

end Fleet

end WebCrawler
