import WebCrawler.Lib.Machine
import Mathlib.Data.List.AList

/-!
# The loop of the workers over batches

`CrawlWorker.run` of `crawler/worker.py` fetches a batch of records, handles them concurrently,
waits for all of them and commits.  The commit names no offsets, so that it commits the positions
of the worker on the partitions it owns at that moment, which may not be the ones it owned when it
fetched the batch: the consumer group may give a partition to another worker at any time, also in
the middle of a batch.  A partition that is given to a worker is read from its committed offset
on, and from the start if there is none (`auto_offset_reset`).

So a committed offset may belong to records of an earlier owner, and records may be handled
several times.  But the position of a worker is ahead of the committed offset only by records of
its batch (`Covered`), and hence no offset is ever committed before all records below it were
handled to their end (`at_least_once`).
-/

namespace WebCrawler

open Lib

/-- A record: its partition and its offset. -/
abbrev RecordId (π : Type) : Type := π × ℕ

/-- Where the loop of a worker stands. -/
inductive LoopPhase
  /-- Before `consumer.getmany`. -/
  | fetching
  /-- In `asyncio.gather`, with a batch. -/
  | gathering
  /-- The loop has ended, by an exception or because the worker was killed. -/
  | stopped
deriving DecidableEq, Repr

/-- The partitions of the two topics and the workers of the group, which are numbers. -/
structure GroupState (π : Type) where
  /-- The number of records on a partition. -/
  logEnd : π → ℕ := fun _ => 0
  /-- The committed offset of a partition. -/
  committed : π → ℕ := fun _ => 0
  /-- The worker that reads a partition. -/
  owner : π → Option ℕ := fun _ => none
  /-- The offset of the record that the owner of a partition fetches next. -/
  position : π → ℕ := fun _ => 0
  phase : ℕ → LoopPhase := fun _ => .fetching
  /-- The records that a worker has fetched and whose `_handle` has not returned yet. -/
  handling : ℕ → List (RecordId π) := fun _ => []
  /-- The records whose `_handle` has returned, in order. -/
  handled : List (RecordId π) := []

/-- The steps of the broker, the group and the workers. -/
inductive GroupAct (π : Type)
  /-- The broker accepts a record. -/
  | accept (p : π)
  /-- The group gives a partition to a worker, or takes it away. -/
  | assign (p : π) (w : Option ℕ)
  /-- `consumer.getmany`, with the number of records from each partition. -/
  | getmany (w : ℕ) (counts : AList fun _ : π => ℕ)
  /-- `_handle` returns from a record. -/
  | handle (w : ℕ) (k : ℕ)
  /-- `consumer.commit`, when all tasks of the batch have returned. -/
  | commit (w : ℕ)
  /-- The loop of a worker ends. -/
  | stop (w : ℕ)

namespace GroupState

variable {π : Type} [DecidableEq π] (maxRecords : ℕ)

/-- The records that a call of `getmany` returns. -/
def batch (s : GroupState π) (counts : AList fun _ : π => ℕ) : List (RecordId π) :=
  counts.entries.flatMap fun c => (List.range c.2).map fun i => (c.1, s.position c.1 + i)

/-- A call of `getmany` may return so many records from each partition. -/
def MayFetch (s : GroupState π) (w : ℕ) (counts : AList fun _ : π => ℕ) : Prop :=
  (∀ c ∈ counts.entries, s.owner c.1 = some w ∧ s.position c.1 + c.2 ≤ s.logEnd c.1) ∧
    (counts.entries.map (·.2)).sum ≤ maxRecords

instance (s : GroupState π) (w : ℕ) (counts : AList fun _ : π => ℕ) :
    Decidable (s.MayFetch maxRecords w counts) :=
  inferInstanceAs (Decidable (_ ∧ _))

/-- One step. -/
def step (s : GroupState π) : GroupAct π → Option (GroupState π)
  | .accept p => some { s with logEnd := Function.update s.logEnd p (s.logEnd p + 1) }
  | .assign p w => some { s with
      owner := Function.update s.owner p w
      position := Function.update s.position p (s.committed p) }
  | .getmany w counts =>
      if s.phase w = .fetching ∧ s.MayFetch maxRecords w counts then
        -- without tasks the loop goes on to the next call
        some { s with
          position := fun p => s.position p + (counts.lookup p).getD 0
          phase := Function.update s.phase w
            (if s.batch counts = [] then .fetching else .gathering)
          handling := Function.update s.handling w (s.batch counts) }
      else none
  | .handle w k => (s.handling w)[k]?.map fun r => { s with
      handling := Function.update s.handling w ((s.handling w).eraseIdx k)
      handled := s.handled ++ [r] }
  | .commit w =>
      if s.phase w = .gathering ∧ s.handling w = [] then
        some { s with
          committed := fun p => if s.owner p = some w then s.position p else s.committed p
          phase := Function.update s.phase w .fetching }
      else none
  | .stop w => some { s with
      owner := fun p => if s.owner p = some w then none else s.owner p
      phase := Function.update s.phase w .stopped }

/-- A group on empty partitions. -/
def machine (π : Type) [DecidableEq π] (maxRecords : ℕ) :
    Machine (GroupState π) (GroupAct π) where
  init := {}
  step := step maxRecords

variable {maxRecords} {s t : GroupState π} {a : GroupAct π}

/-! ### One batch -/

lemma mem_batch {counts : AList fun _ : π => ℕ} {p : π} {o : ℕ} :
    (p, o) ∈ s.batch counts ↔ s.position p ≤ o ∧ o < s.position p + (counts.lookup p).getD 0 := by
  simp only [batch, List.mem_flatMap, List.mem_map, List.mem_range, Prod.mk.injEq]
  constructor
  · rintro ⟨⟨q, k⟩, hc, i, hi, rfl, rfl⟩
    rw [AList.mem_lookup_iff.2 hc, Option.getD_some]
    exact ⟨Nat.le_add_right _ _, Nat.add_lt_add_left hi _⟩
  · rintro ⟨hle, hlt⟩
    cases hlook : counts.lookup p with
    | none =>
        rw [hlook, Option.getD_none] at hlt
        omega
    | some k =>
        rw [hlook, Option.getD_some] at hlt
        refine ⟨⟨p, k⟩, AList.mem_lookup_iff.1 hlook, o - s.position p, ?_, rfl, ?_⟩
        · show o - s.position p < k
          omega
        · show s.position p + (o - s.position p) = o
          omega

/-- Without records no position has moved. -/
lemma lookup_of_batch_eq_nil {counts : AList fun _ : π => ℕ} (h : s.batch counts = []) (p : π) :
    (counts.lookup p).getD 0 = 0 := by
  by_contra hne
  have hmem : (p, s.position p) ∈ s.batch counts := mem_batch.2 ⟨le_rfl, by omega⟩
  simp [h] at hmem

lemma MayFetch.lookup_le {w : ℕ} {counts : AList fun _ : π => ℕ}
    (h : s.MayFetch maxRecords w counts) (p : π) : (counts.lookup p).getD 0 ≤ maxRecords := by
  cases hlook : counts.lookup p with
  | none => exact Nat.zero_le _
  | some k =>
      have hmem := AList.mem_lookup_iff.1 hlook
      exact (List.single_le_sum (by simp) _ (List.mem_map_of_mem (f := (·.2)) hmem)).trans h.2

/-- Only the partitions of the worker are read. -/
lemma MayFetch.lookup_eq {w : ℕ} {counts : AList fun _ : π => ℕ}
    (h : s.MayFetch maxRecords w counts) {p : π} (hp : s.owner p ≠ some w) :
    (counts.lookup p).getD 0 = 0 := by
  cases hlook : counts.lookup p with
  | none => rfl
  | some k => exact absurd (h.1 _ (AList.mem_lookup_iff.1 hlook)).1 hp

lemma MayFetch.le_logEnd {w : ℕ} {counts : AList fun _ : π => ℕ}
    (h : s.MayFetch maxRecords w counts) {p : π} (hp : s.position p ≤ s.logEnd p) :
    s.position p + (counts.lookup p).getD 0 ≤ s.logEnd p := by
  cases hlook : counts.lookup p with
  | none => exact hp
  | some k => exact (h.1 _ (AList.mem_lookup_iff.1 hlook)).2

/-! ### What the committed offsets stand for -/

/-- The position of a worker on a partition that it owns. -/
structure Owned (maxRecords : ℕ) (s : GroupState π) (p : π) (w : ℕ) : Prop where
  committed_le : s.committed p ≤ s.position p
  le_logEnd : s.position p ≤ s.logEnd p
  /-- What is not committed is in the batch or was handled. -/
  batch : ∀ o, s.committed p ≤ o → o < s.position p → (p, o) ∈ s.handling w ∨ (p, o) ∈ s.handled
  /-- There is no batch yet. -/
  fetching : s.phase w = .fetching → s.position p = s.committed p
  le_add : s.position p ≤ s.committed p + maxRecords

/-- The records below the committed offsets were handled, and the positions are ahead of them
only by a batch. -/
structure Covered (maxRecords : ℕ) (s : GroupState π) : Prop where
  handled : ∀ p o, o < s.committed p → (p, o) ∈ s.handled
  le_logEnd : ∀ p, s.committed p ≤ s.logEnd p
  owned : ∀ p w, s.owner p = some w → Owned maxRecords s p w

omit [DecidableEq π] in
/-- What a step leaves alone for the owner of a partition. -/
lemma Owned.of_eq {p : π} {w : ℕ} (h : Owned maxRecords s p w)
    (hcommitted : t.committed p = s.committed p) (hposition : t.position p = s.position p)
    (hlogEnd : s.logEnd p ≤ t.logEnd p)
    (hhandling : ∀ r ∈ s.handling w, r ∈ t.handling w ∨ r ∈ t.handled)
    (hhandled : s.handled ⊆ t.handled) (hphase : t.phase w = .fetching → s.phase w = .fetching) :
    Owned maxRecords t p w := by
  refine ⟨?_, ?_, fun o hle hlt => ?_, fun hfetching => ?_, ?_⟩
  · rw [hcommitted, hposition]
    exact h.committed_le
  · rw [hposition]
    exact h.le_logEnd.trans hlogEnd
  · rw [hcommitted] at hle
    rw [hposition] at hlt
    rcases h.batch o hle hlt with hr | hr
    · exact hhandling _ hr
    · exact Or.inr (hhandled hr)
  · rw [hcommitted, hposition]
    exact h.fetching (hphase hfetching)
  · rw [hcommitted, hposition]
    exact h.le_add

omit [DecidableEq π] in
/-- An owner that is at the committed offset. -/
lemma owned_of_eq {p : π} {w : ℕ} (hposition : t.position p = t.committed p)
    (hle : t.committed p ≤ t.logEnd p) : Owned maxRecords t p w :=
  ⟨hposition.ge, hposition.le.trans hle,
    fun _ hge hlt => absurd (hlt.trans_eq hposition) (not_lt.2 hge), fun _ => hposition,
    hposition.le.trans (Nat.le_add_right _ _)⟩

lemma Covered.accept (h : Covered maxRecords s) (p : π) :
    Covered maxRecords { s with logEnd := Function.update s.logEnd p (s.logEnd p + 1) } := by
  have hle : ∀ q, s.logEnd q ≤ Function.update s.logEnd p (s.logEnd p + 1) q := by
    intro q
    rw [Function.update_apply]
    split_ifs with heq
    · exact heq ▸ Nat.le_succ _
    · exact le_rfl
  exact ⟨h.handled, fun q => (h.le_logEnd q).trans (hle q), fun q w hw =>
    (h.owned q w hw).of_eq rfl rfl (hle q) (fun r hr => Or.inl hr) (List.Subset.refl _) id⟩

/-- The new owner of a partition starts at the committed offset. -/
lemma Covered.assign (h : Covered maxRecords s) (p : π) (w : Option ℕ) :
    Covered maxRecords { s with
      owner := Function.update s.owner p w
      position := Function.update s.position p (s.committed p) } := by
  refine ⟨h.handled, h.le_logEnd, fun q w' hw' => ?_⟩
  by_cases hq : q = p
  · subst hq
    exact owned_of_eq (Function.update_self q _ _) (h.le_logEnd q)
  · have howner : s.owner q = some w' := by
      rw [← hw']
      exact (Function.update_of_ne hq w s.owner).symm
    exact (h.owned q w' howner).of_eq rfl (Function.update_of_ne hq _ _) le_rfl
      (fun r hr => Or.inl hr) (List.Subset.refl _) id

lemma Covered.getmany (h : Covered maxRecords s) {w : ℕ} {counts : AList fun _ : π => ℕ}
    (hphase : s.phase w = .fetching) (hmay : s.MayFetch maxRecords w counts) :
    Covered maxRecords { s with
      position := fun p => s.position p + (counts.lookup p).getD 0
      phase := Function.update s.phase w
        (if s.batch counts = [] then .fetching else .gathering)
      handling := Function.update s.handling w (s.batch counts) } := by
  refine ⟨h.handled, h.le_logEnd, fun q w' hw' => ?_⟩
  have howned := h.owned q w' hw'
  by_cases hw : w' = w
  · -- before the call the worker is at the committed offset of each of its partitions
    subst hw
    have hstart := howned.fetching hphase
    have hle := hmay.lookup_le q
    refine ⟨howned.committed_le.trans (Nat.le_add_right _ _), hmay.le_logEnd howned.le_logEnd,
      fun o hge hlt => Or.inl ?_, fun hfetching => ?_, ?_⟩
    · show (q, o) ∈ Function.update s.handling w' (s.batch counts) w'
      rw [Function.update_self]
      exact mem_batch.2 ⟨hstart.le.trans hge, hlt⟩
    · have hempty : s.batch counts = [] := by
        by_contra hne
        have hgathering : Function.update s.phase w'
          (if s.batch counts = [] then .fetching else .gathering) w' = .fetching := hfetching
        rw [Function.update_self, if_neg hne] at hgathering
        exact absurd hgathering (by simp)
      show s.position q + (counts.lookup q).getD 0 = s.committed q
      rw [lookup_of_batch_eq_nil hempty, hstart, Nat.add_zero]
    · show s.position q + (counts.lookup q).getD 0 ≤ s.committed q + maxRecords
      omega
  · have hother : s.owner q ≠ some w := by
      rw [hw']
      simpa using hw
    refine howned.of_eq rfl ?_ le_rfl (fun r hr => Or.inl ?_) (List.Subset.refl _) fun hf => ?_
    · show s.position q + (counts.lookup q).getD 0 = s.position q
      rw [hmay.lookup_eq hother, Nat.add_zero]
    · show r ∈ Function.update s.handling w (s.batch counts) w'
      rwa [Function.update_of_ne hw]
    · have hphase' : Function.update s.phase w _ w' = .fetching := hf
      rwa [Function.update_of_ne hw] at hphase'

omit [DecidableEq π] in
lemma Covered.handle (h : Covered maxRecords s) {w k : ℕ} {r : RecordId π}
    (hr : (s.handling w)[k]? = some r) :
    Covered maxRecords { s with
      handling := Function.update s.handling w ((s.handling w).eraseIdx k)
      handled := s.handled ++ [r] } := by
  refine ⟨fun q o hlt => List.mem_append_left _ (h.handled q o hlt), h.le_logEnd,
    fun q w' hw' => ?_⟩
  refine (h.owned q w' hw').of_eq rfl rfl le_rfl (fun r' hr' => ?_)
    (List.subset_append_left _ _) id
  by_cases hw : w' = w
  · subst hw
    obtain ⟨pre, post, hsplit, rfl⟩ := exists_split_of_getElem? hr
    rw [hsplit] at hr'
    simp only [Function.update_self, hsplit, eraseIdx_append_cons, List.mem_append,
      List.mem_cons] at hr' ⊢
    tauto
  · refine Or.inl ?_
    show r' ∈ Function.update s.handling w _ w'
    rwa [Function.update_of_ne hw]

omit [DecidableEq π] in
/-- The positions that are committed are those of records that were all handled. -/
lemma Covered.commit (h : Covered maxRecords s) {w : ℕ} (hdone : s.handling w = []) :
    Covered maxRecords { s with
      committed := fun p => if s.owner p = some w then s.position p else s.committed p
      phase := Function.update s.phase w .fetching } := by
  refine ⟨fun q o hlt => ?_, fun q => ?_, fun q w' hw' => ?_⟩
  · have hlt' : o < if s.owner q = some w then s.position q else s.committed q := hlt
    split_ifs at hlt' with hq
    · rcases lt_or_ge o (s.committed q) with hcommitted | hge
      · exact h.handled q o hcommitted
      · have hbatch := (h.owned q w hq).batch o hge hlt'
        rw [hdone] at hbatch
        exact hbatch.resolve_left List.not_mem_nil
    · exact h.handled q o hlt'
  · show (if s.owner q = some w then s.position q else s.committed q) ≤ s.logEnd q
    split_ifs with hq
    · exact (h.owned q w hq).le_logEnd
    · exact h.le_logEnd q
  · by_cases hw : w' = w
    · subst hw
      have heq : (if s.owner q = some w' then s.position q else s.committed q) = s.position q :=
        if_pos hw'
      exact owned_of_eq heq.symm (heq.le.trans (h.owned q w' hw').le_logEnd)
    · have hq : s.owner q ≠ some w := by
        rw [hw']
        simpa using hw
      refine (h.owned q w' hw').of_eq (if_neg hq) rfl le_rfl (fun r hr => Or.inl hr)
        (List.Subset.refl _) fun hf => ?_
      have hphase : Function.update s.phase w LoopPhase.fetching w' = .fetching := hf
      rwa [Function.update_of_ne hw] at hphase

omit [DecidableEq π] in
lemma Covered.stop (h : Covered maxRecords s) (w : ℕ) :
    Covered maxRecords { s with
      owner := fun p => if s.owner p = some w then none else s.owner p
      phase := Function.update s.phase w .stopped } := by
  refine ⟨h.handled, h.le_logEnd, fun q w' hw' => ?_⟩
  have howner : (if s.owner q = some w then none else s.owner q) = some w' := hw'
  split_ifs at howner with hq
  refine (h.owned q w' howner).of_eq rfl rfl le_rfl (fun r hr => Or.inl hr) (List.Subset.refl _)
    fun hf => ?_
  have hphase : Function.update s.phase w LoopPhase.stopped w' = .fetching := hf
  rw [Function.update_apply] at hphase
  split_ifs at hphase
  exact hphase

lemma Covered.step (h : Covered maxRecords s) (hst : step maxRecords s a = some t) :
    Covered maxRecords t := by
  cases a with
  | accept p =>
      obtain rfl := Option.some.inj hst
      exact h.accept p
  | assign p w =>
      obtain rfl := Option.some.inj hst
      exact h.assign p w
  | getmany w counts =>
      by_cases hmay : s.phase w = .fetching ∧ s.MayFetch maxRecords w counts
      · simp only [GroupState.step, if_pos hmay] at hst
        obtain rfl := Option.some.inj hst
        exact h.getmany hmay.1 hmay.2
      · simp only [GroupState.step, if_neg hmay] at hst
        exact absurd hst (by simp)
  | handle w k =>
      obtain ⟨r, hr, rfl⟩ := Option.map_eq_some_iff.1 hst
      exact h.handle hr
  | commit w =>
      simp only [GroupState.step] at hst
      split_ifs at hst with hdone
      obtain rfl := Option.some.inj hst
      exact h.commit hdone.2
  | stop w =>
      obtain rfl := Option.some.inj hst
      exact h.stop w

lemma covered_of_reachable (h : (machine π maxRecords).Reachable s) : Covered maxRecords s := by
  refine Machine.ReachableBy.inv (I := Covered maxRecords) ?_
    (fun _ _ _ ih _ hst => ih.step hst) h
  exact ⟨fun p o hlt => absurd hlt (Nat.not_lt_zero o), fun p => le_rfl,
    fun p w hw => by simp [machine] at hw⟩

/-- A commit does not take an offset back. -/
lemma Covered.committed_le (h : Covered maxRecords s)
    (hst : GroupState.step maxRecords s a = some t) (p : π) : s.committed p ≤ t.committed p := by
  cases a with
  | accept q =>
      obtain rfl := Option.some.inj hst
      exact le_rfl
  | assign q w =>
      obtain rfl := Option.some.inj hst
      exact le_rfl
  | getmany w counts =>
      obtain ⟨-, hst⟩ := Option.ite_none_right_eq_some.1 hst
      obtain rfl := Option.some.inj hst
      exact le_rfl
  | handle w k =>
      obtain ⟨r, -, rfl⟩ := Option.map_eq_some_iff.1 hst
      exact le_rfl
  | commit w =>
      obtain ⟨-, hst⟩ := Option.ite_none_right_eq_some.1 hst
      obtain rfl := Option.some.inj hst
      show s.committed p ≤ if s.owner p = some w then s.position p else s.committed p
      split_ifs with hp
      · exact (h.owned p w hp).committed_le
      · exact le_rfl
  | stop w =>
      obtain rfl := Option.some.inj hst
      exact le_rfl

/-- **At least once.**  In every run of any number of workers, with partitions that change their
owners at any time and workers that stop at any time: every record below a committed offset was
handled to its end; a committed offset never goes back; and what an owner has fetched beyond the
committed offset is handled, or is still being handled by it, and is no more than a batch.  So
that much at most is handled again when the partition gets a new owner. -/
theorem at_least_once (π : Type) [DecidableEq π] (maxRecords : ℕ) (s : GroupState π)
    (h : (machine π maxRecords).Reachable s) :
    (∀ p o, o < s.committed p → (p, o) ∈ s.handled) ∧
    (∀ a t, step maxRecords s a = some t → ∀ p, s.committed p ≤ t.committed p) ∧
    ∀ p w, s.owner p = some w → s.committed p ≤ s.position p ∧
      s.position p ≤ s.committed p + maxRecords ∧
      ∀ o, s.committed p ≤ o → o < s.position p →
        (p, o) ∈ s.handling w ∨ (p, o) ∈ s.handled := by
  have hcovered := covered_of_reachable h
  refine ⟨hcovered.handled, fun a t hst p => hcovered.committed_le hst p, fun p w hw => ?_⟩
  have howned := hcovered.owned p w hw
  exact ⟨howned.committed_le, howned.le_add, howned.batch⟩

/-- The only partition goes to a second worker while the first one handles its two records: the
commit of the first one commits nothing, and the records are handled again. -/
def rebalanced : List (GroupAct Unit) :=
  [.accept (), .accept (), .assign () (some 0), .getmany 0 (AList.insert () 2 ∅), .handle 0 0,
    .assign () (some 1), .handle 0 0, .commit 0, .getmany 1 (AList.insert () 2 ∅), .handle 1 0,
    .handle 1 0, .commit 1]

theorem at_least_once_rebalanced :
    ∃ s, (machine Unit 100).Reachable s ∧ s.committed () = 2 ∧
      s.handled = [((), 0), ((), 1), ((), 0), ((), 1)] ∧
      ∀ o, o < s.committed () → ((), o) ∈ s.handled := by
  have h := Machine.reachableBy_of_exec (M := machine Unit 100) (P := fun _ _ => True) rebalanced
    rfl
  exact ⟨_, h, rfl, rfl, (at_least_once Unit 100 _ h).1 ()⟩

end GroupState

end WebCrawler
