import WebCrawler.Resilience.BreakerRuns

/-!
# The gauge of open circuits

`CircuitBreaker` writes the number of open circuits to the gauge `CIRCUIT_STATE` when it opens
or closes one.  The probe at the end of a cooldown takes a circuit out of the open state too,
and is not written: from then on the gauge is too high, by one for each probe, until some
circuit opens or the outcome of a probe is recorded (`gauge_eq`).
-/

namespace WebCrawler

/-! ### Counting open circuits -/

namespace BreakerState

/-- One for an open circuit. -/
def openUnit (st : HostState) : ℕ := if st.state = .opened then 1 else 0

/-- The open circuits without an entry. -/
lemma countP_kerase (host : String) (l : List (Sigma fun _ : String => HostState)) :
    (l.kerase host).countP (fun e => e.2.state = .opened) + (l.dlookup host).elim 0 openUnit =
      l.countP fun e => e.2.state = .opened := by
  induction l with
  | nil => rfl
  | cons e l ih =>
      obtain ⟨host', st⟩ := e
      rw [List.countP_cons]
      by_cases hhost : host = host'
      · subst hhost
        rw [List.kerase_cons_eq (show host = (⟨host, st⟩ : Sigma fun _ => HostState).1 from rfl),
          List.dlookup_cons_eq]
        simp [openUnit]
      · rw [List.kerase_cons_ne (show host ≠ (⟨host', st⟩ : Sigma fun _ => HostState).1 from hhost),
          List.dlookup_cons_ne _ (⟨host', st⟩ : Sigma fun _ => HostState) hhost, List.countP_cons,
          ← ih]
        omega

/-- What the change of one host means for the number of open circuits. -/
lemma openCount_set (b : BreakerState) (host : String) (st : HostState) :
    (b.set host st).openCount + openUnit (b.get host) = b.openCount + openUnit st := by
  have herase := countP_kerase host b.hosts.entries
  have hget : (b.hosts.entries.dlookup host).elim 0 openUnit = openUnit (b.get host) := by
    rw [get, AList.lookup]
    cases b.hosts.entries.dlookup host <;> rfl
  have hinsert : (b.set host st).openCount =
      (b.hosts.entries.kerase host).countP (fun e => e.2.state = .opened) + openUnit st := by
    rw [openCount, set, AList.entries_insert, List.countP_cons]
    simp [openUnit]
  rw [hget] at herase
  rw [hinsert, openCount, ← herase]
  omega

end BreakerState

namespace CircuitBreaker

open BreakerState

variable (B : CircuitBreaker)

/-! ### One call -/

/-- The call lets a probe through: the circuit is open and its cooldown has elapsed. -/
def IsProbe (b : BreakerState) (c : BreakerCall) : Prop :=
  c.kind = .allow ∧ (b.get c.host).state = .opened ∧
    B.resetSeconds ≤ c.now - (b.get c.host).openedAt

/-- The call writes the gauge: a success closes a circuit that was not closed, or a failure
opens one. -/
def Writes (b : BreakerState) (c : BreakerCall) : Prop :=
  c.kind = .success ∧ (b.get c.host).state ≠ .closed ∨
    c.kind = .failure ∧ ((b.get c.host).state = .halfOpen ∨
      (b.get c.host).state = .closed ∧ B.failureThreshold ≤ (b.get c.host).failures + 1)

instance (b : BreakerState) (c : BreakerCall) : Decidable (B.IsProbe b c) :=
  inferInstanceAs (Decidable (_ ∧ _))

instance (b : BreakerState) (c : BreakerCall) : Decidable (B.Writes b c) :=
  inferInstanceAs (Decidable (_ ∨ _))

variable {B} {b : BreakerState} {c : BreakerCall}

lemma IsProbe.not_writes (h : B.IsProbe b c) : ¬ B.Writes b c := by
  rintro (⟨hk, -⟩ | ⟨hk, -⟩)
  · exact CallKind.noConfusion (h.1.symm.trans hk)
  · exact CallKind.noConfusion (h.1.symm.trans hk)

lemma gauge_of_writes (h : B.Writes b c) : (B.apply b c).gauge = (B.apply b c).openCount := by
  rcases h with ⟨hk, hst⟩ | ⟨hk, hhalf | ⟨hcl, hle⟩⟩
  · simp only [apply, hk, recordSuccess, if_pos hst]
    rfl
  · simp only [apply, hk, recordFailure, if_pos hhalf]
    rfl
  · simp only [apply, hk, recordFailure, hcl]
    rw [if_neg CircuitState.noConfusion, if_pos ⟨hle, trivial⟩]
    rfl

/-- A probe takes a circuit out of the open state behind the back of the gauge. -/
lemma gauge_of_probe (h : B.IsProbe b c) :
    (B.apply b c).gauge = b.gauge ∧ (B.apply b c).openCount + 1 = b.openCount := by
  obtain ⟨hk, hopen, hcool⟩ := h
  have happly : B.apply b c = b.set c.host { b.get c.host with state := .halfOpen } := by
    simp only [apply, hk, allow, if_pos hopen, ge_iff_le, if_pos hcool]
  have hset := openCount_set b c.host { b.get c.host with state := .halfOpen }
  rw [happly]
  refine ⟨rfl, ?_⟩
  simpa [openUnit, hopen] using hset

/-- The other calls leave both as they are. -/
lemma gauge_of_neither (hw : ¬ B.Writes b c) (hp : ¬ B.IsProbe b c) :
    (B.apply b c).gauge = b.gauge ∧ (B.apply b c).openCount = b.openCount := by
  -- the host is entered with its state, up to the number of failures
  have hsame : ∃ st, B.apply b c = b.set c.host st ∧ st.state = (b.get c.host).state := by
    cases hk : c.kind with
    | allow =>
        refine ⟨b.get c.host, ?_, rfl⟩
        simp only [apply, hk, allow]
        split_ifs with hopen hcool
        · exact absurd ⟨hk, hopen, hcool⟩ hp
        · rfl
        · rfl
    | success =>
        have hcl : (b.get c.host).state = .closed := not_not.1 fun hst => hw (Or.inl ⟨hk, hst⟩)
        refine ⟨{ b.get c.host with failures := 0, state := .closed }, ?_, hcl.symm⟩
        simp only [apply, hk, recordSuccess, hcl, ne_eq, not_true_eq_false, if_false]
    | failure =>
        refine ⟨{ b.get c.host with failures := (b.get c.host).failures + 1 }, ?_, rfl⟩
        simp only [apply, hk, recordFailure]
        split_ifs with hhalf hopens
        · exact absurd (Or.inr ⟨hk, Or.inl hhalf⟩) hw
        · exact absurd (Or.inr ⟨hk, Or.inr ⟨hopens.2, hopens.1⟩⟩) hw
        · rfl
  obtain ⟨st, happly, hstate⟩ := hsame
  have hset := openCount_set b c.host st
  rw [happly]
  refine ⟨rfl, ?_⟩
  rw [openUnit, openUnit, hstate] at hset
  omega

/-! ### A run -/

variable (B) in
/-- The probes that were let through since the gauge was last written. -/
def probesSinceWrite (calls : List BreakerCall) : ℕ :=
  (calls.foldl
    (fun (p : BreakerState × ℕ) c =>
      (B.apply p.1 c,
        if B.Writes p.1 c then 0 else if B.IsProbe p.1 c then p.2 + 1 else p.2))
    ({}, 0)).2

variable (B) in
/-- Every probe that was let through is followed by a call that writes the gauge. -/
def ProbesWritten (calls : List BreakerCall) : Prop :=
  ∀ pre c post, calls = pre ++ c :: post → B.IsProbe (B.run pre) c →
    ∃ mid d rest, post = mid ++ d :: rest ∧ B.Writes (B.run (pre ++ c :: mid)) d

variable {calls : List BreakerCall}

lemma probesSinceWrite_snoc (calls : List BreakerCall) (c : BreakerCall) :
    B.probesSinceWrite (calls ++ [c]) =
      if B.Writes (B.run calls) c then 0
      else if B.IsProbe (B.run calls) c then B.probesSinceWrite calls + 1
      else B.probesSinceWrite calls := by
  have hrun : ∀ (l : List BreakerCall) (p : BreakerState × ℕ), (l.foldl
      (fun (p : BreakerState × ℕ) c =>
        (B.apply p.1 c,
          if B.Writes p.1 c then 0 else if B.IsProbe p.1 c then p.2 + 1 else p.2)) p).1 =
      l.foldl B.apply p.1 := by
    intro l
    induction l with
    | nil => exact fun p => rfl
    | cons d l ih => exact fun p => ih _
  rw [probesSinceWrite, List.foldl_append, List.foldl_cons, List.foldl_nil, hrun calls ({}, 0)]
  rfl

lemma probesWritten_snoc (calls : List BreakerCall) (c : BreakerCall) :
    B.ProbesWritten (calls ++ [c]) ↔
      B.Writes (B.run calls) c ∨ ¬ B.IsProbe (B.run calls) c ∧ B.ProbesWritten calls := by
  constructor
  · intro h
    by_cases hw : B.Writes (B.run calls) c
    · exact Or.inl hw
    · refine Or.inr ⟨fun hprobe => ?_, fun pre p post heq hprobe => ?_⟩
      · obtain ⟨mid, d, rest, hnil, -⟩ := h calls c [] rfl hprobe
        simp at hnil
      · obtain ⟨mid, d, rest, hpost, hd⟩ := h pre p (post ++ [c]) (by simp [heq]) hprobe
        rcases Lib.snoc_eq_append_cons hpost with ⟨rfl, rfl, -⟩ | ⟨rest', -, hpost'⟩
        · exact absurd (heq ▸ hd) hw
        · exact ⟨mid, d, rest', hpost', hd⟩
  · intro h pre p post heq hprobe
    rcases Lib.snoc_eq_append_cons heq with ⟨rfl, rfl, -⟩ | ⟨post', rfl, hcalls⟩
    · rcases h with hw | ⟨hnot, -⟩
      · exact absurd hw hprobe.not_writes
      · exact absurd hprobe hnot
    · rcases h with hw | ⟨-, h⟩
      · exact ⟨post', c, [], rfl, hcalls ▸ hw⟩
      · obtain ⟨mid, d, rest, rfl, hd⟩ := h pre p post' hcalls hprobe
        exact ⟨mid, d, rest ++ [c], by simp, hd⟩

lemma probesSinceWrite_eq_zero_iff : B.probesSinceWrite calls = 0 ↔ B.ProbesWritten calls := by
  induction calls using List.reverseRecOn with
  | nil => exact iff_of_true rfl fun pre c post hnil => by simp at hnil
  | append_singleton calls c ih =>
      rw [probesSinceWrite_snoc, probesWritten_snoc, ← ih]
      by_cases hw : B.Writes (B.run calls) c
      · simp [hw]
      · by_cases hp : B.IsProbe (B.run calls) c
        · simp [hw, hp]
        · simp [hw, hp]

/-- **The gauge** counts the open circuits and the probes since it was written. -/
lemma gauge_eq (calls : List BreakerCall) :
    (B.run calls).gauge = (B.run calls).openCount + B.probesSinceWrite calls := by
  induction calls using List.reverseRecOn with
  | nil => rfl
  | append_singleton calls c ih =>
      rw [run_snoc, probesSinceWrite_snoc]
      by_cases hw : B.Writes (B.run calls) c
      · rw [if_pos hw, gauge_of_writes hw, add_zero]
      · rw [if_neg hw]
        by_cases hp : B.IsProbe (B.run calls) c
        · obtain ⟨hgauge, hcount⟩ := gauge_of_probe hp
          rw [if_pos hp, hgauge, ih]
          omega
        · obtain ⟨hgauge, hcount⟩ := gauge_of_neither hw hp
          rw [if_neg hp, hgauge, hcount, ih]

/-- **When the gauge is right**: if and only if every probe was followed by a call that writes
it.  It is never too low, and too high by the number of the probes since it was written. -/
theorem gauge_eq_openCount_iff (B : CircuitBreaker) (calls : List BreakerCall) :
    ((B.run calls).gauge = (B.run calls).openCount ↔ B.ProbesWritten calls) ∧
      (B.run calls).gauge = (B.run calls).openCount + B.probesSinceWrite calls := by
  refine ⟨?_, gauge_eq calls⟩
  rw [← probesSinceWrite_eq_zero_iff, gauge_eq]
  omega

/-- After the probe of the only open circuit the gauge still says one. -/
theorem gauge_after_probe :
    let b := quickBreaker.run [⟨.failure, "h", 0⟩, ⟨.allow, "h", 5⟩]
    b.gauge = 1 ∧ b.openCount = 0 := by
  decide +kernel

end CircuitBreaker

end WebCrawler
