import WebCrawler.Fleet.Loop

/-!
# A call of `_handle` is a run of the fleet

The machine of the fleet cuts `_handle` into steps, so that the calls of several workers
can interleave.  This file connects it with the code of one worker: from a state in
which a record is to be handed out, the fleet can hand it out and go, step by step,
through the call of `_handle` as the worker executes it (`exists_run_of_handle`).  The
records that the worker has published are the ones that the fleet has accepted and, unless
they are on the dlq, hands out later; both end with the same seen-set, whether the call
returns or raises.

`Bridge` is what the fleet assumes of the collaborators of a worker: the settings agree,
the same URLs have a key, the seen-set is asked through `check_and_add` only, and the part
of the network state that holds it is not touched by anything else.
-/

namespace WebCrawler

open Lib

/-- The topic and the bytes of a record of the fleet. -/
def Entry.content (e : Entry) : Topic × Wire := (e.topic, e.value)

/-- The topic and the bytes of a record of a worker. -/
def Published.content (p : Published) : Topic × Wire := (p.topic, p.value)

namespace Fleet

variable {ν ω σ : Type} {F : Fleet} {S : SeenSet σ String} {W : CrawlWorker ν ω} {seenOf : ν → σ}

/-- A worker of the fleet, whose network state holds the shared seen-set. -/
structure Bridge (F : Fleet) (S : SeenSet σ String) (W : CrawlWorker ν ω) (seenOf : ν → σ) :
    Prop where
  maxDepth_eq : W.maxDepth = F.maxDepth
  maxRetries_eq : W.maxRetries = F.maxRetries
  hasKey_eq : ∀ url, F.hasKey url = (W.pipeline.urls.registeredDomain url).isOk
  check_ok : ∀ url n b n', (W.checkAndAdd url).run n = .ok b n' →
    (b, seenOf n') = S.checkAndAdd (seenOf n) url
  /-- A call that raises may have taken effect. -/
  check_error : ∀ url n e n', (W.checkAndAdd url).run n = .error e n' →
    seenOf n' = seenOf n ∨ seenOf n' = (S.checkAndAdd (seenOf n) url).2
  send : ∀ p seen, Preserves (fun n => seenOf n = seen) (W.sendAndWait p)
  sleep : ∀ q seen, Preserves (fun n => seenOf n = seen) (W.sleep q)
  process : ∀ c item seen,
    Preserves (fun p => seenOf p.net = seen) (W.pipeline.process c item)

/-- The broker has accepted the records that a worker has published, one entry each, and
will hand out those that are not on the dlq. -/
structure Accepted (s₀ s : FleetState σ) (new : List Published) (entries : List Entry) :
    Prop where
  content_eq : entries.map Entry.content = new.map Published.content
  log_eq : s.log = s₀.log ++ entries
  pending_eq : s.pending = s₀.pending ++ entries.filter (·.topic ≠ .dlq)
  uncommitted_eq : s.uncommitted = s₀.uncommitted
  seeds_eq : s.seeds = s₀.seeds

/-- The fleet and the worker have the same seen-set, and since `s₀` and `w₀` the fleet has
accepted what the worker has published. -/
structure Since (W : CrawlWorker ν ω) (seenOf : ν → σ) (s₀ : FleetState σ) (w₀ : WorkerState ν ω)
    (s : FleetState σ) (w : WorkerState ν ω) : Prop where
  seen_eq : s.seen = seenOf w.pipe.net
  accepted : ∃ new entries, w.published = w₀.published ++ new ∧ Accepted s₀ s new entries

/-- One step of the fleet leads from a state to another. -/
def Next (F : Fleet) (S : SeenSet σ String) (N : Numerals) (s t : FleetState σ) : Prop :=
  ∃ a, F.step S N s a = some t

/-- Some steps of the fleet lead to the given calls and to a state that agrees with the
worker. -/
def Follows (F : Fleet) (S : SeenSet σ String) (W : CrawlWorker ν ω) (seenOf : ν → σ)
    (s₀ : FleetState σ) (w₀ : WorkerState ν ω) (s : FleetState σ) (calls : List Call)
    (w : WorkerState ν ω) : Prop :=
  ∃ t, Relation.ReflTransGen (F.Next S W.numerals) s t ∧
    t.calls = calls ∧ Since W seenOf s₀ w₀ t w

variable {s₀ s t : FleetState σ} {w₀ w w' : WorkerState ν ω} {cs calls : List Call} {ℓ : ℕ}
  {m : FrontierMessage} {r : ProcessResult} {l : Link} {rest : List Link} {a : FleetAct}

/-- `seen.check_and_add`, as the worker calls it. -/
abbrev askSeen (W : CrawlWorker ν ω) (url : String) : EStateM PyError (WorkerState ν ω) Bool :=
  CrawlWorker.inPipe (Pipeline.onNet (W.checkAndAdd url))

/-! ### The two states -/

lemma Since.start (h : s.seen = seenOf w.pipe.net) : Since W seenOf s w s w :=
  ⟨h, [], [], (List.append_nil _).symm, rfl, (List.append_nil _).symm, (List.append_nil _).symm,
    rfl, rfl⟩

/-- A step that leaves the topics alone. -/
lemma Since.of_frame (h : Since W seenOf s₀ w₀ s w) (hseen : t.seen = seenOf w'.pipe.net)
    (hpublished : w'.published = w.published)
    (ht : t = { s with seen := t.seen, calls := t.calls, roots := t.roots,
                       processed := t.processed }) : Since W seenOf s₀ w₀ t w' := by
  obtain ⟨new, entries, hnew, hacc⟩ := h.accepted
  refine ⟨hseen, new, entries, hpublished.trans hnew, hacc.content_eq, ?_, ?_, ?_, ?_⟩
  · exact (congrArg FleetState.log ht).trans hacc.log_eq
  · exact (congrArg FleetState.pending ht).trans hacc.pending_eq
  · exact (congrArg FleetState.uncommitted ht).trans hacc.uncommitted_eq
  · exact (congrArg FleetState.seeds ht).trans hacc.seeds_eq

/-- Something on the network side has happened that does not concern the seen-set. -/
lemma Since.of_net (h : Since W seenOf s₀ w₀ s w) {n : ν} (hn : seenOf n = seenOf w.pipe.net) :
    Since W seenOf s₀ w₀ s { w with pipe := { w.pipe with net := n } } :=
  h.of_frame (h.seen_eq.trans hn.symm) rfl rfl

lemma Since.of_calls (h : Since W seenOf s₀ w₀ s w) (calls : List Call) :
    Since W seenOf s₀ w₀ { s with calls := calls } w :=
  h.of_frame h.seen_eq rfl rfl

/-- The broker accepts a record from the worker. -/
lemma Since.publish (h : Since W seenOf s₀ w₀ s w) (topic : Topic) (key : String) (ℓ : ℕ)
    (m : FrontierMessage) :
    Since W seenOf s₀ w₀ (s.publish topic ℓ m)
      { w with published := w.published ++ [CrawlWorker.record topic key m] } := by
  obtain ⟨new, entries, hnew, hacc⟩ := h.accepted
  refine ⟨h.seen_eq, new ++ [CrawlWorker.record topic key m],
    entries ++ [⟨topic, ℓ, m.toBytes⟩], ?_, ?_, ?_, ?_, hacc.uncommitted_eq, hacc.seeds_eq⟩
  · rw [hnew, List.append_assoc]
  · rw [List.map_append, List.map_append, hacc.content_eq]
    rfl
  · simp only [FleetState.publish, hacc.log_eq, List.append_assoc]
  · by_cases hdlq : topic = .dlq
    · simp [FleetState.publish, hdlq, hacc.pending_eq]
    · simp [FleetState.publish, hdlq, hacc.pending_eq]

/-- What is published has a key. -/
lemma hasKey_of_publish_ok (B : Bridge F S W seenOf) {topic : Topic} {u : Unit}
    (hrun : (W.publish topic m).run w = .ok u w') : F.hasKey m.url = true := by
  obtain ⟨domain, hdomain, -, -⟩ := CrawlWorker.publish_eq_ok hrun
  rw [B.hasKey_eq, hdomain]
  rfl

lemma Since.of_publish_ok (B : Bridge F S W seenOf) (h : Since W seenOf s₀ w₀ s w) {topic : Topic}
    {u : Unit} (hrun : (W.publish topic m).run w = .ok u w') (ℓ : ℕ) :
    Since W seenOf s₀ w₀ (s.publish topic ℓ m) w' := by
  obtain ⟨domain, -, hrun⟩ := run_ofExcept_bind_eq_ok.1 hrun
  obtain ⟨v, w₁, hsend, hnote⟩ := run_bind_eq_ok.1 hrun
  obtain ⟨p, hp, rfl⟩ := run_zoom_eq_ok.1 hsend
  obtain ⟨n, hn, rfl⟩ := run_zoom_eq_ok.1 hp
  obtain rfl := run_modify_eq_ok.1 hnote
  exact (h.of_net ((B.send _ _ _ rfl).1 _ _ hn)).publish topic domain ℓ m

lemma Since.of_publish_error (B : Bridge F S W seenOf) (h : Since W seenOf s₀ w₀ s w)
    {topic : Topic} {e : PyError} (hrun : (W.publish topic m).run w = .error e w') :
    Since W seenOf s₀ w₀ s w' := by
  rcases run_ofExcept_bind_eq_error.1 hrun with ⟨-, rfl⟩ | ⟨domain, -, hrun⟩
  · exact h
  rcases run_bind_eq_error.1 hrun with hsend | ⟨v, w₁, -, hnote⟩
  · obtain ⟨p, hp, rfl⟩ := run_zoom_eq_error.1 hsend
    obtain ⟨n, hn, rfl⟩ := run_zoom_eq_error.1 hp
    exact h.of_net ((B.send _ _ _ rfl).2 _ _ hn)
  · rw [EStateM.run_modify] at hnote
    exact absurd hnote (by simp)

/-! ### Steps of the last call -/

lemma Follows.stay (hcalls : s.calls = calls) (h : Since W seenOf s₀ w₀ s w) :
    Follows F S W seenOf s₀ w₀ s calls w :=
  ⟨s, .refl, hcalls, h⟩

/-- One step, and then some more. -/
lemma Follows.step (hst : F.step S W.numerals s a = some t)
    (h : Follows F S W seenOf s₀ w₀ t calls w) : Follows F S W seenOf s₀ w₀ s calls w := by
  obtain ⟨t', hsteps, hrest⟩ := h
  exact ⟨t', .head ⟨a, hst⟩ hsteps, hrest⟩

lemma Follows.trans (h : Follows F S W seenOf s₀ w₀ s cs w)
    (hnext : ∀ t, t.calls = cs → Since W seenOf s₀ w₀ t w →
      Follows F S W seenOf s₀ w₀ t calls w') : Follows F S W seenOf s₀ w₀ s calls w' := by
  obtain ⟨t, hsteps, hcalls, hsince⟩ := h
  obtain ⟨t', hsteps', hrest⟩ := hnext t hcalls hsince
  exact ⟨t', hsteps.trans hsteps', hrest⟩

lemma step_check {N : Numerals} (hcalls : s.calls = cs ++ [⟨ℓ, .linking m r (l :: rest)⟩]) :
    F.step S N s (.check cs.length) = some
      { s with
        seen := (S.checkAndAdd s.seen l.url).2
        calls := cs ++ [⟨ℓ, if (S.checkAndAdd s.seen l.url).1 then .enqueuing m r l rest
          else .linking m r rest⟩] } := by
  simp [step, hcalls, FleetState.setCall]

lemma step_enqueue {N : Numerals} (hcalls : s.calls = cs ++ [⟨ℓ, .enqueuing m r l rest⟩])
    (hkey : F.hasKey l.url = true) :
    F.step S N s (.enqueue cs.length) = some
      (FleetState.produce { s with calls := cs ++ [⟨ℓ, .linking m r rest⟩] }
        (.fromItem (child m.toItem l))) := by
  simp [step, hcalls, hkey, FleetState.setCall, FleetState.produce, FleetState.publish]

/-- An exception in the loop over the links. -/
lemma step_raise {N : Numerals} {p : Point} (hcalls : s.calls = cs ++ [⟨ℓ, p⟩])
    (hp : (∃ rest, p = .linking m r rest) ∨ ∃ l rest, p = .enqueuing m r l rest) :
    F.step S N s (.raise cs.length) = some { s with calls := cs ++ [⟨ℓ, .retrying m⟩] } := by
  rcases hp with ⟨rest, rfl⟩ | ⟨l, rest, rfl⟩
  · simp [step, hcalls, FleetState.setCall]
  · simp [step, hcalls, FleetState.setCall]

/-! ### The loop over the links -/

section Links

variable (B : Bridge F S W seenOf)
include B

/-- The seen-set has been asked, and the worker knows the answer. -/
lemma follows_check_ok (hcalls : s.calls = cs ++ [⟨ℓ, .linking m r (l :: rest)⟩])
    (hs : Since W seenOf s₀ w₀ s w) {b : Bool}
    (hrun : (askSeen W l.url).run w = .ok b w') :
    Follows F S W seenOf s₀ w₀ s
      (cs ++ [⟨ℓ, if b then .enqueuing m r l rest else .linking m r rest⟩]) w' := by
  obtain ⟨p, hp, rfl⟩ := run_zoom_eq_ok.1 hrun
  obtain ⟨n, hn, rfl⟩ := run_zoom_eq_ok.1 hp
  have hanswer := B.check_ok _ _ _ _ hn
  rw [← hs.seen_eq] at hanswer
  refine .step (step_check hcalls) (.stay ?_ (hs.of_frame ?_ rfl rfl))
  · simp only [← hanswer]
  · simp only [← hanswer]

/-- The call of the seen-set raises, before or after it has taken effect. -/
lemma follows_check_error (hcalls : s.calls = cs ++ [⟨ℓ, .linking m r (l :: rest)⟩])
    (hs : Since W seenOf s₀ w₀ s w) {e : PyError}
    (hrun : (askSeen W l.url).run w = .error e w') :
    Follows F S W seenOf s₀ w₀ s (cs ++ [⟨ℓ, .retrying m⟩]) w' := by
  obtain ⟨p, hp, rfl⟩ := run_zoom_eq_error.1 hrun
  obtain ⟨n, hn, rfl⟩ := run_zoom_eq_error.1 hp
  -- if the call has taken effect, the fleet checks the link first and then raises
  rcases B.check_error _ _ _ _ hn with hseen | hseen
  · exact .step (step_raise hcalls (Or.inl ⟨_, rfl⟩)) (.stay rfl ((hs.of_net hseen).of_calls _))
  · rw [← hs.seen_eq] at hseen
    refine .step (step_check hcalls) (.step (step_raise (m := m) (r := r) rfl ?_) ?_)
    · split_ifs
      · exact Or.inr ⟨l, rest, rfl⟩
      · exact Or.inl ⟨rest, rfl⟩
    · exact .stay rfl (hs.of_frame hseen.symm rfl rfl)

/-- One turn of the loop over the links. -/
lemma follows_offerLink (hcalls : s.calls = cs ++ [⟨ℓ, .linking m r (l :: rest)⟩])
    (hs : Since W seenOf s₀ w₀ s w) :
    (∀ u w', (offerLink W.add (askSeen W) m.toItem l).run w = .ok u w' →
      Follows F S W seenOf s₀ w₀ s (cs ++ [⟨ℓ, .linking m r rest⟩]) w') ∧
    ∀ e w', (offerLink W.add (askSeen W) m.toItem l).run w = .error e w' →
      Follows F S W seenOf s₀ w₀ s (cs ++ [⟨ℓ, .retrying m⟩]) w' := by
  constructor
  · intro u w' hrun
    obtain ⟨b, w₁, hcheck, hadd⟩ := run_bind_eq_ok.1 hrun
    refine (follows_check_ok B hcalls hs hcheck).trans ?_
    intro t ht hsince
    -- a known link needs no further step
    cases b with
    | true =>
        refine .step (step_enqueue ht (hasKey_of_publish_ok B hadd)) (.stay rfl ?_)
        have hroots : Since W seenOf s₀ w₀
            { t with calls := cs ++ [⟨ℓ, .linking m r rest⟩]
                     roots := t.roots ++ [.fromItem (child m.toItem l)] } w₁ :=
          hsince.of_frame hsince.seen_eq rfl rfl
        exact hroots.of_publish_ok B hadd _
    | false =>
        obtain ⟨-, rfl⟩ := run_pure_eq_ok.1 hadd
        exact .stay ht hsince
  · intro e w' hrun
    rcases run_bind_eq_error.1 hrun with hcheck | ⟨b, w₁, hcheck, hadd⟩
    · exact follows_check_error B hcalls hs hcheck
    · refine (follows_check_ok B hcalls hs hcheck).trans ?_
      intro t ht hsince
      cases b with
      | true =>
          refine .step (step_raise ht (Or.inr ⟨l, rest, rfl⟩)) (.stay rfl ?_)
          exact (hsince.of_publish_error B hadd).of_calls _
      | false => cases hadd

/-- The loop over the links. -/
lemma follows_forM (hcalls : s.calls = cs ++ [⟨ℓ, .linking m r rest⟩])
    (hs : Since W seenOf s₀ w₀ s w) :
    (∀ u w', (forM rest (offerLink W.add (askSeen W) m.toItem)).run w = .ok u w' →
      Follows F S W seenOf s₀ w₀ s (cs ++ [⟨ℓ, .linking m r []⟩]) w') ∧
    ∀ e w', (forM rest (offerLink W.add (askSeen W) m.toItem)).run w = .error e w' →
      Follows F S W seenOf s₀ w₀ s (cs ++ [⟨ℓ, .retrying m⟩]) w' := by
  induction rest generalizing s w with
  | nil =>
      constructor
      · intro u w' hrun
        obtain ⟨-, rfl⟩ := run_pure_eq_ok.1 hrun
        exact .stay hcalls hs
      · intro e w' hrun
        cases hrun
  | cons l rest ih =>
      obtain ⟨hok, herror⟩ := follows_offerLink B hcalls hs
      rw [List.forM_cons]
      constructor
      · intro u w' hrun
        obtain ⟨v, w₁, hlink, hrest⟩ := run_bind_eq_ok.1 hrun
        exact (hok v w₁ hlink).trans fun t ht hsince => (ih ht hsince).1 u w' hrest
      · intro e w' hrun
        rcases run_bind_eq_error.1 hrun with hlink | ⟨v, w₁, hlink, hrest⟩
        · exact herror e w' hlink
        · exact (hok v w₁ hlink).trans fun t ht hsince => (ih ht hsince).2 e w' hrest

end Links

/-! ### The whole call -/

/-- The point at which a call stands when `process_message` has returned. -/
def afterMessage (cs : List Call) (ℓ : ℕ) (m : FrontierMessage) (r : ProcessResult) : List Call :=
  if r.skipped = some .fetchError then cs ++ [⟨ℓ, .retrying m⟩] else cs

lemma calls_conclude {p : Point} (hcalls : s.calls = cs ++ [⟨ℓ, p⟩]) :
    (conclude s cs.length ℓ m r).calls = afterMessage cs ℓ m r := by
  rw [conclude, afterMessage]
  split_ifs
  · simp [FleetState.setCall, hcalls]
  · simp [FleetState.endCall, hcalls]

lemma Since.conclude {i : ℕ} (h : Since W seenOf s₀ w₀ s w) :
    Since W seenOf s₀ w₀ (conclude s i ℓ m r) w := by
  rw [Fleet.conclude]
  split_ifs
  · exact h.of_calls _
  · exact h.of_calls _

section Handle

variable (B : Bridge F S W seenOf)
include B

/-- `pipeline.process` does not touch the seen-set. -/
lemma since_process (hs : Since W seenOf s₀ w₀ s w) (c : Readings) (item : FrontierItem) :
    (∀ r w', (W.process c item).run w = .ok r w' → Since W seenOf s₀ w₀ s w') ∧
      ∀ e w', (W.process c item).run w = .error e w' → Since W seenOf s₀ w₀ s w' := by
  constructor
  · intro r w' hrun
    obtain ⟨r', w₁, hpipe, h₁⟩ := run_bind_eq_ok.1 hrun
    obtain ⟨u, w₂, hnote, h₂⟩ := run_bind_eq_ok.1 h₁
    obtain ⟨p, hp, rfl⟩ := run_zoom_eq_ok.1 hpipe
    obtain rfl := run_modify_eq_ok.1 hnote
    obtain ⟨-, rfl⟩ := run_pure_eq_ok.1 h₂
    exact hs.of_frame (hs.seen_eq.trans ((B.process c item _ _ rfl).1 _ _ hp).symm)
      rfl rfl
  · intro e w' hrun
    rcases run_bind_eq_error.1 hrun with hpipe | ⟨r', w₁, -, h₁⟩
    · obtain ⟨p, hp, rfl⟩ := run_zoom_eq_error.1 hpipe
      exact hs.of_frame (hs.seen_eq.trans ((B.process c item _ _ rfl).2 _ _ hp).symm)
        rfl rfl
    · cases h₁

/-- `process_message`. -/
lemma follows_processMessage (hcalls : s.calls = cs ++ [⟨ℓ, .processing m⟩])
    (hs : Since W seenOf s₀ w₀ s w) (c : Readings) :
    (∀ r w', (processMessage (W.process c) W.add (askSeen W) m.toItem W.maxDepth).run w =
        .ok r w' → Follows F S W seenOf s₀ w₀ s (afterMessage cs ℓ m r) w') ∧
    ∀ e w', (processMessage (W.process c) W.add (askSeen W) m.toItem W.maxDepth).run w =
        .error e w' → Follows F S W seenOf s₀ w₀ s (cs ++ [⟨ℓ, .retrying m⟩]) w' := by
  obtain ⟨hprocess, hraise⟩ := since_process B hs c m.toItem
  have hstep : ∀ r : ProcessResult, F.step S W.numerals s (.process cs.length (.ok r)) =
      if r.expands m.toItem F.maxDepth then
        some { s with calls := cs ++ [⟨ℓ, .linking m r r.links⟩] }
      else some (conclude s cs.length ℓ m r) := by
    intro r
    simp [Fleet.step, hcalls, FleetState.setCall]
  constructor
  · intro r w' hrun
    obtain ⟨r', w₁, hproc, h₁⟩ := run_bind_eq_ok.1 hrun
    obtain ⟨u, w₂, hlinks, h₂⟩ := run_bind_eq_ok.1 h₁
    obtain ⟨rfl, rfl⟩ := run_pure_eq_ok.1 h₂
    have hs₁ := hprocess r' w₁ hproc
    rw [offerLinks, B.maxDepth_eq] at hlinks
    by_cases hexp : r'.expands m.toItem F.maxDepth = true
    · rw [if_pos hexp] at hlinks
      refine .step ((hstep r').trans (if_pos hexp)) ?_
      refine ((follows_forM B rfl (hs₁.of_calls _)).1 u w₂ hlinks).trans ?_
      intro t ht hsince
      have hlast : F.step S W.numerals t (.check cs.length) =
          some (conclude t cs.length ℓ m r') := by
        simp [Fleet.step, ht]
      exact .step hlast (.stay (calls_conclude ht) hsince.conclude)
    · rw [if_neg hexp] at hlinks
      obtain ⟨-, rfl⟩ := run_pure_eq_ok.1 hlinks
      refine .step ((hstep r').trans (if_neg hexp)) ?_
      exact .stay (calls_conclude hcalls) hs₁.conclude
  · intro e w' hrun
    rcases run_bind_eq_error.1 hrun with hproc | ⟨r', w₁, hproc, h₁⟩
    · have hfail : F.step S W.numerals s (.process cs.length (.error e)) =
          some { s with calls := cs ++ [⟨ℓ, .retrying m⟩] } := by
        simp [Fleet.step, hcalls, FleetState.setCall]
      exact .step hfail (.stay rfl ((hraise e w' hproc).of_calls _))
    · have hs₁ := hprocess r' w₁ hproc
      rcases run_bind_eq_error.1 h₁ with hlinks | ⟨u, w₂, -, h₂⟩
      · rw [offerLinks, B.maxDepth_eq] at hlinks
        by_cases hexp : r'.expands m.toItem F.maxDepth = true
        · rw [if_pos hexp] at hlinks
          refine .step ((hstep r').trans (if_pos hexp)) ?_
          exact (follows_forM B rfl (hs₁.of_calls _)).2 e w' hlinks
        · rw [if_neg hexp] at hlinks
          cases hlinks
      · cases h₂

omit B in
/-- A call may end at any point. -/
lemma follows_crash {call : Call} (hcalls : s.calls = cs ++ [call])
    (hs : Since W seenOf s₀ w₀ s w) : Follows F S W seenOf s₀ w₀ s cs w := by
  have hcrash : F.step S W.numerals s (.crash cs.length) = some { s with calls := cs } := by
    simp [Fleet.step, hcalls, FleetState.endCall]
  exact .step hcrash (.stay rfl (hs.of_calls _))

/-- `_schedule_retry`. -/
lemma follows_scheduleRetry (hcalls : s.calls = cs ++ [⟨ℓ, .retrying m⟩])
    (hs : Since W seenOf s₀ w₀ s w) {now : ℚ} (hend : Ends (W.scheduleRetry now m) w w') :
    Follows F S W seenOf s₀ w₀ s cs w' := by
  rcases hend with ⟨u, hrun⟩ | ⟨e, hrun⟩
  · have hkey : F.hasKey m.url = true := by
      have hkey := hasKey_of_publish_ok B hrun
      rwa [CrawlWorker.url_afterFailure] at hkey
    have hretry : F.step S W.numerals s (.retry cs.length now) =
        some (FleetState.publish { s with calls := cs }
          (CrawlWorker.afterFailure W.maxRetries now m).1 ℓ
          (CrawlWorker.afterFailure W.maxRetries now m).2) := by
      simp [Fleet.step, hcalls, hkey, FleetState.endCall, FleetState.publish, B.maxRetries_eq]
    exact .step hretry (.stay rfl ((hs.of_calls _).of_publish_ok B hrun ℓ))
  · exact follows_crash hcalls (hs.of_publish_error B hrun)

/-- The branch for a record of the frontier topic. -/
lemma follows_handleFrontier (hcalls : s.calls = cs ++ [⟨ℓ, .processing m⟩])
    (hs : Since W seenOf s₀ w₀ s w) {c : Clock} (hend : Ends (W.handleFrontier c m) w w') :
    Follows F S W seenOf s₀ w₀ s cs w' := by
  obtain ⟨hok, herror⟩ := follows_processMessage B hcalls hs c.pipeline
  rcases hend.of_bind with ⟨e, he⟩ | ⟨x, w₁, hx, hrest⟩
  · exact absurd he run_attempt_ne_error
  rcases run_attempt_eq_ok.1 hx with ⟨r, rfl, hr⟩ | ⟨e, rfl, he⟩
  · refine (hok r w₁ hr).trans ?_
    intro t ht hsince
    rw [afterMessage] at ht
    simp only at hrest
    split_ifs at ht hrest with hskip
    · exact follows_scheduleRetry B ht hsince hrest
    · obtain rfl := hrest.of_pure
      exact .stay ht hsince
  · refine (herror e w₁ he).trans ?_
    intro t ht hsince
    exact follows_scheduleRetry B ht hsince hrest

/-- The branch for a record of the retry topic. -/
lemma follows_handleRetry (hcalls : s.calls = cs ++ [⟨ℓ, .requeuing m⟩])
    (hs : Since W seenOf s₀ w₀ s w) {c : Clock} (hend : Ends (W.handleRetry c m) w w') :
    Follows F S W seenOf s₀ w₀ s cs w' := by
  have hsleep : Preserves (fun n => seenOf n = seenOf w.pipe.net)
      (if m.notBefore - c.arrival > 0 then W.sleep (min (m.notBefore - c.arrival) 5)
        else pure ()) := by
    split_ifs
    · exact B.sleep _ _
    · exact preserves_pure _
  rcases hend.of_bind with ⟨e, hwait⟩ | ⟨u, w₁, hwait, hrest⟩
  · obtain ⟨p, hp, rfl⟩ := run_zoom_eq_error.1 hwait
    obtain ⟨n, hn, rfl⟩ := run_zoom_eq_error.1 hp
    exact follows_crash hcalls (hs.of_net ((hsleep _ rfl).2 _ _ hn))
  · obtain ⟨p, hp, rfl⟩ := run_zoom_eq_ok.1 hwait
    obtain ⟨n, hn, rfl⟩ := run_zoom_eq_ok.1 hp
    have hs₁ := hs.of_net ((hsleep _ rfl).1 _ _ hn)
    rcases hrest with ⟨v, hrun⟩ | ⟨e, hrun⟩
    · have hkey : F.hasKey m.url = true :=
        hasKey_of_publish_ok (m := { m with notBefore := 0 }) B hrun
      have hrequeue : F.step S W.numerals s (.requeue cs.length) =
          some (FleetState.publish { s with calls := cs } .frontier ℓ
            { m with notBefore := 0 }) := by
        simp [Fleet.step, hcalls, hkey, FleetState.endCall, FleetState.publish]
      exact .step hrequeue (.stay rfl ((hs₁.of_calls _).of_publish_ok B hrun ℓ))
    · exact follows_crash hcalls (hs₁.of_publish_error B hrun)

/-- `_handle`, from the moment the record is handed out. -/
lemma follows_handle {k : ℕ} {e : Entry} (hk : s.pending[k]? = some e)
    (hseen : s.seen = seenOf w.pipe.net) {c : Clock}
    (hend : Ends (W.handle c e.topic e.value) w w') :
    Follows F S W seenOf (s.take k e) w s s.calls w' := by
  have hdeliver : F.step S W.numerals s (.deliver k) =
      some (F.begin W.numerals (s.take k e) e) := by
    simp [Fleet.step, hk]
  have hs : Since W seenOf (s.take k e) w (s.take k e) w := Since.start hseen
  refine .step hdeliver ?_
  rw [CrawlWorker.handle] at hend
  rw [begin]
  cases hm : FrontierMessage.fromBytes W.numerals e.value with
  | error err =>
      simp only [hm] at hend
      obtain rfl := hend.of_pure
      exact .stay rfl hs
  | ok m =>
      simp only [hm, B.maxDepth_eq] at hend ⊢
      split_ifs at hend ⊢ with htopic hdepth
      · exact follows_handleRetry B rfl (hs.of_calls _) hend
      · obtain rfl := hend.of_pure
        exact .stay rfl hs
      · exact follows_handleFrontier B rfl (hs.of_frame hseen rfl rfl) hend

/-- **A call of `_handle` is a run of the fleet.**  In a state of the fleet a record is to
be handed out, and a worker that shares the seen-set executes `_handle` on it without
interruption, until it returns or raises.  Then some steps of the fleet lead to a state
with the same seen-set, in which the record is handed out and not committed, exactly the
records that the worker has published were added to the topics, those that are not on the
dlq are to be handed out, and the other calls stand where they stood. -/
theorem exists_run_of_handle {k : ℕ} {e : Entry} (hk : s.pending[k]? = some e)
    (hseen : s.seen = seenOf w.pipe.net) {c : Clock}
    (hend : Ends (W.handle c e.topic e.value) w w') :
    ∃ t, Relation.ReflTransGen (F.Next S W.numerals) s t ∧
      t.calls = s.calls ∧ t.seen = seenOf w'.pipe.net ∧
      ∃ new entries, w'.published = w.published ++ new ∧
        Accepted (s.take k e) t new entries := by
  obtain ⟨t, hsteps, hcalls, hsince⟩ := follows_handle B hk hseen hend
  exact ⟨t, hsteps, hcalls, hsince.seen_eq, hsince.accepted⟩

end Handle

/-! ### A worker of the fleet -/

/-- A worker with an exact seen-set, whose fetches all time out. -/
def exactWorker : CrawlWorker (Finset String) Unit where
  pipeline :=
    { urls := plainUrls
      tools := CrawlWorker.timeoutWorker.pipeline.tools
      fetch := fun url _ => pure { finalUrl := url, status := 0, error := some "TimeoutError()" }
      sink := { savePage := fun _ => pure (), getValidators := fun _ => pure none } }
  numerals := noNumerals
  sendAndWait _ := pure ()
  checkAndAdd url := fun seen =>
    .ok ((SeenSet.exact String).checkAndAdd seen url).1
      ((SeenSet.exact String).checkAndAdd seen url).2
  sleep _ := pure ()

/-- The URLs that have a key are those with a registered domain. -/
def plainFleet : Fleet where
  hasKey url := (plainUrls.registeredDomain url).isOk

lemma bridge_exactWorker : Bridge plainFleet (SeenSet.exact String) exactWorker id := by
  refine ⟨rfl, rfl, fun _ => rfl, ?_, ?_, fun _ _ => preserves_pure _,
    fun _ _ => preserves_pure _, ?_⟩
  · intro url n b n' h
    obtain ⟨rfl, rfl⟩ := EStateM.Result.ok.inj h
    rfl
  · intro url n e n' h
    cases h
  · intro c item seen p hp
    have hrun : (exactWorker.pipeline.process c item).run p =
        (ofExcept (plainUrls.hostOf item.url) >>= fun host =>
          exactWorker.pipeline.fetchAndStore c item host).run p := rfl
    rw [hrun]
    refine (preserves_ofExcept _).bind ?_ p hp
    intro _ host _ _ p hp
    exact ⟨fun r p' h => (EStateM.Result.ok.inj h).2 ▸ hp, fun e p' h => by cases h⟩

/-- The worker takes the only seed, whose fetch times out; the fleet ends with a record on the
retry topic as well, and that record is to be handed out. -/
theorem exists_run_of_handle_timeout :
    ∃ s w' t, (plainFleet.machine (SeenSet.exact String) exactWorker.numerals ∅
        [{ url := "http://a.org/" }]).Reachable s ∧
      Ends (exactWorker.handle ⟨⟨1, 2⟩, 0, 2⟩ .frontier
        (FrontierMessage.toBytes { url := "http://a.org/" })) { pipe := ⟨{}, ∅, ()⟩ } w' ∧
      w'.published.map (·.topic) = [.retry] ∧
      Relation.ReflTransGen (plainFleet.Next (SeenSet.exact String) exactWorker.numerals) s t ∧
      t.log.map (·.topic) = [.frontier, .retry] ∧ t.pending.map (·.topic) = [.retry] := by
  have hstart := Machine.reachableBy_of_exec
    (M := plainFleet.machine (SeenSet.exact String) exactWorker.numerals ∅
      [{ url := "http://a.org/" }]) (P := fun _ _ => True) [.seed] rfl
  have hend : Ends (exactWorker.handle ⟨⟨1, 2⟩, 0, 2⟩ .frontier
      (FrontierMessage.toBytes { url := "http://a.org/" })) { pipe := ⟨{}, ∅, ()⟩ } _ :=
    Or.inl ⟨(), rfl⟩
  obtain ⟨t, hsteps, -, -, new, entries, hnew, hacc⟩ := exists_run_of_handle
    (s := ({ seeds := [], seen := ∅ } : FleetState (Finset String)).produce
      { url := "http://a.org/" }) (k := 0)
    (e := ⟨.frontier, 0, FrontierMessage.toBytes { url := "http://a.org/" }⟩)
    bridge_exactWorker rfl rfl hend
  rw [List.nil_append] at hnew
  -- the record that the worker has published is the one that the fleet has accepted
  have htopics : entries.map (·.topic) = [.retry] := by
    have htopics := congrArg (List.map Prod.fst) hacc.content_eq
    rw [← hnew, List.map_map] at htopics
    exact htopics
  obtain ⟨entry, rfl, htopic⟩ := List.map_eq_singleton_iff.1 htopics
  refine ⟨_, _, t, hstart, hend, rfl, hsteps, ?_, ?_⟩
  · rw [hacc.log_eq, List.map_append, htopics]
    rfl
  · rw [hacc.pending_eq]
    simp [htopic, FleetState.take, FleetState.produce, FleetState.publish]

end Fleet

end WebCrawler
