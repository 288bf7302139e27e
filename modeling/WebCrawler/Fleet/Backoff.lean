import WebCrawler.Worker

/-!
# The back-off of the retry topic

A message that fails is stored on the retry topic with the time `not_before`, at most 30 seconds
ahead.  The worker that takes it from there sleeps until then, but for 5 seconds at most, and
sends it to the frontier.  So the back-off is honoured exactly if the message is not taken more
than 5 seconds too early.

The network of a worker has a clock here, which goes on while a call sleeps.  A message whose URL
has no registered domain is never sent.
-/

namespace WebCrawler

open Lib

namespace CrawlWorker

/-- A network whose clock never goes back, on which sleeping takes at least as long as asked, and
every send is noted with the time at which it is made. -/
structure Timed {ν ω : Type} (W : CrawlWorker ν ω) (clock : ν → ℚ)
    (sends : ν → List (ℚ × Published)) : Prop where
  sleep : ∀ {d : ℚ} {u : Unit} {n n' : ν}, (W.sleep d).run n = .ok u n' →
    clock n ≤ clock n' ∧ clock n + d ≤ clock n' ∧ sends n' = sends n
  send : ∀ {p : Published} {u : Unit} {n n' : ν}, (W.sendAndWait p).run n = .ok u n' →
    clock n ≤ clock n' ∧ sends n' = sends n ++ [(clock n, p)]

section Retry

variable {ν ω : Type} {W : CrawlWorker ν ω} {clock : ν → ℚ} {sends : ν → List (ℚ × Published)}
  {c : Clock} {m : FrontierMessage} {s s' : WorkerState ν ω}

/-- A record of the retry topic is sent to the frontier once, after the sleep. -/
lemma sends_of_handle_retry (hW : Timed W clock sends) (harrival : clock s.pipe.net = c.arrival)
    {u : Unit} (h : (W.handle c .retry m.toBytes).run s = .ok u s') :
    ∃ domain, W.pipeline.urls.registeredDomain m.url = .ok domain ∧ ∃ τ,
      sends s'.pipe.net =
        sends s.pipe.net ++ [(τ, record .frontier domain { m with notBefore := 0 })] ∧
      c.arrival ≤ τ ∧ c.arrival + min (m.notBefore - c.arrival) 5 ≤ τ := by
  rw [handle, FrontierMessage.fromBytes_toBytes] at h
  simp only [if_true] at h
  obtain ⟨v, s₁, hsleep, hpublish⟩ := run_bind_eq_ok.1 h
  obtain ⟨p, hp, rfl⟩ := run_zoom_eq_ok.1 hsleep
  obtain ⟨n, hn, rfl⟩ := run_zoom_eq_ok.1 hp
  obtain ⟨domain, hdomain, hpublish⟩ := run_ofExcept_bind_eq_ok.1 hpublish
  obtain ⟨w, s₂, hsend, hnote⟩ := run_bind_eq_ok.1 hpublish
  obtain ⟨p', hp', rfl⟩ := run_zoom_eq_ok.1 hsend
  obtain ⟨n', hn', rfl⟩ := run_zoom_eq_ok.1 hp'
  obtain rfl := run_modify_eq_ok.1 hnote
  have hsends : sends n' = sends n ++ [(clock n, _)] := (hW.send hn').2
  refine ⟨domain, hdomain, clock n, ?_⟩
  rw [show sends n' = _ from hsends]
  split_ifs at hn with hdelay
  · obtain ⟨hle, hslept, hsame⟩ := hW.sleep hn
    rw [hsame, ← harrival]
    exact ⟨rfl, hle, harrival ▸ hslept⟩
  · obtain ⟨-, rfl⟩ := run_pure_eq_ok.1 hn
    refine ⟨rfl, harrival.ge, ?_⟩
    have hmin := min_le_left (m.notBefore - c.arrival) 5
    linarith

end Retry

/-- Wherever and whenever a record with this message is taken from the retry topic at this time,
the message goes back to the frontier no earlier than it says. -/
def HonouredAt (U : UrlUtils) (m : FrontierMessage) (arrival : ℚ) : Prop :=
  ∀ (ν ω : Type) (W : CrawlWorker ν ω) (clock : ν → ℚ) (sends : ν → List (ℚ × Published)),
    W.pipeline.urls = U → Timed W clock sends → ∀ (c : Clock) (u : Unit) (s s' : WorkerState ν ω),
      c.arrival = arrival → clock s.pipe.net = arrival →
      (W.handle c .retry m.toBytes).run s = .ok u s' →
      ∀ sent ∈ (sends s'.pipe.net).drop (sends s.pipe.net).length, m.notBefore ≤ sent.1

/-- A network on which sleeping takes as long as asked and sending takes no time. -/
def promptWorker (U : UrlUtils) : CrawlWorker (ℚ × List (ℚ × Published)) Unit where
  pipeline :=
    { urls := U
      tools :=
        { parsePage := fun _ _ => .ok {}
          extractText := fun _ => .ok ""
          sha256 := fun _ => ""
          tokenizer := { tokens := fun _ => [], tokenHash := fun _ => 0 } }
      fetch := fun url _ => pure { finalUrl := url, status := 0, error := some "TimeoutError()" }
      sink := { savePage := fun _ => pure (), getValidators := fun _ => pure none } }
  numerals := noNumerals
  sendAndWait p := modify fun n => (n.1, n.2 ++ [(n.1, p)])
  checkAndAdd _ := pure true
  sleep d := modify fun n => (n.1 + max d 0, n.2)

variable {U : UrlUtils} {m : FrontierMessage} {arrival : ℚ} {domain : String}

lemma timed_promptWorker : Timed (promptWorker U) Prod.fst Prod.snd where
  sleep := by
    intro d u n n' h
    obtain rfl := run_modify_eq_ok.1 h
    exact ⟨le_add_of_nonneg_right (le_max_right d 0), by simp, rfl⟩
  send := by
    intro p u n n' h
    obtain rfl := run_modify_eq_ok.1 h
    exact ⟨le_refl _, rfl⟩

/-- On the prompt network, a message that comes too early goes back after its sleep. -/
lemma handle_retry_promptWorker (hdomain : U.registeredDomain m.url = .ok domain)
    (h : arrival < m.notBefore) :
    ∃ s', ((promptWorker U).handle ⟨⟨arrival, arrival⟩, arrival, arrival⟩ .retry m.toBytes).run
        { pipe := ⟨{}, (arrival, []), ()⟩ } = .ok () s' ∧
      s'.pipe.net.2 = [(arrival + max (min (m.notBefore - arrival) 5) 0,
        record .frontier domain { m with notBefore := 0 })] := by
  have hsleep : (if m.notBefore - arrival > 0 then
        (promptWorker U).sleep (min (m.notBefore - arrival) 5) else pure ()).run (arrival, []) =
      .ok () (arrival + max (min (m.notBefore - arrival) 5) 0, []) := by
    rw [if_pos (sub_pos.2 h)]
    rfl
  rw [handle, FrontierMessage.fromBytes_toBytes]
  simp only [if_true]
  refine ⟨_, run_bind_eq_ok.2 ⟨(), _, run_zoom_eq_ok.2 ⟨_, run_zoom_eq_ok.2 ⟨_, hsleep, rfl⟩, rfl⟩,
    run_ofExcept_bind_eq_ok.2 ⟨domain, hdomain, rfl⟩⟩, rfl⟩

lemma honouredAt_iff :
    HonouredAt U m arrival ↔
      (U.registeredDomain m.url).isOk = false ∨ m.notBefore ≤ arrival + 5 := by
  constructor
  · intro h
    rcases hdomain : U.registeredDomain m.url with e | domain
    · exact Or.inl rfl
    · refine Or.inr ?_
      by_contra hlate
      have hearly : arrival < m.notBefore := by linarith
      obtain ⟨s', hrun, hsends⟩ := handle_retry_promptWorker hdomain hearly
      have hsent := h _ _ (promptWorker U) Prod.fst Prod.snd rfl timed_promptWorker _ _ _ s' rfl rfl
        hrun
      rw [hsends] at hsent
      have hlast : m.notBefore ≤ arrival + max (min (m.notBefore - arrival) 5) 0 :=
        hsent _ List.mem_cons_self
      have hmin := min_le_right (m.notBefore - arrival) 5
      have hmax := max_le hmin (by norm_num : (0 : ℚ) ≤ 5)
      linarith
  · rintro hcases ν ω W clock sends rfl hW c u s s' rfl hclock hrun sent hsent
    obtain ⟨domain, hdomain, τ, hsends, harrival, hslept⟩ := sends_of_handle_retry hW hclock hrun
    have hle : m.notBefore ≤ c.arrival + 5 := by
      refine hcases.resolve_left ?_
      intro hnone
      rw [hdomain] at hnone
      cases hnone
    rw [hsends, List.drop_left] at hsent
    obtain rfl := List.mem_singleton.1 hsent
    rcases min_choice (m.notBefore - c.arrival) 5 with hmin | hmin
    · rw [hmin] at hslept
      linarith
    · rw [hmin] at hslept
      linarith

/-- **When the back-off is honoured.**  A message that fails and has attempts left is stored with
a delay of `2 ^ attempts` seconds, at most 30; taken from the retry topic at some time, it goes
back to the frontier no earlier than stored, wherever that happens, exactly if no more than 5
seconds of the delay are left, or its URL has no registered domain under which it could be sent. -/
theorem backoff_honoured_iff (U : UrlUtils) (maxRetries : ℤ) (m : FrontierMessage)
    (failure arrival : ℚ) :
    (∀ stored, afterFailure maxRetries failure m = (.retry, stored) →
        HonouredAt U stored arrival) ↔
      m.attempts ≥ maxRetries ∨ (U.registeredDomain m.url).isOk = false ∨
        failure + min (2 ^ (m.attempts + 1)) 30 ≤ arrival + 5 := by
  rw [afterFailure]
  split_ifs with hleft
  · simp [hleft]
  · simp [hleft, honouredAt_iff]

/-- The third delay is 8 seconds, of which a worker that takes the record at once waits for 5. -/
theorem third_retry_comes_early :
    ∃ stored, afterFailure 3 0 { url := "http://a.org/", attempts := 2 } = (.retry, stored) ∧
      stored.notBefore = 8 ∧
      (∃ s', ((promptWorker plainUrls).handle ⟨⟨0, 0⟩, 0, 0⟩ .retry stored.toBytes).run
          { pipe := ⟨{}, (0, []), ()⟩ } = .ok () s' ∧
        s'.pipe.net.2 = [(5, record .frontier "a.org" { stored with notBefore := 0 })]) ∧
      ¬ HonouredAt plainUrls stored 0 := by
  have hdelay : (0 : ℚ) + min (2 ^ ((2 : ℤ) + 1)) 30 = 8 := by norm_num
  have hdomain : plainUrls.registeredDomain "http://a.org/" = .ok "a.org" := by decide
  refine ⟨_, rfl, hdelay, ?_, ?_⟩
  · have hearly : (0 : ℚ) < 0 + min (2 ^ ((2 : ℤ) + 1)) 30 := by norm_num
    obtain ⟨s', hrun, hsends⟩ := handle_retry_promptWorker
      (m := ⟨"http://a.org/", 0, none, 3, 0 + min (2 ^ ((2 : ℤ) + 1)) 30⟩) hdomain hearly
    refine ⟨s', hrun, hsends.trans ?_⟩
    norm_num
  · rw [honouredAt_iff]
    refine not_or.2 ⟨?_, by norm_num⟩
    intro hnone
    rw [show plainUrls.registeredDomain _ = .ok "a.org" from hdomain] at hnone
    cases hnone

end CrawlWorker

end WebCrawler
