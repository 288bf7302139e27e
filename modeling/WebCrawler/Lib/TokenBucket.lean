import Mathlib.Tactic

/-!
# Token buckets

A bucket holds at most `C` tokens and is refilled at the rate that a poll asks for, up to
the time of the poll.  A poll takes a token if there is one, and in every case the bucket is
stamped with its time.  Time that runs backwards refills nothing, but moves the stamp.

The number of tokens stays between zero and `C` in every run (`bounded_bucket`).  For polls
in the order of their times the grants in a window are bounded by the capacity and by what
is refilled during the window (`grantsIn_le`): what was granted since a time, together with
the tokens left, is a quantity that a poll does not increase faster than the refill.
-/

namespace WebCrawler.Lib.TokenBucket

/-- A bucket, with the time up to which it was refilled. -/
structure Bucket (K : Type*) where
  tokens : K
  ts : K
deriving DecidableEq, Repr

/-- A poll at a time, with the rate at which tokens are refilled. -/
structure Poll (K : Type*) where
  time : K
  rate : K
deriving DecidableEq, Repr

variable {K : Type*} [Field K] [LinearOrder K] (C : K)

/-- The tokens of the bucket when the poll looks at it. -/
def refill (b : Bucket K) (p : Poll K) : K :=
  min C (b.tokens + max 0 (p.time - b.ts) * p.rate)

/-- The bucket before the first poll is full. -/
def before (b : Option (Bucket K)) (p : Poll K) : Bucket K := b.getD ⟨C, p.time⟩

/-- The poll finds a token. -/
def Grants (b : Option (Bucket K)) (p : Poll K) : Prop := 1 ≤ refill C (before C b p) p

instance (b : Option (Bucket K)) (p : Poll K) : Decidable (Grants C b p) :=
  inferInstanceAs (Decidable (_ ≤ _))

/-- The bucket after a poll. -/
def next (b : Option (Bucket K)) (p : Poll K) : Bucket K where
  tokens := refill C (before C b p) p - if Grants C b p then 1 else 0
  ts := p.time

/-- The bucket after a run of polls, and the polls that were granted. -/
def run (polls : List (Poll K)) : Option (Bucket K) × List (Poll K) :=
  polls.foldl (fun st p =>
    (some (next C st.1 p), if Grants C st.1 p then st.2 ++ [p] else st.2)) (none, [])

/-- The bucket after a run. -/
def bucket (polls : List (Poll K)) : Option (Bucket K) := (run C polls).1

/-- The polls of a run that were granted. -/
def grants (polls : List (Poll K)) : List (Poll K) := (run C polls).2

/-- The number of grants since a time. -/
def grantsSince (polls : List (Poll K)) (a : K) : ℕ := (grants C polls).countP (a ≤ ·.time)

/-- The number of grants in a window of time. -/
def grantsIn (polls : List (Poll K)) (a b : K) : ℕ :=
  (grants C polls).countP fun p => a ≤ p.time ∧ p.time ≤ b

variable {C} {polls : List (Poll K)} {p : Poll K} {b : Option (Bucket K)} {r : K}

lemma bucket_snoc (polls : List (Poll K)) (p : Poll K) :
    bucket C (polls ++ [p]) = some (next C (bucket C polls) p) := by
  rw [bucket, run, List.foldl_append]
  rfl

lemma grants_snoc (polls : List (Poll K)) (p : Poll K) :
    grants C (polls ++ [p]) =
      if Grants C (bucket C polls) p then grants C polls ++ [p] else grants C polls := by
  rw [grants, run, List.foldl_append]
  rfl

lemma grants_of_bucket_eq_none (h : bucket C polls = none) : grants C polls = [] := by
  rcases polls.eq_nil_or_concat' with rfl | ⟨polls', p, rfl⟩
  · rfl
  · rw [bucket_snoc] at h
    exact absurd h (by simp)

lemma mem_of_mem_grants (h : p ∈ grants C polls) : p ∈ polls := by
  induction polls using List.reverseRecOn with
  | nil => exact absurd h List.not_mem_nil
  | append_singleton polls q ih =>
      rw [grants_snoc] at h
      split_ifs at h
      · rcases List.mem_append.1 h with h | h
        · exact List.mem_append_left _ (ih h)
        · exact List.mem_append_right _ h
      · exact List.mem_append_left _ (ih h)

lemma grantsSince_snoc (polls : List (Poll K)) (p : Poll K) (a : K) :
    grantsSince C (polls ++ [p]) a =
      grantsSince C polls a + if Grants C (bucket C polls) p ∧ a ≤ p.time then 1 else 0 := by
  rw [grantsSince, grants_snoc]
  by_cases hg : Grants C (bucket C polls) p
  · by_cases ha : a ≤ p.time
    · simp [hg, ha, grantsSince]
    · simp [hg, ha, grantsSince]
  · simp [hg, grantsSince]

lemma grantsIn_snoc (polls : List (Poll K)) (p : Poll K) (a b : K) :
    grantsIn C (polls ++ [p]) a b = grantsIn C polls a b +
      if Grants C (bucket C polls) p ∧ a ≤ p.time ∧ p.time ≤ b then 1 else 0 := by
  rw [grantsIn, grants_snoc]
  by_cases hg : Grants C (bucket C polls) p
  · by_cases hp : a ≤ p.time ∧ p.time ≤ b
    · simp [hg, hp, grantsIn]
    · simp [hg, hp, grantsIn]
  · simp [hg, grantsIn]

lemma grantsIn_le_grantsSince (polls : List (Poll K)) (a b : K) :
    grantsIn C polls a b ≤ grantsSince C polls a := by
  refine List.countP_mono_left fun p _ hp => ?_
  exact decide_eq_true (of_decide_eq_true hp).1

/-- The stamp of the bucket is the time of a poll. -/
lemma exists_ts_eq {b : Bucket K} (h : bucket C polls = some b) : ∃ p ∈ polls, b.ts = p.time := by
  rcases polls.eq_nil_or_concat' with rfl | ⟨polls', p, rfl⟩
  · exact absurd h (by simp [bucket, run])
  · rw [bucket_snoc, Option.some.injEq] at h
    exact ⟨p, by simp, by rw [← h, next]⟩

/-- Polls in the order of their times come after the stamp of the bucket. -/
lemma ts_le_of_pairwise {polls : List (Poll K)} {p : Poll K}
    (h : ((polls ++ [p]).map (·.time)).Pairwise (· ≤ ·)) : ∀ b ∈ bucket C polls, b.ts ≤ p.time := by
  intro b hb
  obtain ⟨q, hq, hts⟩ := exists_ts_eq hb
  rw [List.map_append] at h
  rw [hts]
  exact (List.pairwise_append.1 h).2.2 q.time (List.mem_map_of_mem hq) p.time (by simp)

/-! ### One poll -/

/-- The number of tokens is in its range. -/
structure Bounded (C : K) (b : Bucket K) : Prop where
  nonneg : 0 ≤ b.tokens
  le : b.tokens ≤ C

lemma refill_le (b : Bucket K) (p : Poll K) : refill C b p ≤ C := min_le_left _ _

lemma bounded_before (hC : 0 ≤ C) (hb : ∀ b' ∈ b, Bounded C b') (p : Poll K) :
    Bounded C (before C b p) := by
  cases b with
  | none => exact ⟨hC, le_rfl⟩
  | some b' => exact hb b' rfl

variable [IsStrictOrderedRing K]

/-- A refill takes nothing away. -/
lemma Bounded.le_refill {b : Bucket K} (h : Bounded C b) (hrate : 0 ≤ p.rate) :
    b.tokens ≤ refill C b p := by
  refine le_min h.le ?_
  have hmul : 0 ≤ max 0 (p.time - b.ts) * p.rate := mul_nonneg (le_max_left _ _) hrate
  linarith

/-- The refill up to a later time. -/
lemma refill_le_add {b : Bucket K} (htime : b.ts ≤ p.time) :
    refill C b p ≤ b.tokens + (p.time - b.ts) * p.rate := by
  have hmax : max 0 (p.time - b.ts) = p.time - b.ts := max_eq_right (sub_nonneg.2 htime)
  rw [refill, hmax]
  exact min_le_right _ _

lemma bounded_next (hC : 0 ≤ C) (hb : ∀ b' ∈ b, Bounded C b') (hrate : 0 ≤ p.rate) :
    Bounded C (next C b p) := by
  have hbefore := bounded_before hC hb p
  have hle := hbefore.le_refill hrate
  have hC' := refill_le (C := C) (before C b p) p
  have hnonneg := hbefore.nonneg
  by_cases hg : Grants C b p
  · have hone : 1 ≤ refill C (before C b p) p := hg
    constructor
    · simp only [next, if_pos hg]
      linarith
    · simp only [next, if_pos hg]
      linarith
  · constructor
    · simp only [next, if_neg hg]
      linarith
    · simp only [next, if_neg hg]
      linarith

/-- The tokens stay in their range, whatever the times of the polls. -/
theorem bounded_bucket (hC : 0 ≤ C) (hrate : ∀ p ∈ polls, 0 ≤ p.rate) :
    ∀ b ∈ bucket C polls, Bounded C b := by
  induction polls using List.reverseRecOn with
  | nil => exact fun b hb => absurd hb (by simp [bucket, run])
  | append_singleton polls p ih =>
      intro b hb
      rw [bucket_snoc, Option.mem_some_iff] at hb
      rw [← hb]
      exact bounded_next hC (ih fun q hq => hrate q (by simp [hq])) (hrate p (by simp))

/-! ### Polls in the order of their times -/

/-- What was granted since a time, together with the tokens left, is bounded by the capacity
and the refill since then. -/
structure Amortized (C r : K) (polls : List (Poll K)) : Prop where
  since : ∀ b ∈ bucket C polls, ∀ a ≤ b.ts,
    (grantsSince C polls a : K) + b.tokens ≤ C + r * (b.ts - a)
  late : ∀ b ∈ bucket C polls, ∀ a, b.ts < a → grantsSince C polls a = 0
  window : ∀ a b, a ≤ b → (grantsIn C polls a b : K) ≤ C + r * (b - a)

lemma amortized_nil (hC : 0 ≤ C) (hr : 0 ≤ r) : Amortized C r ([] : List (Poll K)) := by
  refine ⟨nofun, nofun, fun a b hab => ?_⟩
  have hmul : 0 ≤ r * (b - a) := mul_nonneg hr (sub_nonneg.2 hab)
  show ((0 : ℕ) : K) ≤ C + r * (b - a)
  rw [Nat.cast_zero]
  linarith

/-- The bound right before the token is taken. -/
lemma Amortized.refill (h : Amortized C r polls) (hr : 0 ≤ r) (hrate : p.rate ≤ r)
    (htime : ∀ b ∈ bucket C polls, b.ts ≤ p.time) {a : K} (ha : a ≤ p.time) :
    (grantsSince C polls a : K) + refill C (before C (bucket C polls) p) p ≤
      C + r * (p.time - a) := by
  have hC := refill_le (C := C) (before C (bucket C polls) p) p
  have hmul : 0 ≤ r * (p.time - a) := mul_nonneg hr (sub_nonneg.2 ha)
  cases hb : bucket C polls with
  | none =>
      rw [hb] at hC
      rw [grantsSince, grants_of_bucket_eq_none hb, List.countP_nil, Nat.cast_zero]
      linarith
  | some b =>
      rw [hb] at hC
      rcases le_or_gt a b.ts with hle | hlt
      · have hsince := h.since b hb a hle
        have hadd : TokenBucket.refill C b p ≤ b.tokens + (p.time - b.ts) * p.rate :=
          refill_le_add (htime b hb)
        have hslow := mul_le_mul_of_nonneg_left hrate (sub_nonneg.2 (htime b hb))
        show (grantsSince C polls a : K) + TokenBucket.refill C b p ≤ _
        linarith
      · -- nothing was granted since `a`
        rw [h.late b hb a hlt, Nat.cast_zero]
        linarith

lemma Amortized.snoc (h : Amortized C r polls) (hr : 0 ≤ r) (hrate : p.rate ≤ r)
    (htime : ∀ b ∈ bucket C polls, b.ts ≤ p.time)
    (hbounded : Bounded C (next C (bucket C polls) p)) :
    Amortized C r (polls ++ [p]) := by
  have hsince : ∀ a ≤ p.time, (grantsSince C (polls ++ [p]) a : K) +
      (next C (bucket C polls) p).tokens ≤ C + r * (p.time - a) := by
    intro a ha
    have hbound := h.refill hr hrate htime ha
    rw [grantsSince_snoc]
    by_cases hg : Grants C (bucket C polls) p
    · simp only [hg, ha, and_self, if_true, next]
      push_cast
      linarith
    · simp only [hg, false_and, if_false, next]
      push_cast
      linarith
  refine ⟨fun b hb a ha => ?_, fun b hb a ha => ?_, fun a b hab => ?_⟩
  · rw [bucket_snoc, Option.mem_some_iff] at hb
    subst hb
    exact hsince a ha
  · rw [bucket_snoc, Option.mem_some_iff] at hb
    subst hb
    have hnot : ¬ a ≤ p.time := not_le.2 ha
    rw [grantsSince_snoc, if_neg fun hand => hnot hand.2, Nat.add_zero]
    cases hb : bucket C polls with
    | none => rw [grantsSince, grants_of_bucket_eq_none hb, List.countP_nil]
    | some b => exact h.late b hb a ((htime b hb).trans_lt ha)
  · rw [grantsIn_snoc]
    split_ifs with hin
    · -- all grants so far are before the end of the window
      have hle := hsince a hin.2.1
      have hnonneg := hbounded.nonneg
      have hcount : (grantsIn C polls a b : K) ≤ grantsSince C polls a := by
        exact_mod_cast grantsIn_le_grantsSince polls a b
      rw [grantsSince_snoc, if_pos ⟨hin.1, hin.2.1⟩] at hle
      have hmul : r * (p.time - a) ≤ r * (b - a) :=
        mul_le_mul_of_nonneg_left (by linarith [hin.2.2]) hr
      push_cast at hle ⊢
      linarith
    · rw [Nat.add_zero]
      exact h.window a b hab

lemma amortized_of_pairwise (hC : 0 ≤ C) (hr : 0 ≤ r)
    (hrate : ∀ p ∈ polls, 0 ≤ p.rate ∧ p.rate ≤ r)
    (htime : (polls.map (·.time)).Pairwise (· ≤ ·)) : Amortized C r polls := by
  induction polls using List.reverseRecOn with
  | nil => exact amortized_nil hC hr
  | append_singleton polls p ih =>
      have hrate' : ∀ q ∈ polls, 0 ≤ q.rate ∧ q.rate ≤ r := fun q hq => hrate q (by simp [hq])
      have htime' : (polls.map (·.time)).Pairwise (· ≤ ·) := by
        rw [List.map_append] at htime
        exact (List.pairwise_append.1 htime).1
      obtain ⟨hp0, hp⟩ := hrate p (by simp)
      refine (ih hrate' htime').snoc hr hp (ts_le_of_pairwise htime) ?_
      exact bounded_next hC (bounded_bucket hC fun q hq => (hrate' q hq).1) hp0

/-- The grants in a window, at rates that do not exceed one. -/
theorem grantsIn_le_of_rate_le (hC : 0 ≤ C) (hr : 0 ≤ r)
    (hrate : ∀ p ∈ polls, 0 ≤ p.rate ∧ p.rate ≤ r)
    (htime : (polls.map (·.time)).Pairwise (· ≤ ·)) {a b : K} (hab : a ≤ b) :
    (grantsIn C polls a b : K) ≤ C + r * (b - a) :=
  (amortized_of_pairwise hC hr hrate htime).window a b hab

/-- **A capacity of one.**  At rates that do not exceed one, two grants are at least the time of
a token apart. -/
theorem grants_apart (hr : 0 < r) (hrate : ∀ p ∈ polls, 0 ≤ p.rate ∧ p.rate ≤ r)
    (htime : (polls.map (·.time)).Pairwise (· ≤ ·)) :
    (grants 1 polls).Pairwise fun g g' => 1 / r ≤ g'.time - g.time := by
  induction polls using List.reverseRecOn with
  | nil => exact List.Pairwise.nil
  | append_singleton polls p ih =>
      have hrate' : ∀ q ∈ polls, 0 ≤ q.rate ∧ q.rate ≤ r := fun q hq => hrate q (by simp [hq])
      have hordered := List.pairwise_append.1 (List.map_append ▸ htime)
      have hrest := ih hrate' hordered.1
      rw [grants_snoc]
      split_ifs with hg
      · refine List.pairwise_append.2 ⟨hrest, List.pairwise_singleton _ _, fun g hmem g' hg' => ?_⟩
        obtain rfl := List.mem_singleton.1 hg'
        have hle : g.time ≤ g'.time :=
          hordered.2.2 _ (List.mem_map_of_mem (mem_of_mem_grants hmem)) _ (by simp)
        -- the earlier grant and the token that is found now were refilled since
        have hcount : 1 ≤ grantsSince 1 polls g.time :=
          List.countP_pos_iff.2 ⟨g, hmem, decide_eq_true le_rfl⟩
        have hamortized := (amortized_of_pairwise zero_le_one hr.le hrate' hordered.1).refill hr.le
          (hrate g' (by simp)).2 (ts_le_of_pairwise htime) hle
        have hone : (1 : K) ≤ refill 1 (before 1 (bucket 1 polls) g') g' := hg
        have hcast : (1 : K) ≤ grantsSince 1 polls g.time := by exact_mod_cast hcount
        rw [div_le_iff₀ hr]
        linarith
      · exact hrest

/-- **The rate bound.**  The grants in a window, at a fixed rate. -/
theorem grantsIn_le (hC : 0 ≤ C) (hr : 0 ≤ r) (hrate : ∀ p ∈ polls, p.rate = r)
    (htime : (polls.map (·.time)).Pairwise (· ≤ ·)) {a b : K} (hab : a ≤ b) :
    (grantsIn C polls a b : K) ≤ C + r * (b - a) :=
  grantsIn_le_of_rate_le hC hr (fun p hp => ⟨(hrate p hp).symm ▸ hr, (hrate p hp).le⟩) htime hab

/-! ### When a token is there

A bucket that is polled at one rate has its next token at a fixed time, which polls that are
refused do not change. -/

/-- The time at which the bucket has a token, at a rate. -/
def due (b : Bucket K) (rate : K) : K := b.ts + (1 - b.tokens) / rate

section Due

variable {b : Bucket K}

/-- A poll is granted from that time on. -/
lemma grants_iff_due_le (hC : 1 ≤ C) (hrate : 0 < p.rate) (hts : b.ts ≤ p.time) :
    Grants C (some b) p ↔ due b p.rate ≤ p.time := by
  show 1 ≤ refill C b p ↔ _
  rw [refill, max_eq_right (sub_nonneg.2 hts), le_min_iff, and_iff_right hC, due,
    ← le_sub_iff_add_le', div_le_iff₀ hrate, sub_le_iff_le_add']

omit [IsStrictOrderedRing K] in
/-- The bucket that a refused poll leaves. -/
lemma due_of_refused {b : Option (Bucket K)} (hg : ¬ Grants C b p) :
    due (next C b p) p.rate = p.time + (1 - refill C (before C b p) p) / p.rate := by
  rw [due, next, if_neg hg, sub_zero]

/-- **A refused poll leaves the time as it is.** -/
lemma due_next (hC : 1 ≤ C) (hrate : 0 < p.rate) (hts : b.ts ≤ p.time)
    (hg : ¬ Grants C (some b) p) : due (next C (some b) p) p.rate = due b p.rate := by
  have hshort : refill C b p < 1 := not_le.1 hg
  have hrefill : refill C b p = b.tokens + (p.time - b.ts) * p.rate := by
    rw [refill, max_eq_right (sub_nonneg.2 hts)] at hshort ⊢
    refine min_eq_right ?_
    rcases min_lt_iff.1 hshort with hlt | hlt
    · exact absurd hC (not_le.2 hlt)
    · exact hlt.le.trans hC
  rw [due_of_refused hg]
  show p.time + (1 - refill C b p) / p.rate = _
  rw [hrefill, due, ← sub_sub, sub_div, mul_div_cancel_right₀ _ hrate.ne']
  ring

end Due

/-! ### A clock that steps back

When the times alternate between two values, every step forwards refills the bucket anew. -/

/-- Polls that go back and forth between two times. -/
def backAndForth (r lo hi : K) (n : ℕ) : List (Poll K) :=
  (List.replicate n [⟨lo, r⟩, ⟨hi, r⟩]).flatten

/-- The grants of a run, with a weight that makes up for the tokens lost at the brim. -/
def potential (C : K) (polls : List (Poll K)) : K :=
  2 * C * (grants C polls).length + ((bucket C polls).map (·.tokens)).getD 0

omit [IsStrictOrderedRing K] in
lemma potential_snoc (polls : List (Poll K)) (p : Poll K) :
    potential C (polls ++ [p]) = 2 * C * (grants C polls).length +
      refill C (before C (bucket C polls) p) p +
        if Grants C (bucket C polls) p then 2 * C - 1 else 0 := by
  rw [potential, bucket_snoc, grants_snoc, Option.map_some, Option.getD_some, next]
  split_ifs with hg
  · rw [List.length_append, List.length_singleton]
    push_cast
    ring
  · ring

/-- No poll lowers the potential. -/
lemma potential_le_snoc (hC : 1 ≤ C) (hb : ∀ b ∈ bucket C polls, Bounded C b)
    (hrate : 0 ≤ p.rate) : potential C polls ≤ potential C (polls ++ [p]) := by
  have hbounded := bounded_before (by linarith) hb p
  have hle : ((bucket C polls).map (·.tokens)).getD 0 ≤
      refill C (before C (bucket C polls) p) p := by
    have hrefill := hbounded.le_refill hrate
    cases hbucket : bucket C polls with
    | none =>
        rw [hbucket] at hbounded hrefill
        exact hbounded.nonneg.trans hrefill
    | some b =>
        rw [hbucket] at hrefill
        exact hrefill
  rw [potential_snoc, potential]
  split_ifs
  · linarith
  · linarith

/-- A step forwards in time raises the potential. -/
lemma potential_add_le_snoc (hC : 1 ≤ C) {b : Bucket K} (hbucket : bucket C polls = some b)
    (hb : Bounded C b) (htime : b.ts ≤ p.time) :
    potential C polls + min 1 ((p.time - b.ts) * p.rate) ≤ potential C (polls ++ [p]) := by
  have hmax : max 0 (p.time - b.ts) = p.time - b.ts := max_eq_right (sub_nonneg.2 htime)
  have hmin₁ := min_le_left 1 ((p.time - b.ts) * p.rate)
  have hmin₂ := min_le_right 1 ((p.time - b.ts) * p.rate)
  have hle := hb.le
  rw [potential_snoc, potential, hbucket, Option.map_some, Option.getD_some]
  rcases le_total C (b.tokens + (p.time - b.ts) * p.rate) with hfull | hroom
  · -- the bucket is full again, and the poll is granted
    have hrefill : refill C (before C (some b) p) p = C := by
      show min C (b.tokens + max 0 (p.time - b.ts) * p.rate) = C
      rw [hmax, min_eq_left hfull]
    have hg : Grants C (some b) p := by
      rw [Grants, hrefill]
      exact hC
    rw [if_pos hg, hrefill]
    linarith
  · have hrefill : refill C (before C (some b) p) p = b.tokens + (p.time - b.ts) * p.rate := by
      show min C (b.tokens + max 0 (p.time - b.ts) * p.rate) = _
      rw [hmax, min_eq_right hroom]
    rw [hrefill]
    split_ifs
    · linarith
    · linarith

lemma potential_le (hC : 0 ≤ C) (hb : ∀ b ∈ bucket C polls, Bounded C b) :
    potential C polls ≤ 2 * C * (grants C polls).length + C := by
  rw [potential]
  cases hbucket : bucket C polls with
  | none =>
      rw [Option.map_none, Option.getD_none]
      linarith
  | some b =>
      have hle := (hb b hbucket).le
      rw [Option.map_some, Option.getD_some]
      linarith

variable {lo hi : K}

omit [IsStrictOrderedRing K] in
lemma rate_backAndForth (hr : 0 ≤ r) (hrate : ∀ p ∈ polls, 0 ≤ p.rate) (lo hi : K) (n : ℕ) :
    ∀ p ∈ polls ++ backAndForth r lo hi n, 0 ≤ p.rate := by
  intro p hp
  rcases List.mem_append.1 hp with hp | hp
  · exact hrate p hp
  · obtain ⟨l, hl, hpl⟩ := List.mem_flatten.1 hp
    rw [List.eq_of_mem_replicate hl] at hpl
    simp only [List.mem_cons, List.not_mem_nil, or_false] at hpl
    rcases hpl with rfl | rfl
    · exact hr
    · exact hr

lemma potential_backAndForth (hC : 1 ≤ C) (hr : 0 ≤ r) (hlt : lo ≤ hi)
    (hrate : ∀ p ∈ polls, 0 ≤ p.rate) (n : ℕ) :
    potential C polls + n * min 1 ((hi - lo) * r) ≤
      potential C (polls ++ backAndForth r lo hi n) := by
  induction n with
  | zero => simp [backAndForth]
  | succ n ih =>
      have hsplit : polls ++ backAndForth r lo hi (n + 1) =
          (polls ++ backAndForth r lo hi n ++ [⟨lo, r⟩]) ++ [⟨hi, r⟩] := by
        rw [backAndForth, List.replicate_succ', List.flatten_append]
        simp [backAndForth]
      have hbounded := bounded_bucket (C := C) (by linarith) (rate_backAndForth hr hrate lo hi n)
      have hback := potential_le_snoc (p := ⟨lo, r⟩) hC hbounded hr
      -- the bucket is stamped with the earlier time before the poll at the later one
      have hforth : potential C (polls ++ backAndForth r lo hi n ++ [⟨lo, r⟩]) +
          min 1 ((hi - lo) * r) ≤ _ :=
        potential_add_le_snoc (p := ⟨hi, r⟩) hC (bucket_snoc _ ⟨lo, r⟩)
          (bounded_next (by linarith) hbounded hr) hlt
      rw [hsplit]
      push_cast
      linarith

lemma potential_nonneg (hC : 0 ≤ C) (hb : ∀ b ∈ bucket C polls, Bounded C b) :
    0 ≤ potential C polls := by
  have hcount : (0 : K) ≤ 2 * C * (grants C polls).length :=
    mul_nonneg (by linarith) (Nat.cast_nonneg _)
  rw [potential]
  cases hbucket : bucket C polls with
  | none =>
      rw [Option.map_none, Option.getD_none]
      linarith
  | some b =>
      have hnonneg := (hb b hbucket).nonneg
      rw [Option.map_some, Option.getD_some]
      linarith

/-- **No bound for a clock that steps back.**  Going back and forth between two times, the
polls are granted more often than any number. -/
theorem exists_lt_grants [Archimedean K] (hC : 1 ≤ C) (hr : 0 < r) (hlt : lo < hi)
    (hrate : ∀ p ∈ polls, 0 ≤ p.rate) (B : K) :
    ∃ n, B < (grants C (polls ++ backAndForth r lo hi n)).length := by
  have hC0 : 0 ≤ C := by linarith
  have hgain : 0 < min 1 ((hi - lo) * r) :=
    lt_min one_pos (mul_pos (sub_pos.2 hlt) hr)
  obtain ⟨n, hn⟩ := Archimedean.arch (2 * C * B + C + 1) hgain
  rw [nsmul_eq_mul] at hn
  refine ⟨n, ?_⟩
  have hstart := potential_nonneg hC0 (bounded_bucket hC0 hrate)
  have hpot := potential_backAndForth hC hr.le hlt.le hrate n
  have hle := potential_le hC0 (bounded_bucket hC0 (rate_backAndForth hr.le hrate lo hi n))
  by_contra hnot
  have hmul := mul_le_mul_of_nonneg_left (not_lt.1 hnot) (show (0 : K) ≤ 2 * C by linarith)
  linarith

end WebCrawler.Lib.TokenBucket
