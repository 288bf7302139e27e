import WebCrawler.Url.Normalize

/-!
# White space at the ends of a URL

`canonicalize_url` strips its input.  What stands at the front is dropped by `urlsplit` anyway; at
the end, the text loses the blank characters of its query, or of its path or authority if it has no
query.  So an http URL is still one, but its authority may have become empty (`urlsplit_trim`).
-/

namespace WebCrawler

open Lib

/-! ### Blank characters -/


/-- The codes of the characters that may be stripped. -/
def blankCodes : List ℕ := List.range 33 ++ spaceCodes

section Blank

variable {blank : Char → Bool} {w : Text} {c : Char}

/-- Trimming, behind a character that is not blank. -/
lemma rdropWhile_append_cons (hc : blank c = false) (B Q : Text) :
    (B ++ c :: Q).rdropWhile blank = B ++ c :: Q.rdropWhile blank := by
  induction Q using List.reverseRecOn with
  | nil => exact List.rdropWhile_concat_neg blank B c (by simp [hc])
  | append_singleton Q d ih =>
      rw [← List.cons_append, ← List.append_assoc, List.rdropWhile_concat, List.rdropWhile_concat,
        ih]
      split_ifs
      · rfl
      · simp

variable (hblank : ∀ c, blank c = true → isSpace c = true ∨ c.toNat ≤ 32)
include hblank

lemma mem_blankCodes (h : blank c = true) : c.toNat ∈ blankCodes := by
  rw [blankCodes, List.mem_append, List.mem_range]
  rcases hblank c h with hspace | hle
  · exact Or.inr (by simpa [isSpace] using hspace)
  · exact Or.inl (by omega)

/-- A property of all blank characters is checked by their codes. -/
lemma of_blank {P : Char → Prop} (hP : ∀ n ∈ blankCodes, P (Char.ofNat n)) (h : blank c = true) :
    P c := by
  have hc := hP _ (mem_blankCodes hblank h)
  rwa [Char.ofNat_toNat] at hc

lemma blank_eq_false_of_delimiter (h : c ∈ ['/', '?', '#', ':', '&', '=']) : blank c = false := by
  by_contra htrue
  exact of_blank hblank (P := fun c => c ∉ ['/', '?', '#', ':', '&', '=']) (by decide +kernel)
    (by simpa using htrue) h

/-- The bytes of blank characters are no printable ASCII characters. -/
lemma of_mem_utf8_blank (hw : ∀ c ∈ w, blank c = true) {b : UInt8} (hb : b ∈ utf8 w) :
    b.toNat ≤ 32 ∨ 128 ≤ b.toNat := by
  obtain ⟨c, hc, hb⟩ := List.mem_flatMap.1 hb
  exact of_blank hblank
    (P := fun c => ∀ b ∈ String.utf8EncodeChar c, b.toNat ≤ 32 ∨ 128 ≤ b.toNat)
    (by decide +kernel) (hw c hc) b hb

lemma inert_of_blank (hw : ∀ c ∈ w, blank c = true) : Inert w where
  amp h := absurd (hw _ h) (by simp [blank_eq_false_of_delimiter hblank])
  eq h := absurd (hw _ h) (by simp [blank_eq_false_of_delimiter hblank])
  bytes := by
    intro b hb
    have hcode := of_mem_utf8_blank hblank hw hb
    refine ⟨?_, ?_, ?_⟩
    · rintro rfl
      revert hcode
      decide
    · rintro rfl
      revert hcode
      decide
    · rw [hexValue]
      split_ifs <;> first | omega | rfl

end Blank

/-! ### The parts of a trimmed URL -/

section Cut

variable {c : Char} {s : Text}

lemma before_append_of_mem (h : c ∈ s) (t : Text) : before c (s ++ t) = before c s := by
  have hs := before_append_behind h
  rw [← hs, List.append_assoc, List.cons_append, before_append (notMem_before c s), hs]

lemma behind_append_of_mem (h : c ∈ s) (t : Text) : behind c (s ++ t) = behind c s ++ t := by
  have hs := before_append_behind h
  rw [← hs, List.append_assoc, List.cons_append, behind_append (notMem_before c s), hs]

end Cut

section Trim

variable {blank : Char → Bool} {chk : NetlocChecks} {t H w : Text} {p p' : SplitResult}

lemma parts_of_urlsplit (h : urlsplit chk t = .ok p) :
    p.scheme = (splitScheme [] (headOf t)).1 ∧
      (p.netloc, p.path) = splitNetloc (splitScheme [] (headOf t)).2 := by
  rw [urlsplit] at h
  simp only at h
  split_ifs at h
  obtain rfl := Except.ok.inj h
  exact ⟨rfl, rfl⟩

lemma not_isHttp_nil : ¬ IsHttp [] := by decide

/-- The head of an http URL has a scheme. -/
lemma splitScheme_of_isHttp (h : IsHttp (splitScheme [] H).1) :
    ':' ∈ H ∧ (before ':' H).head?.any Char.isAlpha ∧
      splitScheme [] H = ((before ':' H).map Char.toLower, behind ':' H) := by
  rw [splitScheme] at h ⊢
  split_ifs at h ⊢ with hcond
  · exact ⟨hcond.1, hcond.2.1, rfl⟩
  · exact absurd h not_isHttp_nil

/-- An http URL starts with a letter, once control characters and spaces are dropped. -/
lemma isAlpha_of_isHttp (hscheme : IsHttp (splitScheme [] (headOf t)).1) :
    ∃ d rest, lstripControl t = d :: rest ∧ d.isAlpha = true := by
  obtain ⟨hcolon, halpha, -⟩ := splitScheme_of_isHttp hscheme
  cases hl : lstripControl t with
  | nil =>
      rw [headOf, hl] at hcolon
      simp [dropUnsafe, before] at hcolon
  | cons d rest =>
      refine ⟨d, rest, rfl, ?_⟩
      have hd : ¬ d.toNat ≤ 32 := by
        have hhead := List.head?_dropWhile_not (fun c : Char => decide (c.toNat ≤ 32)) t
        rw [← lstripControl, hl] at hhead
        simpa using hhead
      have hsafe : isUnsafe d = false := by
        by_contra hunsafe
        simp only [isUnsafe, Bool.not_eq_false, Bool.or_eq_true, beq_iff_eq] at hunsafe
        rcases hunsafe with (rfl | rfl) | rfl
        · exact hd (by decide)
        · exact hd (by decide)
        · exact hd (by decide)
      -- the letter is the first of the scheme
      rw [headOf, hl, dropUnsafe, List.filter_cons_of_pos (by simp [hsafe])] at halpha
      by_cases hhash : d = '#'
      · subst hhash
        simp [before] at halpha
      by_cases hquestion : d = '?'
      · subst hquestion
        simp [before] at halpha
      by_cases hcolon : d = ':'
      · subst hcolon
        simp [before] at halpha
      rw [before_cons_of_ne hhash, before_cons_of_ne hquestion, before_cons_of_ne hcolon] at halpha
      simpa using halpha

lemma headOf_of_notMem (hhash : '#' ∉ t) (hquestion : '?' ∉ t) :
    headOf t = dropUnsafe (lstripControl t) := by
  rw [headOf_eq, before_of_notMem hhash, before_of_notMem hquestion]

lemma headOf_before (hhash : '#' ∉ t) : headOf (before '?' t) = headOf t := by
  rw [headOf_eq t, before_of_notMem hhash, headOf_of_notMem (fun h => hhash (mem_of_mem_before h))
    (notMem_before _ _)]

/-- Two slashes at the front do not belong to a text without slashes at the end. -/
lemma exists_slashes {R : Text} (h : "//".toList <+: R ++ w) (hw : '/' ∉ w) :
    ∃ rest, R = '/' :: '/' :: rest := by
  obtain ⟨rest, hrest⟩ := h
  replace hrest : '/' :: '/' :: rest = R ++ w := hrest
  cases R with
  | nil =>
      rw [List.nil_append] at hrest
      exact absurd (hrest ▸ List.mem_cons_self) hw
  | cons c R =>
      obtain ⟨rfl, htail⟩ := List.cons.inj hrest
      cases R with
      | nil =>
          replace htail : '/' :: rest = w := htail
          exact absurd (htail ▸ List.mem_cons_self) hw
      | cons c R =>
          obtain ⟨rfl, -⟩ := List.cons.inj htail
          exact ⟨R, rfl⟩

lemma mem_of_mem_trim {c : Char} (h : c ∈ trim blank t) : c ∈ t :=
  List.dropWhile_subset _ ((List.rdropWhile_prefix blank _).subset h)

variable (hblank : ∀ c, blank c = true → isSpace c = true ∨ c.toNat ≤ 32)
include hblank

/-- What is stripped at the front is dropped by `urlsplit`, too. -/
lemma lstripControl_dropWhile {d : Char} {rest : Text} (hl : lstripControl t = d :: rest)
    (hd : d.isAlpha = true) : lstripControl (t.dropWhile blank) = lstripControl t := by
  have hvisible : blank d = false := by
    by_contra htrue
    have hno := of_blank hblank (P := fun c => c.isAlpha = false) (by decide +kernel)
      (by simpa using htrue)
    rw [hd] at hno
    cases hno
  obtain ⟨v, hv, hsmall⟩ := exists_lstripControl t
  have hdrop : t.dropWhile blank = v.dropWhile blank ++ lstripControl t := by
    conv_lhs => rw [hv, hl, List.dropWhile_append]
    rw [hl]
    split_ifs with hnil
    · rw [List.dropWhile_cons_of_neg (by simp [hvisible]), List.isEmpty_iff.1 hnil, List.nil_append]
    · rfl
  have hall : ∀ c ∈ v.dropWhile blank, decide (c.toNat ≤ 32) = true :=
    fun c hc => decide_eq_true (hsmall c (List.dropWhile_subset _ hc))
  rw [hdrop, lstripControl, List.dropWhile_append_of_pos hall]
  exact List.dropWhile_idempotent _ t

/-- The head of a URL without a query loses blank characters at its end. -/
lemma exists_headOf_trim (hscheme : IsHttp (splitScheme [] (headOf t)).1) (hhash : '#' ∉ t)
    (hquestion : '?' ∉ t) :
    ∃ w, (∀ c ∈ w, blank c = true) ∧ headOf t = headOf (trim blank t) ++ w := by
  obtain ⟨d, rest, hl, hd⟩ := isAlpha_of_isHttp hscheme
  have hfront := lstripControl_dropWhile hblank hl hd
  have hparts : trim blank t ++ (t.dropWhile blank).rtakeWhile blank = t.dropWhile blank :=
    List.rdropWhile_append_rtakeWhile
  have hend : ∀ c ∈ (t.dropWhile blank).rtakeWhile blank, blank c = true :=
    fun c hc => List.mem_rtakeWhile_imp hc
  rw [headOf_of_notMem hhash hquestion, headOf_of_notMem (fun h => hhash (mem_of_mem_trim h))
    fun h => hquestion (mem_of_mem_trim h), ← hfront, ← hparts]
  refine ⟨dropUnsafe ((t.dropWhile blank).rtakeWhile blank), fun c hc =>
    hend c (mem_of_mem_dropUnsafe hc), ?_⟩
  rw [dropUnsafe, dropUnsafe, dropUnsafe, ← List.filter_append]
  refine congrArg _ ?_
  rw [lstripControl, List.dropWhile_append]
  split_ifs with hnil
  · -- a letter would be blank
    have hletter : d ∈ lstripControl ((t.dropWhile blank).rtakeWhile blank) := by
      have hall : lstripControl (trim blank t ++ (t.dropWhile blank).rtakeWhile blank) =
          d :: rest := by rw [hparts, hfront, hl]
      rw [lstripControl, List.dropWhile_append, if_pos hnil] at hall
      rw [lstripControl, hall]
      exact List.mem_cons_self
    have hno := of_blank hblank (P := fun c => c.isAlpha = false) (by decide +kernel)
      (hend d (List.dropWhile_subset _ hletter))
    rw [hd] at hno
    cases hno
  · rfl

/-- Without blank characters at its end, the head of an http URL has the same scheme, and an
authority unless it ends there. -/
lemma splitNetloc_of_append (hw : ∀ c ∈ w, blank c = true)
    (hscheme : IsHttp (splitScheme [] (H ++ w)).1)
    (hnetloc : (splitNetloc (splitScheme [] (H ++ w)).2).1 ≠ []) :
    (splitScheme [] H).1 = (splitScheme [] (H ++ w)).1 ∧
      ((splitNetloc (splitScheme [] H).2).1 ≠ [] ∨ (splitNetloc (splitScheme [] H).2).2 = []) := by
  have hdelimiter : ∀ c ∈ ['/', '?', '#', ':', '&', '='], c ∉ w := fun c hc hmem => by
    have hfalse := blank_eq_false_of_delimiter hblank hc
    rw [hw c hmem] at hfalse
    cases hfalse
  obtain ⟨hcolon, -, hsplit⟩ := splitScheme_of_isHttp hscheme
  have hcolon' : ':' ∈ H :=
    (List.mem_append.1 hcolon).resolve_right (hdelimiter ':' (by simp))
  have hshort : splitScheme [] H = ((before ':' H).map Char.toLower, behind ':' H) := by
    rw [splitScheme] at hsplit ⊢
    simp only [before_append_of_mem hcolon', behind_append_of_mem hcolon', hcolon, hcolon',
      true_and] at hsplit ⊢
    split_ifs at hsplit ⊢ with hname
    · rfl
    · rw [splitScheme] at hscheme
      simp only [before_append_of_mem hcolon', hcolon, true_and, if_neg hname] at hscheme
      exact absurd hscheme not_isHttp_nil
  rw [hsplit, before_append_of_mem hcolon', behind_append_of_mem hcolon'] at hnetloc ⊢
  rw [hshort]
  refine ⟨rfl, ?_⟩
  -- the two slashes are not blank
  obtain ⟨rest, hrest⟩ : ∃ rest, behind ':' H = '/' :: '/' :: rest := by
    rw [splitNetloc] at hnetloc
    split_ifs at hnetloc with hslashes
    · exact exists_slashes hslashes (hdelimiter '/' (by simp))
    · exact absurd rfl hnetloc
  rw [hrest] at hnetloc ⊢
  rw [splitNetloc, if_pos (by simp)] at hnetloc ⊢
  simp only [List.cons_append, List.drop_succ_cons, List.drop_zero] at hnetloc ⊢
  cases rest with
  | nil => exact Or.inr rfl
  | cons c rest =>
      left
      rw [List.cons_append] at hnetloc
      by_cases hends : endsNetloc c = true
      · rw [List.takeWhile_cons_of_neg (by simp [hends])] at hnetloc
        exact absurd rfl hnetloc
      · rw [List.takeWhile_cons_of_pos (by simpa using hends)]
        simp

/-- **A trimmed http URL** is an http URL, and has an authority unless it ends there.  Its query is
the query without the blank characters at its end. -/
theorem urlsplit_trim (h : urlsplit chk t = .ok p) (hscheme : IsHttp p.scheme)
    (hnetloc : p.netloc ≠ []) (hhash : '#' ∉ t)
    (htrim : urlsplit chk (trim blank t) = .ok p') :
    p'.scheme = p.scheme ∧ (p'.netloc ≠ [] ∨ p'.path = []) ∧
      p'.query = dropUnsafe ((behind '?' t).rdropWhile blank) := by
  obtain ⟨hs, hn⟩ := parts_of_urlsplit h
  obtain ⟨hs', hn'⟩ := parts_of_urlsplit htrim
  have hhash' : '#' ∉ trim blank t := fun h => hhash (mem_of_mem_trim h)
  have hquery : p'.query = dropUnsafe (behind '?' (trim blank t)) := by
    rw [query_of_urlsplit htrim, before_of_notMem hhash']
  rw [hs] at hscheme
  have hquestion : blank '?' = false := blank_eq_false_of_delimiter hblank (by simp)
  by_cases hmem : '?' ∈ t
  · -- the head stays as it is
    have hsplit := before_append_behind hmem
    have htext : trim blank t =
        (before '?' t).dropWhile blank ++ '?' :: (behind '?' t).rdropWhile blank := by
      conv_lhs => rw [trim, ← hsplit, List.dropWhile_append]
      split_ifs with hnil
      · rw [List.dropWhile_cons_of_neg (by simp [hquestion]), List.isEmpty_iff.1 hnil]
        exact rdropWhile_append_cons hquestion [] _
      · exact rdropWhile_append_cons hquestion _ _
    have hbefore : '?' ∉ (before '?' t).dropWhile blank :=
      fun hc => notMem_before _ _ (List.dropWhile_subset _ hc)
    have hhead : headOf (trim blank t) = headOf t := by
      rw [← headOf_before hhash] at hscheme
      obtain ⟨d, rest, hl, hd⟩ := isAlpha_of_isHttp hscheme
      rw [headOf_eq, before_of_notMem hhash', htext, before_append hbefore,
        lstripControl_dropWhile hblank hl hd, headOf_eq, before_of_notMem hhash]
    rw [hhead, ← hn, Prod.mk.injEq] at hn'
    refine ⟨by rw [hs', hhead, hs], Or.inl (hn'.1 ▸ hnetloc), ?_⟩
    rw [hquery, htext, behind_append hbefore]
  · obtain ⟨w, hw, hhead⟩ := exists_headOf_trim hblank hscheme hhash hmem
    have hnetloc' : (splitNetloc (splitScheme [] (headOf t)).2).1 ≠ [] := by
      rw [← hn]
      exact hnetloc
    rw [hhead] at hscheme hnetloc'
    obtain ⟨hsame, hempty⟩ := splitNetloc_of_append hblank hw hscheme hnetloc'
    rw [← hn'] at hempty
    refine ⟨by rw [hs', hsame, hs, hhead], hempty, ?_⟩
    rw [hquery, behind_of_notMem fun hc => hmem (mem_of_mem_trim hc), behind_of_notMem hmem,
      List.rdropWhile_nil]

end Trim

end WebCrawler
