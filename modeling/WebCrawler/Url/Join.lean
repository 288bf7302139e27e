import WebCrawler.Url.Normalize

/-!
# Malformed authorities

`urlsplit` raises `ValueError` for a text whose authority is malformed, and `urljoin` splits
both of its arguments.  This file says for which texts the two functions, and `normalize_url`
with them, return.  If the base has a scheme, then only the text itself matters: joining does
not make a malformed authority out of well-formed ones.
-/

namespace WebCrawler

open Lib

/-- The authority of a text: what stands behind `//`, up to the path, the query or the
fragment. -/
def authority (t : Text) : Text := (splitNetloc (splitScheme [] (headOf t)).2).1

/-- The authority is one that `urlsplit` accepts. -/
def WellFormed (chk : NetlocChecks) (t : Text) : Prop := chk.accepts (authority t) = true

instance (chk : NetlocChecks) (t : Text) : Decidable (WellFormed chk t) :=
  inferInstanceAs (Decidable (_ = _))

/-- The scheme that a text names; empty if it names none. -/
def ownScheme (t : Text) : Text := (splitScheme [] (headOf t)).1

/-- The name of a scheme: a letter, and then letters, digits, plus signs, hyphens and dots. -/
def IsSchemeName (scheme : Text) : Prop :=
  scheme.head?.any Char.isAlpha = true ∧ scheme.all isSchemeChar = true

/-- What `urlsplit` finds: an accepted authority, and no character in the authority or in the
path that would end them. -/
structure CleanSplit (chk : NetlocChecks) (p : SplitResult) : Prop where
  accepts : chk.accepts p.netloc = true
  of_mem_netloc : ∀ c ∈ p.netloc, endsNetloc c = false ∧ isUnsafe c = false
  of_mem_path : ∀ c ∈ p.path, c ≠ '?' ∧ c ≠ '#' ∧ isUnsafe c = false

section Split

variable {chk : NetlocChecks} {t scheme : Text} {p : SplitResult}

lemma splitScheme_snd (scheme t : Text) : (splitScheme scheme t).2 = (splitScheme [] t).2 := by
  rw [splitScheme, splitScheme]
  split_ifs <;> rfl

/-- `urlsplit` returns for the texts with a well-formed authority. -/
lemma exists_urlsplit_iff (scheme : Text) :
    (∃ p, urlsplit chk t scheme = .ok p) ↔ WellFormed chk t := by
  rw [WellFormed, authority, ← splitScheme_snd scheme, urlsplit]
  simp only
  split_ifs with haccept
  · exact iff_of_true ⟨_, rfl⟩ haccept
  · exact iff_of_false (by simp) haccept

lemma wellFormed_of_urlsplit (h : urlsplit chk t scheme = .ok p) : WellFormed chk t :=
  (exists_urlsplit_iff _).1 ⟨p, h⟩

lemma cleanSplit_of_urlsplit (h : urlsplit chk t scheme = .ok p) : CleanSplit chk p := by
  rw [urlsplit] at h
  simp only at h
  split_ifs at h with haccept
  obtain rfl := Except.ok.inj h
  have hmem : ∀ c ∈ (splitScheme scheme (headOf t)).2, c ≠ '?' ∧ c ≠ '#' ∧ isUnsafe c = false :=
    fun c hc => of_mem_headOf (mem_of_mem_splitScheme hc)
  by_cases hnil : (splitNetloc (splitScheme scheme (headOf t)).2).1 = []
  · refine ⟨haccept, by simp [hnil], fun c hc => ?_⟩
    simp only [splitNetloc] at hc
    split_ifs at hc
    · exact hmem c (List.mem_of_mem_drop (List.dropWhile_subset _ hc))
    · exact hmem c hc
  · have hw := wellSplit_splitNetloc hmem haccept hnil
    exact ⟨hw.accepts, hw.of_mem_netloc, hw.of_mem_path⟩

lemma scheme_of_urlsplit (h : urlsplit chk t scheme = .ok p) :
    p.scheme = if ownScheme t = [] then scheme else ownScheme t := by
  rw [urlsplit] at h
  simp only at h
  split_ifs at h
  obtain rfl := Except.ok.inj h
  rw [ownScheme, splitScheme, splitScheme]
  by_cases hname : ':' ∈ headOf t ∧ (before ':' (headOf t)).head?.any Char.isAlpha = true ∧
      (before ':' (headOf t)).all isSchemeChar = true
  · rw [if_pos hname, if_pos hname, if_neg]
    rw [List.map_eq_nil_iff]
    intro hnil
    simp [hnil] at hname
  · rw [if_neg hname, if_neg hname, if_pos rfl]

end Split

/-! ### The names of schemes -/

lemma toNat_of_isSchemeChar {c : Char} (h : isSchemeChar c = true) :
    32 < c.toNat ∧ c.toNat < 128 := by
  unfold isSchemeChar Char.isAlphanum Char.isAlpha Char.isUpper Char.isLower Char.isDigit at h
  simp only [Bool.or_eq_true, Bool.and_eq_true, decide_eq_true_eq, ge_iff_le,
    UInt32.le_iff_toNat_le, Char.toNat_val, beq_iff_eq] at h
  rcases h with (((((h | h) | h) | rfl) | rfl) | rfl)
  all_goals first | decide | skip
  all_goals
    have h₁ := h.1
    have h₂ := h.2
    simp at h₁ h₂
    omega

/-- A character of a scheme is none that cuts a URL, and remains one in lower case. -/
lemma of_isSchemeChar {c : Char} (h : isSchemeChar c = true) :
    isSchemeChar c.toLower = true ∧ (c.isAlpha = true → c.toLower.isAlpha = true) ∧ c ≠ ':' ∧
      c ≠ '?' ∧ c ≠ '#' ∧ isUnsafe c = false := by
  have hall : ∀ n < 128, isSchemeChar (Char.ofNat n) = true →
      isSchemeChar (Char.ofNat n).toLower = true ∧
        ((Char.ofNat n).isAlpha = true → (Char.ofNat n).toLower.isAlpha = true) ∧
        Char.ofNat n ≠ ':' ∧ Char.ofNat n ≠ '?' ∧ Char.ofNat n ≠ '#' ∧
        isUnsafe (Char.ofNat n) = false := by decide +kernel
  have hc := hall c.toNat (toNat_of_isSchemeChar h).2
  rw [Char.ofNat_toNat] at hc
  exact hc h

section SchemeName

variable {name t : Text}

lemma IsSchemeName.ne_nil (h : IsSchemeName name) : name ≠ [] := by
  rintro rfl
  simp [IsSchemeName] at h

lemma IsSchemeName.of_mem (h : IsSchemeName name) {c : Char} (hc : c ∈ name) :
    isSchemeChar c = true := List.all_eq_true.1 h.2 c hc

lemma IsSchemeName.toLower (h : IsSchemeName name) : IsSchemeName (name.map Char.toLower) := by
  refine ⟨?_, ?_⟩
  · cases name with
    | nil => exact absurd rfl h.ne_nil
    | cons c name =>
        have hc : c.isAlpha = true := by simpa [IsSchemeName] using h.1
        simpa using (of_isSchemeChar (h.of_mem List.mem_cons_self)).2.1 hc
  · rw [List.all_eq_true]
    intro c hc
    obtain ⟨d, hd, rfl⟩ := List.mem_map.1 hc
    exact (of_isSchemeChar (h.of_mem hd)).1

/-- A text that starts with a scheme. -/
lemma splitScheme_name (h : IsSchemeName name) (rest : Text) :
    splitScheme [] (name ++ ':' :: rest) = (name.map Char.toLower, rest) := by
  have hcolon : ':' ∉ name := fun hc => (of_isSchemeChar (h.of_mem hc)).2.2.1 rfl
  rw [splitScheme, before_append hcolon, behind_append hcolon, if_pos ⟨by simp, h⟩]

lemma ownScheme_eq_nil_or (t : Text) : ownScheme t = [] ∨ IsSchemeName (ownScheme t) := by
  rw [ownScheme, splitScheme]
  by_cases hname : ':' ∈ headOf t ∧ (before ':' (headOf t)).head?.any Char.isAlpha = true ∧
      (before ':' (headOf t)).all isSchemeChar = true
  · rw [if_pos hname]
    exact Or.inr (IsSchemeName.toLower hname.2)
  · rw [if_neg hname]
    exact Or.inl rfl

end SchemeName

/-! ### Texts that `urlunsplit` writes -/

section Urlunsplit

variable {chk : NetlocChecks} {p : SplitResult}

/-- The head of a text that goes on with a query or a fragment. -/
lemma headOf_append {a r : Text} (ha : ∀ c ∈ a, c ≠ '?' ∧ c ≠ '#' ∧ isUnsafe c = false)
    (hfirst : ∀ c ∈ a.head?, 32 < c.toNat) (hne : a ≠ [])
    (hr : r = [] ∨ r.head? = some '?' ∨ r.head? = some '#') : headOf (a ++ r) = a := by
  have hq : '?' ∉ a := fun h => (ha _ h).1 rfl
  have hf : '#' ∉ a := fun h => (ha _ h).2.1 rfl
  have hcut : before '?' (before '#' (a ++ r)) = a := by
    rw [before_append_of_notMem hf, before_append_of_notMem hq]
    cases r with
    | nil => simp [before]
    | cons c r =>
        have hc : c = '?' ∨ c = '#' := by simpa using hr
        rcases hc with rfl | rfl
        · rw [before_cons_of_ne (by decide)]
          simp [before]
        · simp [before]
  have hstrip : lstripControl a = a := by
    obtain ⟨c, l, rfl⟩ := List.exists_cons_of_ne_nil hne
    exact List.dropWhile_cons_of_neg (by simpa using hfirst c rfl)
  rw [headOf_eq, hcut, hstrip, dropUnsafe_eq_self fun c hc => (ha c hc).2.2]

/-- What `urlunsplit` writes behind the scheme, and before the query. -/
lemma exists_body (hp : CleanSplit chk p) (hname : p.scheme ≠ []) :
    ∃ body r : Text, urlunsplit p = (p.scheme ++ ':' :: body) ++ r ∧
      (∀ c ∈ body, c ≠ '?' ∧ c ≠ '#' ∧ isUnsafe c = false) ∧
      (r = [] ∨ r.head? = some '?' ∨ r.head? = some '#') ∧ (splitNetloc body).1 = p.netloc := by
  have hr : ∀ q f : Text,
      (if q = [] then [] else '?' :: q) ++ (if f = [] then [] else '#' :: f) = [] ∨
      ((if q = [] then [] else '?' :: q) ++ (if f = [] then [] else '#' :: f)).head? = some '?' ∨
      ((if q = [] then [] else '?' :: q) ++ (if f = [] then [] else '#' :: f)).head? =
        some '#' := by
    intro q f
    split_ifs <;> simp
  by_cases hslashes : p.netloc ≠ [] ∨ (p.scheme ≠ [] ∧ String.ofList p.scheme ∈ usesNetloc) ∨
      "//".toList <+: p.path
  · let path := if p.path = [] ∨ p.path.head? = some '/' then p.path else '/' :: p.path
    have hpath : ∀ c ∈ path, c ≠ '?' ∧ c ≠ '#' ∧ isUnsafe c = false := by
      intro c hc
      simp only [path] at hc
      split_ifs at hc
      · exact hp.of_mem_path c hc
      · rcases List.mem_cons.1 hc with rfl | hc
        · decide
        · exact hp.of_mem_path c hc
    have hrooted : path = [] ∨ path.head? = some '/' := by
      simp only [path]
      split_ifs with h
      · exact h
      · exact Or.inr rfl
    have hw : WellSplit chk p.netloc path := ⟨hp.accepts, hp.of_mem_netloc, hpath, hrooted⟩
    refine ⟨'/' :: '/' :: (p.netloc ++ path), _, ?_, ?_, hr p.query p.fragment, ?_⟩
    · rw [urlunsplit, if_pos hslashes, if_neg hname]
      simp [path]
    · intro c hc
      simp only [List.mem_cons, List.mem_append] at hc
      rcases hc with rfl | rfl | hc | hc
      · decide
      · decide
      · obtain ⟨hends, hsafe⟩ := hp.of_mem_netloc c hc
        simp only [endsNetloc, Bool.or_eq_false_iff, beq_eq_false_iff_ne] at hends
        exact ⟨hends.1.2, hends.2, hsafe⟩
      · exact hpath c hc
    · rw [splitNetloc_append hw]
  · refine ⟨p.path, _, ?_, hp.of_mem_path, hr p.query p.fragment, ?_⟩
    · rw [urlunsplit, if_neg hslashes, if_neg hname]
      simp
    · simp only [not_or, not_not] at hslashes
      rw [splitNetloc, if_neg hslashes.2.2, hslashes.1]

/-- A text that starts with a scheme is split into the parts that `urlunsplit` has joined. -/
lemma split_urlunsplit (hname : IsSchemeName p.scheme) (hp : CleanSplit chk p) :
    ownScheme (urlunsplit p) ≠ [] ∧ WellFormed chk (urlunsplit p) := by
  obtain ⟨body, r, htext, hbody, hr, hsplit⟩ := exists_body hp hname.ne_nil
  have hhead : headOf (urlunsplit p) = p.scheme ++ ':' :: body := by
    rw [htext]
    refine headOf_append ?_ ?_ (by simp) hr
    · intro c hc
      rcases List.mem_append.1 hc with hc | hc
      · exact (of_isSchemeChar (hname.of_mem hc)).2.2.2
      · rcases List.mem_cons.1 hc with rfl | hc
        · decide
        · exact hbody c hc
    · intro c hc
      rw [List.head?_append_of_ne_nil _ hname.ne_nil] at hc
      exact (toNat_of_isSchemeChar (hname.of_mem (List.mem_of_mem_head? hc))).1
  rw [ownScheme, WellFormed, authority, hhead, splitScheme_name hname, hsplit]
  exact ⟨by simpa using hname.ne_nil, hp.accepts⟩

end Urlunsplit

/-! ### When `urljoin` returns -/

lemma mem_of_mem_dropEmptyInside {segments : List Text} {seg : Text}
    (h : seg ∈ dropEmptyInside segments) : seg ∈ segments := by
  cases segments with
  | nil => exact h
  | cons first rest =>
      simp only [dropEmptyInside, List.mem_cons, List.mem_append, List.mem_filter,
        Option.mem_toList] at h
      rcases h with rfl | ⟨h, -⟩ | h
      · exact List.mem_cons_self
      · exact List.mem_cons_of_mem _ (List.dropLast_subset _ h)
      · exact List.mem_cons_of_mem _ (List.mem_of_getLast? h)

lemma mem_of_mem_resolveSegments {segments : List Text} {seg : Text}
    (h : seg ∈ resolveSegments segments) : seg ∈ segments ∨ seg = [] := by
  have hfold : ∀ l acc : List Text, seg ∈ l.foldl (fun acc seg =>
      if seg = "..".toList then acc.dropLast else if seg = ".".toList then acc
        else acc ++ [seg]) acc → seg ∈ l ∨ seg ∈ acc := by
    intro l
    induction l with
    | nil => exact fun acc h => Or.inr h
    | cons first l ih =>
        intro acc h
        rcases ih _ h with h | h
        · exact Or.inl (List.mem_cons_of_mem _ h)
        · simp only at h
          split_ifs at h
          · exact Or.inr (List.dropLast_subset _ h)
          · exact Or.inr h
          · rcases List.mem_append.1 h with h | h
            · exact Or.inr h
            · exact Or.inl (List.mem_singleton.1 h ▸ List.mem_cons_self)
  rw [resolveSegments] at h
  split_ifs at h
  · rcases List.mem_append.1 h with h | h
    · exact Or.inl ((hfold _ _ h).resolve_right (by simp))
    · exact Or.inr (List.mem_singleton.1 h)
  · exact Or.inl ((hfold _ _ h).resolve_right (by simp))

/-- A resolved path is made of the characters of the two paths and of slashes. -/
lemma mem_of_mem_resolvePath {bpath path : Text} {c : Char} (h : c ∈ resolvePath bpath path) :
    c = '/' ∨ c ∈ bpath ∨ c ∈ path := by
  have hpath : ∀ seg ∈ path.splitOn '/', ∀ c ∈ seg, c ∈ bpath ∨ c ∈ path :=
    fun seg hseg c hc => Or.inr ((of_mem_splitOn hseg).2 c hc)
  have hbase : ∀ seg ∈ bpath.splitOn '/', ∀ c ∈ seg, c ∈ bpath ∨ c ∈ path :=
    fun seg hseg c hc => Or.inl ((of_mem_splitOn hseg).2 c hc)
  have hsegments : ∀ seg ∈ (if path.head? = some '/' then path.splitOn '/'
      else dropEmptyInside ((if (bpath.splitOn '/').getLast? = some [] then bpath.splitOn '/'
        else (bpath.splitOn '/').dropLast) ++ path.splitOn '/')),
      ∀ c ∈ seg, c ∈ bpath ∨ c ∈ path := by
    intro seg hseg
    split at hseg
    · exact hpath seg hseg
    · rcases List.mem_append.1 (mem_of_mem_dropEmptyInside hseg) with hseg | hseg
      · split at hseg
        · exact hbase seg hseg
        · exact hbase seg (List.dropLast_subset _ hseg)
      · exact hpath seg hseg
  rw [resolvePath] at h
  generalize (if path.head? = some '/' then path.splitOn '/'
      else dropEmptyInside ((if (bpath.splitOn '/').getLast? = some [] then bpath.splitOn '/'
        else (bpath.splitOn '/').dropLast) ++ path.splitOn '/')) = segments at h hsegments
  split_ifs at h
  · exact Or.inl (List.mem_singleton.1 h)
  · rcases mem_intercalate h with hc | ⟨seg, hseg, hc⟩
    · exact Or.inl (List.mem_singleton.1 hc)
    · rcases mem_of_mem_resolveSegments hseg with hseg | rfl
      · exact Or.inr (hsegments seg hseg c hc)
      · exact absurd hc List.not_mem_nil

section Urljoin

variable {chk : NetlocChecks} {base t url : Text} {b p : SplitResult}

/-- `urljoin` returns unless it has to split a malformed text. -/
lemma exists_urljoin_iff :
    (∃ url, urljoin chk base t = .ok url) ↔
      base = [] ∨ t = [] ∨ (WellFormed chk base ∧ WellFormed chk t) := by
  rw [urljoin]
  split_ifs with hbase ht
  · exact iff_of_true ⟨_, rfl⟩ (Or.inl hbase)
  · exact iff_of_true ⟨_, rfl⟩ (Or.inr (Or.inl ht))
  · rw [or_iff_right hbase, or_iff_right ht]
    cases hb : urlsplit chk base with
    | error e =>
        refine iff_of_false (by simp [bind, Except.bind]) fun h => ?_
        obtain ⟨b, hb'⟩ := (exists_urlsplit_iff []).2 h.1
        simp [hb] at hb'
    | ok b =>
        cases hp : urlsplit chk t b.scheme with
        | error e =>
            refine iff_of_false (by simp [bind, Except.bind, hp]) fun h => ?_
            obtain ⟨p, hp'⟩ := (exists_urlsplit_iff b.scheme).2 h.2
            simp [hp] at hp'
        | ok p =>
            refine iff_of_true ?_ ⟨wellFormed_of_urlsplit hb, wellFormed_of_urlsplit hp⟩
            simp only [bind, Except.bind, hp]
            split_ifs <;> exact ⟨_, rfl⟩

/-- The parts that `urljoin` takes from its two arguments are clean. -/
lemma cleanSplit_joined {netloc path query : Text} (hb : CleanSplit chk b) (hp : CleanSplit chk p)
    (hnetloc : netloc = b.netloc ∨ netloc = p.netloc)
    (hpath : ∀ c ∈ path, c = '/' ∨ c = ';' ∨ c ∈ b.path ∨ c ∈ p.path) :
    CleanSplit chk { p with netloc, path, query } where
  accepts := by
    rcases hnetloc with rfl | rfl
    · exact hb.accepts
    · exact hp.accepts
  of_mem_netloc := by
    rcases hnetloc with rfl | rfl
    · exact hb.of_mem_netloc
    · exact hp.of_mem_netloc
  of_mem_path := by
    intro c hc
    rcases hpath c hc with rfl | rfl | hc | hc
    · decide
    · decide
    · exact hb.of_mem_path c hc
    · exact hp.of_mem_path c hc

lemma mem_of_mem_withParams {path params : Text} {c : Char} (h : c ∈ withParams path params) :
    c = ';' ∨ c ∈ path ∨ c ∈ params := by
  rw [withParams] at h
  split_ifs at h
  · exact Or.inr (Or.inl h)
  · rcases List.mem_append.1 h with h | h
    · exact Or.inr (Or.inl h)
    · exact (List.mem_cons.1 h).imp_right Or.inr

/-- Unless one of its arguments is the result, `urljoin` writes a text with clean parts and the
scheme of its second argument. -/
lemma urljoin_cases (hb : urlsplit chk base = .ok b) (hbase : base ≠ []) (ht : t ≠ [])
    (h : urljoin chk base t = .ok url) :
    ∃ p, urlsplit chk t b.scheme = .ok p ∧
      ((p.scheme ≠ b.scheme ∨ String.ofList p.scheme ∉ usesRelative) ∧ url = t ∨
        ∃ q, CleanSplit chk q ∧ q.scheme = p.scheme ∧ url = urlunsplit q) := by
  have hcb := cleanSplit_of_urlsplit hb
  rw [urljoin, if_neg hbase, if_neg ht, hb] at h
  cases hp : urlsplit chk t b.scheme with
  | error e => simp [bind, Except.bind, hp] at h
  | ok p =>
      have hcp := cleanSplit_of_urlsplit hp
      refine ⟨p, rfl, ?_⟩
      simp only [bind, Except.bind, hp] at h
      split at h
      · exact Or.inl ⟨‹_›, (Except.ok.inj h).symm⟩
      · right
        split at h
        · refine ⟨_, ?_, ?_, (Except.ok.inj h).symm⟩
          · refine cleanSplit_joined hcb hcp (Or.inr rfl) fun c hc => ?_
            rcases mem_of_mem_withParams hc with rfl | hc
            · exact Or.inr (Or.inl rfl)
            · exact Or.inr (Or.inr (Or.inr (mem_of_mem_pathAndParams hc)))
          · rfl
        · have hnetloc : (if String.ofList p.scheme ∈ usesNetloc then b.netloc else p.netloc) =
              b.netloc ∨ (if String.ofList p.scheme ∈ usesNetloc then b.netloc else p.netloc) =
                p.netloc := by
            split_ifs
            · exact Or.inl rfl
            · exact Or.inr rfl
          split at h
          · refine ⟨_, ?_, ?_, (Except.ok.inj h).symm⟩
            · refine cleanSplit_joined hcb hcp hnetloc fun c hc => ?_
              rcases mem_of_mem_withParams hc with rfl | hc
              · exact Or.inr (Or.inl rfl)
              · exact Or.inr (Or.inr (Or.inl (mem_of_mem_pathAndParams hc)))
            · rfl
          · refine ⟨_, ?_, ?_, (Except.ok.inj h).symm⟩
            · refine cleanSplit_joined hcb hcp hnetloc fun c hc => ?_
              rcases mem_of_mem_withParams hc with rfl | hc | hc
              · exact Or.inr (Or.inl rfl)
              · rcases mem_of_mem_resolvePath hc with rfl | hc | hc
                · exact Or.inl rfl
                · exact Or.inr (Or.inr (Or.inl (mem_of_mem_pathAndParams (Or.inl hc))))
                · exact Or.inr (Or.inr (Or.inr (mem_of_mem_pathAndParams (Or.inl hc))))
              · exact Or.inr (Or.inr (Or.inr (mem_of_mem_pathAndParams (Or.inr hc))))
            · rfl

/-- What is joined to a base with a scheme is well formed.  If the scheme is http or https, then
the result has a scheme as well. -/
lemma wellFormed_urljoin (hwf : WellFormed chk base) (hscheme : ownScheme base ≠ [])
    (h : urljoin chk base t = .ok url) :
    WellFormed chk url ∧ (IsHttp (ownScheme base) → ownScheme url ≠ []) := by
  have hbase : base ≠ [] := by
    rintro rfl
    exact hscheme rfl
  by_cases ht : t = []
  · rw [urljoin, if_neg hbase, if_pos ht] at h
    obtain rfl := Except.ok.inj h
    exact ⟨hwf, fun _ => hscheme⟩
  · obtain ⟨b, hb⟩ := (exists_urlsplit_iff []).2 hwf
    have hbscheme : b.scheme = ownScheme base := by
      rw [scheme_of_urlsplit hb, if_neg hscheme]
    obtain ⟨p, hp, ⟨hother, rfl⟩ | ⟨q, hq, hqscheme, rfl⟩⟩ := urljoin_cases hb hbase ht h
    · -- the text is not relative to the base
      refine ⟨wellFormed_of_urlsplit hp, fun hhttp hnil => ?_⟩
      rw [scheme_of_urlsplit hp, if_pos hnil, hbscheme] at hother
      rcases hother with hother | hother
      · exact hother rfl
      · rcases hhttp with hhttp | hhttp
        · exact hother (by rw [hhttp]; decide)
        · exact hother (by rw [hhttp]; decide)
    · have hname : IsSchemeName q.scheme := by
        rw [hqscheme, scheme_of_urlsplit hp, hbscheme]
        split_ifs with hnil
        · exact (ownScheme_eq_nil_or base).resolve_left hscheme
        · exact (ownScheme_eq_nil_or t).resolve_left hnil
      have hsplit := split_urlunsplit hname hq
      exact ⟨hsplit.2, fun _ => hsplit.1⟩

end Urljoin

/-! ### When `normalize_url` returns -/

/-- Joined to the base, the text can be split: neither the two nor the result are malformed. -/
def Resolvable (chk : NetlocChecks) (base t : Text) : Prop :=
  WellFormed chk t ∧ (base ≠ [] → WellFormed chk base ∧
    ∀ url, urljoin chk base t = .ok url → WellFormed chk url)

section Resolve

variable {L : UrlLibs} {href : Option Text} {base t : Text}

/-- Against a base with a scheme, only the text itself matters. -/
lemma resolvable_iff_of_ownScheme (hwf : WellFormed L.checks base) (hscheme : ownScheme base ≠ []) :
    Resolvable L.checks base t ↔ WellFormed L.checks t :=
  and_iff_left fun _ => ⟨hwf, fun _ h => (wellFormed_urljoin hwf hscheme h).1⟩

lemma ne_nil_of_reference (h : reference href = some t) : t ≠ [] := by
  have hfilter := (Option.filter_eq_some_iff.1 h).2
  exact (of_decide_eq_true hfilter).1

/-- `normalize_url` raises for the references that cannot be resolved. -/
lemma exists_normalizeUrl_iff :
    (∃ v, normalizeUrl L href (some base) = .ok v) ↔
      ∀ t, reference href = some t → Resolvable L.checks base t := by
  cases ht : reference href with
  | none => exact iff_of_true ⟨none, by rw [normalizeUrl, ht]⟩ (by simp)
  | some t =>
      have hjoin : (∃ url, resolve L (some base) t = .ok url ∧ WellFormed L.checks url) ↔
          Resolvable L.checks base t := by
        rw [resolve, Resolvable]
        split_ifs with hbase
        · simp [hbase]
        · constructor
          · rintro ⟨url, hurl, hwf⟩
            have hboth := ((exists_urljoin_iff.1 ⟨url, hurl⟩).resolve_left hbase).resolve_left
              (ne_nil_of_reference ht)
            refine ⟨hboth.2, fun _ => ⟨hboth.1, fun url' hurl' => ?_⟩⟩
            rw [hurl] at hurl'
            exact Except.ok.inj hurl' ▸ hwf
          · rintro ⟨hwf, hwith⟩
            obtain ⟨hwfbase, hwfurl⟩ := hwith hbase
            obtain ⟨url, hurl⟩ := exists_urljoin_iff.2 (Or.inr (Or.inr ⟨hwfbase, hwf⟩))
            exact ⟨url, hurl, hwfurl url hurl⟩
      simp only [Option.some.injEq, forall_eq']
      rw [← hjoin]
      constructor
      · rintro ⟨v, hv⟩
        cases hurl : resolve L (some base) t with
        | error e => simp [normalizeUrl, ht, hurl, bind, Except.bind] at hv
        | ok url =>
            refine ⟨url, rfl, ?_⟩
            cases hp : urlsplit L.checks url with
            | error e => simp [normalizeUrl, ht, hurl, hp, bind, Except.bind] at hv
            | ok p => exact wellFormed_of_urlsplit hp
      · rintro ⟨url, hurl, hwf⟩
        obtain ⟨p, hp⟩ := (exists_urlsplit_iff []).2 hwf
        exact ⟨_, normalizeUrl_eq ht hurl hp⟩

end Resolve

end WebCrawler
