import Mathlib.Tactic
import Mathlib.Data.List.TakeWhile

/-!
# Form-encoded text

The format `application/x-www-form-urlencoded`: a text is a list of pieces separated by `&`,
a piece is a key and a value around the first `=`, and in both a space is written `+` and any
byte may be written `%XX`.  Texts are lists of characters, keys and values lists of bytes.

Decoding accepts every text; a `%` that is not followed by two hexadecimal digits stands for
itself.  Encoding writes one form only, so that decoding undoes it (`parseQsl_urlencode`) while
different texts may decode to the same pairs.
-/

namespace WebCrawler.Lib

abbrev Text : Type := List Char

instance : LawfulBEq Text := inferInstance

abbrev Bytes : Type := List UInt8

/-- The bytes of a text. -/
def utf8 (t : Text) : Bytes := t.flatMap String.utf8EncodeChar

/-! ### Cutting a text -/

/-- The text before the first `c`. -/
def before (c : Char) (t : Text) : Text := t.takeWhile (· ≠ c)

/-- The text behind the first `c`, empty if there is none. -/
def behind (c : Char) (t : Text) : Text := (t.dropWhile (· ≠ c)).tail

lemma notMem_before (c : Char) (t : Text) : c ∉ before c t :=
  fun h => by simpa using List.mem_takeWhile_imp h

lemma mem_of_mem_before {c d : Char} {t : Text} (h : d ∈ before c t) : d ∈ t :=
  List.takeWhile_subset _ h

lemma mem_of_mem_behind {c d : Char} {t : Text} (h : d ∈ behind c t) : d ∈ t :=
  List.dropWhile_subset _ (List.mem_of_mem_tail h)

section Cut

variable {c : Char} {s : Text}

lemma forall_ne_of_notMem (h : c ∉ s) : ∀ d ∈ s, decide (d ≠ c) = true :=
  fun _ hd => decide_eq_true fun hdc => h (hdc ▸ hd)

lemma before_of_notMem (h : c ∉ s) : before c s = s :=
  List.takeWhile_eq_self_iff.2 (forall_ne_of_notMem h)

lemma behind_of_notMem (h : c ∉ s) : behind c s = [] := by
  rw [behind, List.dropWhile_eq_nil_iff.2 (forall_ne_of_notMem h), List.tail_nil]

lemma before_append (h : c ∉ s) (t : Text) : before c (s ++ c :: t) = s := by
  rw [before, List.takeWhile_append_of_pos (forall_ne_of_notMem h),
    List.takeWhile_cons_of_neg (by simp), List.append_nil]

lemma behind_append (h : c ∉ s) (t : Text) : behind c (s ++ c :: t) = t := by
  rw [behind, List.dropWhile_append_of_pos (forall_ne_of_notMem h),
    List.dropWhile_cons_of_neg (by simp), List.tail_cons]

lemma before_cons_of_ne {d : Char} (h : d ≠ c) : before c (d :: s) = d :: before c s :=
  List.takeWhile_cons_of_pos (by simpa using h)

lemma behind_cons_of_ne {d : Char} (h : d ≠ c) : behind c (d :: s) = behind c s := by
  rw [behind, List.dropWhile_cons_of_pos (by simpa using h), behind]

lemma before_append_of_notMem (h : c ∉ s) (t : Text) : before c (s ++ t) = s ++ before c t :=
  List.takeWhile_append_of_pos (forall_ne_of_notMem h)

lemma behind_append_of_notMem (h : c ∉ s) (t : Text) : behind c (s ++ t) = behind c t := by
  rw [behind, List.dropWhile_append_of_pos (forall_ne_of_notMem h), behind]

/-- A text with a delimiter, cut there. -/
lemma before_append_behind (h : c ∈ s) : before c s ++ c :: behind c s = s := by
  induction s with
  | nil => simp at h
  | cons d s ih =>
      by_cases hd : d = c
      · subst hd
        simp [before, behind]
      · rw [before_cons_of_ne hd, behind_cons_of_ne hd, List.cons_append,
          ih ((List.mem_cons.1 h).resolve_left (Ne.symm hd))]

/-- Leaving out other characters before or after cutting. -/
lemma before_filter {f : Char → Bool} (hc : f c = true) (s : Text) :
    before c (s.filter f) = (before c s).filter f := by
  induction s with
  | nil => rfl
  | cons d s ih =>
      by_cases hd : d = c
      · subst hd
        simp [before, hc]
      · rw [before_cons_of_ne hd]
        by_cases hf : f d = true
        · rw [List.filter_cons_of_pos hf, before_cons_of_ne hd, ih, List.filter_cons_of_pos hf]
        · rw [List.filter_cons_of_neg hf, ih, List.filter_cons_of_neg hf]

lemma behind_filter {f : Char → Bool} (hc : f c = true) (s : Text) :
    behind c (s.filter f) = (behind c s).filter f := by
  by_cases hmem : c ∈ s
  · have hs := before_append_behind hmem
    have hbefore : c ∉ (before c s).filter f :=
      fun h => notMem_before c s (List.mem_filter.1 h).1
    conv_lhs => rw [← hs, List.filter_append, List.filter_cons_of_pos hc, behind_append hbefore]
  · rw [behind_of_notMem hmem, behind_of_notMem fun h => hmem (List.mem_filter.1 h).1,
      List.filter_nil]

end Cut

/-! ### Decoding -/

/-- The value of a hexadecimal digit. -/
def hexValue (b : UInt8) : Option ℕ :=
  if 48 ≤ b.toNat ∧ b.toNat ≤ 57 then some (b.toNat - 48)
  else if 65 ≤ b.toNat ∧ b.toNat ≤ 70 then some (b.toNat - 55)
  else if 97 ≤ b.toNat ∧ b.toNat ≤ 102 then some (b.toNat - 87)
  else none

/-- The byte that two hexadecimal digits stand for. -/
def hexByte (h l : UInt8) : Option UInt8 := do
  let a ← hexValue h
  let b ← hexValue l
  some (UInt8.ofNat (16 * a + b))

/-- Replaces the escapes `%XX`. -/
def unquote : Bytes → Bytes
  | [] => []
  | [a] => [a]
  | [a, b] => [a, b]
  | p :: h :: l :: rest =>
      if p = 37 then
        match hexByte h l with
        | some b => b :: unquote rest
        | none => p :: unquote (h :: l :: rest)
      else p :: unquote (h :: l :: rest)

/-- The bytes of a text, with a space for each `+`. -/
def plusBytes (t : Text) : Bytes := (utf8 t).map fun b => if b = 43 then 32 else b

/-- A key or a value, decoded. -/
def unquotePlus (t : Text) : Bytes := unquote (plusBytes t)

/-- The text of a piece before its first `=`. -/
def keyOf (piece : Text) : Text := before '=' piece

/-- The pair that a piece stands for. -/
def decodePiece (piece : Text) : Bytes × Bytes :=
  (unquotePlus (keyOf piece), unquotePlus (behind '=' piece))

/-- The pieces of a text; empty ones do not count. -/
def pieces (q : Text) : List Text := (q.splitOn '&').filter (· ≠ [])

/-- The pairs of a text, blank values included. -/
def parseQsl (q : Text) : List (Bytes × Bytes) := (pieces q).map decodePiece

/-! ### Encoding -/

/-- A hexadecimal digit. -/
def hexDigit (n : ℕ) : Char := Char.ofNat (if n < 10 then 48 + n else 55 + n)

/-- Letters, digits and `_.-~` are written as they are. -/
def isUnreserved (c : Char) : Bool := c.isAlphanum || c == '_' || c == '.' || c == '-' || c == '~'

/-- The text of a byte. -/
def quoteByte (b : UInt8) : Text :=
  if b = 32 then ['+']
  else if b.toNat < 128 ∧ isUnreserved (Char.ofNat b.toNat) then [Char.ofNat b.toNat]
  else ['%', hexDigit (b.toNat / 16), hexDigit (b.toNat % 16)]

/-- The text of a key or a value. -/
def quotePlus (bs : Bytes) : Text := bs.flatMap quoteByte

/-- The piece of a pair. -/
def encodePair (kv : Bytes × Bytes) : Text := quotePlus kv.1 ++ '=' :: quotePlus kv.2

/-- The text of a list of pairs. -/
def urlencode (kvs : List (Bytes × Bytes)) : Text := ['&'].intercalate (kvs.map encodePair)

/-! ### Decoding undoes encoding -/

lemma utf8_append (s t : Text) : utf8 (s ++ t) = utf8 s ++ utf8 t := List.flatMap_append

lemma plusBytes_append (s t : Text) : plusBytes (s ++ t) = plusBytes s ++ plusBytes t := by
  rw [plusBytes, utf8_append, List.map_append, plusBytes, plusBytes]

lemma unquote_cons_of_ne {b : UInt8} (hb : b ≠ 37) (bs : Bytes) :
    unquote (b :: bs) = b :: unquote bs := by
  match bs with
  | [] => rfl
  | [_] => rfl
  | _ :: _ :: _ => rw [unquote, if_neg hb]

lemma unquote_escape {h l b : UInt8} (hb : hexByte h l = some b) (bs : Bytes) :
    unquote (37 :: h :: l :: bs) = b :: unquote bs := by
  rw [unquote, if_pos rfl, hb]

/-- Checked for every byte: it is written as itself, or as an escape of itself. -/
def quotesByte (b : UInt8) : Bool :=
  match plusBytes (quoteByte b) with
  | [c] => c == b && b != 37
  | [p, h, l] => p == 37 && hexByte h l == some b
  | _ => false

/-- A statement about all bytes, checked by their numbers. -/
lemma forall_byte {P : UInt8 → Prop} (h : ∀ n < 256, P (UInt8.ofNat n)) (b : UInt8) : P b := by
  have hb := h b.toNat b.toNat_lt
  rwa [UInt8.ofNat_toNat] at hb

lemma quotesByte_eq_true (b : UInt8) : quotesByte b = true :=
  forall_byte (P := fun b => quotesByte b = true) (by decide +kernel) b

lemma unquote_quoteByte (b : UInt8) (bs : Bytes) :
    unquote (plusBytes (quoteByte b) ++ bs) = b :: unquote bs := by
  have hb := quotesByte_eq_true b
  rw [quotesByte] at hb
  split at hb
  case h_1 c hc =>
    obtain ⟨rfl, hne⟩ : c = b ∧ b ≠ 37 := by simpa using hb
    rw [hc]
    exact unquote_cons_of_ne hne bs
  case h_2 p h l hc =>
    obtain ⟨rfl, hhex⟩ : p = 37 ∧ hexByte h l = some b := by simpa using hb
    rw [hc]
    exact unquote_escape hhex bs
  case h_3 => cases hb

/-- **Round trip of a key or a value.** -/
theorem unquotePlus_quotePlus (bs : Bytes) : unquotePlus (quotePlus bs) = bs := by
  rw [unquotePlus]
  induction bs with
  | nil => rfl
  | cons b bs ih =>
      rw [quotePlus, List.flatMap_cons, plusBytes_append, unquote_quoteByte]
      rw [quotePlus] at ih
      rw [ih]

lemma quotePlus_injective : Function.Injective quotePlus :=
  Function.LeftInverse.injective unquotePlus_quotePlus

/-! ### The characters of encoded text -/

/-- The characters that encoding writes. -/
def IsFormChar (c : Char) : Prop := isUnreserved c = true ∨ c = '+' ∨ c = '%'

instance (c : Char) : Decidable (IsFormChar c) := inferInstanceAs (Decidable (_ ∨ _ ∨ _))

lemma isFormChar_of_mem_quotePlus {bs : Bytes} {c : Char} (hc : c ∈ quotePlus bs) :
    IsFormChar c := by
  have hbyte : ∀ b, (quoteByte b).all (fun c => IsFormChar c) = true :=
    forall_byte (P := fun b => (quoteByte b).all (fun c => IsFormChar c) = true)
      (by decide +kernel)
  obtain ⟨b, -, hb⟩ := List.mem_flatMap.1 hc
  exact of_decide_eq_true (List.all_eq_true.1 (hbyte b) c hb)

lemma isFormChar_of_mem_encodePair {kv : Bytes × Bytes} {c : Char} (hc : c ∈ encodePair kv) :
    IsFormChar c ∨ c = '=' := by
  rcases List.mem_append.1 hc with hc | hc
  · exact Or.inl (isFormChar_of_mem_quotePlus hc)
  · rcases List.mem_cons.1 hc with hc | hc
    · exact Or.inr hc
    · exact Or.inl (isFormChar_of_mem_quotePlus hc)

lemma mem_intercalate {c : Char} {sep : Text} {ts : List Text} (hc : c ∈ sep.intercalate ts) :
    c ∈ sep ∨ ∃ t ∈ ts, c ∈ t := by
  induction ts with
  | nil => simp at hc
  | cons t ts ih =>
      cases ts with
      | nil => exact Or.inr ⟨t, by simp, by simpa using hc⟩
      | cons t' ts =>
          rw [List.intercalate_cons_cons, List.mem_append, List.mem_append] at hc
          rcases hc with (hc | hc) | hc
          · exact Or.inr ⟨t, by simp, hc⟩
          · exact Or.inl hc
          · rcases ih hc with h | ⟨t, ht, h⟩
            · exact Or.inl h
            · exact Or.inr ⟨t, by simp [ht], h⟩

/-- Encoded text consists of the characters of its pieces, `=` and `&`. -/
lemma isFormChar_of_mem_urlencode {kvs : List (Bytes × Bytes)} {c : Char}
    (hc : c ∈ urlencode kvs) : IsFormChar c ∨ c = '=' ∨ c = '&' := by
  rcases mem_intercalate hc with hc | ⟨t, ht, hc⟩
  · exact Or.inr (Or.inr (List.mem_singleton.1 hc))
  · obtain ⟨kv, -, rfl⟩ := List.mem_map.1 ht
    exact (isFormChar_of_mem_encodePair hc).imp_right Or.inl

/-! ### Pieces -/

lemma pieces_intercalate {ps : List Text} (hsep : ∀ p ∈ ps, '&' ∉ p) (hne : ∀ p ∈ ps, p ≠ []) :
    pieces (['&'].intercalate ps) = ps := by
  rcases eq_or_ne ps [] with rfl | hps
  · rfl
  · rw [pieces, List.splitOn_intercalate _ hsep hps, List.filter_eq_self]
    intro p hp
    exact decide_eq_true (hne p hp)

/-- A piece is made of the characters of the text, without the separator. -/
lemma of_mem_splitOn {sep : Char} {q piece : Text} (h : piece ∈ q.splitOn sep) :
    sep ∉ piece ∧ ∀ c ∈ piece, c ∈ q := by
  induction q generalizing piece with
  | nil => simp_all
  | cons d q ih =>
      rw [List.splitOn_cons_eq_if_modifyHead] at h
      split_ifs at h with hd
      · rcases List.mem_cons.1 h with rfl | h
        · simp
        · exact ⟨(ih h).1, fun c hc => List.mem_cons_of_mem _ ((ih h).2 c hc)⟩
      · cases hsplit : q.splitOn sep with
        | nil => exact absurd hsplit (List.splitOn_ne_nil _ _)
        | cons first rest =>
            rw [hsplit, List.modifyHead_cons] at h
            rcases List.mem_cons.1 h with rfl | h
            · obtain ⟨hsep, hmem⟩ := ih (hsplit ▸ List.mem_cons_self)
              constructor
              · rw [List.mem_cons]
                rintro (hc | hc)
                · simp [← hc] at hd
                · exact hsep hc
              · intro c hc
                rcases List.mem_cons.1 hc with rfl | hc
                · exact List.mem_cons_self
                · exact List.mem_cons_of_mem _ (hmem c hc)
            · obtain ⟨hsep, hmem⟩ := ih (hsplit ▸ List.mem_cons_of_mem _ h)
              exact ⟨hsep, fun c hc => List.mem_cons_of_mem _ (hmem c hc)⟩

lemma of_mem_pieces {q piece : Text} (h : piece ∈ pieces q) :
    '&' ∉ piece ∧ piece ≠ [] ∧ ∀ c ∈ piece, c ∈ q := by
  obtain ⟨hmem, hne⟩ := List.mem_filter.1 h
  exact ⟨(of_mem_splitOn hmem).1, of_decide_eq_true hne, (of_mem_splitOn hmem).2⟩

lemma splitOn_filter {f : Char → Bool} (hf : f '&' = true) (q : Text) :
    (q.filter f).splitOn '&' = (q.splitOn '&').map (List.filter f) := by
  induction q with
  | nil => rfl
  | cons d q ih =>
      rw [List.splitOn_cons_eq_if_modifyHead]
      by_cases hd : d = '&'
      · subst hd
        rw [List.filter_cons_of_pos hf, List.splitOn_cons_eq_if_modifyHead, ih]
        simp
      · cases hsplit : q.splitOn '&' with
        | nil => exact absurd hsplit (List.splitOn_ne_nil _ _)
        | cons first rest =>
            rw [hsplit] at ih
            by_cases hfd : f d = true
            · rw [List.filter_cons_of_pos hfd, List.splitOn_cons_eq_if_modifyHead, ih]
              simp [hd, hfd]
            · rw [List.filter_cons_of_neg hfd, ih]
              simp [hd, hfd]

/-- Leaving out characters other than the separator, before or after cutting into pieces. -/
lemma pieces_filter {f : Char → Bool} (hf : f '&' = true) (q : Text) :
    pieces (q.filter f) = ((pieces q).map (List.filter f)).filter (· ≠ []) := by
  rw [pieces, splitOn_filter hf, pieces]
  induction q.splitOn '&' with
  | nil => rfl
  | cons piece ps ih =>
      by_cases hp : piece = []
      · subst hp
        simpa using ih
      · rw [List.filter_cons_of_pos (by simpa using hp), List.map_cons, List.map_cons,
          List.filter_cons, List.filter_cons, ih]

lemma pieces_urlencode (kvs : List (Bytes × Bytes)) :
    pieces (urlencode kvs) = kvs.map encodePair := by
  refine pieces_intercalate ?_ ?_
  · intro p hp hsep
    obtain ⟨kv, -, rfl⟩ := List.mem_map.1 hp
    exact absurd (isFormChar_of_mem_encodePair hsep) (by decide)
  · intro p hp
    obtain ⟨kv, -, rfl⟩ := List.mem_map.1 hp
    simp [encodePair]

lemma eq_notMem_quotePlus (bs : Bytes) : '=' ∉ quotePlus bs :=
  fun h => absurd (isFormChar_of_mem_quotePlus h) (by decide)

@[simp] lemma keyOf_encodePair (kv : Bytes × Bytes) : keyOf (encodePair kv) = quotePlus kv.1 :=
  before_append (eq_notMem_quotePlus _) _

@[simp] lemma decodePiece_encodePair (kv : Bytes × Bytes) : decodePiece (encodePair kv) = kv := by
  rw [decodePiece, keyOf_encodePair, encodePair, behind_append (eq_notMem_quotePlus _),
    unquotePlus_quotePlus, unquotePlus_quotePlus]

/-- **Round trip of a list of pairs.** -/
theorem parseQsl_urlencode (kvs : List (Bytes × Bytes)) : parseQsl (urlencode kvs) = kvs := by
  rw [parseQsl, pieces_urlencode, List.map_map]
  refine (List.map_congr_left ?_).trans (List.map_id _)
  intro kv _
  exact decodePiece_encodePair kv

/-! ### Text at the end

Some texts neither cut a piece nor take part in an escape.  At the end of a text they are the end
of the last key or value. -/

/-- The text has no delimiter, and none of its bytes can belong to an escape. -/
structure Inert (w : Text) : Prop where
  amp : '&' ∉ w
  eq : '=' ∉ w
  bytes : ∀ b ∈ utf8 w, b ≠ 43 ∧ b ≠ 37 ∧ hexValue b = none

lemma unquote_of_hexByte_eq_none {h l : UInt8} (hb : hexByte h l = none) (p : UInt8) (bs : Bytes) :
    unquote (p :: h :: l :: bs) = p :: unquote (h :: l :: bs) := by
  rw [unquote, hb]
  split_ifs <;> rfl

lemma hexByte_eq_none {h l : UInt8} (hl : hexValue h = none ∨ hexValue l = none) :
    hexByte h l = none := by
  rw [hexByte]
  rcases hl with hh | hl
  · rw [hh]
    rfl
  · rw [hl]
    cases hexValue h <;> rfl

/-- Bytes that cannot belong to an escape stay as they are. -/
lemma unquote_eq_self {w : Bytes} (hw : ∀ b ∈ w, b ≠ 37) : unquote w = w := by
  induction w with
  | nil => rfl
  | cons b w ih =>
      rw [unquote_cons_of_ne (hw b List.mem_cons_self),
        ih fun c hc => hw c (List.mem_cons_of_mem _ hc)]

lemma unquote_append (bs : Bytes) {w : Bytes} (hw : ∀ b ∈ w, b ≠ 37 ∧ hexValue b = none) :
    unquote (bs ++ w) = unquote bs ++ w := by
  have hself : unquote w = w := unquote_eq_self fun b hb => (hw b hb).1
  -- an escape is not completed by `w`
  have hcons : ∀ p : UInt8, unquote (p :: w) = p :: w := by
    intro p
    match w, hw, hself with
    | [], _, _ => rfl
    | [_], _, _ => rfl
    | h :: l :: w, hw, hself =>
        rw [unquote_of_hexByte_eq_none (hexByte_eq_none (Or.inl (hw h (by simp)).2)), hself]
  have hcons₂ : ∀ p q : UInt8, unquote (p :: q :: w) = p :: q :: w := by
    intro p q
    match w, hw, hcons q with
    | [], _, _ => rfl
    | l :: w, hw, hq =>
        rw [unquote_of_hexByte_eq_none (hexByte_eq_none (Or.inr (hw l (by simp)).2)), hq]
  induction bs using unquote.induct with
  | case1 => exact hself
  | case2 a => exact hcons a
  | case3 a b => exact hcons₂ a b
  | case4 h l rest b hb ih =>
      rw [List.cons_append, List.cons_append, List.cons_append, unquote_escape hb, ih,
        unquote_escape hb, List.cons_append]
  | case5 h l rest hb ih =>
      rw [unquote_of_hexByte_eq_none hb, List.cons_append, List.cons_append, List.cons_append,
        unquote_of_hexByte_eq_none hb, List.cons_append]
      exact congrArg (37 :: ·) ih
  | case6 p h l rest hp ih =>
      rw [List.cons_append, unquote_cons_of_ne hp, unquote_cons_of_ne hp, List.cons_append]
      exact congrArg (p :: ·) ih

/-- The last pair is that of the last piece. -/
lemma parseQsl_of_splitOn {q last : Text} {init : List Text}
    (hq : q.splitOn '&' = init ++ [last]) (hne : last ≠ []) :
    parseQsl q = (init.filter (· ≠ [])).map decodePiece ++ [decodePiece last] := by
  have hlast : [last].filter (· ≠ []) = [last] := List.filter_cons_of_pos (by simpa using hne)
  rw [parseQsl, pieces, hq, List.filter_append, hlast, List.map_append, List.map_singleton]

section Inert

variable {w : Text} (hw : Inert w)
include hw

lemma Inert.plusBytes_eq : plusBytes w = utf8 w := by
  rw [plusBytes]
  refine (List.map_congr_left ?_).trans (List.map_id _)
  intro b hb
  rw [if_neg (hw.bytes b hb).1, id]

lemma Inert.unquotePlus_append (t : Text) : unquotePlus (t ++ w) = unquotePlus t ++ utf8 w := by
  rw [unquotePlus, plusBytes_append, hw.plusBytes_eq, unquote_append _ fun b hb =>
    (hw.bytes b hb).2, unquotePlus]

/-- The text belongs to the value of a piece, or to its key if it has no value. -/
lemma Inert.decodePiece_append (piece : Text) :
    decodePiece (piece ++ w) = ((decodePiece piece).1, (decodePiece piece).2 ++ utf8 w) ∨
      decodePiece (piece ++ w) = ((decodePiece piece).1 ++ utf8 w, (decodePiece piece).2) := by
  by_cases heq : '=' ∈ piece
  · left
    have hsplit : piece ++ w = before '=' piece ++ '=' :: (behind '=' piece ++ w) := by
      conv_lhs => rw [← before_append_behind heq, List.append_assoc, List.cons_append]
    rw [decodePiece, keyOf, hsplit, before_append (notMem_before _ _),
      behind_append (notMem_before _ _), hw.unquotePlus_append]
    rfl
  · right
    have heq' : '=' ∉ piece ++ w := by
      rw [List.mem_append]
      exact not_or.2 ⟨heq, hw.eq⟩
    rw [decodePiece, decodePiece, keyOf, keyOf, before_of_notMem heq', behind_of_notMem heq',
      before_of_notMem heq, behind_of_notMem heq, hw.unquotePlus_append]

lemma Inert.splitOn_append (q : Text) :
    ∃ init last, q.splitOn '&' = init ++ [last] ∧ (q ++ w).splitOn '&' = init ++ [last ++ w] := by
  induction q with
  | nil =>
      refine ⟨[], [], rfl, ?_⟩
      have hall : ∀ c ∈ w, (c == '&') = false := fun c hc => by
        simpa using fun h : c = '&' => hw.amp (h ▸ hc)
      simpa [List.splitOn] using List.splitOnP_eq_singleton hall
  | cons d q ih =>
      obtain ⟨init, last, hq, hqw⟩ := ih
      rw [List.cons_append, List.splitOn_cons_eq_if_modifyHead,
        List.splitOn_cons_eq_if_modifyHead, hq, hqw]
      split_ifs
      · exact ⟨[] :: init, last, rfl, rfl⟩
      · cases init with
        | nil => exact ⟨[], d :: last, rfl, rfl⟩
        | cons first init => exact ⟨(d :: first) :: init, last, rfl, rfl⟩

/-- **An inert text at the end** makes the last pair longer, or is a pair of its own. -/
theorem Inert.parseQsl_append (hne : w ≠ []) (q : Text) :
    ∃ kvs kv, parseQsl (q ++ w) = kvs ++ [kv] ∧
      ((parseQsl q = kvs ∧ kv = (utf8 w, [])) ∨ ∃ kv', parseQsl q = kvs ++ [kv'] ∧
        (kv = (kv'.1, kv'.2 ++ utf8 w) ∨ kv = (kv'.1 ++ utf8 w, kv'.2))) := by
  obtain ⟨init, last, hq, hqw⟩ := hw.splitOn_append q
  have hlong : last ++ w ≠ [] := by simp [hne]
  refine ⟨(init.filter (· ≠ [])).map decodePiece, decodePiece (last ++ w),
    parseQsl_of_splitOn hqw hlong, ?_⟩
  by_cases hnil : last = []
  · left
    subst hnil
    constructor
    · rw [parseQsl, pieces, hq, List.filter_append]
      simp
    · rw [List.nil_append, decodePiece, keyOf, before_of_notMem hw.eq, behind_of_notMem hw.eq]
      exact Prod.ext (hw.unquotePlus_append []) rfl
  · right
    exact ⟨decodePiece last, parseQsl_of_splitOn hq hnil, hw.decodePiece_append last⟩

end Inert

end WebCrawler.Lib
