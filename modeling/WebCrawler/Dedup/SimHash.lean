import WebCrawler.Models

/-!
# SimHash fingerprints

`crawler/dedup/simhash.py`.  The tokens of a text (the matches of `\w+` in its
lower-case form) and the 64-bit hash of a token come from library functions, which
are parameters here.  Everything else is arithmetic on natural numbers: shifts,
masks and bit counts.
-/

namespace WebCrawler

/-- The library functions under `simhash_text`. -/
structure Tokenizer where
  /-- The matches of `\w+` in the lower-case text, in order. -/
  tokens : String → List String
  /-- The eight bytes of the `blake2b` digest of a token, as a number. -/
  tokenHash : String → ℕ

/-- `Counter(tokens).items()`: each distinct token with its number of occurrences. -/
def counter (tokens : List String) : List (String × ℕ) :=
  tokens.eraseDups.map fun token => (token, tokens.count token)

namespace Tokenizer

variable (T : Tokenizer)

/-- One turn of the voting loop: the token votes for each bit of its hash and against
the others. -/
def vote (vector : List ℤ) (entry : String × ℕ) : List ℤ :=
  vector.mapIdx fun i x => if (T.tokenHash entry.1).testBit i then x + entry.2 else x - entry.2

/-- The `bits`-wide SimHash of a text, zero if it has no token. -/
def simhashText (text : String) (bits : ℕ := 64) : ℕ :=
  let tokens := T.tokens text
  if tokens = [] then 0
  else
    let vector := (counter tokens).foldl T.vote (List.replicate bits 0)
    (List.range bits).foldl
      (fun fingerprint i => if vector.getD i 0 > 0 then fingerprint ||| 1 <<< i else fingerprint) 0

end Tokenizer

/-- The number of set bits. -/
def bitCount (n : ℕ) : ℕ := (List.range (n.log2 + 1)).countP n.testBit

/-- The number of bits in which two fingerprints differ. -/
def hammingDistance (a b : ℕ) : ℕ := bitCount (a ^^^ b)

@[simp] lemma hammingDistance_self (a : ℕ) : hammingDistance a a = 0 := by
  simp [hammingDistance, bitCount]

/-- Splits a fingerprint into `bands` equal chunks.  With no band at all the division
raises. -/
def bandValues (fingerprint bands bits : ℕ) : Except PyError (List ℕ) :=
  if bands = 0 then .error { what := "integer division or modulo by zero" }
  else
    let bandSize := bits / bands
    let mask := 1 <<< bandSize - 1
    .ok ((List.range bands).map fun b => (fingerprint >>> (b * bandSize)) &&& mask)

lemma length_of_bandValues {fingerprint bands bits : ℕ} {values : List ℕ}
    (h : bandValues fingerprint bands bits = .ok values) :
    values.length = bands ∧ bands ≠ 0 := by
  rw [bandValues] at h
  split_ifs at h with hb
  obtain rfl := Except.ok.inj h
  exact ⟨by simp, hb⟩

end WebCrawler
