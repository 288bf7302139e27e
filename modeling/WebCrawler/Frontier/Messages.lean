import WebCrawler.Models
import Mathlib.Data.List.AList

/-!
# The wire format of the frontier, retry and dlq topics

`crawler/frontier/messages.py`.  A record on a topic carries the JSON object that
`json.dumps` writes and `json.loads` reads back; bytes that are no JSON object are
`none`.  The source takes the fields `url` and `crawl_id` as they come, so the objects
are those in which they have their declared types if they are there, as in all that
`to_bytes` writes.  How Python reads a number from a text is a parameter.
-/

namespace WebCrawler

/-- The values of the fields of a JSON object. -/
inductive JsonValue
  | null
  | bool (b : Bool)
  | int (n : ℤ)
  | float (q : ℚ)
  | str (s : String)
  /-- An array or an object. -/
  | other
deriving DecidableEq, Repr

namespace JsonValue

/-- The value of a field that is declared as a text. -/
def text? : JsonValue → Option String
  | .str s => some s
  | _ => none

/-- The value of a field that is declared as an integer or `None`. -/
def optionalInt? : JsonValue → Option (Option ℤ)
  | .int n => some (some n)
  | .null => some none
  | _ => none

end JsonValue

/-- The JSON object of a record. -/
structure WireObject where
  fields : AList fun _ : String => JsonValue
  isSome_url : ∀ v, fields.lookup "url" = some v → v.text?.isSome
  isSome_crawlId : ∀ v, fields.lookup "crawl_id" = some v → v.optionalInt?.isSome
deriving DecidableEq

/-- The bytes of a record: a JSON object, or something else. -/
abbrev Wire : Type := Option WireObject

/-- `int` and `float` on texts; `none` stands for a `ValueError`. -/
structure Numerals where
  parseInt : String → Option ℤ
  parseFloat : String → Option ℚ

namespace Numerals

variable (N : Numerals)

/-- `int(value)`. -/
def toInt : JsonValue → Except PyError ℤ
  | .int n => .ok n
  | .bool b => .ok (if b then 1 else 0)
  | .float q => .ok (truncate q)
  | .str s => (N.parseInt s).elim (.error { what := "ValueError" }) .ok
  | .null => .error { what := "TypeError" }
  | .other => .error { what := "TypeError" }

/-- `float(value)`. -/
def toFloat : JsonValue → Except PyError ℚ
  | .int n => .ok n
  | .bool b => .ok (if b then 1 else 0)
  | .float q => .ok q
  | .str s => (N.parseFloat s).elim (.error { what := "ValueError" }) .ok
  | .null => .error { what := "TypeError" }
  | .other => .error { what := "TypeError" }

end Numerals

/-- The answers on texts that are no numbers. -/
def noNumerals : Numerals where
  parseInt _ := none
  parseFloat _ := none

/-- A message on one of the topics. -/
structure FrontierMessage where
  url : String
  depth : ℤ := 0
  crawlId : Option ℤ := none
  attempts : ℤ := 0
  /-- Epoch seconds, used by the retry topic. -/
  notBefore : ℚ := 0
deriving DecidableEq, Repr

namespace FrontierMessage

/-- The fields of a message, by name. -/
def fields (m : FrontierMessage) : AList fun _ : String => JsonValue :=
  AList.insert "url" (.str m.url) (AList.insert "depth" (.int m.depth)
    (AList.insert "crawl_id" (m.crawlId.elim .null .int) (AList.insert "attempts" (.int m.attempts)
      (AList.insert "not_before" (.float m.notBefore) ∅))))

lemma lookup_url (m : FrontierMessage) : m.fields.lookup "url" = some (.str m.url) := rfl

lemma lookup_crawlId (m : FrontierMessage) :
    m.fields.lookup "crawl_id" = some (m.crawlId.elim .null .int) := rfl

/-- `to_bytes`. -/
def toBytes (m : FrontierMessage) : Wire :=
  some
    { fields := m.fields
      isSome_url := by
        intro v hv
        obtain rfl := Option.some.inj ((lookup_url m).symm.trans hv)
        rfl
      isSome_crawlId := by
        intro v hv
        obtain rfl := Option.some.inj ((lookup_crawlId m).symm.trans hv)
        cases m.crawlId with
        | none => rfl
        | some c => rfl }

/-- `obj["url"]`. -/
def readUrl (obj : WireObject) : Except PyError String :=
  match h : obj.fields.lookup "url" with
  | some v => .ok (v.text?.get (obj.isSome_url v h))
  | none => .error { what := "KeyError" }

/-- `obj.get("crawl_id")`. -/
def readCrawlId (obj : WireObject) : Option ℤ :=
  match h : obj.fields.lookup "crawl_id" with
  | some v => v.optionalInt?.get (obj.isSome_crawlId v h)
  | none => none

/-- `from_bytes`: the url is required, the other fields have defaults. -/
def fromBytes (N : Numerals) : Wire → Except PyError FrontierMessage
  | none => .error { what := "JSONDecodeError" }
  | some obj => do
      let url ← readUrl obj
      let depth ← N.toInt ((obj.fields.lookup "depth").getD (.int 0))
      let attempts ← N.toInt ((obj.fields.lookup "attempts").getD (.int 0))
      let notBefore ← N.toFloat ((obj.fields.lookup "not_before").getD (.float 0))
      pure { url, depth, crawlId := readCrawlId obj, attempts, notBefore }

/-- `from_item`. -/
def fromItem (item : FrontierItem) : FrontierMessage where
  url := item.url
  depth := item.depth
  crawlId := item.crawlId

/-- `to_item`: the counter of attempts is dropped. -/
def toItem (m : FrontierMessage) : FrontierItem where
  url := m.url
  depth := m.depth
  crawlId := m.crawlId

/-- **Round trip.**  A message is read back as it was written. -/
@[simp] theorem fromBytes_toBytes (N : Numerals) (m : FrontierMessage) :
    fromBytes N m.toBytes = .ok m := by
  obtain ⟨url, depth, crawlId, attempts, notBefore⟩ := m
  cases crawlId with
  | none => rfl
  | some c => rfl

end FrontierMessage

end WebCrawler
