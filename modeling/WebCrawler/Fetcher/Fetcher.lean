import WebCrawler.Lib.FormEncoding
import WebCrawler.Lib.SeenSet
import WebCrawler.Pipeline.Pipeline

/-!
# The downloader

`Fetcher` of `crawler/fetcher/fetcher.py` and `make_fetch_text` of `crawler/factory.py`.  The
body of a response arrives in chunks.  `StreamReader.read(n)` of the HTTP library waits until
some data is buffered or the end has come, and returns at most `n` bytes of what is buffered
then.  `_fetch_once` calls it once, so a page that arrives in several chunks may be cut short:
the body is the right one exactly if enough of it has arrived when the call goes on.
-/

namespace WebCrawler

open Lib

/-! ### A body on its way -/

/-- The part of `StreamReader` that `read` looks at. -/
structure StreamReader where
  buffer : Bytes := []
  eof : Bool := false
deriving DecidableEq, Repr

namespace StreamReader

def feedData (r : StreamReader) (chunk : Bytes) : StreamReader :=
  { r with buffer := r.buffer ++ chunk }

def feedEof (r : StreamReader) : StreamReader := { r with eof := true }

/-- A call of `read` need not wait. -/
def CanRead (r : StreamReader) : Prop := r.buffer ≠ [] ∨ r.eof = true

instance (r : StreamReader) : Decidable r.CanRead := inferInstanceAs (Decidable (_ ∨ _))

/-- What `read(n)` returns when it need not wait. -/
def readNowait (r : StreamReader) (n : ℕ) : Bytes := r.buffer.take n

end StreamReader

/-- The chunks of a body with the times of their arrival, and the time of its end. -/
structure Delivery where
  chunks : List (ℚ × Bytes)
  eof : ℚ
  nonempty : ∀ c ∈ chunks, c.2 ≠ []
  sorted : chunks.Pairwise fun c c' => c.1 ≤ c'.1
  before_eof : ∀ c ∈ chunks, c.1 ≤ eof

namespace Delivery

variable (d : Delivery) (t : ℚ)

/-- The whole body. -/
def body : Bytes := (d.chunks.map Prod.snd).flatten

/-- The chunks that have arrived. -/
def arrivedChunks : List (ℚ × Bytes) := d.chunks.takeWhile fun c => c.1 ≤ t

/-- The bytes that have arrived. -/
def arrived : Bytes := ((d.arrivedChunks t).map Prod.snd).flatten

/-- The reader at some time, if nothing has been read. -/
def readerAt : StreamReader :=
  let r := (d.arrivedChunks t).foldl (fun r c => r.feedData c.2) {}
  if d.eof ≤ t then r.feedEof else r

variable {d t}

/-- All chunks that have arrived are in the buffer. -/
lemma readerAt_buffer : (d.readerAt t).buffer = d.arrived t := by
  have hfold : ∀ (chunks : List (ℚ × Bytes)) (r : StreamReader),
      (chunks.foldl (fun r c => r.feedData c.2) r).buffer =
        r.buffer ++ (chunks.map Prod.snd).flatten := by
    intro chunks
    induction chunks with
    | nil => intro r; simp
    | cons c chunks ih =>
        intro r
        rw [List.foldl_cons, ih, List.map_cons, List.flatten_cons, ← List.append_assoc]
        rfl
  rw [readerAt, arrived]
  split_ifs
  · exact hfold (d.arrivedChunks t) {}
  · exact hfold (d.arrivedChunks t) {}

/-- What has arrived is a prefix of the body. -/
lemma arrived_prefix : d.arrived t <+: d.body := by
  obtain ⟨rest, hrest⟩ := List.takeWhile_prefix (l := d.chunks) (fun c => c.1 ≤ t)
  refine ⟨(rest.map Prod.snd).flatten, ?_⟩
  rw [arrived, arrivedChunks, ← List.flatten_append, ← List.map_append, hrest, body]

/-- At the end everything has arrived. -/
lemma arrived_of_eof (h : d.eof ≤ t) : d.arrived t = d.body := by
  rw [arrived, arrivedChunks, List.takeWhile_eq_self_iff.2, body]
  intro c hc
  exact decide_eq_true ((d.before_eof c hc).trans h)

end Delivery

/-! ### The fetcher -/

/-- A response of the server. -/
structure Response where
  /-- The URL after redirects. -/
  url : String
  status : ℤ
  headers : List (String × String) := []
  content : Delivery
  /-- The time at which the call of `read` goes on. -/
  readAt : ℚ
  canRead : (content.readerAt readAt).CanRead

namespace Response

/-- `resp.headers.get`: the names of headers are compared without regard to case. -/
def getHeader (r : Response) (name : String) : Option String :=
  (r.headers.find? fun h => lower h.1 = lower name).map (·.2)

/-- `dict(resp.headers)`. -/
def headerDict (r : Response) : List (String × String) :=
  (firstByKey r.headers).map fun h => (h.1, (r.getHeader h.1).getD h.2)

/-- What is reported about a response with this body. -/
def result (r : Response) (body : Bytes) : FetchResult where
  finalUrl := r.url
  status := r.status
  headers := r.headerDict
  body := body
  contentType := r.getHeader "Content-Type"

end Response

/-- How a request ends. -/
inductive Answer
  | response (r : Response)
  /-- A `ClientError` or a `TimeoutError`, by its `repr`. -/
  | failure (repr : String)
  /-- Any other exception. -/
  | raises (e : PyError)

namespace Fetcher

variable (maxPageBytes : ℕ) (url : String)

/-- `_fetch_once`. -/
def fetchOnce : Answer → Except PyError FetchResult
  | .response r =>
      let body := (r.content.readerAt r.readAt).readNowait (maxPageBytes + 1)
      let body := if body.length > maxPageBytes then body.take maxPageBytes else body
      .ok (r.result body)
  | .failure repr => .ok { finalUrl := url, status := 0, error := some repr }
  | .raises e => .error e

/-- The loop of `fetch`, with the answers to the attempts that are left. -/
def fetchLoop (lastError : Option String) : List Answer → Except PyError FetchResult
  | [] => .ok { finalUrl := url, status := 0, error := lastError }
  | answer :: answers => do
      let result ← fetchOnce maxPageBytes url answer
      if result.error = none then pure result else fetchLoop result.error answers

/-- `fetch`, with the answers to its `retries + 1` attempts. -/
def fetch (answers : List Answer) : Except PyError FetchResult :=
  fetchLoop maxPageBytes url none answers

/-! ### Decoding -/

/-- The continuation bytes that a character still needs, and the range of the next one. -/
structure Pending where
  need : ℕ
  low : ℕ
  high : ℕ
  code : ℕ

/-- The replacement character. -/
def replacement : Char := Char.ofNat 0xFFFD

/-- The first byte of a character. -/
def leadByte (b : ℕ) : Text × Option Pending :=
  if b < 0x80 then ([Char.ofNat b], none)
  else if 0xC2 ≤ b ∧ b ≤ 0xDF then ([], some ⟨1, 0x80, 0xBF, b - 0xC0⟩)
  else if b = 0xE0 then ([], some ⟨2, 0xA0, 0xBF, 0⟩)
  else if b = 0xED then ([], some ⟨2, 0x80, 0x9F, 0xD⟩)
  else if 0xE1 ≤ b ∧ b ≤ 0xEF then ([], some ⟨2, 0x80, 0xBF, b - 0xE0⟩)
  else if b = 0xF0 then ([], some ⟨3, 0x90, 0xBF, 0⟩)
  else if b = 0xF4 then ([], some ⟨3, 0x80, 0x8F, 4⟩)
  else if 0xF1 ≤ b ∧ b ≤ 0xF3 then ([], some ⟨3, 0x80, 0xBF, b - 0xF0⟩)
  else ([replacement], none)

/-- `decode("utf-8", "replace")`, inside a character or between two. -/
def decodeFrom : Option Pending → Bytes → Text
  | none, [] => []
  | some _, [] => [replacement]
  | none, b :: bytes =>
      let (out, pending) := leadByte b.toNat
      out ++ decodeFrom pending bytes
  | some p, b :: bytes =>
      if p.low ≤ b.toNat ∧ b.toNat ≤ p.high then
        let code := p.code * 64 + b.toNat % 64
        if p.need = 1 then Char.ofNat code :: decodeFrom none bytes
        else decodeFrom (some ⟨p.need - 1, 0x80, 0xBF, code⟩) bytes
      else
        -- the broken character is replaced, and the byte is looked at again
        let (out, pending) := leadByte b.toNat
        replacement :: out ++ decodeFrom pending bytes

/-- `fetch_text`: the status and the text of a page. -/
def fetchText (answers : List Answer) : Except PyError (ℤ × String) := do
  let result ← fetch maxPageBytes url answers
  pure (result.status, String.ofList (decodeFrom none result.body))

/-! ### Cut bodies -/

variable {maxPageBytes} {url}

/-- When the call of `read` goes on, the whole body has arrived, or as much of it as is kept. -/
def InTime (maxPageBytes : ℕ) (r : Response) : Prop :=
  min r.content.body.length maxPageBytes ≤ (r.content.arrived r.readAt).length

instance (r : Response) : Decidable (InTime maxPageBytes r) := inferInstanceAs (Decidable (_ ≤ _))

/-- The two responses say the same, in whatever chunks and at whatever times. -/
structure SameAnswer (r r' : Response) : Prop where
  url : r'.url = r.url
  status : r'.status = r.status
  headers : r'.headers = r.headers
  body : r'.content.body = r.content.body

lemma fetchOnce_response (r : Response) :
    fetchOnce maxPageBytes url (.response r) =
      .ok (r.result ((r.content.arrived r.readAt).take maxPageBytes)) := by
  have hcut : ∀ b : Bytes, (if (b.take (maxPageBytes + 1)).length > maxPageBytes then
      (b.take (maxPageBytes + 1)).take maxPageBytes else b.take (maxPageBytes + 1)) =
        b.take maxPageBytes := by
    intro b
    split_ifs with hlong
    · rw [List.take_take, min_eq_left (Nat.le_succ _)]
    · rw [List.length_take] at hlong
      rw [List.take_of_length_le (by omega), List.take_of_length_le (by omega)]
  rw [fetchOnce, StreamReader.readNowait, Delivery.readerAt_buffer]
  simp only [hcut]

/-- Of a prefix, the first bytes are those of the whole if it is long enough. -/
lemma take_eq_take_iff_of_prefix {b b' : Bytes} (h : b <+: b') (n : ℕ) :
    b.take n = b'.take n ↔ min b'.length n ≤ b.length := by
  constructor
  · intro heq
    have hlen := congrArg List.length heq
    rw [List.length_take, List.length_take] at hlen
    omega
  · intro hle
    obtain ⟨rest, rfl⟩ := h
    rw [List.length_append] at hle
    rcases Nat.lt_or_ge b.length n with hlt | hge
    · have hrest : rest = [] := List.length_eq_zero_iff.1 (by omega)
      rw [hrest, List.append_nil]
    · rw [List.take_append_of_le_length hge]

lemma fetchOnce_eq_iff (r : Response) :
    fetchOnce maxPageBytes url (.response r) = .ok (r.result (r.content.body.take maxPageBytes)) ↔
      InTime maxPageBytes r := by
  rw [fetchOnce_response, Except.ok.injEq, InTime,
    ← take_eq_take_iff_of_prefix Delivery.arrived_prefix]
  exact ⟨fun h => congrArg FetchResult.body h, fun h => by rw [h]⟩

/-- A body that has arrived completely is not cut short. -/
lemma inTime_of_eof {r : Response} (h : r.content.eof ≤ r.readAt) : InTime maxPageBytes r := by
  rw [InTime, Delivery.arrived_of_eof h]
  exact min_le_left _ _

/-- Failed attempts before a response do not matter. -/
lemma fetch_of_failures {failed rest : List Answer} {r : Response}
    (hfailed : ∀ a ∈ failed, ∃ repr, a = .failure repr) :
    fetch maxPageBytes url (failed ++ .response r :: rest) =
      fetchOnce maxPageBytes url (.response r) := by
  have hloop : ∀ lastError, fetchLoop maxPageBytes url lastError (failed ++ .response r :: rest) =
      fetchOnce maxPageBytes url (.response r) := by
    induction failed with
    | nil =>
        intro lastError
        rw [List.nil_append, fetchLoop, fetchOnce_response]
        rfl
    | cons a failed ih =>
        intro lastError
        obtain ⟨⟨repr, rfl⟩, hrest⟩ := List.forall_mem_cons.1 hfailed
        exact ih hrest (some repr)
  exact hloop none

lemma result_eq_of_sameAnswer {r r' : Response} (h : SameAnswer r r') (b : Bytes) :
    r'.result b = r.result b := by
  simp only [Response.result, Response.headerDict, Response.getHeader, h.url, h.status, h.headers]

/-- **When a body is fetched whole.**  One attempt returns the first `maxPageBytes` bytes of the
body exactly if they have arrived when `read` goes on.  Then the result, the text for the robots
cache and all that the pipeline stores depend on the answer alone. -/
theorem fetchOnce_body_iff (maxPageBytes : ℕ) (url : String) (r : Response) :
    (fetchOnce maxPageBytes url (.response r) =
        .ok (r.result (r.content.body.take maxPageBytes)) ↔ InTime maxPageBytes r) ∧
      (InTime maxPageBytes r → ∀ r', SameAnswer r r' → InTime maxPageBytes r' →
        ∃ result, fetchOnce maxPageBytes url (.response r) = .ok result ∧
          fetchOnce maxPageBytes url (.response r') = .ok result ∧
          result.body = r.content.body.take maxPageBytes ∧
          ∀ failed rest : List Answer, (∀ a ∈ failed, ∃ repr, a = .failure repr) →
            fetchText maxPageBytes url (failed ++ .response r' :: rest) =
              .ok (r.status, String.ofList
                (decodeFrom none (r.content.body.take maxPageBytes)))) := by
  refine ⟨fetchOnce_eq_iff r, fun htime r' hsame htime' => ?_⟩
  have hr' : fetchOnce maxPageBytes url (.response r') = _ := (fetchOnce_eq_iff r').2 htime'
  rw [hsame.body, result_eq_of_sameAnswer hsame] at hr'
  refine ⟨_, (fetchOnce_eq_iff r).2 htime, hr', rfl, fun failed rest hfailed => ?_⟩
  rw [fetchText, fetch_of_failures hfailed, hr']
  rfl

/-- A body in two chunks, one second apart. -/
def twoChunks : Delivery where
  chunks := [(0, [60]), (1, [97])]
  eof := 1
  nonempty := by decide
  sorted := by simp
  before_eof := by simp

lemma arrived_twoChunks : twoChunks.arrived 0 = [60] ∧ twoChunks.arrived 1 = [60, 97] := by
  simp [twoChunks, Delivery.arrived, Delivery.arrivedChunks]

/-- The same answer, read after its first chunk and after its second one. -/
theorem second_chunk_is_lost :
    ∃ r r' : Response, SameAnswer r r' ∧ r.content.body = [60, 97] ∧
      fetchOnce 10 "http://a.org/" (.response r) = .ok (r.result [60]) ∧
      fetchOnce 10 "http://a.org/" (.response r') = .ok (r.result [60, 97]) ∧
      fetchOnce 10 "http://a.org/" (.response r) ≠
        .ok (r.result (r.content.body.take 10)) := by
  let r : Response :=
    { url := "http://a.org/", status := 200, content := twoChunks, readAt := 0,
      canRead := Or.inl (by rw [Delivery.readerAt_buffer, arrived_twoChunks.1]; decide) }
  let r' : Response :=
    { url := "http://a.org/", status := 200, content := twoChunks, readAt := 1,
      canRead := Or.inl (by rw [Delivery.readerAt_buffer, arrived_twoChunks.2]; decide) }
  have hr : fetchOnce 10 "http://a.org/" (.response r) = .ok (r.result [60]) := by
    rw [fetchOnce_response, arrived_twoChunks.1]
    rfl
  refine ⟨r, r', ⟨rfl, rfl, rfl, rfl⟩, rfl, hr, ?_, ?_⟩
  · rw [fetchOnce_response, arrived_twoChunks.2]
    rfl
  · rw [hr]
    intro h
    have hbody := congrArg FetchResult.body (Except.ok.inj h)
    exact absurd hbody (by decide)

end Fetcher

end WebCrawler
