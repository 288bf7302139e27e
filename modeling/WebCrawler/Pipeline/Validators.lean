import WebCrawler.Pipeline.Reprocess

/-!
# Validators for conditional requests

A page that is fetched again is requested with the `ETag` and the `Last-Modified` of the
version that is stored.  The SQL sink overwrites both columns with every save.  The sink in
memory writes its dictionary only when the new version has a validator, and keeps the
validators of an older version otherwise.

The two sinks are compared over all histories of saves (`headersAgree_iff`).
-/

namespace WebCrawler

open Lib

/-- The page has a validator, not an empty text. -/
def PageRecord.HasValidator (record : PageRecord) : Prop :=
  (∃ etag ∈ record.etag, etag ≠ "") ∨ ∃ lastModified ∈ record.lastModified, lastModified ≠ ""

/-- A header that may be absent is truthy if it is there and not empty. -/
def truthy (text : Option String) : Bool := (text.filter (· ≠ "")).isSome

lemma PageRecord.hasValidator_iff (record : PageRecord) :
    record.HasValidator ↔ (truthy record.etag || truthy record.lastModified) = true := by
  have htruthy : ∀ text : Option String, truthy text = true ↔ ∃ t ∈ text, t ≠ "" := by
    intro text
    cases text with
    | none => simp [truthy]
    | some t => simp [truthy, Option.filter]
  rw [Bool.or_eq_true, htruthy, htruthy, HasValidator]

instance (record : PageRecord) : Decidable record.HasValidator :=
  decidable_of_iff _ record.hasValidator_iff.symm

/-! ### The sinks -/

/-- The state of `InMemoryDocumentSink`. -/
structure InMemorySinkState where
  pages : List PageRecord := []
  validators : AList fun _ : String => Option String × Option String := ∅

/-- `InMemoryDocumentSink`. -/
def inMemoryDocumentSink : DocumentSink InMemorySinkState where
  savePage record := fun w =>
    let w' := { w with pages := w.pages ++ [record] }
    if truthy record.etag || truthy record.lastModified then
      .ok () { w' with
        validators := w'.validators.insert record.url (record.etag, record.lastModified) }
    else .ok () w'
  getValidators url := fun w => .ok (w.validators.lookup url) w

/-- The state that a save leaves behind. -/
def DocumentSink.saved {ω : Type} (D : DocumentSink ω) (record : PageRecord) (w : ω) : ω :=
  match (D.savePage record).run w with
  | .ok _ w' => w'
  | .error _ w' => w'

/-- The sink in memory after a history of saves, each with its time. -/
def memoryAfter (saves : List (ℚ × PageRecord)) : InMemorySinkState :=
  saves.foldl (fun w save => inMemoryDocumentSink.saved save.2 w) {}

/-- The SQL sink after a history of saves. -/
def sqlAfter (saves : List (ℚ × PageRecord)) : Stores :=
  saves.foldl (fun w save => (sqlDocumentSink save.1).saved save.2 w) {}

/-- The version of a page that was saved last. -/
def lastSaved (url : String) (saves : List (ℚ × PageRecord)) : Option PageRecord :=
  (saves.map (·.2)).reverse.find? (·.url = url)

/-- The last version of a page that had a validator. -/
def lastValidated (url : String) (saves : List (ℚ × PageRecord)) : Option PageRecord :=
  (saves.map (·.2)).reverse.find? fun r => r.url = url ∧ r.HasValidator

/-- The last record with a property, after one more save. -/
lemma find?_reverse_snoc (q : PageRecord → Prop) [DecidablePred q]
    (saves : List (ℚ × PageRecord)) (save : ℚ × PageRecord) :
    ((saves ++ [save]).map (·.2)).reverse.find? (fun r => q r) =
      if q save.2 then some save.2 else (saves.map (·.2)).reverse.find? fun r => q r := by
  rw [List.map_append, List.reverse_append, List.map_singleton, List.reverse_singleton,
    List.singleton_append, List.find?_cons]
  split_ifs with h
  · simp [h]
  · simp [h]

lemma lastSaved_snoc (url : String) (saves : List (ℚ × PageRecord)) (save : ℚ × PageRecord) :
    lastSaved url (saves ++ [save]) =
      if save.2.url = url then some save.2 else lastSaved url saves :=
  find?_reverse_snoc (·.url = url) saves save

lemma lastValidated_snoc (url : String) (saves : List (ℚ × PageRecord))
    (save : ℚ × PageRecord) :
    lastValidated url (saves ++ [save]) =
      if save.2.url = url ∧ save.2.HasValidator then some save.2 else lastValidated url saves :=
  find?_reverse_snoc (fun r => r.url = url ∧ r.HasValidator) saves save

section History

variable {url : String} {saves : List (ℚ × PageRecord)} {record : PageRecord}

lemma lastSaved_eq_none_iff : lastSaved url saves = none ↔ ∀ save ∈ saves, save.2.url ≠ url := by
  rw [lastSaved, List.find?_eq_none]
  simp only [List.mem_reverse, List.forall_mem_map, decide_eq_true_eq, ne_eq]

lemma lastValidated_eq_none_iff :
    lastValidated url saves = none ↔ ∀ save ∈ saves, save.2.url = url → ¬ save.2.HasValidator := by
  rw [lastValidated, List.find?_eq_none]
  simp only [List.mem_reverse, List.forall_mem_map, decide_eq_true_eq, not_and]

lemma hasValidator_of_lastValidated (h : lastValidated url saves = some record) :
    record.HasValidator := by
  have hfound := List.find?_some h
  exact (of_decide_eq_true hfound).2

lemma lastValidated_of_lastSaved (h : lastSaved url saves = some record)
    (hv : record.HasValidator) : lastValidated url saves = some record := by
  induction saves using List.reverseRecOn with
  | nil => simp [lastSaved] at h
  | append_singleton saves save ih =>
      rw [lastSaved_snoc] at h
      rw [lastValidated_snoc]
      split_ifs at h with hurl
      · obtain rfl := Option.some.inj h
        rw [if_pos ⟨hurl, hv⟩]
      · rw [if_neg fun hand => hurl hand.1]
        exact ih h

end History

/-- The dictionary holds the validators of the last version that had one. -/
lemma lookup_memoryAfter (saves : List (ℚ × PageRecord)) (url : String) :
    (memoryAfter saves).validators.lookup url =
      (lastValidated url saves).map fun r => (r.etag, r.lastModified) := by
  induction saves using List.reverseRecOn with
  | nil => rfl
  | append_singleton saves save ih =>
      have hsnoc : memoryAfter (saves ++ [save]) =
          inMemoryDocumentSink.saved save.2 (memoryAfter saves) := by
        rw [memoryAfter, List.foldl_append]
        rfl
      rw [hsnoc, lastValidated_snoc]
      simp only [DocumentSink.saved, inMemoryDocumentSink, EStateM.run]
      by_cases hv : save.2.HasValidator
      · rw [if_pos (save.2.hasValidator_iff.1 hv)]
        by_cases hurl : save.2.url = url
        · simp [hurl, hv]
        · simp only [hurl, false_and, if_false]
          rw [AList.lookup_insert_ne (Ne.symm hurl), ih]
      · rw [if_neg fun h => hv (save.2.hasValidator_iff.2 h)]
        simp only [hv, and_false, if_false]
        exact ih

/-- The row holds the validators of the last version. -/
lemma document_sqlAfter (saves : List (ℚ × PageRecord)) (url : String) :
    (((sqlAfter saves).tables.document url).map fun d => (d.etag, d.lastModified)) =
      (lastSaved url saves).map fun r => (r.etag, r.lastModified) := by
  induction saves using List.reverseRecOn with
  | nil => rfl
  | append_singleton saves save ih =>
      have hsnoc : (sqlAfter (saves ++ [save])).tables =
          (sqlAfter saves).tables.savePage save.1 save.2 := by
        rw [sqlAfter, List.foldl_append]
        rfl
      rw [hsnoc, lastSaved_snoc]
      split_ifs with hurl
      · rw [← hurl, Tables.document_savePage]
        rfl
      · rw [Tables.document_savePage_of_ne (Ne.symm hurl)]
        exact ih

/-! ### The request headers -/

/-- The request headers made of validators. -/
def validatorHeaders : Option (Option String × Option String) → List (String × String)
  | none => []
  | some (etag, lastModified) =>
      (etag.filter (· ≠ "")).toList.map (fun v => ("If-None-Match", v)) ++
        (lastModified.filter (· ≠ "")).toList.map fun v => ("If-Modified-Since", v)

/-- The request headers that belong to a version of a page. -/
def PageRecord.headers (record : PageRecord) : List (String × String) :=
  validatorHeaders (some (record.etag, record.lastModified))

lemma PageRecord.headers_eq_nil_iff (record : PageRecord) :
    record.headers = [] ↔ ¬ record.HasValidator := by
  have hfilter : ∀ text : Option String, (text.filter (· ≠ "")).toList = [] ↔
      ¬ ∃ t ∈ text, t ≠ "" := by
    intro text
    cases text with
    | none => simp
    | some t =>
        by_cases ht : t = ""
        · simp [ht, Option.filter]
        · simp [ht, Option.filter]
  rw [headers, validatorHeaders, List.append_eq_nil_iff, List.map_eq_nil_iff, List.map_eq_nil_iff,
    hfilter, hfilter, HasValidator, not_or]

namespace Pipeline

variable {ν ω ω' : Type} (P : Pipeline ν ω)

/-- The pipeline with another sink.  The other collaborators on the storage side, which
`_conditional_headers` does not use, are left out. -/
def withSink (sink : DocumentSink ω') : Pipeline ν ω' where
  urls := P.urls
  tools := P.tools
  fetch := P.fetch
  sink := sink
  politeness := P.politeness
  conditionalGet := P.conditionalGet
  circuitBreaker := P.circuitBreaker
  domainBudget := P.domainBudget

/-- The URL under which the validators are looked up. -/
def lookupUrl (url : String) : Except PyError String := do
  return (← P.urls.normalizeUrl url).getD url

/-- The headers belong to the version of the page that was saved last. -/
def OfLastVersion (saves : List (ℚ × PageRecord)) (url : String)
    (headers : List (String × String)) : Prop :=
  ∀ h ∈ headers, ∃ lookup, P.lookupUrl url = .ok lookup ∧
    ∃ record ∈ lastSaved lookup saves, h ∈ record.headers

/-- The two sinks give the same headers, which belong to the version of the page that was
saved last, or no headers because the URL does not parse. -/
def HeadersAgree (saves : List (ℚ × PageRecord)) (now : ℚ) (url : String) : Prop :=
  ∃ headers : Except PyError (List (String × String)),
    ((P.withSink inMemoryDocumentSink).conditionalHeaders url).run (memoryAfter saves) =
      (ofExcept headers : EStateM _ _ _).run (memoryAfter saves) ∧
    ((P.withSink (sqlDocumentSink now)).conditionalHeaders url).run (sqlAfter saves) =
      (ofExcept headers : EStateM _ _ _).run (sqlAfter saves) ∧
    ∀ hs, headers = .ok hs → P.OfLastVersion saves url hs

/-- The version that was saved last has a validator, unless no version ever had one. -/
def ValidatorsKept (url : String) (saves : List (ℚ × PageRecord)) : Prop :=
  ∀ record ∈ lastSaved url saves, record.HasValidator ∨
    ∀ save ∈ saves, save.2.url = url → ¬ save.2.HasValidator

variable {P}

/-- The headers made of the versions of a page that a sink knows, one for each URL. -/
def versionHeaders (P : Pipeline ν ω) (known : String → Option PageRecord) (url : String) :
    Except PyError (List (String × String)) :=
  if P.conditionalGet then
    (P.lookupUrl url).map fun lookup => ((known lookup).map PageRecord.headers).getD []
  else .ok []

/-- The headers that are sent when the sink holds the validators of these versions. -/
lemma conditionalHeaders_run {url : String} {w : ω} {known : String → Option PageRecord}
    (h : ∀ lookup, (P.sink.getValidators lookup).run w =
      .ok ((known lookup).map fun r => (r.etag, r.lastModified)) w) :
    (P.conditionalHeaders url).run w =
      (ofExcept (P.versionHeaders known url) : EStateM _ _ _).run w := by
  rw [conditionalHeaders, versionHeaders, lookupUrl]
  split_ifs with hget
  · rcases P.urls.normalizeUrl url with e | normalized
    · rfl
    · refine run_ofExcept_bind_eq_ok.2 ⟨normalized, rfl, ?_⟩
      refine run_bind_eq_ok.2 ⟨_, w, h (normalized.getD url), ?_⟩
      show _ = EStateM.Result.ok (((known (normalized.getD url)).map PageRecord.headers).getD []) w
      cases known (normalized.getD url) with
      | none => rfl
      | some r => rfl
  · rfl

lemma memory_headers (saves : List (ℚ × PageRecord)) (url : String) :
    ((P.withSink inMemoryDocumentSink).conditionalHeaders url).run (memoryAfter saves) =
      (ofExcept (P.versionHeaders (lastValidated · saves) url) : EStateM _ _ _).run
        (memoryAfter saves) := by
  refine conditionalHeaders_run ?_
  intro lookup
  rw [← lookup_memoryAfter]
  rfl

lemma sql_headers (saves : List (ℚ × PageRecord)) (now : ℚ) (url : String) :
    ((P.withSink (sqlDocumentSink now)).conditionalHeaders url).run (sqlAfter saves) =
      (ofExcept (P.versionHeaders (lastSaved · saves) url) : EStateM _ _ _).run
        (sqlAfter saves) := by
  refine conditionalHeaders_run ?_
  intro lookup
  rw [← document_sqlAfter]
  rfl

/-- A program that only hands back a value tells which value it was. -/
lemma run_ofExcept_inj {α σ : Type} {x y : Except PyError α} {s : σ}
    (h : (ofExcept x : EStateM PyError σ α).run s = (ofExcept y : EStateM PyError σ α).run s) :
    x = y := by
  cases x with
  | ok a => exact (run_ofExcept_eq_ok.1 h.symm).1.symm
  | error e =>
      cases y with
      | ok b => exact (run_ofExcept_eq_ok.1 h).1
      | error e' => exact congrArg Except.error (EStateM.Result.error.inj h).1

/-- Exactly when both sinks hold the validators of the same version. -/
lemma headers_eq_iff (saves : List (ℚ × PageRecord)) (url : String) :
    ((lastValidated url saves).map PageRecord.headers).getD [] =
      ((lastSaved url saves).map PageRecord.headers).getD [] ↔ ValidatorsKept url saves := by
  cases hsaved : lastSaved url saves with
  | none =>
      have hnone : lastValidated url saves = none := by
        rw [lastValidated_eq_none_iff]
        exact fun save hsave hurl => absurd hurl (lastSaved_eq_none_iff.1 hsaved save hsave)
      simp [hnone, ValidatorsKept, hsaved]
  | some record =>
      by_cases hv : record.HasValidator
      · simp [lastValidated_of_lastSaved hsaved hv, ValidatorsKept, hsaved, hv]
      · have hnil : record.headers = [] := record.headers_eq_nil_iff.2 hv
        have hkept : ValidatorsKept url saves ↔ lastValidated url saves = none := by
          rw [lastValidated_eq_none_iff]
          simp [ValidatorsKept, hsaved, hv]
        rw [hkept, Option.map_some, Option.getD_some, hnil]
        cases hlast : lastValidated url saves with
        | none => simp
        | some r =>
            have hr : r.HasValidator := hasValidator_of_lastValidated hlast
            simp [r.headers_eq_nil_iff, hr]

/-- The headers made of the versions that were saved last belong to them. -/
lemma ofLastVersion_versionHeaders {saves : List (ℚ × PageRecord)} {url : String}
    {hs : List (String × String)} (h : P.versionHeaders (lastSaved · saves) url = .ok hs) :
    P.OfLastVersion saves url hs := by
  rw [versionHeaders] at h
  intro header hheader
  split_ifs at h
  · rcases hlookup : P.lookupUrl url with e | lookup
    · simp [hlookup, Except.map] at h
    · simp only [hlookup, Except.map, Except.ok.injEq] at h
      subst h
      refine ⟨lookup, rfl, ?_⟩
      cases hsaved : lastSaved lookup saves with
      | none => simp [hsaved] at hheader
      | some record => exact ⟨record, rfl, by simpa [hsaved] using hheader⟩
  · obtain rfl := Except.ok.inj h
    exact absurd hheader List.not_mem_nil

/-- **The two sinks agree** on the conditional headers exactly when the version that was
saved last has a validator or no version had one. -/
theorem headersAgree_iff (P : Pipeline ν ω) (saves : List (ℚ × PageRecord)) (now : ℚ)
    (url : String) :
    P.HeadersAgree saves now url ↔
      (P.conditionalGet = true → ∀ lookup, P.lookupUrl url = .ok lookup →
        ValidatorsKept lookup saves) := by
  have hagree : P.HeadersAgree saves now url ↔
      P.versionHeaders (lastValidated · saves) url = P.versionHeaders (lastSaved · saves) url := by
    rw [HeadersAgree, memory_headers, sql_headers]
    constructor
    · rintro ⟨headers, hmem, hsql, -⟩
      exact (run_ofExcept_inj hmem).trans (run_ofExcept_inj hsql).symm
    · intro heq
      exact ⟨_, by rw [heq], rfl, fun hs => ofLastVersion_versionHeaders⟩
  rw [hagree, versionHeaders, versionHeaders]
  by_cases hget : P.conditionalGet = true
  · rw [if_pos hget, if_pos hget]
    rcases hlookup : P.lookupUrl url with e | lookup
    · simp [Except.map]
    · simp only [Except.map, Except.ok.injEq, headers_eq_iff, hget, forall_const, forall_eq']
  · simp [hget]

/-- A pipeline that sends conditional requests. -/
def conditional : Pipeline Unit Stores := { answering textResponse with conditionalGet := true }

/-- A version of a page, with its `ETag`. -/
def version (etag : Option String) : PageRecord where
  url := "http://a.org/"
  registeredDomain := "a.org"
  depth := 0
  etag := etag

/-- The second version of the page has no `ETag`; the sink in memory still sends the one of
the first version. -/
theorem memory_sends_old_etag :
    ¬ conditional.HeadersAgree [(0, version (some "v1")), (1, version none)] 2
      "http://a.org/" := by
  rintro ⟨headers, hmem, hsql, -⟩
  have hold : headers = .ok [("If-None-Match", "v1")] := (run_ofExcept_eq_ok.1 hmem.symm).1
  have hnew : headers = .ok [] := (run_ofExcept_eq_ok.1 hsql.symm).1
  rw [hold, Except.ok.injEq] at hnew
  exact List.cons_ne_nil _ _ hnew

end Pipeline

end WebCrawler
