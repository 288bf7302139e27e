import WebCrawler.Pipeline.Reprocess
import WebCrawler.Storage.Degrees
import Mathlib.Data.List.DropRight

/-!
# The bodies of the stored pages

A body is put into the object store under its hash before the row of its page is written, and
the row records the key under which `get` finds the body again: what follows the last slash of
the key in MinIO, what follows its first colon in Postgres.

So a row with a storage key never leads nowhere (`stored_bodies`): the store has a body under the
key, and its hash is the one of the row.  This holds after any sequence of calls of `process`,
which may raise at any point, and also when a write raises after it has taken effect.  The
columns of a row are all replaced together, so a body that is found was not necessarily fetched
last, but it has the same hash.
-/

namespace WebCrawler

open Lib

/-! ### Keys -/

/-- `text.split(c, 1)[-1]`. -/
def afterFirst (c : Char) (text : String) : String :=
  if c ∈ text.toList then String.ofList (text.toList.dropWhile (· ≠ c)).tail else text

/-- `text.rsplit(c, 1)[-1]`. -/
def afterLast (c : Char) (text : String) : String :=
  String.ofList (text.toList.rtakeWhile (· ≠ c))

lemma afterFirst_append {c : Char} {before after : String} (h : c ∉ before.toList) :
    afterFirst c (before ++ String.singleton c ++ after) = after := by
  have hlist : (before ++ String.singleton c ++ after).toList =
      before.toList ++ c :: after.toList := by simp
  have hdrop : (before.toList ++ c :: after.toList).dropWhile (· ≠ c) = c :: after.toList := by
    rw [List.dropWhile_append_of_pos (by simpa using fun x hx (heq : x = c) => h (heq ▸ hx))]
    exact List.dropWhile_cons_of_neg (by simp)
  rw [afterFirst, hlist, if_pos (by simp), hdrop]
  simp

lemma afterLast_append {c : Char} {before after : String} (h : c ∉ after.toList) :
    afterLast c (before ++ String.singleton c ++ after) = after := by
  have hlist : (before ++ String.singleton c ++ after).toList =
      before.toList ++ c :: after.toList := by simp
  have htake : (before.toList ++ c :: after.toList).rtakeWhile (· ≠ c) = after.toList := by
    rw [List.rtakeWhile, List.reverse_append, List.reverse_cons, List.append_assoc,
      List.takeWhile_append_of_pos (by simpa using fun x hx (heq : x = c) => h (heq ▸ hx))]
    simp
  rw [afterLast, hlist, htake]
  simp

namespace BodyBackend

/-- The body that is stored under a key. -/
def get (backend : BodyBackend) (key : String) (bodies : Bodies) : Option (List UInt8) :=
  match backend with
  | .noop => none
  | .postgres => (bodies.lookup (afterFirst ':' key)).map (·.1)
  | .minio _ => (bodies.lookup (afterLast '/' key)).map (·.1)

variable {backend : BodyBackend}

/-- **The round trip of a key.** -/
lemma get_storageKey {bodies : Bodies} {contentHash : String} (hb : backend ≠ .noop)
    (hhash : '/' ∉ contentHash.toList) :
    backend.get (backend.storageKey contentHash) bodies =
      (bodies.lookup contentHash).map (·.1) := by
  cases backend with
  | noop => exact absurd rfl hb
  | postgres =>
      have hkey : "pg:" ++ contentHash = "pg" ++ String.singleton ':' ++ contentHash := by rfl
      rw [get, storageKey, hkey, afterFirst_append (by decide)]
  | minio bucket =>
      have hkey : "s3://" ++ bucket ++ "/" ++ contentHash =
          ("s3://" ++ bucket) ++ String.singleton '/' ++ contentHash := by rfl
      simp only [get, storageKey]
      rw [hkey, afterLast_append hhash]

/-- A write leaves the bodies under the other hashes alone, and there is one under its own. -/
lemma lookup_put (hb : backend ≠ .noop) (contentHash : String) (body : List UInt8)
    (contentType : Option String) (bodies : Bodies) (other : String) :
    (backend.put contentHash body contentType bodies).2.lookup other = bodies.lookup other ∨
      other = contentHash ∧ ∃ type,
        (backend.put contentHash body contentType bodies).2.lookup other = some (body, type) := by
  cases backend with
  | noop => exact absurd rfl hb
  | postgres =>
      simp only [put]
      split_ifs with hold
      · exact Or.inl rfl
      · by_cases heq : other = contentHash
        · subst heq
          exact Or.inr ⟨rfl, contentType, AList.lookup_insert _⟩
        · exact Or.inl (AList.lookup_insert_ne heq)
  | minio bucket =>
      by_cases heq : other = contentHash
      · subst heq
        exact Or.inr ⟨rfl, _, AList.lookup_insert _⟩
      · exact Or.inl (AList.lookup_insert_ne heq)

lemma lookup_put_isSome (hb : backend ≠ .noop) (contentHash : String) (body : List UInt8)
    (contentType : Option String) (bodies : Bodies) :
    ((backend.put contentHash body contentType bodies).2.lookup contentHash).isSome := by
  cases backend with
  | noop => exact absurd rfl hb
  | postgres =>
      simp only [put]
      split_ifs with hold
      · exact hold
      · rw [AList.lookup_insert]
        rfl
  | minio bucket =>
      show ((AList.insert _ _ bodies).lookup contentHash).isSome = true
      rw [AList.lookup_insert]
      rfl

end BodyBackend

/-! ### Bodies and rows -/

/-- Every body is stored under its hash, and the keys of the rows are those of stored bodies. -/
structure BodiesKept (sha256 : List UInt8 → String) (backend : BodyBackend) (bodies : Bodies)
    (documents : List DocumentRow) : Prop where
  hashed : ∀ contentHash body, bodies.lookup contentHash = some body →
    sha256 body.1 = contentHash
  rows : ∀ row ∈ documents, ∀ key ∈ row.storageKey, ∃ contentHash,
    row.contentHash = some contentHash ∧ key = backend.storageKey contentHash ∧
      (bodies.lookup contentHash).isSome

namespace BodiesKept

variable {sha256 : List UInt8 → String} {backend : BodyBackend} {bodies : Bodies}
  {documents : List DocumentRow} {contentHash : String} {body : List UInt8}
  {contentType : Option String}

lemma put (h : BodiesKept sha256 backend bodies documents) (hb : backend ≠ .noop)
    (hhash : sha256 body = contentHash) :
    BodiesKept sha256 backend (backend.put contentHash body contentType bodies).2 documents := by
  constructor
  · intro other b hlook
    rcases BodyBackend.lookup_put hb contentHash body contentType bodies other with
      hold | ⟨rfl, type, hnew⟩
    · exact h.hashed other b (hold.symm.trans hlook)
    · rw [← Option.some.inj (hnew.symm.trans hlook)]
      exact hhash
  · intro row hrow key hkey
    obtain ⟨other, hother, hkey, hsome⟩ := h.rows row hrow key hkey
    refine ⟨other, hother, hkey, ?_⟩
    rcases BodyBackend.lookup_put hb contentHash body contentType bodies other with
      hold | ⟨rfl, type, hnew⟩
    · rw [hold]
      exact hsome
    · rw [hnew]
      rfl

lemma savePage {t : Tables} (h : BodiesKept sha256 backend bodies t.documents) (now : ℚ)
    {record : PageRecord}
    (hrecord : ∀ key ∈ record.storageKey, ∃ contentHash, record.contentHash = some contentHash ∧
      key = backend.storageKey contentHash ∧ (bodies.lookup contentHash).isSome) :
    BodiesKept sha256 backend bodies (t.savePage now record).documents := by
  refine ⟨h.hashed, ?_⟩
  intro row hrow
  rcases Tables.mem_documents_savePage.1 hrow with rfl | ⟨hrow, -⟩
  · exact hrecord
  · exact h.rows row hrow

/-- The body of a row is found under its key. -/
lemma exists_get (h : BodiesKept sha256 backend bodies documents) (hb : backend ≠ .noop)
    (hhex : ∀ body, '/' ∉ (sha256 body).toList) {row : DocumentRow} (hrow : row ∈ documents)
    {key : String} (hkey : row.storageKey = some key) :
    ∃ body, backend.get key bodies = some body ∧ row.contentHash = some (sha256 body) := by
  obtain ⟨contentHash, hhash, rfl, hsome⟩ := h.rows row hrow key hkey
  obtain ⟨body, hbody⟩ := Option.isSome_iff_exists.1 hsome
  have hsha := h.hashed contentHash body hbody
  refine ⟨body.1, ?_, by rw [hhash, hsha]⟩
  rw [BodyBackend.get_storageKey hb (hsha ▸ hhex body.1), hbody]
  rfl

end BodiesKept

/-! ### What `process` keeps of the storage side -/

namespace Pipeline

section Invariant

variable {ν ω α : Type} {P : Pipeline ν ω} {c : Readings} {item : FrontierItem} {J : ω → Prop}

lemma preserves_store_onNet (x : EStateM PyError ν α) :
    Preserves (fun s : PipelineState ν ω => J s.store) (onNet x) :=
  preserves_zoom x fun _ _ hs => hs

lemma preserves_store_onStore {x : EStateM PyError ω α} (hx : Preserves J x) :
    Preserves (fun s : PipelineState ν ω => J s.store) (onStore x) :=
  hx.zoom (fun _ hs => hs) fun _ _ _ ht => ht

lemma preserves_store_checkRobots : Preserves (fun s => J s.store) (P.checkRobots item) := by
  rw [checkRobots]
  split
  · exact preserves_pure _
  · exact preserves_store_onNet _

lemma preserves_store_checkBreaker {now : ℚ} {host : String} :
    Preserves (fun s => J s.store) (P.checkBreaker now host) := by
  rw [checkBreaker]
  split
  · exact preserves_pure _
  · exact preserves_of_finalState fun _ hs => hs

lemma preserves_store_checkBudget : Preserves (fun s => J s.store) (P.checkBudget item) := by
  rw [checkBudget]
  split
  · exact preserves_pure _
  · exact (preserves_ofExcept _).bind fun _ _ _ _ => preserves_store_onNet _

lemma preserves_store_recordOutcome {now : ℚ} {host : String} {result : FetchResult} :
    Preserves (fun s => J s.store) (P.recordOutcome now host result) := by
  rw [recordOutcome]
  split
  · exact preserves_pure _
  · refine preserves_of_finalState ?_
    intro s hs
    simp only [EStateM.run]
    split_ifs
    · exact hs
    · exact hs

/-- **The invariant rule of `process`.**  The guards, the fetch and the breaker do not touch the
storage side, and what is stored is an answer of the fetcher. -/
lemma preserves_store_process (hheaders : Preserves J (P.conditionalHeaders item.url))
    (hpage : ∀ headers n response n', (P.fetch item.url headers).run n = .ok response n' →
      response.error = none → response.status ≠ 304 → Preserves J (P.storePage item response)) :
    Preserves (fun s => J s.store) (P.process c item) := by
  have hfetch : ∀ host, Preserves (fun s => J s.store) (P.fetchAndStore c item host) := by
    intro host
    refine (preserves_store_onStore hheaders).bind ?_
    intro _ headers _ _
    refine (preserves_store_onNet _).bind ?_
    intro _ response _ hslot
    obtain ⟨n', hslot, -⟩ := run_zoom_eq_ok.1 hslot
    obtain ⟨n, hrun⟩ := fetchInSlot_eq_ok hslot
    refine preserves_store_recordOutcome.bind ?_
    intro _ _ _ _
    split_ifs with herr h304
    · exact preserves_pure _
    · exact preserves_pure _
    · have hnone : response.error = none := by simpa using herr
      exact preserves_store_onStore (hpage headers n response n' hrun hnone h304)
  rw [process]
  refine preserves_store_checkRobots.bind ?_
  intro _ robots _ _
  cases robots with
  | false => exact preserves_pure _
  | true =>
      refine (preserves_ofExcept _).bind ?_
      intro _ host _ _
      refine preserves_store_checkBreaker.bind ?_
      intro _ closed _ _
      cases closed with
      | false => exact preserves_pure _
      | true =>
          refine preserves_store_checkBudget.bind ?_
          intro _ budget _ _
          cases budget with
          | false => exact preserves_pure _
          | true => exact hfetch host

end Invariant

/-! ### Every call of `process` -/

variable {ν ω : Type} {P : Pipeline ν ω} {backend : BodyBackend} {bodiesOf : ω → Bodies}
  {tablesOf : ω → Tables}

/-- The object store and the sink write what they should.  A write that raises may have taken
effect; the other collaborators write neither bodies nor rows. -/
structure WritesBodies (P : Pipeline ν ω) (backend : BodyBackend) (bodiesOf : ω → Bodies)
    (tablesOf : ω → Tables) : Prop where
  put_ok : ∀ put ∈ P.objectStore, ∀ contentHash body contentType w key w',
    (put contentHash body contentType).run w = .ok key w' →
      key = backend.storageKey contentHash ∧ tablesOf w' = tablesOf w ∧
        bodiesOf w' = (backend.put contentHash body contentType (bodiesOf w)).2
  put_error : ∀ put ∈ P.objectStore, ∀ contentHash body contentType w e w',
    (put contentHash body contentType).run w = .error e w' → tablesOf w' = tablesOf w ∧
      (bodiesOf w' = bodiesOf w ∨
        bodiesOf w' = (backend.put contentHash body contentType (bodiesOf w)).2)
  save_ok : ∀ record w u w', (P.sink.savePage record).run w = .ok u w' →
    bodiesOf w' = bodiesOf w ∧ ∃ now, tablesOf w' = (tablesOf w).savePage now record
  save_error : ∀ record w e w', (P.sink.savePage record).run w = .error e w' →
    bodiesOf w' = bodiesOf w ∧
      (tablesOf w' = tablesOf w ∨ ∃ now, tablesOf w' = (tablesOf w).savePage now record)
  getValidators : ∀ url b t, Preserves (fun w => bodiesOf w = b ∧ tablesOf w = t)
    (P.sink.getValidators url)
  isDuplicate : ∀ isDuplicate ∈ P.contentDedup, ∀ fingerprint b t,
    Preserves (fun w => bodiesOf w = b ∧ tablesOf w = t) (isDuplicate fingerprint)

/-- The storage side is in order. -/
def Kept (P : Pipeline ν ω) (backend : BodyBackend) (bodiesOf : ω → Bodies)
    (tablesOf : ω → Tables) (w : ω) : Prop :=
  BodiesKept P.tools.sha256 backend (bodiesOf w) (tablesOf w).documents

/-- What writes neither bodies nor rows. -/
lemma preserves_kept {α : Type} {x : EStateM PyError ω α}
    (h : ∀ b t, Preserves (fun w => bodiesOf w = b ∧ tablesOf w = t) x) :
    Preserves (P.Kept backend bodiesOf tablesOf) x := by
  intro w hw
  obtain ⟨hok, herror⟩ := h (bodiesOf w) (tablesOf w) w ⟨rfl, rfl⟩
  constructor
  · intro a w' hrun
    obtain ⟨hbodies, htables⟩ := hok a w' hrun
    rwa [Kept, hbodies, htables]
  · intro e w' hrun
    obtain ⟨hbodies, htables⟩ := herror e w' hrun
    rwa [Kept, hbodies, htables]

section Process

variable (hW : P.WritesBodies backend bodiesOf tablesOf)
include hW

lemma preserves_conditionalHeaders (url : String) :
    Preserves (P.Kept backend bodiesOf tablesOf) (P.conditionalHeaders url) := by
  rw [conditionalHeaders]
  split_ifs
  · refine (preserves_ofExcept _).bind ?_
    intro _ normalized _ _
    refine (preserves_kept (hW.getValidators _)).bind ?_
    intro _ v _ _
    cases v with
    | none => exact preserves_pure _
    | some v => exact preserves_pure _
  · exact preserves_pure _

lemma preserves_readPage (response : FetchResult) (record : PageRecord) :
    Preserves (P.Kept backend bodiesOf tablesOf) (P.readPage response record) := by
  rw [readPage]
  split_ifs
  · refine (preserves_ofExcept _).bind ?_
    intro _ parsed _ _
    cases hd : P.contentDedup with
    | none => exact preserves_pure _
    | some isDuplicate =>
        refine (preserves_ofExcept _).bind ?_
        intro _ fingerprint _ _
        exact (preserves_kept (hW.isDuplicate isDuplicate hd fingerprint)).bind
          fun _ _ _ _ => preserves_pure _
  · exact preserves_pure _

/-- `storeBody` hands on a record whose key, if it has one, is that of a stored body. -/
lemma storeBody_kept (hb : backend ≠ .noop) {response : FetchResult} {record record' : PageRecord}
    {duplicate : Bool} {w w' : ω} (hnew : record.storageKey = none)
    (hhash : ∀ contentHash ∈ record.contentHash, P.tools.sha256 response.body = contentHash)
    (hw : P.Kept backend bodiesOf tablesOf w)
    (h : (P.storeBody response record duplicate).run w = .ok record' w') :
    P.Kept backend bodiesOf tablesOf w' ∧ ∀ key ∈ record'.storageKey, ∃ contentHash,
      record'.contentHash = some contentHash ∧ key = backend.storageKey contentHash ∧
        ((bodiesOf w').lookup contentHash).isSome := by
  rw [storeBody] at h
  split at h
  · next put contentHash hput hcontent =>
    split_ifs at h
    · obtain ⟨rfl, rfl⟩ := run_pure_eq_ok.1 h
      exact ⟨hw, by simp [hnew]⟩
    · obtain ⟨key, w₁, h₁, h⟩ := run_bind_eq_ok.1 h
      obtain ⟨rfl, rfl⟩ := run_pure_eq_ok.1 h
      obtain ⟨rfl, htables, hbodies⟩ := hW.put_ok put hput _ _ _ _ _ _ h₁
      refine ⟨?_, fun key hkey => ⟨contentHash, hcontent, ?_, ?_⟩⟩
      · rw [Kept, htables, hbodies]
        exact BodiesKept.put hw hb (hhash _ hcontent)
      · exact (Option.some.inj hkey).symm
      · rw [hbodies]
        exact BodyBackend.lookup_put_isSome hb _ _ _ _
  · obtain ⟨rfl, rfl⟩ := run_pure_eq_ok.1 h
    exact ⟨hw, by simp [hnew]⟩

lemma storeBody_kept_error (hb : backend ≠ .noop) {response : FetchResult} {record : PageRecord}
    {duplicate : Bool} {w w' : ω} {e : PyError}
    (hhash : ∀ contentHash ∈ record.contentHash, P.tools.sha256 response.body = contentHash)
    (hw : P.Kept backend bodiesOf tablesOf w)
    (h : (P.storeBody response record duplicate).run w = .error e w') :
    P.Kept backend bodiesOf tablesOf w' := by
  rw [storeBody] at h
  split at h
  · next put contentHash hput hcontent =>
    split_ifs at h
    · exact ((preserves_pure _) w hw).2 e w' h
    · rcases run_bind_eq_error.1 h with h₁ | ⟨key, w₁, -, h⟩
      · obtain ⟨htables, hbodies⟩ := hW.put_error put hput _ _ _ _ _ _ h₁
        rw [Kept, htables]
        rcases hbodies with hbodies | hbodies
        · rw [hbodies]
          exact hw
        · rw [hbodies]
          exact BodiesKept.put hw hb (hhash _ hcontent)
      · cases h
  · exact ((preserves_pure _) w hw).2 e w' h

/-- Saving a record whose key is that of a stored body. -/
lemma savePage_kept {record : PageRecord} {w w' : ω} (hw : P.Kept backend bodiesOf tablesOf w)
    (hrecord : ∀ key ∈ record.storageKey, ∃ contentHash, record.contentHash = some contentHash ∧
      key = backend.storageKey contentHash ∧ ((bodiesOf w).lookup contentHash).isSome)
    (h : Ends (P.sink.savePage record) w w') : P.Kept backend bodiesOf tablesOf w' := by
  have hsaved : bodiesOf w' = bodiesOf w ∧
      (tablesOf w' = tablesOf w ∨ ∃ now, tablesOf w' = (tablesOf w).savePage now record) := by
    rcases h with ⟨u, h⟩ | ⟨e, h⟩
    · exact ⟨(hW.save_ok _ _ _ _ h).1, Or.inr (hW.save_ok _ _ _ _ h).2⟩
    · exact hW.save_error _ _ _ _ h
  obtain ⟨hbodies, htables | ⟨now, htables⟩⟩ := hsaved
  · rw [Kept, hbodies, htables]
    exact hw
  · rw [Kept, hbodies, htables]
    exact BodiesKept.savePage hw now hrecord

/-- The body before the row: whatever point `storePage` reaches, the rows are in order. -/
lemma preserves_storePage (hb : backend ≠ .noop) (item : FrontierItem) (response : FetchResult) :
    Preserves (P.Kept backend bodiesOf tablesOf) (P.storePage item response) := by
  rw [storePage]
  refine (preserves_ofExcept _).bind ?_
  intro _ url _ _
  refine (preserves_ofExcept _).bind ?_
  intro _ domain _ _
  refine (preserves_readPage hW response _).bind ?_
  intro w₀ p w hread
  -- `readPage` neither sets a key nor touches the hash
  obtain ⟨hnew, hcontent⟩ : p.1.storageKey = none ∧
      p.1.contentHash = (P.newRecord item response url domain).contentHash := by
    rcases readPage_eq_ok hread with
      ⟨-, -, rfl⟩ | ⟨-, parsed, -, ⟨-, -, rfl⟩ | ⟨_, _, _, -, -, -, rfl⟩⟩ <;> exact ⟨rfl, rfl⟩
  have hhash : ∀ contentHash ∈ p.1.contentHash,
      P.tools.sha256 response.body = contentHash := by
    intro contentHash hmem
    rw [hcontent, newRecord] at hmem
    split_ifs at hmem
    · cases hmem
    · exact Option.some.inj hmem
  refine fun w hw => ⟨?_, ?_⟩
  · intro r w' h
    obtain ⟨record, w₁, hbody, h⟩ := run_bind_eq_ok.1 h
    obtain ⟨u, w₂, hsave, h⟩ := run_bind_eq_ok.1 h
    obtain ⟨-, rfl⟩ := run_pure_eq_ok.1 h
    obtain ⟨hw₁, hrecord⟩ := storeBody_kept hW hb hnew hhash hw hbody
    exact savePage_kept hW hw₁ hrecord (Or.inl ⟨u, hsave⟩)
  · intro e w' h
    rcases run_bind_eq_error.1 h with hbody | ⟨record, w₁, hbody, h⟩
    · exact storeBody_kept_error hW hb hhash hw hbody
    · obtain ⟨hw₁, hrecord⟩ := storeBody_kept hW hb hnew hhash hw hbody
      rcases run_bind_eq_error.1 h with hsave | ⟨u, w₂, -, h⟩
      · exact savePage_kept hW hw₁ hrecord (Or.inr ⟨e, hsave⟩)
      · cases h

/-- A call of `process` keeps the rows in order, whether it returns or raises. -/
lemma preserves_kept_process (hb : backend ≠ .noop) (c : Readings) (item : FrontierItem) :
    Preserves (fun s => P.Kept backend bodiesOf tablesOf s.store) (P.process c item) :=
  preserves_store_process (preserves_conditionalHeaders hW _)
    fun _ _ response _ _ _ _ => preserves_storePage hW hb item response

end Process

/-- The object stores and the SQL sink of the repository. -/
lemma writesBodies_withStores (P : Pipeline ν Stores) (D : InMemoryContentDedup)
    (backend : BodyBackend) (now : ℚ) :
    (P.withStores D backend now).WritesBodies backend Stores.bodies Stores.tables where
  put_ok put hput contentHash body contentType w key w' h := by
    obtain rfl := Option.some.inj hput
    obtain ⟨rfl, rfl⟩ := EStateM.Result.ok.inj h
    exact ⟨rfl, rfl, rfl⟩
  put_error put hput contentHash body contentType w e w' h := by
    obtain rfl := Option.some.inj hput
    cases h
  save_ok record w u w' h := by
    obtain ⟨-, rfl⟩ := EStateM.Result.ok.inj h
    exact ⟨rfl, now, rfl⟩
  save_error record w e w' h := by cases h
  getValidators url b t w hw := by
    refine ⟨?_, fun e w' h => by cases h⟩
    intro v w' h
    obtain ⟨-, rfl⟩ := EStateM.Result.ok.inj h
    exact hw
  isDuplicate isDuplicate hdedup fingerprint b t := by
    obtain rfl := Option.some.inj hdedup
    exact preserves_zoom _ fun _ _ hw => hw

/-- A crawl calls `process` for one item after the other; what it raises is caught. -/
def processAll (P : Pipeline ν ω) (calls : List (Readings × FrontierItem)) :
    EStateM PyError (PipelineState ν ω) Unit :=
  forM calls fun call => do
    let _ ← attempt (P.process call.1 call.2)
    pure ()

/-- **The body of every stored page is found.**  After any calls of `process`, some of which may
have raised, a row that has a storage key has a body under it, whose hash it records. -/
theorem stored_bodies (hb : backend ≠ .noop) (hhex : ∀ body, '/' ∉ (P.tools.sha256 body).toList)
    (hW : P.WritesBodies backend bodiesOf tablesOf) (calls : List (Readings × FrontierItem))
    {s s' : PipelineState ν ω} (hbodies : bodiesOf s.store = ∅)
    (hrows : (tablesOf s.store).documents = []) {u : Unit}
    (h : (P.processAll calls).run s = .ok u s') {row : DocumentRow}
    (hrow : row ∈ (tablesOf s'.store).documents) {key : String} (hkey : row.storageKey = some key) :
    ∃ body, backend.get key (bodiesOf s'.store) = some body ∧
      row.contentHash = some (P.tools.sha256 body) := by
  have hstart : P.Kept backend bodiesOf tablesOf s.store := by
    constructor
    · intro contentHash body hlook
      rw [hbodies] at hlook
      cases hlook
    · intro row hrow
      rw [hrows] at hrow
      cases hrow
  have hkeep : Preserves (fun s => P.Kept backend bodiesOf tablesOf s.store)
      (P.processAll calls) :=
    Preserves.forM fun call _ => (preserves_kept_process hW hb call.1 call.2).attempt.bind
      fun _ _ _ _ => preserves_pure _
  exact BodiesKept.exists_get ((hkeep s hstart).1 u s' h) hb hhex hrow hkey

/-- A text file, stored in Postgres. -/
theorem stored_bodies_textResponse :
    ∃ s' row, (((answering textResponse).withStores {} .postgres 0).processAll
        [(⟨0, 0⟩, { url := "http://a.org/" })]).run ⟨{}, (), {}⟩ = .ok () s' ∧
      row ∈ s'.store.tables.documents ∧
      ∃ body, BodyBackend.postgres.get
          "pg:8f434346648f6b96df89dda901c5176b10a6d83961dd3c1ac88b59b2dc327aa4" s'.store.bodies =
            some body ∧
        row.contentHash = some (linkPageTools.sha256 body) := by
  have hhex : ∀ body, '/' ∉ (linkPageTools.sha256 body).toList := by
    intro body
    simp only [linkPageTools]
    split_ifs
    · decide
    · decide
  refine ⟨_, _, rfl, List.mem_singleton_self _, ?_⟩
  exact stored_bodies (P := (answering textResponse).withStores {} .postgres 0)
    (s := ⟨{}, (), {}⟩) (by decide) hhex (writesBodies_withStores _ _ _ _)
    [(⟨0, 0⟩, { url := "http://a.org/" })] rfl rfl rfl (List.mem_singleton_self _) rfl

end Pipeline

end WebCrawler
