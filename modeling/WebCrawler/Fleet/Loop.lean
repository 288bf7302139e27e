import WebCrawler.Lib.Machine
import WebCrawler.Lib.SeenSet
import WebCrawler.Worker

/-!
# The fleet as a machine

Any number of workers consume the frontier and retry topics as one consumer group.
A state lists the records that were not handed to a worker yet and the calls of
`_handle` that are under way, each with the `await` at which it stands; a step hands
out a record or lets one of the calls go on to its next `await`.  The seeding code
(`SqlCrawlService._seed` and `_seed` of the command line) publishes the seeds one by
one while the workers are already running.

The machine allows more than Kafka does: a record whose offset is not committed may be
handed out again at any time, any exception may be raised in the loop over the links,
also after the call that raises has taken effect, and a call may end at any point, as
when its worker is killed.  What `pipeline.process` returns or raises is chosen by
the environment.

The key of a record is the registered domain of its URL.  A URL without one cannot be
published: such a seed ends the seeding, such a link raises in the loop over the links,
and the exception of any other send ends the call.

Every record carries the number of its lineage: a message that is produced as a new URL
starts a lineage, and the copies that go through the retry topic belong to the lineage
of the message they were made from.  The lineages and the last two fields of a state
are never read.
-/

namespace WebCrawler

open Lib

/-- The settings that the workers of a fleet share. -/
structure Fleet where
  maxDepth : ℤ := 3
  maxRetries : ℤ := 3
  /-- Whether `registered_domain` returns for a URL. -/
  hasKey : String → Bool := fun _ => true

/-- A record on a topic. -/
structure Entry where
  topic : Topic
  lineage : ℕ
  value : Wire
deriving DecidableEq

/-- The point at which a call of `_handle` stands. -/
inductive Point
  /-- Awaiting `pipeline.process`. -/
  | processing (m : FrontierMessage)
  /-- In the loop over the links of the page; the remaining ones are listed. -/
  | linking (m : FrontierMessage) (r : ProcessResult) (rest : List Link)
  /-- Awaiting `enqueue` for a link that is new to the seen-set. -/
  | enqueuing (m : FrontierMessage) (r : ProcessResult) (link : Link) (rest : List Link)
  /-- About to send the message to the retry topic or to the dlq. -/
  | retrying (m : FrontierMessage)
  /-- Awaiting the delay of a message of the retry topic. -/
  | requeuing (m : FrontierMessage)
deriving DecidableEq, Repr

/-- The message that a call holds. -/
def Point.message : Point → FrontierMessage
  | .processing m => m
  | .linking m _ _ => m
  | .enqueuing m _ _ _ => m
  | .retrying m => m
  | .requeuing m => m

/-- A call of `_handle` that is under way. -/
structure Call where
  lineage : ℕ
  point : Point
deriving DecidableEq, Repr

/-- A state of the fleet. -/
structure FleetState (σ : Type) where
  /-- The seeds that are still to be published. -/
  seeds : List FrontierMessage
  seen : σ
  /-- The records of all topics, in the order in which they were accepted. -/
  log : List Entry := []
  /-- The records that are to be handed to a worker. -/
  pending : List Entry := []
  /-- The records handed to a worker whose offsets are not committed. -/
  uncommitted : List Entry := []
  calls : List Call := []
  /-- The messages produced as new URLs, in order; the position is the lineage. -/
  roots : List FrontierMessage := []
  /-- The lineages of the messages handed to `process_message`, in order. -/
  processed : List ℕ := []
deriving DecidableEq

/-- The steps of the fleet. -/
inductive FleetAct
  /-- The next seed is published. -/
  | seed
  /-- A record is handed to a worker. -/
  | deliver (k : ℕ)
  /-- A record whose offset is not committed is handed out again. -/
  | redeliver (k : ℕ)
  /-- The offset of a record is committed. -/
  | commit (k : ℕ)
  /-- `pipeline.process` returns or raises. -/
  | process (i : ℕ) (out : Except PyError ProcessResult)
  /-- One turn of the loop over the links, up to the answer of the seen-set. -/
  | check (i : ℕ)
  /-- `enqueue` returns, or finds no key for the link. -/
  | enqueue (i : ℕ)
  /-- An exception is raised in the loop over the links. -/
  | raise (i : ℕ)
  /-- `_schedule_retry`, at a given time. -/
  | retry (i : ℕ) (now : ℚ)
  /-- A message of the retry topic goes back to the frontier. -/
  | requeue (i : ℕ)
  /-- The call comes to an end before its work is done. -/
  | crash (i : ℕ)

namespace FleetState

variable {σ : Type} (s : FleetState σ)

/-- The broker accepts a record.  Nobody consumes the dlq. -/
def publish (topic : Topic) (lineage : ℕ) (m : FrontierMessage) : FleetState σ :=
  { s with
    log := s.log ++ [⟨topic, lineage, m.toBytes⟩]
    pending := if topic = .dlq then s.pending else s.pending ++ [⟨topic, lineage, m.toBytes⟩] }

/-- A message is produced as a new URL. -/
def produce (m : FrontierMessage) : FleetState σ :=
  { s with roots := s.roots ++ [m] }.publish .frontier s.roots.length m

/-- A record is handed to a worker. -/
def take (k : ℕ) (e : Entry) : FleetState σ :=
  { s with pending := s.pending.eraseIdx k, uncommitted := s.uncommitted ++ [e] }

/-- A call goes on to another point. -/
def setCall (i : ℕ) (call : Call) : FleetState σ := { s with calls := s.calls.set i call }

/-- A call comes to an end. -/
def endCall (i : ℕ) : FleetState σ := { s with calls := s.calls.eraseIdx i }

/-- A record that is to be handed out is on one of the topics. -/
lemma pending_publish_subset {s : FleetState σ} (h : s.pending ⊆ s.log) (topic : Topic)
    (lineage : ℕ) (m : FrontierMessage) :
    (s.publish topic lineage m).pending ⊆ (s.publish topic lineage m).log := by
  have hold := List.Subset.trans h (List.subset_append_left _ [⟨topic, lineage, m.toBytes⟩])
  simp only [publish]
  split_ifs
  · exact hold
  · exact List.append_subset.2 ⟨hold, List.subset_append_right _ _⟩

end FleetState

namespace Fleet

variable {σ : Type} (F : Fleet) (S : SeenSet σ String) (N : Numerals)

/-- `_handle` after `process_message` has returned. -/
def conclude (s : FleetState σ) (i : ℕ) (lineage : ℕ) (m : FrontierMessage) (r : ProcessResult) :
    FleetState σ :=
  if r.skipped = some .fetchError then s.setCall i ⟨lineage, .retrying m⟩ else s.endCall i

/-- `_handle` up to its first `await`. -/
def begin (s : FleetState σ) (e : Entry) : FleetState σ :=
  match FrontierMessage.fromBytes N e.value with
  | .error _ => s
  | .ok m =>
      if e.topic = .retry then { s with calls := s.calls ++ [⟨e.lineage, .requeuing m⟩] }
      else if m.depth > F.maxDepth then s
      else
        { s with
          calls := s.calls ++ [⟨e.lineage, .processing m⟩]
          processed := s.processed ++ [e.lineage] }

/-- One step. -/
def step (s : FleetState σ) : FleetAct → Option (FleetState σ)
  | .seed =>
      match s.seeds with
      | [] => none
      | m :: rest =>
          some (if F.hasKey m.url then { s with seeds := rest }.produce m
            else { s with seeds := [] })
  | .deliver k => s.pending[k]?.map fun e => F.begin N (s.take k e) e
  | .redeliver k => s.uncommitted[k]?.map fun e => { s with pending := s.pending ++ [e] }
  | .commit k => s.uncommitted[k]?.map fun _ => { s with uncommitted := s.uncommitted.eraseIdx k }
  | .process i out =>
      match s.calls[i]? with
      | some ⟨ℓ, .processing m⟩ =>
          match out with
          | .error _ => some (s.setCall i ⟨ℓ, .retrying m⟩)
          | .ok r =>
              if r.expands m.toItem F.maxDepth then some (s.setCall i ⟨ℓ, .linking m r r.links⟩)
              else some (conclude s i ℓ m r)
      | _ => none
  | .check i =>
      match s.calls[i]? with
      | some ⟨ℓ, .linking m r []⟩ => some (conclude s i ℓ m r)
      | some ⟨ℓ, .linking m r (l :: rest)⟩ =>
          -- the link is entered into the seen-set now and enqueued by a later step
          let answer := S.checkAndAdd s.seen l.url
          some ({ s with seen := answer.2 }.setCall i
            ⟨ℓ, if answer.1 then .enqueuing m r l rest else .linking m r rest⟩)
      | _ => none
  | .enqueue i =>
      match s.calls[i]? with
      | some ⟨ℓ, .enqueuing m r l rest⟩ =>
          some (if F.hasKey l.url then
              (s.produce (.fromItem (child m.toItem l))).setCall i ⟨ℓ, .linking m r rest⟩
            else s.setCall i ⟨ℓ, .retrying m⟩)
      | _ => none
  | .raise i =>
      match s.calls[i]? with
      | some ⟨ℓ, .linking m _ _⟩ => some (s.setCall i ⟨ℓ, .retrying m⟩)
      | some ⟨ℓ, .enqueuing m _ _ _⟩ => some (s.setCall i ⟨ℓ, .retrying m⟩)
      | _ => none
  | .retry i now =>
      match s.calls[i]? with
      | some ⟨ℓ, .retrying m⟩ =>
          let out := CrawlWorker.afterFailure F.maxRetries now m
          some (if F.hasKey m.url then (s.publish out.1 ℓ out.2).endCall i else s.endCall i)
      | _ => none
  | .requeue i =>
      match s.calls[i]? with
      | some ⟨ℓ, .requeuing m⟩ =>
          some (if F.hasKey m.url then
              (s.publish .frontier ℓ { m with notBefore := 0 }).endCall i
            else s.endCall i)
      | _ => none
  | .crash i => s.calls[i]?.map fun _ => s.endCall i

/-- The fleet on empty topics, with the seeds still to be published. -/
def machine (seen : σ) (seeds : List FrontierMessage) : Machine (FleetState σ) FleetAct where
  init := { seeds := seeds, seen := seen }
  step := F.step S N

/-! ### What one step can do -/

/-- The steps, one by one.  The call that moves splits the list of calls, and the record
that is handed out splits the list of pending records. -/
inductive Moves (F : Fleet) (S : SeenSet σ String) (N : Numerals) (s : FleetState σ) :
    FleetAct → FleetState σ → Prop
  /-- A seed is published. -/
  | seed {m : FrontierMessage} {rest : List FrontierMessage} (hs : s.seeds = m :: rest)
      (hkey : F.hasKey m.url = true) : Moves F S N s .seed ({ s with seeds := rest }.produce m)
  /-- A seed cannot be published, and the seeding ends. -/
  | abort (hs : s.seeds ≠ []) : Moves F S N s .seed { s with seeds := [] }
  /-- A record is handed to a worker that drops it. -/
  | drop {pre post : List Entry} {e : Entry} (hs : s.pending = pre ++ e :: post) :
      Moves F S N s (.deliver pre.length)
        { s with pending := pre ++ post, uncommitted := s.uncommitted ++ [e] }
  /-- A record of the retry topic is handed to a worker. -/
  | wait {pre post : List Entry} {e : Entry} {m : FrontierMessage}
      (hs : s.pending = pre ++ e :: post) (hm : FrontierMessage.fromBytes N e.value = .ok m) :
      Moves F S N s (.deliver pre.length)
        { s with
          pending := pre ++ post
          uncommitted := s.uncommitted ++ [e]
          calls := s.calls ++ [⟨e.lineage, .requeuing m⟩] }
  /-- A record of the frontier topic is handed to a worker. -/
  | visit {pre post : List Entry} {e : Entry} {m : FrontierMessage}
      (hs : s.pending = pre ++ e :: post) (hm : FrontierMessage.fromBytes N e.value = .ok m)
      (hd : m.depth ≤ F.maxDepth) :
      Moves F S N s (.deliver pre.length)
        { s with
          pending := pre ++ post
          uncommitted := s.uncommitted ++ [e]
          calls := s.calls ++ [⟨e.lineage, .processing m⟩]
          processed := s.processed ++ [e.lineage] }
  /-- A record is handed out again. -/
  | redeliver {k : ℕ} {e : Entry} (he : e ∈ s.uncommitted) :
      Moves F S N s (.redeliver k) { s with pending := s.pending ++ [e] }
  /-- An offset is committed. -/
  | commit {k : ℕ} :
      Moves F S N s (.commit k) { s with uncommitted := s.uncommitted.eraseIdx k }
  /-- The links of a page are followed. -/
  | expand {pre post : List Call} {ℓ : ℕ} {m : FrontierMessage} {r : ProcessResult}
      (hs : s.calls = pre ++ ⟨ℓ, .processing m⟩ :: post)
      (hexp : r.expands m.toItem F.maxDepth = true) :
      Moves F S N s (.process pre.length (.ok r))
        { s with calls := pre ++ ⟨ℓ, .linking m r r.links⟩ :: post }
  /-- The seen-set knows a link. -/
  | known {pre post : List Call} {ℓ : ℕ} {m : FrontierMessage} {r : ProcessResult} {l : Link}
      {rest : List Link} (hs : s.calls = pre ++ ⟨ℓ, .linking m r (l :: rest)⟩ :: post) :
      Moves F S N s (.check pre.length)
        { s with
          seen := (S.checkAndAdd s.seen l.url).2
          calls := pre ++ ⟨ℓ, .linking m r rest⟩ :: post }
  /-- A link is new to the seen-set. -/
  | fresh {pre post : List Call} {ℓ : ℕ} {m : FrontierMessage} {r : ProcessResult} {l : Link}
      {rest : List Link} (hs : s.calls = pre ++ ⟨ℓ, .linking m r (l :: rest)⟩ :: post)
      (hnew : (S.checkAndAdd s.seen l.url).1 = true) :
      Moves F S N s (.check pre.length)
        { s with
          seen := (S.checkAndAdd s.seen l.url).2
          calls := pre ++ ⟨ℓ, .enqueuing m r l rest⟩ :: post }
  /-- A new link is enqueued. -/
  | enqueue {pre post : List Call} {ℓ : ℕ} {m : FrontierMessage} {r : ProcessResult} {l : Link}
      {rest : List Link} (hs : s.calls = pre ++ ⟨ℓ, .enqueuing m r l rest⟩ :: post)
      (hkey : F.hasKey l.url = true) :
      Moves F S N s (.enqueue pre.length)
        (FleetState.produce { s with calls := pre ++ ⟨ℓ, .linking m r rest⟩ :: post }
          (.fromItem (child m.toItem l)))
  /-- The work on a message has failed. -/
  | fail {a : FleetAct} {pre post : List Call} {ℓ : ℕ} {p : Point}
      (hs : s.calls = pre ++ ⟨ℓ, p⟩ :: post) (hp : ∀ m, p ≠ .requeuing m) :
      Moves F S N s a { s with calls := pre ++ ⟨ℓ, .retrying p.message⟩ :: post }
  /-- A message is sent to the retry topic or to the dlq. -/
  | retry {pre post : List Call} {ℓ : ℕ} {m : FrontierMessage} {now : ℚ}
      (hs : s.calls = pre ++ ⟨ℓ, .retrying m⟩ :: post) (hkey : F.hasKey m.url = true) :
      Moves F S N s (.retry pre.length now)
        ({ s with calls := pre ++ post }.publish (CrawlWorker.afterFailure F.maxRetries now m).1 ℓ
          (CrawlWorker.afterFailure F.maxRetries now m).2)
  /-- A message of the retry topic goes back to the frontier. -/
  | requeue {pre post : List Call} {ℓ : ℕ} {m : FrontierMessage}
      (hs : s.calls = pre ++ ⟨ℓ, .requeuing m⟩ :: post) (hkey : F.hasKey m.url = true) :
      Moves F S N s (.requeue pre.length)
        ({ s with calls := pre ++ post }.publish .frontier ℓ { m with notBefore := 0 })
  /-- A call comes to an end. -/
  | finish {a : FleetAct} {pre post : List Call} {call : Call}
      (hs : s.calls = pre ++ call :: post) :
      Moves F S N s a { s with calls := pre ++ post }

variable {F S N} {s t : FleetState σ} {a : FleetAct}

lemma moves_conclude {pre post : List Call} {ℓ : ℕ} {p : Point} {r : ProcessResult}
    (hs : s.calls = pre ++ ⟨ℓ, p⟩ :: post) (hp : ∀ m, p ≠ .requeuing m) :
    Moves F S N s a (conclude s pre.length ℓ p.message r) := by
  rw [conclude]
  split_ifs with hskip
  · simpa [FleetState.setCall, hs] using Moves.fail (F := F) (S := S) (N := N) (a := a) hs hp
  · simpa [FleetState.endCall, hs] using Moves.finish (F := F) (S := S) (N := N) (a := a) hs

lemma moves_deliver {k : ℕ} (h : F.step S N s (.deliver k) = some t) :
    Moves F S N s (.deliver k) t := by
  obtain ⟨e, he, rfl⟩ := Option.map_eq_some_iff.1 h
  obtain ⟨pre, post, hs, rfl⟩ := exists_split_of_getElem? he
  have hdrop : Moves F S N s (.deliver pre.length) (s.take pre.length e) := by
    simpa [FleetState.take, hs] using Moves.drop (F := F) (S := S) (N := N) hs
  rw [begin]
  cases hm : FrontierMessage.fromBytes N e.value with
  | error err => exact hdrop
  | ok m =>
      simp only
      split_ifs with htopic hd
      · simpa [FleetState.take, hs] using Moves.wait (F := F) (S := S) hs hm
      · exact hdrop
      · simpa [FleetState.take, hs] using Moves.visit (S := S) hs hm (not_lt.1 hd)

lemma moves_process {i : ℕ} {out : Except PyError ProcessResult}
    (h : F.step S N s (.process i out) = some t) : Moves F S N s (.process i out) t := by
  simp only [step] at h
  split at h
  case h_2 => simp at h
  case h_1 ℓ m hi =>
    obtain ⟨pre, post, hs, rfl⟩ := exists_split_of_getElem? hi
    cases out with
    | error e =>
        obtain rfl := Option.some.inj h
        simpa [FleetState.setCall, hs, Point.message] using
          Moves.fail (F := F) (S := S) (N := N) hs (by simp)
    | ok r =>
        simp only at h
        split_ifs at h with hexp
        · obtain rfl := Option.some.inj h
          simpa [FleetState.setCall, hs] using Moves.expand (S := S) (N := N) hs hexp
        · obtain rfl := Option.some.inj h
          exact moves_conclude hs (by simp)

lemma moves_check {i : ℕ} (h : F.step S N s (.check i) = some t) :
    Moves F S N s (.check i) t := by
  simp only [step] at h
  split at h
  case h_3 => simp at h
  case h_1 ℓ m r hi =>
    obtain ⟨pre, post, hs, rfl⟩ := exists_split_of_getElem? hi
    obtain rfl := Option.some.inj h
    exact moves_conclude hs (by simp)
  case h_2 ℓ m r l rest hi =>
    obtain ⟨pre, post, hs, rfl⟩ := exists_split_of_getElem? hi
    obtain rfl := Option.some.inj h
    by_cases hnew : (S.checkAndAdd s.seen l.url).1 = true
    · simpa [FleetState.setCall, hs, hnew] using Moves.fresh (F := F) (N := N) hs hnew
    · simpa [FleetState.setCall, hs, hnew] using Moves.known (F := F) (S := S) (N := N) hs

lemma moves_raise {i : ℕ} (h : F.step S N s (.raise i) = some t) :
    Moves F S N s (.raise i) t := by
  simp only [step] at h
  split at h
  case h_3 => simp at h
  case h_1 ℓ m r rest hi =>
    obtain ⟨pre, post, hs, rfl⟩ := exists_split_of_getElem? hi
    obtain rfl := Option.some.inj h
    simpa [FleetState.setCall, hs, Point.message] using
      Moves.fail (F := F) (S := S) (N := N) hs (by simp)
  case h_2 ℓ m r l rest hi =>
    obtain ⟨pre, post, hs, rfl⟩ := exists_split_of_getElem? hi
    obtain rfl := Option.some.inj h
    simpa [FleetState.setCall, hs, Point.message] using
      Moves.fail (F := F) (S := S) (N := N) hs (by simp)

/-- The steps that publish a record, unless there is no key for it. -/
lemma moves_publish (h : F.step S N s a = some t)
    (ha : (∃ i, a = .enqueue i) ∨ (∃ i now, a = .retry i now) ∨ ∃ i, a = .requeue i) :
    Moves F S N s a t := by
  rcases ha with ⟨i, rfl⟩ | ⟨i, now, rfl⟩ | ⟨i, rfl⟩
  · simp only [step] at h
    split at h
    case h_2 => simp at h
    case h_1 ℓ m r l rest hi =>
      obtain ⟨pre, post, hs, rfl⟩ := exists_split_of_getElem? hi
      obtain rfl := Option.some.inj h
      split_ifs with hkey
      · simpa [FleetState.setCall, FleetState.produce, FleetState.publish, hs] using
          Moves.enqueue (S := S) (N := N) hs hkey
      · simpa [FleetState.setCall, hs, Point.message] using
          Moves.fail (F := F) (S := S) (N := N) hs (by simp)
  · simp only [step] at h
    split at h
    case h_2 => simp at h
    case h_1 ℓ m hi =>
      obtain ⟨pre, post, hs, rfl⟩ := exists_split_of_getElem? hi
      obtain rfl := Option.some.inj h
      split_ifs with hkey
      · have hm : Moves F S N s (.retry pre.length now) _ := .retry hs hkey
        simpa [FleetState.endCall, FleetState.publish, hs] using hm
      · simpa [FleetState.endCall, hs] using Moves.finish (F := F) (S := S) (N := N) hs
  · simp only [step] at h
    split at h
    case h_2 => simp at h
    case h_1 ℓ m hi =>
      obtain ⟨pre, post, hs, rfl⟩ := exists_split_of_getElem? hi
      obtain rfl := Option.some.inj h
      split_ifs with hkey
      · simpa [FleetState.endCall, FleetState.publish, hs] using
          Moves.requeue (S := S) (N := N) hs hkey
      · simpa [FleetState.endCall, hs] using Moves.finish (F := F) (S := S) (N := N) hs

/-- **Inversion of a step.** -/
theorem moves_of_step (h : F.step S N s a = some t) : Moves F S N s a t := by
  cases a with
  | seed =>
      simp only [step] at h
      split at h
      case h_1 => simp at h
      case h_2 m rest hs =>
        obtain rfl := Option.some.inj h
        split_ifs with hkey
        · exact .seed hs hkey
        · exact .abort (hs ▸ List.cons_ne_nil m rest)
  | deliver k => exact moves_deliver h
  | redeliver k =>
      obtain ⟨e, he, rfl⟩ := Option.map_eq_some_iff.1 h
      exact .redeliver (List.mem_of_getElem? he)
  | commit k =>
      obtain ⟨e, -, rfl⟩ := Option.map_eq_some_iff.1 h
      exact .commit
  | process i out => exact moves_process h
  | check i => exact moves_check h
  | enqueue i => exact moves_publish h (Or.inl ⟨i, rfl⟩)
  | raise i => exact moves_raise h
  | retry i now => exact moves_publish h (Or.inr (Or.inl ⟨i, now, rfl⟩))
  | requeue i => exact moves_publish h (Or.inr (Or.inr ⟨i, rfl⟩))
  | crash i =>
      obtain ⟨call, hi, rfl⟩ := Option.map_eq_some_iff.1 h
      obtain ⟨pre, post, hs, rfl⟩ := exists_split_of_getElem? hi
      simpa [FleetState.endCall, hs] using Moves.finish (F := F) (S := S) (N := N) hs

end Fleet

end WebCrawler
