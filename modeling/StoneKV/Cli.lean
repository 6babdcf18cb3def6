import StoneKV.Marker
import StoneKV.Store

/-!
# The command line

A process of the command line opens the store, makes one call, and prints what it returned.

* `parseArgsWithDir`: the positional arguments and the directory.
* `fromUtf8Lossy`: bytes as text; **`fromUtf8Lossy_utf8`**: the text of the bytes of a text.
* `commandSet`, …, `commandVerify`, `run`, `main`: the commands.
* **`parseArgsWithDir_iff`**: which arguments are accepted, and as what.
-/

namespace StoneKV

open FaultProg

abbrev Text : Type := List Char

def DEFAULT_DATA_DIR : Text := "./stone-data".toList

def DIR_OPTION : Text := "--dir".toList

def OPTION_PREFIX : Text := "--".toList

/-! ## Arguments -/

/-- The loop of `parse_args_with_dir`. -/
def parseArgsFrom : List Text → (positionals : List Text) → (dir : Text) → (dirSeen : Bool) →
    Except StoneError (List Text × Text)
  | [], positionals, dir, _ => .ok (positionals, dir)
  | argument :: args, positionals, dir, dirSeen =>
    if argument = DIR_OPTION then do
      rejectIf (dirSeen = true) (.invalidArgument "--dir may only be specified once")
      match args with
      | [] => .error (.invalidArgument "--dir requires a path")
      | path :: args => do
        rejectIf (path = []) (.invalidArgument "--dir path cannot be empty")
        parseArgsFrom args positionals path true
    else if OPTION_PREFIX.isPrefixOf argument then
      .error (.invalidArgument ("unknown option '" ++ String.ofList argument ++ "'"))
    else parseArgsFrom args (positionals ++ [argument]) dir dirSeen

def parseArgsWithDir (args : List Text) : Except StoneError (List Text × Text) :=
  parseArgsFrom args [] DEFAULT_DATA_DIR false

/-! ## Text -/

/-- A continuation byte. -/
def isContinuation (b : UInt8) : Bool := 0x80 ≤ b ∧ b ≤ 0xBF

/-- The first two bytes of three. -/
def startsThree (a b : UInt8) : Bool :=
  (a = 0xE0 ∧ 0xA0 ≤ b ∧ b ≤ 0xBF) ∨ (0xE1 ≤ a ∧ a ≤ 0xEC ∧ isContinuation b) ∨
    (a = 0xED ∧ 0x80 ≤ b ∧ b ≤ 0x9F) ∨ (0xEE ≤ a ∧ a ≤ 0xEF ∧ isContinuation b)

/-- The first two bytes of four. -/
def startsFour (a b : UInt8) : Bool :=
  (a = 0xF0 ∧ 0x90 ≤ b ∧ b ≤ 0xBF) ∨ (0xF1 ≤ a ∧ a ≤ 0xF3 ∧ isContinuation b) ∨
    (a = 0xF4 ∧ 0x80 ≤ b ∧ b ≤ 0x8F)

/-- How many bytes one replacement character stands for, at the start of bytes that do not start with a
character: as many as a character could start with. -/
def invalidLen : Bytes → ℕ
  | a :: b :: rest =>
    if startsFour a b then if isContinuation (rest.headD 0) then 3 else 2
    else if startsThree a b then 2
    else 1
  | _ => 1

def REPLACEMENT_CHARACTER : Char := '\uFFFD'

/-- `String::from_utf8_lossy`. -/
def fromUtf8Lossy (bytes : Bytes) : Text :=
  match bytes with
  | [] => []
  | b :: bs =>
    match (b :: bs).toByteArray.utf8DecodeChar? 0 with
    | some c => c :: fromUtf8Lossy (bs.drop (c.utf8Size - 1))
    | none => REPLACEMENT_CHARACTER :: fromUtf8Lossy (bs.drop (invalidLen (b :: bs) - 1))
termination_by bytes.length
decreasing_by all_goals simp only [List.length_drop, List.length_cons]; omega

/-! ## Commands -/

/-- What a process prints to the error stream at its end. -/
inductive Complaint
  | usage
  | notFound
  | error (e : StoneError)
  deriving DecidableEq

/-- The lines that a process prints, what it complains about, and its exit status. -/
structure Response where
  stdout : List Text
  stderr : Option Complaint
  status : ℕ
  deriving DecidableEq

/-- A process that succeeds. -/
def printed (lines : List Text) : Response := ⟨lines, none, 0⟩

/-- `println!` of a name and a number. -/
def numberLine (name : String) (n : ℕ) : Text := name.toList ++ ": ".toList ++ decimal n

def OK : Text := "OK".toList

def SET : Text := "set".toList
def GET : Text := "get".toList
def DEL : Text := "del".toList
def DELETE : Text := "delete".toList
def COMPACT : Text := "compact".toList
def STATS : Text := "stats".toList
def VERIFY : Text := "verify".toList

def USAGE : List Text := [
  "stone — zero-dependency embedded key-value store".toList,
  "".toList,
  "Usage:".toList,
  "  stone set <key> <value> [--dir PATH]".toList,
  "  stone get <key> [--dir PATH]".toList,
  "  stone del <key> [--dir PATH]".toList,
  "  stone compact [--dir PATH]".toList,
  "  stone stats [--dir PATH]".toList,
  "  stone verify [--dir PATH]".toList,
  "  stone help".toList,
  "".toList,
  "Default data directory:".toList,
  "  ./stone-data".toList]

section Commands

-- the path that a text names, for the process
variable (pathOf : Text → Path)

/-- The common body of the commands: `method` is run on the store. -/
def onStore (count : ℕ) (usage : String) (method : List Text → Method Response) (args : List Text) :
    Io Response := do
  let (positionals, dir) ← Prog.ofExcept (parseArgsWithDir args)
  Prog.ofExcept (rejectIf (positionals.length ≠ count) (.invalidArgument usage))
  let store ← Store.open (pathOf dir)
  let (response, _) ← Prog.withLocal store (method positionals)
  return response

def commandSet : List Text → Io Response :=
  onStore pathOf 2 "usage: stone set <key> <value> [--dir PATH]" fun positionals => do
    let key := utf8 (positionals.getD 0 [])
    let value := utf8 (positionals.getD 1 [])
    Store.set key value
    return printed [OK]

def commandGet : List Text → Io Response :=
  onStore pathOf 1 "usage: stone get <key> [--dir PATH]" fun positionals => do
    let key := utf8 (positionals.getD 0 [])
    match ← Store.get key with
    | some value => return printed [fromUtf8Lossy value]
    | none => return ⟨[], some .notFound, 1⟩

def commandDelete : List Text → Io Response :=
  onStore pathOf 1 "usage: stone del <key> [--dir PATH]" fun positionals => do
    let key := utf8 (positionals.getD 0 [])
    Store.delete key
    return printed [OK]

def commandCompact : List Text → Io Response :=
  onStore pathOf 0 "usage: stone compact [--dir PATH]" fun _ => do
    let stats ← Store.compact
    return printed [numberLine "segments_merged" stats.segmentsMerged,
      numberLine "records_before" stats.recordsBefore,
      numberLine "live_records_after" stats.liveRecordsAfter,
      numberLine "bytes_before" stats.bytesBefore, numberLine "bytes_after" stats.bytesAfter]

def commandStats : List Text → Io Response :=
  onStore pathOf 0 "usage: stone stats [--dir PATH]" fun _ => do
    let stats ← Store.stats
    return printed [numberLine "segments" stats.segmentCount,
      numberLine "segment_bytes" stats.totalSegmentBytes, numberLine "wal_bytes" stats.walBytes,
      numberLine "memtable_entries" stats.memtableEntries,
      numberLine "memtable_bytes" stats.memtableSizeBytes]

def commandVerify : List Text → Io Response :=
  onStore pathOf 0 "usage: stone verify [--dir PATH]" fun _ => do
    let stats ← Store.verify
    return printed [OK, numberLine "wal_records" stats.walRecords,
      numberLine "segments_checked" stats.segmentsChecked,
      numberLine "records_checked" stats.recordsChecked]

def run : List Text → Io Response
  | [] => return ⟨[], some .usage, 1⟩
  | command :: args =>
    if command = SET then commandSet pathOf args
    else if command = GET then commandGet pathOf args
    else if command = DEL ∨ command = DELETE then commandDelete pathOf args
    else if command = COMPACT then commandCompact pathOf args
    else if command = STATS then commandStats pathOf args
    else if command = VERIFY then commandVerify pathOf args
    else if command = "help".toList ∨ command = "--help".toList ∨ command = "-h".toList then
      return printed USAGE
    else Prog.throw (.invalidArgument ("unknown command '" ++ String.ofList command ++ "'"))

end Commands

/-! ## What is accepted -/

section Arguments

variable {args positionals ps : List Text} {dir d : Text}

/-- There are no options among the arguments. -/
def Plain (args : List Text) : Prop := ∀ a ∈ args, ¬ OPTION_PREFIX <+: a

theorem plain_cons {a : Text} : Plain (a :: args) ↔ ¬ OPTION_PREFIX <+: a ∧ Plain args :=
  List.forall_mem_cons

theorem not_plain_dir : ¬ Plain (DIR_OPTION :: args) := fun h =>
  (plain_cons.mp h).1 (by decide)

/-- After a directory there can be no option. -/
theorem parseArgsFrom_seen : parseArgsFrom args positionals dir true = .ok (ps, d) ↔
    Plain args ∧ ps = positionals ++ args ∧ d = dir := by
  induction args generalizing positionals with
  | nil => simp [parseArgsFrom, Plain, eq_comm]
  | cons a args ih =>
    rw [parseArgsFrom.eq_def]
    dsimp only
    split_ifs with hdir hoption
    · rw [hdir]
      exact iff_of_false nofun fun h => not_plain_dir h.1
    · rw [List.isPrefixOf_iff_prefix] at hoption
      exact iff_of_false nofun fun h => (plain_cons.mp h.1).1 hoption
    · rw [List.isPrefixOf_iff_prefix] at hoption
      rw [ih, plain_cons, List.append_assoc, List.singleton_append, and_iff_right hoption]

/-- One directory among the arguments, and no other option. -/
def OneDir (args : List Text) (dir : Text) (before after : List Text) : Prop :=
  args = before ++ DIR_OPTION :: dir :: after ∧ Plain before ∧ Plain after ∧ dir ≠ []

theorem oneDir_dir {a b : List Text} : OneDir (DIR_OPTION :: args) d a b ↔
    a = [] ∧ args = d :: b ∧ Plain b ∧ d ≠ [] := by
  constructor
  · rintro ⟨h, ha, hb, hd⟩
    rcases a with _ | ⟨x, a⟩
    · exact ⟨rfl, (List.cons.inj h).2, hb, hd⟩
    · obtain ⟨rfl, -⟩ := List.cons.inj h
      exact absurd ha not_plain_dir
  · rintro ⟨rfl, rfl, hb, hd⟩
    exact ⟨rfl, nofun, hb, hd⟩

theorem oneDir_cons {x : Text} {a b : List Text} (hx : x ≠ DIR_OPTION) :
    OneDir (x :: args) d a b ↔ ¬ OPTION_PREFIX <+: x ∧ ∃ a', a = x :: a' ∧ OneDir args d a' b := by
  constructor
  · rintro ⟨h, ha, hb, hd⟩
    rcases a with _ | ⟨y, a⟩
    · exact absurd (List.cons.inj h).1 hx
    · obtain ⟨rfl, hrest⟩ := List.cons.inj h
      obtain ⟨hoption, ha⟩ := plain_cons.mp ha
      exact ⟨hoption, a, rfl, hrest, ha, hb, hd⟩
  · rintro ⟨hx, a', rfl, rfl, ha, hb, hd⟩
    exact ⟨rfl, plain_cons.mpr ⟨hx, ha⟩, hb, hd⟩

theorem parseArgsFrom_iff : parseArgsFrom args positionals dir false = .ok (ps, d) ↔
    (Plain args ∧ ps = positionals ++ args ∧ d = dir) ∨
    ∃ a b, OneDir args d a b ∧ ps = positionals ++ a ++ b := by
  induction args generalizing positionals with
  | nil => simp [parseArgsFrom, Plain, OneDir, eq_comm]
  | cons x args ih =>
    rw [parseArgsFrom.eq_def]
    dsimp only
    split_ifs with hdir hoption
    · rw [rejectIf_of_not not_false, ok_bind, hdir, or_iff_right fun h => not_plain_dir h.1]
      simp only [oneDir_dir]
      rcases args with _ | ⟨path, args⟩
      · exact iff_of_false nofun fun ⟨_, _, ⟨_, h, _⟩, _⟩ => absurd h nofun
      · dsimp only
        by_cases hpath : path = []
        · rw [rejectIf_of hpath]
          refine iff_of_false nofun ?_
          rintro ⟨a, b, ⟨-, h, -, hd⟩, -⟩
          exact hd ((List.cons.inj h).1.symm.trans hpath)
        · rw [rejectIf_of_not hpath, ok_bind, parseArgsFrom_seen]
          constructor
          · rintro ⟨hplain, rfl, rfl⟩
            exact ⟨[], args, ⟨rfl, rfl, hplain, hpath⟩, by rw [List.append_nil]⟩
          · rintro ⟨a, b, ⟨rfl, h, hb, -⟩, rfl⟩
            obtain ⟨rfl, rfl⟩ := List.cons.inj h
            exact ⟨hb, by rw [List.append_nil], rfl⟩
    · rw [List.isPrefixOf_iff_prefix] at hoption
      refine iff_of_false nofun ?_
      rintro (⟨hplain, -⟩ | ⟨a, b, hone, -⟩)
      · exact (plain_cons.mp hplain).1 hoption
      · exact ((oneDir_cons hdir).mp hone).1 hoption
    · rw [List.isPrefixOf_iff_prefix] at hoption
      rw [ih, plain_cons, and_iff_right hoption, List.append_assoc, List.singleton_append]
      refine or_congr_right ?_
      simp only [oneDir_cons hdir, and_iff_right hoption]
      constructor
      · rintro ⟨a, b, hone, rfl⟩
        exact ⟨x :: a, b, ⟨a, rfl, hone⟩, by simp⟩
      · rintro ⟨_, b, ⟨a, rfl, hone⟩, rfl⟩
        exact ⟨a, b, hone, by simp⟩

/-- **Which arguments are accepted.** Either none of them starts with two dashes, and all are
positional; or there is one directory among them, which is not empty and may start with dashes, none
of the others does, and these are positional. -/
theorem parseArgsWithDir_iff : parseArgsWithDir args = .ok (ps, d) ↔
    (Plain args ∧ ps = args ∧ d = DEFAULT_DATA_DIR) ∨ ∃ a b, OneDir args d a b ∧ ps = a ++ b :=
  parseArgsFrom_iff

end Arguments

/-! ## Text as bytes -/

theorem fromUtf8Lossy_utf8 (text : Text) : fromUtf8Lossy (utf8 text) = text := by
  induction text with
  | nil => rw [utf8, List.flatMap_nil, fromUtf8Lossy]
  | cons c text ih =>
    have hcons : utf8 (c :: text) = String.utf8EncodeChar c ++ utf8 text := rfl
    have hlen : (String.utf8EncodeChar c).length = c.utf8Size := String.length_utf8EncodeChar c
    have hpos := c.utf8Size_pos
    rcases hbytes : String.utf8EncodeChar c with _ | ⟨b, bs⟩
    · rw [hbytes, List.length_nil] at hlen
      omega
    · have hdecode : (b :: (bs ++ utf8 text)).toByteArray.utf8DecodeChar? 0 = some c := by
        have := ByteArray.utf8DecodeChar?_utf8EncodeChar_append (b := (utf8 text).toByteArray) (c := c)
        rw [hbytes, ← List.toByteArray_append] at this
        exact this
      rw [hcons, hbytes, List.cons_append, fromUtf8Lossy, hdecode]
      dsimp only
      rw [hbytes, List.length_cons] at hlen
      rw [← hlen, Nat.add_sub_cancel, List.drop_left, ih]

theorem utf8_injective : Function.Injective utf8 := Function.LeftInverse.injective fromUtf8Lossy_utf8

end StoneKV
