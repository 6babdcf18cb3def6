import StoneKV.Recovery
import StoneKV.Compaction

/-!
# The store

A store keeps the newest entries in a memtable and a log, and older ones in segments.

* `Store.openWithThreshold`: recovers the directory, opens the segments, replays the log.
* `Store.set`, `Store.delete`, `Store.get`: the operations on one key.
* `Store.flushMemtable`, `Store.compact`: new segments; `installFlushed` and `installCompacted` are
  the parts from the validation of the new segment on.
* `Store.stats`, `Store.verify`: reads the sizes, and reads everything.
-/

namespace StoneKV

open FaultProg

def DEFAULT_FLUSH_THRESHOLD_BYTES : ℕ := 4 * 1024 * 1024

structure StoreStats where
  segmentCount : ℕ
  totalSegmentBytes : ℕ
  walBytes : ℕ
  memtableEntries : ℕ
  memtableSizeBytes : ℕ
  deriving DecidableEq, Repr

structure CompactionStats where
  segmentsMerged : ℕ
  recordsBefore : ℕ
  liveRecordsAfter : ℕ
  bytesBefore : ℕ
  bytesAfter : ℕ
  deriving DecidableEq, Repr

def CompactionStats.default : CompactionStats := ⟨0, 0, 0, 0, 0⟩

structure VerifyStats where
  walRecords : ℕ
  segmentsChecked : ℕ
  recordsChecked : ℕ
  deriving DecidableEq, Repr

/-- An open store. -/
structure Store where
  dir : Path
  wal : Wal
  memtable : Memtable
  segments : List SegmentReader
  nextSegmentGeneration : ℕ
  flushThresholdBytes : ℕ

def SEGMENTS_DIR : Name := "segments".toList

def WAL_FILE : Name := "wal.log".toList

def segmentsDirOf (dir : Path) : Path := dir ++ [SEGMENTS_DIR]

def walPathOf (dir : Path) : Path := dir ++ [WAL_FILE]

/-- A method of an open store. -/
abbrev Method (α : Type) : Type := Prog (Store × Disk) StoneError α

/-- The store. -/
def self : Method Store := do return (← Prog.get).1

/-- Change the store. -/
def update (f : Store → Store) : Method Unit := Prog.modify fun s => (f s.1, s.2)

/-- Calls of a method. -/
def io {α : Type} (m : Io α) : Method α := m.onSnd

namespace Store

def segmentsDir (s : Store) : Path := segmentsDirOf s.dir

def openWithThreshold (dir : Path) (flushThresholdBytes : ℕ) : Io Store := do
  Fs.touch
  let segmentsDir := segmentsDirOf dir
  Fs.touch
  recoverPendingCompaction segmentsDir
  removeStaleTempFiles segmentsDir
  let (segments, nextSegmentGeneration) ← loadSegments segmentsDir
  let walPath := walPathOf dir
  let (_stats, memtable) ← Prog.withLocal Memtable.new (Wal.replay applyRecord walPath)
  let wal ← Wal.open walPath
  return ⟨dir, wal, memtable, segments, nextSegmentGeneration, flushThresholdBytes⟩

def «open» (dir : Path) : Io Store := openWithThreshold dir DEFAULT_FLUSH_THRESHOLD_BYTES

/-! ## Flushing -/

/-- What `flush_memtable` does from the validation of the installed segment on. -/
def installFlushed (generation : ℕ) (finalPath : Path) : Method Unit := do
  match ← io (SegmentReader.open finalPath generation).attempt with
  | .error e => do
    io (ignore (Fs.removeFile finalPath))
    Prog.throw e
  | .ok reader => do
    update fun s => { s with segments := reader :: s.segments }
    let next ← Prog.ofExcept
      (okOr (checkedAdd generation 1) (.other "segment generation exhausted"))
    update fun s => { s with nextSegmentGeneration := next }
    io (← self).wal.truncate
    update fun s => { s with memtable := .new }

def flushMemtable : Method Unit := do
  let s ← self
  if s.memtable.isEmpty then return ()
  let generation := s.nextSegmentGeneration
  let finalPath := segmentPath s.segmentsDir generation
  let tempPath := segmentTempPath s.segmentsDir generation
  io (removeIfExists tempPath)
  let _stats ← io (SegmentWriter.write tempPath s.memtable.iter)
  io (Fs.rename tempPath finalPath)
  installFlushed generation finalPath

/-! ## Reading and writing keys -/

/-- The common body of `set` and `delete`: the log first, then the memtable. -/
def logged (record : Record) (change : Memtable → Memtable) : Method Unit := do
  io ((← self).wal.append record)
  update fun s => { s with memtable := change s.memtable }
  let s ← self
  if s.memtable.isOverThreshold s.flushThresholdBytes then flushMemtable

def set (key : Key) (val : Val) : Method Unit :=
  logged (.newSet key val) fun m => m.set key val

def delete (key : Key) : Method Unit := logged (.newDelete key) fun m => m.delete key

/-- The loop of `get` over the segments. -/
def searchSegments (key : Key) : List SegmentReader → Io (Option Val)
  | [] => return none
  | segment :: segments => do
    match ← segment.get key with
    | some (some value) => return some value
    | some none => return none
    | none => searchSegments key segments

def get (key : Key) : Method (Option Val) := do
  let s ← self
  match s.memtable.get key with
  | some (some value) => return some value
  | some none => return none
  | none => io (searchSegments key s.segments)

/-! ## Compaction -/

/-- Remove the files at the paths. -/
def removeAll : List Path → Io Unit
  | [] => return ()
  | path :: paths => do
    Fs.removeFile path
    removeAll paths

/-- What `compact` does from the validation of the new segment on. -/
def installCompacted (generation : ℕ) (finalPath : Path) (build : CompactionBuildStats) :
    Method CompactionStats := do
  let s ← self
  match ← io (SegmentReader.open finalPath generation).attempt with
  | .error e => do
    io (ignore (Fs.removeFile finalPath))
    io (ignore (Fs.removeFile (markerPath s.segmentsDir)))
    Prog.throw e
  | .ok reader => do
    let next ← Prog.ofExcept
      (okOr (checkedAdd generation 1) (.other "segment generation exhausted"))
    update fun s => { s with nextSegmentGeneration := next }
    let oldPaths := s.segments.map SegmentReader.path
    update fun s => { s with segments := [reader] }
    io (removeAll oldPaths)
    io (Fs.removeFile (markerPath s.segmentsDir))
    return ⟨build.segmentsRead, build.recordsBefore, build.liveRecordsAfter, build.bytesBefore,
      build.bytesAfter⟩

/-- What `compact` does with two segments or more. -/
def compactSegments : Method CompactionStats := do
  let s ← self
  let generation := s.nextSegmentGeneration
  let tempPath := segmentTempPath s.segmentsDir generation
  let finalPath := segmentPath s.segmentsDir generation
  io (removeIfExists tempPath)
  let inputPaths := s.segments.reverse.map SegmentReader.path
  let oldGenerations := s.segments.map SegmentReader.generation
  let build ← io (compactAll inputPaths tempPath)
  match ← io (writeCompactionMarker s.segmentsDir generation oldGenerations).attempt with
  | .error e => do
    io (ignore (Fs.removeFile tempPath))
    Prog.throw e
  | .ok () => do
    match ← io (Fs.rename tempPath finalPath : Io Unit).attempt with
    | .error e => do
      io (ignore (Fs.removeFile (markerPath s.segmentsDir)))
      io (ignore (Fs.removeFile tempPath))
      Prog.throw e
    | .ok () => installCompacted generation finalPath build

def compact : Method CompactionStats := do
  if ¬ (← self).memtable.isEmpty then flushMemtable
  if (← self).segments.length < 2 then return .default
  compactSegments

/-! ## Statistics -/

/-- The lengths of the segments, of those whose metadata can be read. -/
def segmentLens : List SegmentReader → Io (List ℕ)
  | [] => return []
  | segment :: segments => do
    match ← (Fs.metadataLen segment.path : Io ℕ).attempt with
    | .ok len => return len :: (← segmentLens segments)
    | .error _ => segmentLens segments

def stats : Method StoreStats := do
  let s ← self
  let lens ← io (segmentLens s.segments)
  -- a sum of `u64`, which wraps around
  let totalSegmentBytes := lens.sum % u64Size
  let walBytes ← io (Fs.metadataLen s.wal.path : Io ℕ).attempt
  return ⟨s.segments.length, totalSegmentBytes, walBytes.toOption.getD 0, s.memtable.len,
    s.memtable.approxSizeBytes⟩

/-! ## Verification -/

/-- The loop of `verify` over the segments. -/
def verifySegments : List SegmentReader → Option ℕ → ℕ → Io ℕ
  | [], _, recordsChecked => return recordsChecked
  | segment :: segments, previousGeneration, recordsChecked => do
    let generation := segment.generation
    Prog.ofExcept (rejectIf (previousGeneration.any fun previous => generation ≥ previous)
      (invalidSegment segment.path ("invalid segment generation order: " ++
        s!"generation {generation} appears after {previousGeneration.getD 0}")))
    let records ← segment.iterAll
    let recordsChecked ← Prog.ofExcept
      (okOr (checkedAdd recordsChecked records.length) (.other "verify record count overflow"))
    verifySegments segments (some generation) recordsChecked

def verify : Method VerifyStats := do
  let s ← self
  let (walStats, _) ← io (Prog.withLocal () (Wal.replay (fun _ _ => ()) s.wal.path))
  let recordsChecked ← io (verifySegments s.segments none 0)
  return ⟨walStats.recordsReplayed, s.segments.length, recordsChecked⟩

end Store

end StoneKV
