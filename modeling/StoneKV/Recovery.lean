import StoneKV.Marker
import StoneKV.Segment

/-!
# What `open` does in the directory of the segments

* `recoverPendingCompaction`: finishes or undoes a compaction that was cut.
* `removeStaleTempFiles`: removes temporary segments.
* `loadSegments`: opens the segments, the newest first, and finds the next generation.
-/

namespace StoneKV

open FaultProg

def segmentPath (segmentsDir : Path) (generation : ℕ) : Path :=
  segmentsDir ++ [segmentFilename generation]

def segmentTempPath (segmentsDir : Path) (generation : ℕ) : Path :=
  segmentsDir ++ [segmentTempFilename generation]

def markerPath (segmentsDir : Path) : Path := segmentsDir ++ [COMPACTION_MARKER_FILE]

def markerTempPath (segmentsDir : Path) : Path := segmentsDir ++ [COMPACTION_MARKER_TEMP_FILE]

/-- Remove the file at `p` if it is there. -/
def removeIfExists (p : Path) : Io Unit := do
  if ← Fs.pathExists p then Fs.removeFile p

/-- Each of the old segments must be there. -/
def requireOldSegments (segmentsDir : Path) : List ℕ → Io Unit
  | [] => return ()
  | generation :: generations => do
    if ¬ (← Fs.pathExists (segmentPath segmentsDir generation)) then
      Prog.throw (.other ("cannot roll back interrupted compaction: " ++
        s!"old segment {generation} is missing"))
    requireOldSegments segmentsDir generations

/-- Remove those of the old segments that are there. -/
def removeOldSegments (segmentsDir : Path) : List ℕ → Io Unit
  | [] => return ()
  | generation :: generations => do
    removeIfExists (segmentPath segmentsDir generation)
    removeOldSegments segmentsDir generations

/-- The compacted segment is not there: the old segments stay. -/
def rollBack (segmentsDir : Path) (marker : CompactionMarker) : Io Unit := do
  requireOldSegments segmentsDir marker.oldGenerations
  removeIfExists (segmentTempPath segmentsDir marker.outputGeneration)
  Fs.removeFile (markerPath segmentsDir)

/-- The compacted segment is there: it is validated and replaces the old segments. -/
def rollForward (segmentsDir : Path) (marker : CompactionMarker) : Io Unit := do
  let _reader ← SegmentReader.open (segmentPath segmentsDir marker.outputGeneration)
    marker.outputGeneration
  removeOldSegments segmentsDir marker.oldGenerations
  removeIfExists (segmentTempPath segmentsDir marker.outputGeneration)
  Fs.removeFile (markerPath segmentsDir)

def recoverPendingCompaction (segmentsDir : Path) : Io Unit := do
  if ¬ (← Fs.pathExists (markerPath segmentsDir)) then
    removeIfExists (markerTempPath segmentsDir)
  else
    removeIfExists (markerTempPath segmentsDir)
    let marker ← readCompactionMarker (markerPath segmentsDir)
    if ¬ (← Fs.pathExists (segmentPath segmentsDir marker.outputGeneration)) then
      rollBack segmentsDir marker
    else rollForward segmentsDir marker

/-- The loop of `remove_stale_temp_files`. -/
def removeTempFiles (segmentsDir : Path) : List Name → Io Unit
  | [] => return ()
  | fileName :: fileNames => do
    if (parseTempSegmentGeneration fileName).isSome then Fs.removeFile (segmentsDir ++ [fileName])
    removeTempFiles segmentsDir fileNames

def removeStaleTempFiles (segmentsDir : Path) : Io Unit := do
  let fileNames ← Fs.readDir segmentsDir
  removeTempFiles segmentsDir fileNames

/-- The segments among the files, with their generations. -/
def discover (segmentsDir : Path) : List Name → Except StoneError (List (ℕ × Path))
  | [] => return []
  | fileName :: fileNames =>
    if SEGMENT_PREFIX.isPrefixOf fileName && SEGMENT_SUFFIX.isSuffixOf fileName then do
      let path := segmentsDir ++ [fileName]
      let generation ← okOr (parseSegmentGeneration fileName)
        (invalidSegment path "invalid segment filename")
      let discovered ← discover segmentsDir fileNames
      return (generation, path) :: discovered
    else discover segmentsDir fileNames

/-- Of two neighbours with one generation, the generation. -/
def duplicateGeneration : List (ℕ × Path) → Option ℕ
  | a :: b :: rest => if a.1 = b.1 then some a.1 else duplicateGeneration (b :: rest)
  | _ => none

/-- The generation after the newest. -/
def nextGeneration (discovered : List (ℕ × Path)) : Except StoneError ℕ :=
  match discovered.head? with
  | some (generation, _) =>
    okOr (checkedAdd generation 1) (.other "segment generation exhausted")
  | none => .ok 1

/-- Open the segments. -/
def openSegments : List (ℕ × Path) → Io (List SegmentReader)
  | [] => return []
  | (generation, path) :: rest => do
    let reader ← SegmentReader.open path generation
    let readers ← openSegments rest
    return reader :: readers

def loadSegments (segmentsDir : Path) : Io (List SegmentReader × ℕ) := do
  let fileNames ← Fs.readDir segmentsDir
  let discovered ← Prog.ofExcept (discover segmentsDir fileNames)
  let discovered := discovered.insertionSort fun a b => b.1 ≤ a.1
  match duplicateGeneration discovered with
  | some generation =>
    Prog.throw (invalidSegment segmentsDir s!"duplicate segment generation {generation}")
  | none =>
    let next ← Prog.ofExcept (nextGeneration discovered)
    let readers ← openSegments discovered
    return (readers, next)

end StoneKV
