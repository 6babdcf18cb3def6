import StoneKV.Memtable

/-!
# Segments

A segment is a header, records in the order of their keys, a sparse index of the records, and a
footer with the place of the index.

* `SegmentWriter`: writes the file piece by piece.
* `SegmentReader`: checks the structure of a file when it opens it, finds one key through the index,
  and lists all records. The bytes of an open segment do not change, so `openIn`, `getIn` and
  `iterAllIn` are computations on them; `open`, `get` and `iterAll` are the calls.
-/

namespace StoneKV

open FaultProg

def SPARSE_INDEX_INTERVAL : ℕ := 16

/-- `STON`. -/
def SEGMENT_MAGIC : Bytes := [83, 84, 79, 78]

def SEGMENT_VERSION : UInt8 := 1
def SEGMENT_HEADER_SIZE : ℕ := 5
def SEGMENT_FOOTER_SIZE : ℕ := 12

/-- A key and the place of its record. -/
structure SparseIndexEntry where
  key : Key
  fileOffset : ℕ
  deriving DecidableEq, Repr

structure SegmentWriteStats where
  recordsWritten : ℕ
  fileBytes : ℕ
  indexEntries : ℕ
  deriving DecidableEq, Repr

def invalidSegment (path : Path) (reason : String) : StoneError :=
  .invalidSegmentFile (display path) reason

/-! ## Writing -/

/-- A segment that is being written at `path`. -/
structure SegmentWriter where
  path : Path
  currentOffset : ℕ
  sparseIndex : List SparseIndexEntry
  recordCount : ℕ
  lastKey : Option Key
  deriving DecidableEq, Repr

/-- The record of an entry. -/
def toRecord (e : Entry) : Record :=
  match e.2 with
  | some value => .newSet e.1 value
  | none => .newDelete e.1

namespace SegmentWriter

def create (path : Path) : Io SegmentWriter := do
  if path.dropLast ≠ [] then Fs.touch
  Fs.createTruncate path
  Fs.writeAll path SEGMENT_MAGIC
  Fs.writeAll path [SEGMENT_VERSION]
  return ⟨path, SEGMENT_HEADER_SIZE, [], 0, none⟩

/-- One turn of the loop of `write_all`. -/
def writeEntry (w : SegmentWriter) (e : Entry) : Io SegmentWriter := do
  Prog.ofExcept (rejectIf (w.lastKey.any fun previous => (compare e.1 previous).isLE)
    (.other "segment entries must be strictly increasing"))
  let encoded ← Prog.ofExcept (toRecord e).encode
  let sparseIndex := if w.recordCount % SPARSE_INDEX_INTERVAL = 0
    then w.sparseIndex ++ [⟨e.1, w.currentOffset⟩] else w.sparseIndex
  Fs.writeAll w.path encoded
  let currentOffset ← Prog.ofExcept
    (okOr (checkedAdd w.currentOffset encoded.length) (.other "segment file offset overflow"))
  return ⟨w.path, currentOffset, sparseIndex, w.recordCount + 1, some e.1⟩

def writeAll (w : SegmentWriter) : List Entry → Io SegmentWriter
  | [] => return w
  | e :: es => do
    let w ← w.writeEntry e
    writeAll w es

/-- One turn of the loop of `finish`, which writes an entry of the index. -/
def writeIndexEntry (path : Path) (currentOffset : ℕ) (i : SparseIndexEntry) : Io ℕ := do
  let keyLen ← Prog.ofExcept
    (okOr (tryU32 i.key.length) (.recordTooLarge "segment index key" i.key.length))
  Fs.writeAll path (toLe 4 keyLen)
  Fs.writeAll path i.key
  Fs.writeAll path (toLe 8 i.fileOffset)
  Prog.ofExcept (okOr (checkedAdd currentOffset 4 >>= (checkedAdd · i.key.length)
    >>= (checkedAdd · 8)) (.other "segment index size overflow"))

def writeIndex (path : Path) : ℕ → List SparseIndexEntry → Io ℕ
  | currentOffset, [] => return currentOffset
  | currentOffset, i :: is => do
    let currentOffset ← writeIndexEntry path currentOffset i
    writeIndex path currentOffset is

def finish (w : SegmentWriter) : Io SegmentWriteStats := do
  let indexOffset := w.currentOffset
  let currentOffset ← writeIndex w.path w.currentOffset w.sparseIndex
  Fs.writeAll w.path (toLe 8 indexOffset)
  Fs.writeAll w.path SEGMENT_MAGIC
  let currentOffset ← Prog.ofExcept
    (okOr (checkedAdd currentOffset SEGMENT_FOOTER_SIZE) (.other "segment footer size overflow"))
  Fs.touch
  Fs.touch
  let fileBytes ← Fs.metadataLen w.path
  Prog.ofExcept (rejectIf (fileBytes ≠ currentOffset) (invalidSegment w.path
    s!"unexpected final size: expected {currentOffset}, got {fileBytes}"))
  return ⟨w.recordCount, fileBytes, w.sparseIndex.length⟩

/-- Write a segment, as a flush and a compaction do. -/
def write (path : Path) (es : List Entry) : Io SegmentWriteStats := do
  let w ← create path
  let w ← w.writeAll es
  w.finish

end SegmentWriter

/-! ## Reading -/

/-- An open segment; `file` are the bytes of the open file. -/
structure SegmentReader where
  file : Bytes
  path : Path
  generation : ℕ
  sparseIndex : List SparseIndexEntry
  recordsStart : ℕ
  indexOffset : ℕ
  deriving DecidableEq, Repr

/-- The `n` bytes of a file from place `i`. -/
def readExact (file : Bytes) (i n : ℕ) : Except StoneError Bytes :=
  if i + n ≤ file.length then .ok (slice file i n) else .error (.io .unexpectedEof)

section Index

variable (file : Bytes) (path : Path) (indexOffset footerStart : ℕ)

/-- The end of `read_sparse_index`. -/
def endOfIndex (current : ℕ) (entries : List SparseIndexEntry) :
    Except StoneError (List SparseIndexEntry) := do
  rejectIf (current ≠ footerStart)
    (invalidSegment path "sparse index did not terminate at footer")
  return entries

/-- The loop of `read_sparse_index`. It has no more turns than there are bytes in the index. -/
def readSparseIndexLoop : ℕ → ℕ → Option Key → Option ℕ → List SparseIndexEntry →
    Except StoneError (List SparseIndexEntry)
  | 0, current, _, _, entries => endOfIndex path footerStart current entries
  | turns + 1, current, previousKey, previousOffset, entries =>
    if current < footerStart then do
      let keyLenEnd ← okOr (checkedAdd current 4)
        (invalidSegment path "index key length offset overflow")
      rejectIf (keyLenEnd > footerStart)
        (invalidSegment path "truncated sparse index key length")
      let keyLenBytes ← readExact file current 4
      let keyLen := fromLe keyLenBytes
      let current := keyLenEnd
      let entryEnd ← okOr (checkedAdd current keyLen >>= (checkedAdd · 8))
        (invalidSegment path "sparse index entry size overflow")
      rejectIf (entryEnd > footerStart) (invalidSegment path "truncated sparse index entry")
      let key ← readExact file current keyLen
      let offsetBytes ← readExact file (current + keyLen) 8
      let recordOffset := fromLe offsetBytes
      rejectIf (recordOffset < SEGMENT_HEADER_SIZE ∨ recordOffset ≥ indexOffset)
        (invalidSegment path s!"invalid sparse index record offset: {recordOffset}")
      rejectIf (previousKey.any fun previous => (compare key previous).isLE)
        (invalidSegment path "sparse index keys are not strictly increasing")
      rejectIf (previousOffset.any fun previous => recordOffset ≤ previous)
        (invalidSegment path "sparse index offsets are not strictly increasing")
      readSparseIndexLoop turns entryEnd (some key) (some recordOffset)
        (entries ++ [⟨key, recordOffset⟩])
    else endOfIndex path footerStart current entries

def readSparseIndex : Except StoneError (List SparseIndexEntry) :=
  readSparseIndexLoop file path indexOffset footerStart (footerStart - indexOffset) indexOffset
    none none []

end Index

namespace SegmentReader

/-- The checks of `open`. They give the place of the index and the index. -/
def checkFile (path : Path) (file : Bytes) : Except StoneError (ℕ × List SparseIndexEntry) := do
  let fileLen := file.length
  let minimumSize := SEGMENT_HEADER_SIZE + SEGMENT_FOOTER_SIZE
  rejectIf (fileLen < minimumSize)
    (invalidSegment path s!"file too small: {fileLen} bytes, minimum is {minimumSize}")
  let header ← readExact file 0 5
  rejectIf (header.take 4 ≠ SEGMENT_MAGIC) (invalidSegment path "invalid header magic")
  let version := (header.drop 4).headD 0
  rejectIf (version ≠ SEGMENT_VERSION)
    (invalidSegment path s!"unsupported segment version: {version.toNat}")
  let footerStart := fileLen - SEGMENT_FOOTER_SIZE
  let indexOffsetBytes ← readExact file footerStart 8
  let indexOffset := fromLe indexOffsetBytes
  let footerMagic ← readExact file (footerStart + 8) 4
  rejectIf (footerMagic ≠ SEGMENT_MAGIC) (invalidSegment path "invalid footer magic")
  rejectIf (indexOffset < SEGMENT_HEADER_SIZE ∨ indexOffset > footerStart)
    (invalidSegment path s!"invalid index offset: {indexOffset}")
  let sparseIndex ← readSparseIndex file path indexOffset footerStart
  if indexOffset = SEGMENT_HEADER_SIZE then
    rejectIf (sparseIndex ≠ [])
      (invalidSegment path "empty record area contains sparse index entries")
  else do
    rejectIf (sparseIndex = []) (invalidSegment path "non-empty segment has no sparse index")
    rejectIf (sparseIndex.head?.any fun first => first.fileOffset ≠ SEGMENT_HEADER_SIZE)
      (invalidSegment path "first sparse index entry must point to first record")
  return (indexOffset, sparseIndex)

/-- What `open` makes of the bytes of the file. -/
def openIn (path : Path) (generation : ℕ) (file : Bytes) : Except StoneError SegmentReader := do
  let (indexOffset, sparseIndex) ← checkFile path file
  return ⟨file, path, generation, sparseIndex, SEGMENT_HEADER_SIZE, indexOffset⟩

def readRecordAt (r : SegmentReader) (offset : ℕ) : Except StoneError (Record × ℕ) := do
  rejectIf (offset < r.recordsStart ∨ offset ≥ r.indexOffset)
    (invalidSegment r.path s!"invalid record offset: {offset}")
  let fixedKeyHeaderEnd ← okOr (checkedAdd offset 5)
    (invalidSegment r.path "record header offset overflow")
  rejectIf (fixedKeyHeaderEnd > r.indexOffset)
    (invalidSegment r.path "record header extends into sparse index")
  let firstFive ← readExact r.file offset 5
  let keyLen := fromLe (slice firstFive 1 4)
  let valLenOffset ← okOr (checkedAdd offset 5 >>= (checkedAdd · keyLen))
    (invalidSegment r.path "key length arithmetic overflow")
  let valLenEnd ← okOr (checkedAdd valLenOffset 4)
    (invalidSegment r.path "value length offset overflow")
  rejectIf (valLenEnd > r.indexOffset)
    (invalidSegment r.path "key extends beyond record area")
  let valLenBytes ← readExact r.file valLenOffset 4
  let valLen := fromLe valLenBytes
  let totalLen ← okOr (checkedAdd 1 4 >>= (checkedAdd · keyLen) >>= (checkedAdd · 4)
    >>= (checkedAdd · valLen) >>= (checkedAdd · 4))
    (invalidSegment r.path "record length overflow")
  let recordEnd ← okOr (checkedAdd offset totalLen) (invalidSegment r.path "record end overflow")
  rejectIf (recordEnd > r.indexOffset)
    (invalidSegment r.path s!"record at offset {offset} extends beyond index offset")
  let encoded ← readExact r.file offset totalLen
  let (record, consumed) ← Record.decode encoded
  rejectIf (consumed ≠ encoded.length)
    (invalidSegment r.path "record decoder consumed unexpected number of bytes")
  return (record, totalLen)

/-- The place where `get` starts to scan: the last index entry not past the key. -/
def startOffset (key : Key) : List SparseIndexEntry → ℕ → ℕ
  | [], start => start
  | i :: is, start => if (compare i.key key).isLE then startOffset key is i.fileOffset else start

/-- The loop of `get`. It has no more turns than the record area has bytes. -/
def getLoop (r : SegmentReader) (key : Key) : ℕ → ℕ → Except StoneError (Option (Option Val))
  | 0, _ => return none
  | turns + 1, currentOffset =>
    if currentOffset < r.indexOffset then do
      let (record, consumed) ← r.readRecordAt currentOffset
      match compare record.key key with
      | .eq =>
        match record.op with
        | .set => return some (some record.val)
        | .delete => return some none
      | .gt => return none
      | .lt =>
        let currentOffset ← okOr (checkedAdd currentOffset consumed)
          (invalidSegment r.path "record scan offset overflow")
        getLoop r key turns currentOffset
    else return none

/-- `get` in the bytes of the open file. -/
def getIn (r : SegmentReader) (key : Key) : Except StoneError (Option (Option Val)) :=
  r.getLoop key r.indexOffset (startOffset key r.sparseIndex r.recordsStart)

/-- The end of `iter_all`. -/
def endOfRecords (r : SegmentReader) (currentOffset : ℕ) (records : List Record) :
    Except StoneError (List Record) := do
  rejectIf (currentOffset ≠ r.indexOffset) (invalidSegment r.path
    s!"record area ended at {currentOffset}, expected {r.indexOffset}")
  return records

/-- The loop of `iter_all`. It has no more turns than the record area has bytes. -/
def iterLoop (r : SegmentReader) : ℕ → ℕ → List Record → Except StoneError (List Record)
  | 0, currentOffset, records => r.endOfRecords currentOffset records
  | turns + 1, currentOffset, records =>
    if currentOffset < r.indexOffset then do
      let (record, consumed) ← r.readRecordAt currentOffset
      let currentOffset ← okOr (checkedAdd currentOffset consumed)
        (invalidSegment r.path "record iteration offset overflow")
      iterLoop r turns currentOffset (records ++ [record])
    else r.endOfRecords currentOffset records

/-- `iter_all` in the bytes of the open file. -/
def iterAllIn (r : SegmentReader) : Except StoneError (List Record) :=
  r.iterLoop r.indexOffset r.recordsStart []

end SegmentReader

def SegmentReader.open (path : Path) (generation : ℕ) : Io SegmentReader := do
  let file ← Fs.readFile path
  Prog.ofExcept (SegmentReader.openIn path generation file)

namespace SegmentReader

def get (r : SegmentReader) (key : Key) : Io (Option (Option Val)) := Fs.reads (r.getIn key)

def iterAll (r : SegmentReader) : Io (List Record) := Fs.reads r.iterAllIn

end SegmentReader

end StoneKV
