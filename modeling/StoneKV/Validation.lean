import StoneKV.SegmentGrammar
import StoneKV.RecoveryPlan
import StoneKV.CompactStep

/-!
# What a new segment is checked for

* `openIn_iff_framed`, `openIn_of_same_frame`: `open` accepts a file exactly when its parts are in
  order, and does not read the record area.
* `Validated`: what is known of a new segment that was opened.
* `wp_installFlushed_validated`, `wp_installCompacted_validated`: a flush and a compaction change
  other files only after that.
* **`validated_before_destroyed`**: so no log and no old segment goes before the new segment is
  opened; **`unreadable_replacement_installed`**: that it can be listed is not known.
-/

namespace StoneKV

open FaultProg Prog

/-- The file at `p` opens as a segment of the generation `g`: its parts are in order around a record
area of any bytes. When it is what the writer leaves, its records can be listed. -/
def Validated (d : Disk) (p : Path) (g : ℕ) : Prop :=
  ∃ file r, d.read p = some file ∧ SegmentReader.openIn p g file = .ok r ∧
    (∃ area, Framed file area r.sparseIndex) ∧
    ∀ es, Storable es → file = segmentImage es → r.iterAllIn = .ok (es.map toRecord)

section Framed

variable {p : Path} {g : ℕ} {file : Bytes} {r : SegmentReader}

/-- **What `open` accepts.** -/
theorem openIn_iff_framed (hmax : file.length ≤ maxFileLen) :
    (∃ r, SegmentReader.openIn p g file = .ok r) ↔ ∃ area is, Framed file area is := by
  constructor
  · rintro ⟨r, h⟩
    obtain ⟨i, is, hc, rfl⟩ := SegmentReader.openIn_eq_ok.mp h
    exact ⟨_, is, (framed_of_checkFile hc).2⟩
  · rintro ⟨area, is, h⟩
    exact ⟨_, SegmentReader.openIn_eq_ok.mpr ⟨_, is, h.checkFile hmax p, rfl⟩⟩

/-- The record area is not read. -/
theorem openIn_of_same_frame {file' : Bytes} (hmax : file.length ≤ maxFileLen)
    (h : SegmentReader.openIn p g file = .ok r) (hlen : file'.length = file.length)
    (hhead : file'.take r.recordsStart = file.take r.recordsStart)
    (hrest : file'.drop r.indexOffset = file.drop r.indexOffset) :
    SegmentReader.openIn p g file' = .ok { r with file := file' } := by
  obtain ⟨i, is, hc, rfl⟩ := SegmentReader.openIn_eq_ok.mp h
  obtain ⟨area, rfl, hframed⟩ : ∃ area, SEGMENT_HEADER_SIZE + area.length = i ∧
    Framed file area is := ⟨_, framed_of_checkFile hc⟩
  have hframed' := hframed.congr hlen hhead hrest
  refine SegmentReader.openIn_eq_ok.mpr ⟨_, is, ?_, rfl⟩
  rw [hframed'.checkFile (hlen ▸ hmax) p, length_slice]
  rw [hlen, hframed.length_eq]
  omega

theorem validated_of_openIn {d : Disk} (hd : d.read p = some file)
    (h : SegmentReader.openIn p g file = .ok r) : Validated d p g := by
  refine ⟨file, r, hd, h, ?_, ?_⟩
  · obtain ⟨i, is, hc, rfl⟩ := SegmentReader.openIn_eq_ok.mp h
    exact ⟨_, (framed_of_checkFile hc).2⟩
  · rintro es hstor rfl
    exact ((hstor.faithful p).sound h).iterAllIn

end Framed

/-! ## Flushes and compactions -/

section Install

variable {A : Fault → Prop} {s : Store} {d : Disk} {g : ℕ} {p : Path}
  {build : CompactionBuildStats}

/-- **A flush** changes no other file before it has opened the new segment. -/
theorem wp_installFlushed_validated : wp A (Store.installFlushed g p)
    (fun _ x => Validated d p g ∨ ∀ q ≠ p, x.2.read q = d.read q) (s, d) := by
  refine wp_installFlushed (fun b r hb hr => ?_) (fun e _ d' hd' => .inr fun q hq => ?_)
    (.inr fun _ _ => rfl)
  · exact wp_of_forall fun _ _ => .inl (validated_of_openIn hb hr)
  · rcases hd' with rfl | rfl
    · rfl
    · rw [Disk.read_erase, if_neg hq]

/-- **A compaction** changes no other file but the marker before it has opened the new segment. -/
theorem wp_installCompacted_validated : wp A (Store.installCompacted g p build)
    (fun _ x => Validated d p g ∨
      ∀ q, q ≠ p → q ≠ markerPath s.segmentsDir → x.2.read q = d.read q) (s, d) := by
  have hgone : ∀ {d'}, d' = d ∨ d' = d.erase p → ∀ q ≠ p, d'.read q = d.read q := by
    rintro d' (rfl | rfl) q hq
    · rfl
    · rw [Disk.read_erase, if_neg hq]
  refine wp_installCompacted (fun b r hb hr => ?_)
    (fun e _ d' d'' hd' hd'' => .inr fun q hq hm => ?_)
    fun d' hd' => .inr fun q hq _ => hgone hd' q hq
  · exact wp_of_forall fun _ _ => .inl (validated_of_openIn hb hr)
  · rcases hd'' with rfl | rfl
    · exact hgone hd' q hq
    · rw [Disk.read_erase, if_neg hm]
      exact hgone hd' q hq

end Install

/-- **Nothing is destroyed before its replacement is opened.** Whatever is at the path of the new
segment when it is to be validated, and whatever fails: when a flush changes another file, such as the
log, or a compaction another file but the marker, such as an old segment, or a recovery removes a
segment, then it has opened the new segment. A file opens exactly when its parts are in order; the
bytes of its record area are not read. -/
theorem validated_before_destroyed :
    (∀ (s : Store) (d : Disk) (g : ℕ) (l : List Fault) (q : Path),
      q ≠ segmentPath s.segmentsDir g →
      ((Store.installFlushed g (segmentPath s.segmentsDir g)).run (s, d) l).2.2.read q ≠ d.read q →
      Validated d (segmentPath s.segmentsDir g) g) ∧
    (∀ (s : Store) (d : Disk) (g : ℕ) (build : CompactionBuildStats) (l : List Fault) (q : Path),
      q ≠ segmentPath s.segmentsDir g → q ≠ markerPath s.segmentsDir →
      ((Store.installCompacted g (segmentPath s.segmentsDir g) build).run (s, d) l).2.2.read q ≠
        d.read q → Validated d (segmentPath s.segmentsDir g) g) ∧
    (∀ (segmentsDir : Path) (d : Disk) (l : List Fault) (g : ℕ),
      ((recoverPendingCompaction segmentsDir).run d l).2.read (segmentPath segmentsDir g) ≠
        d.read (segmentPath segmentsDir g) →
      ∃ bytes m, d.read (markerPath segmentsDir) = some bytes ∧
        parseMarkerBytes (markerPath segmentsDir) bytes = .ok m ∧ g ∈ m.oldGenerations ∧
        Validated d (segmentPath segmentsDir m.outputGeneration) m.outputGeneration) ∧
    (∀ (p : Path) (g : ℕ) (file : Bytes), file.length ≤ maxFileLen →
      ((∃ r, SegmentReader.openIn p g file = .ok r) ↔ ∃ area is, Framed file area is)) ∧
    ∀ (p : Path) (g : ℕ) (file file' : Bytes) (r : SegmentReader), file.length ≤ maxFileLen →
      SegmentReader.openIn p g file = .ok r → file'.length = file.length →
      file'.take r.recordsStart = file.take r.recordsStart →
      file'.drop r.indexOffset = file.drop r.indexOffset →
      SegmentReader.openIn p g file' = .ok { r with file := file' } := by
  refine ⟨fun s d g l q hq hne => ?_, fun s d g build l q hq hm hne => ?_, fun sd d l g hne => ?_,
    fun p g file hmax => openIn_iff_framed hmax, fun p g file file' r => openIn_of_same_frame⟩
  · have h := wp_installFlushed_validated (A := AnyFault) (s := s) (d := d) (g := g)
      (p := segmentPath s.segmentsDir g)
    exact (h.run fun _ _ => trivial).resolve_right fun hsame => hne (hsame q hq)
  · have h : wp AnyFault (Store.installCompacted g (segmentPath s.segmentsDir g) build) _ (s, d) :=
      wp_installCompacted_validated
    exact (h.run fun _ _ => trivial).resolve_right fun hsame => hne (hsame q hq hm)
  · have h : wp AnyFault _ (Spared sd d) d := wp_recoverPendingCompaction_own
    rcases h.run (l := l) (fun _ _ => trivial) _ hne with heq | heq | ⟨bytes, m, hb, hm, heq | hold⟩
    · exact absurd heq segmentPath_ne_marker
    · exact absurd heq segmentPath_ne_markerTemp
    · exact absurd heq segmentPath_ne_temp
    · obtain ⟨⟨g', hg', heq⟩, file, r, hfile, hr⟩ := hold
      obtain rfl := segmentPath_injective heq
      exact ⟨bytes, m, hb, hm, hg', validated_of_openIn hfile hr⟩

/-! ## A damaged segment -/

section Damaged

/-- A segment with `a = 1`. -/
def aSegment : Bytes := segmentImage [([97], some [49])]

/-- The segment with its value damaged. -/
def damagedSegment : Bytes := aSegment.set 15 0

/-- The path of a segment. -/
def pathOf (generation : ℕ) : Path := segmentPath (segmentsDirOf [['d']]) generation

/-- The disk of a compaction of two segments that is to be finished, with the new segment damaged, and
with a log. -/
def damagedDisk : Disk :=
  ((((Disk.empty.put (pathOf 1) aSegment (by decide +kernel)).put (pathOf 2) aSegment
    (by decide +kernel)).put (pathOf 3) damagedSegment (by decide +kernel)).put
      (markerPath (segmentsDirOf [['d']])) (utf8 (markerText ⟨3, [2, 1]⟩)) (by decide +kernel)).put
        (walPathOf [['d']]) (Record.newSet [97] [49]).image (by decide +kernel)

/-- A store with one key in its memtable and two segments. -/
def damagedStore : Store :=
  ⟨[['d']], ⟨walPathOf [['d']]⟩, Memtable.new.set [97] [49],
    [readerOf (pathOf 2) 2 [([97], some [49])], readerOf (pathOf 1) 1 [([97], some [49])]], 3, 100⟩

/-- **An unreadable segment is installed.** The new segment opens, but its records cannot be listed;
yet a flush cuts the log, a compaction removes the old segments, and so does a recovery. -/
theorem unreadable_replacement_installed :
    damagedDisk.read (pathOf 3) = some damagedSegment ∧
    (∃ r e, SegmentReader.openIn (pathOf 3) 3 damagedSegment = .ok r ∧ r.iterAllIn = .error e) ∧
    damagedDisk.read (walPathOf [['d']]) = some (Record.newSet [97] [49]).image ∧
    ((Store.installFlushed 3 (pathOf 3)).run (damagedStore, damagedDisk) []).2.2.read
      (walPathOf [['d']]) = some [] ∧
    damagedDisk.read (pathOf 1) = some aSegment ∧
    ((Store.installCompacted 3 (pathOf 3) ⟨2, 2, 1, 98, 49⟩).run
      (damagedStore, damagedDisk) []).2.2.read (pathOf 1) = none ∧
    ((recoverPendingCompaction (segmentsDirOf [['d']])).run damagedDisk []).2.read (pathOf 1) =
      none := by
  have hnone : (SegmentReader.iterAllIn
      ⟨damagedSegment, pathOf 3, 3, [⟨[97], 5⟩], 5, 20⟩).toOption = none := by decide +kernel
  refine ⟨by decide +kernel, ⟨⟨damagedSegment, pathOf 3, 3, [⟨[97], 5⟩], 5, 20⟩, ?_⟩,
    by decide +kernel, by decide +kernel, by decide +kernel, by decide +kernel, by decide +kernel⟩
  rcases hlist : SegmentReader.iterAllIn ⟨damagedSegment, pathOf 3, 3, [⟨[97], 5⟩], 5, 20⟩ with e | rs
  · exact ⟨e, rfl, rfl⟩
  · rw [hlist] at hnone
    cases hnone

end Damaged

end StoneKV
