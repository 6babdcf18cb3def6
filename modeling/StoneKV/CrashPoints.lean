import StoneKV.CompactStep
import StoneKV.Lib.Regular

/-!
# Where a compaction can die

* The programs that a flush and a compaction run are `Regular`.
* **`dies_flushMemtable`**: the process can die with the flushed segment in place.
* **`dies_compactSegments_marked`**, **`dies_compactSegments_installed`**: it can die with the marker
  in place, and with the marker and the merged segment.
* `FlushStep.ends`: how a flush ends when no call fails.
-/

namespace StoneKV

open FaultProg

/-- The store after a flush that succeeds. -/
def Store.afterFlush (s : Store) : Store :=
  if s.memtable.isEmpty then s else { s.flushed with memtable := .new }

/-- There is nothing to flush, or it fits into a file. -/
def Store.Flushable (s : Store) : Prop :=
  s.memtable.isEmpty ∨ (segmentImage s.memtable.iter).length ≤ maxFileLen

/-- There are segments with the entries `L` to merge, and the merged one and the marker fit into
files. -/
structure Store.Mergeable (s : Store) (L : List (List Entry)) : Prop where
  two_le : 2 ≤ s.segments.length
  segment_le : (segmentImage (merged L)).length ≤ maxFileLen
  marker_le : s.nextMarkerText.length ≤ maxFileLen

/-! ## Regular programs -/

section Programs

variable {p : Path} {d : Disk} {es : List Entry} {w : SegmentWriter} {g : ℕ}

theorem regular_removeIfExists : Regular (removeIfExists p) :=
  regular_bind regular_ask fun _ => regular_ite regular_call regular_pure

theorem regular_ignore {m : Io Unit} (hm : Regular m) : Regular (ignore m) :=
  regular_bind hm.attempt fun _ => regular_pure

theorem SegmentReader.regular_open : Regular (SegmentReader.open p g) :=
  regular_bind regular_call fun _ => regular_ofExcept

namespace SegmentWriter

theorem regular_create : Regular (create p) := by
  have hrest : Regular (do
      Fs.createTruncate p
      Fs.writeAll p SEGMENT_MAGIC
      Fs.writeAll p [SEGMENT_VERSION]
      return ⟨p, SEGMENT_HEADER_SIZE, [], 0, none⟩ : Io SegmentWriter) :=
    regular_bind regular_call fun _ => regular_bind regular_callPart fun _ =>
      regular_bind regular_callPart fun _ => regular_pure
  exact regular_ite (regular_bind regular_call fun _ => hrest) hrest

theorem regular_writeEntry {e : Entry} : Regular (writeEntry w e) :=
  regular_bind regular_ofExcept fun _ => regular_bind regular_ofExcept fun _ =>
    regular_bind regular_callPart fun _ => regular_bind regular_ofExcept fun _ => regular_pure

theorem regular_writeAll : ∀ (es : List Entry) (w : SegmentWriter), Regular (writeAll w es)
  | [], _ => regular_pure
  | _ :: es, _ => regular_bind regular_writeEntry fun w => regular_writeAll es w

theorem regular_writeIndexEntry {n : ℕ} {i : SparseIndexEntry} : Regular (writeIndexEntry p n i) :=
  regular_bind regular_ofExcept fun _ => regular_bind regular_callPart fun _ =>
    regular_bind regular_callPart fun _ => regular_bind regular_callPart fun _ => regular_ofExcept

theorem regular_writeIndex : ∀ (is : List SparseIndexEntry) (n : ℕ), Regular (writeIndex p n is)
  | [], _ => regular_pure
  | _ :: is, _ => regular_bind regular_writeIndexEntry fun n => regular_writeIndex is n

theorem regular_finish : Regular (finish w) :=
  regular_bind (regular_writeIndex _ _) fun _ => regular_bind regular_callPart fun _ =>
    regular_bind regular_callPart fun _ => regular_bind regular_ofExcept fun _ =>
      regular_bind regular_call fun _ => regular_bind regular_call fun _ =>
        regular_bind regular_call fun _ => regular_bind regular_ofExcept fun _ => regular_pure

theorem regular_write : Regular (write p es) :=
  regular_bind regular_create fun w => regular_bind (regular_writeAll es w) fun _ => regular_finish

end SegmentWriter

theorem regular_mergeInputs : ∀ (ps : List Path) (i : ℕ) (m : Merged) (n k : ℕ),
    Regular (mergeInputs i ps m n k)
  | [], _, _, _, _ => regular_pure
  | _ :: ps, _, _, _, _ => regular_bind regular_call fun _ =>
      regular_bind SegmentReader.regular_open fun _ => regular_bind regular_call fun _ =>
        regular_mergeInputs ps _ _ _ _

theorem regular_compactAll {ps : List Path} : Regular (compactAll ps p) := by
  refine regular_bind (regular_mergeInputs ps _ _ _ _) fun x => ?_
  have hwrite : Regular (do
      let writeStats ← SegmentWriter.write p (x.1.filter fun _ value => value.isSome).toList
      return ⟨ps.length, x.2.1, (x.1.filter fun _ value => value.isSome).size, x.2.2,
        writeStats.fileBytes⟩ : Io CompactionBuildStats) :=
    regular_bind SegmentWriter.regular_write fun _ => regular_pure
  exact regular_bind regular_ask fun _ =>
    regular_ite (regular_bind regular_call fun _ => hwrite) hwrite

theorem regular_writeln {line : List Char} : Regular (writeln p line) := by
  unfold writeln
  exact regular_callPart

theorem regular_writeOldLines : ∀ gs : List ℕ, Regular (writeOldLines p gs)
  | [] => regular_pure
  | _ :: gs => regular_bind regular_writeln fun _ => regular_writeOldLines gs

theorem regular_writeMarkerFile {temp : Path} {gs : List ℕ} :
    Regular (writeMarkerFile temp p g gs) :=
  regular_bind regular_call fun _ => regular_bind regular_writeln fun _ =>
    regular_bind regular_writeln fun _ => regular_bind (regular_writeOldLines gs) fun _ =>
      regular_bind regular_call fun _ => regular_bind regular_call fun _ => regular_call

theorem regular_installMarker {temp : Path} {gs : List ℕ} : Regular (installMarker temp p g gs) := by
  refine regular_bind regular_writeMarkerFile.attempt ?_
  rintro (e | _)
  · exact regular_bind (regular_ignore regular_call) fun _ => regular_throw
  · exact regular_pure

theorem regular_writeCompactionMarker {gs : List ℕ} : Regular (writeCompactionMarker p g gs) := by
  have hrest : Regular (do
      if ← Fs.pathExists (p ++ [COMPACTION_MARKER_TEMP_FILE]) then
        Fs.removeFile (p ++ [COMPACTION_MARKER_TEMP_FILE])
      installMarker (p ++ [COMPACTION_MARKER_TEMP_FILE]) (p ++ [COMPACTION_MARKER_FILE]) g gs :
        Io Unit) :=
    regular_bind regular_ask fun _ => regular_ite (regular_bind regular_call fun _ =>
      regular_installMarker) regular_installMarker
  exact regular_bind regular_ask fun _ => regular_ite (regular_bind regular_throw fun _ => hrest) hrest

theorem regular_self : Regular self := regular_bind regular_get fun _ => regular_pure

theorem regular_update {f : Store → Store} : Regular (update f) := regular_modify

theorem regular_truncate {wal : Wal} : Regular wal.truncate :=
  regular_bind regular_call fun _ => regular_bind regular_call fun _ => regular_call

theorem regular_installFlushed : Regular (Store.installFlushed g p) := by
  refine regular_bind SegmentReader.regular_open.attempt.onSnd ?_
  rintro (e | r)
  · exact regular_bind (regular_ignore regular_call).onSnd fun _ => regular_throw
  · exact regular_bind regular_update fun _ => regular_bind regular_ofExcept fun _ =>
      regular_bind regular_update fun _ => regular_bind regular_self fun _ =>
        regular_bind regular_truncate.onSnd fun _ => regular_update

theorem regular_flushMemtable : Regular Store.flushMemtable := by
  refine regular_bind regular_self fun s => regular_ite regular_pure ?_
  exact regular_bind regular_removeIfExists.onSnd fun _ =>
    regular_bind SegmentWriter.regular_write.onSnd fun _ => regular_bind regular_call.onSnd fun _ =>
      regular_installFlushed

end Programs

/-! ## Dying in a flush -/

section Points

variable {dir : Path} {s : Store} {d : Disk} {L : List (List Entry)} {R : Store × Disk → Prop} {g : ℕ}
  {p : Path} {build : CompactionBuildStats}

theorem not_canFail_noFault : ¬ CanFail NoFault := fun ⟨n, hn⟩ => not_noFault_fail n hn

theorem not_mayFail_noFault {big : Prop} {i : IoError} (h : ¬ big) : ¬ Fs.MayFail NoFault big i :=
  fun hm => hm.elim (fun hb => h hb.2) not_canFail_noFault

/-- A file that is removed if it is there. -/
theorem dies_removeIfExists {α : Type} {f : Unit → Method α}
    (h : ∀ d', d.Touched p d' → Dies (f ()) R (s, d')) :
    Dies (io (removeIfExists p) >>= f) R (s, d) :=
  regular_removeIfExists.onSnd.dies_bind (wp_onSnd (wp_removeIfExists
    (fun _ => .inr ⟨(), rfl, h _ Disk.touched_erase⟩) (fun _ => .inr ⟨(), rfl, h _ Disk.touched_self⟩)
    (fun hA => absurd hA not_canFail_noFault) (.inl rfl)))

theorem SegmentReader.dies_open {R : Disk → Prop} (h : R d) : Dies (SegmentReader.open p g) R d := by
  unfold SegmentReader.open
  exact (dies_call h).bind

/-- The process can die when it validates the flushed segment. -/
theorem dies_installFlushed (h : R (s, d)) : Dies (Store.installFlushed g p) R (s, d) :=
  (SegmentReader.dies_open (R := fun d => R (s, d)) h).attempt.onSnd.bind

/-- The process can die when it validates the merged segment. -/
theorem dies_installCompacted (h : R (s, d)) : Dies (Store.installCompacted g p build) R (s, d) :=
  regular_self.dies_bind (wp_self (.inr ⟨s, rfl,
    (SegmentReader.dies_open (R := fun d => R (s, d)) h).attempt.onSnd.bind⟩))

/-- **The process can die in a flush** with the segment in place. -/
theorem dies_flushMemtable (h : Served dir s (dirOf dir d) L) (hne : ¬ s.memtable.isEmpty)
    (hfits : (segmentImage s.memtable.iter).length ≤ maxFileLen) :
    Dies Store.flushMemtable (fun x => dirOf dir x.2 =
      (dirOf dir d).put s.nextName (some (segmentImage s.memtable.iter))) (s, d) := by
  have htemp := Store.segmentTempPath_next h.dir_eq
  have hfinal := Store.segmentPath_next h.dir_eq
  have hscratch := isScratchName_temp h.next_lt
  refine regular_self.dies_bind (wp_self (.inr ⟨s, rfl, ?_⟩))
  rw [if_neg hne]
  refine dies_removeIfExists fun d₁ ht₁ => ?_
  refine SegmentWriter.regular_write.onSnd.dies_bind (wp_onSnd (SegmentWriter.wp_write
    Memtable.ascending_iter h.valid (fun d₂ ht₂ hread => .inr ⟨_, rfl, ?_⟩)
    (fun i hi => absurd hi (not_mayFail_noFault (Nat.not_lt.mpr hfits))) fun _ _ => .inl rfl))
  refine regular_call.onSnd.dies_bind (wp_onSnd (Fs.wp_rename (fun b hb => .inr ⟨(), rfl, ?_⟩)
    (fun hn => ?_) (fun n hn => absurd hn (not_noFault_fail n)) fun _ _ => .inl rfl))
  · rw [hread] at hb
    cases hb
    refine dies_installFlushed ?_
    rw [dirOf_rename htemp hfinal hscratch s.not_isScratchName_next,
      dirOf_scratch hscratch (htemp ▸ ht₁.trans ht₂)]
  · rw [hread] at hn
    cases hn

/-! ## Dying in a compaction -/

/-- The process can die after a compaction has its marker in place. -/
theorem dies_buildCompacted (h : Served dir s (dirOf dir d) L) (hmarker : (dirOf dir d).marker = none)
    (hmerge : s.Mergeable L)
    (hdies : ∀ d' build, dirOf dir d' =
      (dirOf dir d).put COMPACTION_MARKER_FILE (some s.nextMarkerText) →
      d'.read (segmentTempPath s.segmentsDir s.nextSegmentGeneration) =
        some (segmentImage (merged L)) → Dies (s.renameCompacted build) R (s, d')) :
    Dies Store.compactSegments R (s, d) := by
  have htemp := Store.segmentTempPath_next h.dir_eq
  have hmarkerPath := Store.markerPath_eq h.dir_eq
  have hmarkerTemp := Store.markerTempPath_eq h.dir_eq
  have hscratch := isScratchName_temp h.next_lt
  refine regular_self.dies_bind (wp_self (.inr ⟨s, rfl, dies_removeIfExists fun d₁ ht₁ => ?_⟩))
  have hd₁ : dirOf dir d₁ = dirOf dir d := dirOf_scratch hscratch (htemp ▸ ht₁)
  have hin : Inputs d₁ (s.segments.reverse.map SegmentReader.path) L.reverse := by
    rw [← hd₁] at h
    exact h.inputs
  refine regular_compactAll.onSnd.dies_bind (wp_onSnd (wp_compactAll hin
    (fun d₂ ht₂ hread => .inr ⟨_, rfl, ?_⟩)
    (fun i hi => absurd hi (not_mayFail_noFault (Nat.not_lt.mpr hmerge.segment_le)))
    fun _ _ => .inl rfl))
  have hd₂ : dirOf dir d₂ = dirOf dir d := (dirOf_scratch hscratch (htemp ▸ ht₂)).trans hd₁
  have hm₂ : d₂.read (s.segmentsDir ++ [COMPACTION_MARKER_FILE]) = none := by
    rw [← hmarker, ← hd₂, dirOf_marker, Store.segmentsDir, h.dir_eq]
    rfl
  refine regular_writeCompactionMarker.attempt.onSnd.dies_bind (wp_onSnd (wp_attempt
    (wp_writeCompactionMarker (m := s.nextMarker) rfl rfl (fun hold => ?_)
      (fun _ d₃ hmarked => .inr ⟨.ok (), rfl, hdies d₃ _ ?_ ?_⟩)
      (fun _ i hi => absurd hi (not_mayFail_noFault (Nat.not_lt.mpr hmerge.marker_le)))
      fun _ _ => .inl rfl)))
  · rw [hm₂] at hold
    cases hold
  · rw [← hd₂]
    exact dirOf_marked hmarkerTemp hmarkerPath hmarked
  · have hne : ∀ n, n.head? ≠ some 's' → segmentTempPath s.segmentsDir s.nextSegmentGeneration ≠
        s.segmentsDir ++ [n] := fun n hn heq => by
      rw [segmentTempPath, append_singleton_inj] at heq
      exact hn (heq ▸ rfl)
    rw [hmarked _ (hne _ (by decide)), if_neg (hne _ (by decide)), hread]
    rfl

/-- **The process can die in a compaction** with the marker in place. -/
theorem dies_compactSegments_marked (h : Served dir s (dirOf dir d) L)
    (hmarker : (dirOf dir d).marker = none) (hmerge : s.Mergeable L) :
    Dies Store.compactSegments (fun x => dirOf dir x.2 =
      (dirOf dir d).put COMPACTION_MARKER_FILE (some s.nextMarkerText)) (s, d) := by
  refine dies_buildCompacted h hmarker hmerge fun d' build hd' _ => ?_
  have hrename : Dies (Fs.rename (segmentTempPath s.segmentsDir s.nextSegmentGeneration)
      (segmentPath s.segmentsDir s.nextSegmentGeneration) : Io Unit) (fun d₁ => dirOf dir d₁ =
        (dirOf dir d).put COMPACTION_MARKER_FILE (some s.nextMarkerText)) d' := dies_call hd'
  exact (Dies.onSnd hrename.attempt).bind

/-- **The process can die in a compaction** with the marker and the merged segment in place. -/
theorem dies_compactSegments_installed (h : Served dir s (dirOf dir d) L)
    (hmarker : (dirOf dir d).marker = none) (hmerge : s.Mergeable L) :
    Dies Store.compactSegments (fun x => dirOf dir x.2 = (dirOf dir d).replacing s (merged L))
      (s, d) := by
  have htemp := Store.segmentTempPath_next h.dir_eq
  have hfinal := Store.segmentPath_next h.dir_eq
  refine dies_buildCompacted h hmarker hmerge fun d' build hd' hread => ?_
  refine regular_call.attempt.onSnd.dies_bind (wp_onSnd (wp_attempt (Fs.wp_rename
    (fun b hb => .inr ⟨.ok (), rfl, ?_⟩) (fun hn => ?_) (fun n hn => absurd hn (not_noFault_fail n))
    fun _ _ => .inl rfl)))
  · rw [hread] at hb
    cases hb
    refine dies_installCompacted ?_
    rw [dirOf_rename htemp hfinal (isScratchName_temp h.next_lt) s.not_isScratchName_next, hd',
      ← Dir.put_comm s.nextName_ne_marker.symm]
    rfl
  · rw [hread] at hn
    cases hn

/-! ## Dying in the whole operation -/

/-- How a flush ends when no call fails and it does not take the last generation. -/
theorem FlushStep.ends {D D' : Dir} {s' : Store} {o : Outcome StoneError Unit}
    (hs : FlushStep NoFault s D o s' D') (hnext : s.afterFlush.nextSegmentGeneration < u64Size) :
    o = .crash ∨ (¬ s.Flushable ∧ ∃ i, o = .err (.io i)) ∨ o = .ok () ∧ s' = s.afterFlush := by
  unfold Store.afterFlush at hnext ⊢
  cases hs with
  | empty hempty => exact .inr (.inr ⟨rfl, (if_pos hempty).symm⟩)
  | aborted ho _ hne =>
    refine ho.imp_right fun ⟨i, hi, hfail⟩ => .inl ⟨fun hflush => ?_, i, hi⟩
    exact not_mayFail_noFault (Nat.not_lt.mpr (hflush.resolve_left hne)) hfail
  | exhausted hlast hne =>
    rw [if_neg hne] at hnext
    exact absurd hlast (Nat.ne_of_lt hnext)
  | installed ho _ _ _ =>
    exact .inl (ho.resolve_right fun ⟨_, _, hfail⟩ => not_mayFail_noFault not_false hfail)
  | done _ hne => exact .inr (.inr ⟨rfl, (if_neg hne).symm⟩)

/-- A flush with nothing to keep it from succeeding. -/
theorem FlushStep.eq_ok {D D' : Dir} {s' : Store} {o : Outcome StoneError Unit}
    (hs : FlushStep NoFault s D o s' D') (hflush : s.Flushable)
    (hnext : s.afterFlush.nextSegmentGeneration < u64Size) :
    o = .crash ∨ o = .ok () ∧ s' = s.afterFlush :=
  (hs.ends hnext).imp_right fun h => h.resolve_left fun hfail => hfail.1 hflush

/-- **The process can die in `compact`** where it can die in the merge. -/
theorem dies_compact (h : Served dir s (dirOf dir d) L) (hflush : s.Flushable)
    (hnext : s.afterFlush.nextSegmentGeneration < u64Size)
    (hlen : 2 ≤ s.afterFlush.segments.length)
    (hdies : ∀ d₁, FlushStep NoFault s (dirOf dir d) (.ok ()) s.afterFlush (dirOf dir d₁) →
      Dies Store.compactSegments R (s.afterFlush, d₁)) : Dies Store.compact R (s, d) := by
  have hrest : ∀ d₁, FlushStep NoFault s (dirOf dir d) (.ok ()) s.afterFlush (dirOf dir d₁) →
      Dies (do
        if (← self).segments.length < 2 then return .default
        Store.compactSegments : Method CompactionStats) R (s.afterFlush, d₁) := fun d₁ hs => by
    refine regular_self.dies_bind (wp_self (.inr ⟨_, rfl, ?_⟩))
    rw [if_neg (Nat.not_lt.mpr hlen)]
    exact hdies d₁ hs
  refine regular_self.dies_bind (wp_self (.inr ⟨s, rfl, ?_⟩))
  split_ifs with hempty
  · have hs : s.afterFlush = s := if_pos hempty
    have := hrest d (by rw [hs]; exact .empty hempty)
    rwa [hs] at this
  · refine regular_flushMemtable.dies_bind ((wp_flushMemtable h.writable).mono ?_)
    rintro o ⟨s₁, d₁⟩ hs
    refine (hs.eq_ok hflush hnext).imp_right ?_
    rintro ⟨rfl, rfl⟩
    exact ⟨(), rfl, hrest d₁ hs⟩

/-- **The process can die in `compact`** where it can die in the flush. -/
theorem dies_compact_flush (hne : ¬ s.memtable.isEmpty) (hdies : Dies Store.flushMemtable R (s, d)) :
    Dies Store.compact R (s, d) := by
  refine regular_self.dies_bind (wp_self (.inr ⟨s, rfl, ?_⟩))
  rw [if_pos hne]
  exact hdies.bind

end Points

end StoneKV
