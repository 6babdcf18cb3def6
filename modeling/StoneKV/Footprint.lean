import StoneKV.Lib.Region
import StoneKV.Loading

/-!
# The files of a store

* `Owned dir`: the files that a store at `dir` may change; `regionOf dir`: it reads these, and what
  lies beside them in the directory of the segments.
* `Homed dir s`: the open store `s` is at `dir`.
-/

namespace StoneKV

open FaultProg

/-- The name of a segment, of a marker, or of a temporary file of one of these. -/
def IsStoreName (n : Name) : Prop :=
  (parseSegmentGeneration n).isSome ∨ IsScratchName n ∨ n = COMPACTION_MARKER_FILE

/-- The files that a store at `dir` may change: its log, and files with such a name in its directory
of segments. -/
def Owned (dir : Path) : Set Path :=
  {p | p = walPathOf dir ∨ ∃ n, IsStoreName n ∧ p = segmentsDirOf dir ++ [n]}

/-- The files in the directory of segments. -/
def Beside (dir : Path) : Set Path := {p | ∃ n, p = segmentsDirOf dir ++ [n]}

/-- What a store at `dir` may read and change. -/
def regionOf (dir : Path) : Region Disk := Region.files (Beside dir) (Owned dir)

section Paths

variable {dir : Path} {n : Name} {g : ℕ}

theorem wal_mem_owned : walPathOf dir ∈ Owned dir := .inl rfl

theorem segment_mem_owned (hg : g < u64Size) : segmentPath (segmentsDirOf dir) g ∈ Owned dir :=
  .inr ⟨_, .inl (by rw [parseSegmentGeneration_filename hg]; rfl), rfl⟩

theorem segmentTemp_mem_owned (hg : g < u64Size) :
    segmentTempPath (segmentsDirOf dir) g ∈ Owned dir :=
  .inr ⟨_, .inr (.inl (isScratchName_temp hg)), rfl⟩

theorem marker_mem_owned : markerPath (segmentsDirOf dir) ∈ Owned dir := .inr ⟨_, .inr (.inr rfl), rfl⟩

theorem markerTemp_mem_owned : markerTempPath (segmentsDirOf dir) ∈ Owned dir :=
  .inr ⟨_, .inr (.inl isScratchName_markerTemp), rfl⟩

theorem mem_beside : segmentsDirOf dir ++ [n] ∈ Beside dir := ⟨n, rfl⟩

end Paths

/-! ## Recovery -/

section Recovery

variable {dir p : Path} {m : CompactionMarker}

theorem inside_removeIfExists (hp : p ∈ Owned dir) : Inside (regionOf dir) (removeIfExists p) :=
  (Fs.inside_pathExists (.inr hp)).seq fun _ =>
    contained_ite (fun _ => Fs.inside_removeFile hp) fun _ => contained_pure trivial

theorem inside_requireOldSegments : ∀ gs : List ℕ,
    Inside (regionOf dir) (requireOldSegments (segmentsDirOf dir) gs)
  | [] => contained_pure trivial
  | _ :: gs => (Fs.inside_pathExists (.inl mem_beside)).seq fun _ =>
      contained_ite (fun _ => contained_throw_bind)
        fun _ => inside_requireOldSegments gs

theorem inside_removeOldSegments : ∀ gs : List ℕ, (∀ g ∈ gs, g < u64Size) →
    Inside (regionOf dir) (removeOldSegments (segmentsDirOf dir) gs)
  | [], _ => contained_pure trivial
  | g :: gs, h => (inside_removeIfExists (segment_mem_owned (h g List.mem_cons_self))).seq fun _ =>
      inside_removeOldSegments gs fun g hg => h g (List.mem_cons_of_mem _ hg)

theorem contained_openReader {K W : Set Path} {g : ℕ} (hp : p ∈ K ∨ p ∈ W) :
    Contained (Region.files K W) (SegmentReader.open p g) fun r => r.path = p :=
  (Fs.inside_readFile hp).seq fun _ => contained_ofExcept fun r hr => by
    obtain ⟨i, is, -, rfl⟩ := SegmentReader.openIn_eq_ok.mp hr
    rfl

theorem inside_endRecovery (hm : m.Valid) : Inside (regionOf dir) (do
    removeIfExists (segmentTempPath (segmentsDirOf dir) m.outputGeneration)
    Fs.removeFile (markerPath (segmentsDirOf dir))) :=
  (inside_removeIfExists (segmentTemp_mem_owned hm.output_lt)).seq fun _ =>
    Fs.inside_removeFile marker_mem_owned

theorem inside_rollBack (hm : m.Valid) : Inside (regionOf dir) (rollBack (segmentsDirOf dir) m) :=
  (inside_requireOldSegments _).seq fun _ => inside_endRecovery hm

theorem inside_rollForward (hm : m.Valid) :
    Inside (regionOf dir) (rollForward (segmentsDirOf dir) m) :=
  (contained_openReader (.inl mem_beside)).seq fun _ =>
    (inside_removeOldSegments _ fun g hg => (hm.old_lt g hg).trans hm.output_lt).seq fun _ =>
      inside_endRecovery hm

theorem contained_readCompactionMarker : Contained (regionOf dir)
    (readCompactionMarker (markerPath (segmentsDirOf dir))) CompactionMarker.Valid :=
  (Fs.inside_readFile (.inr marker_mem_owned)).seq fun _ =>
    contained_ofExcept fun _ hm => valid_of_parseMarkerBytes hm

theorem inside_recoverPendingCompaction :
    Inside (regionOf dir) (recoverPendingCompaction (segmentsDirOf dir)) := by
  refine (Fs.inside_pathExists (.inr marker_mem_owned)).seq fun _ => contained_ite
    (fun _ => inside_removeIfExists markerTemp_mem_owned) fun _ => ?_
  refine (inside_removeIfExists markerTemp_mem_owned).seq fun _ =>
    contained_readCompactionMarker.bind fun m hm => ?_
  exact (Fs.inside_pathExists (.inl mem_beside)).seq fun _ =>
    contained_ite (fun _ => inside_rollBack hm) fun _ => inside_rollForward hm

theorem inside_removeTempFiles : ∀ names : List Name,
    Inside (regionOf dir) (removeTempFiles (segmentsDirOf dir) names)
  | [] => contained_pure trivial
  | n :: names => contained_ite
      (fun hn => (Fs.inside_removeFile (.inr ⟨n, .inr (.inl (.inl hn)), rfl⟩)).seq fun _ =>
        inside_removeTempFiles names)
      fun _ => inside_removeTempFiles names

theorem inside_removeStaleTempFiles :
    Inside (regionOf dir) (removeStaleTempFiles (segmentsDirOf dir)) :=
  (Fs.inside_readDir fun _ => .inl mem_beside).seq fun _ => inside_removeTempFiles _

/-! ## Loading -/

theorem contained_openSegments {W : Set Path} : ∀ xs : List (ℕ × Path),
    (∀ x ∈ xs, x.2 ∈ Beside dir ∧ x.2 ∈ Owned dir) →
    Contained (Region.files (Beside dir) W) (openSegments xs) fun rs => ∀ r ∈ rs, r.path ∈ Owned dir
  | [], _ => contained_pure nofun
  | (g, p) :: xs, h => by
    have hp := h _ List.mem_cons_self
    refine (contained_openReader (.inl hp.1)).bind fun r hr =>
      (contained_openSegments xs fun x hx => h x (List.mem_cons_of_mem _ hx)).bind fun rs hrs =>
        contained_pure ?_
    rintro r' (_ | ⟨_, hr'⟩)
    · rw [hr]
      exact hp.2
    · exact hrs r' hr'

/-- Loading reads what is in the directory of the segments, and changes nothing. -/
theorem contained_loadSegments {W : Set Path} :
    Contained (Region.files (Beside dir) W) (loadSegments (segmentsDirOf dir)) fun x =>
      (∀ r ∈ x.1, r.path ∈ Owned dir) ∧ x.2 < u64Size := by
  refine (Fs.inside_readDir fun _ => .inl mem_beside).seq fun names =>
    (contained_ofExcept (V := fun xs => xs = names.filterMap (segmentOf (segmentsDirOf dir)))
      fun xs hxs => discover_eq_ok hxs).bind ?_
  rintro _ rfl
  dsimp only
  split
  · exact contained_throw
  · refine (contained_ofExcept (V := fun next => next < u64Size) fun next hnext => ?_).bind
      fun next hnext => (contained_openSegments _ fun x hx => ?_).bind fun rs hrs =>
        contained_pure ⟨hrs, hnext⟩
    · unfold nextGeneration at hnext
      split at hnext
      · rw [okOr_eq_ok, checkedAdd_eq_some] at hnext
        exact hnext.1 ▸ hnext.2
      · cases hnext
        decide
    · rw [List.mem_insertionSort, List.mem_filterMap] at hx
      obtain ⟨n, -, hn⟩ := hx
      obtain ⟨hp, heq⟩ := segmentOf_eq_some.mp hn
      exact ⟨⟨n, heq⟩, .inr ⟨n, .inl (by rw [hp]; rfl), heq⟩⟩

end Recovery

/-! ## The log -/

section Log

variable {dir p : Path} {K W : Set Path} {wal : Wal} {r : Record} {n : ℕ} {β : Type}
  {apply : β → Record → β}

/-- Any value of a variable beside a region of files. -/
abbrev withAny (β : Type) (K W : Set Path) : Region (β × Disk) :=
  (Region.files K W).withVar fun _ : β => True

theorem inside_truncateFileTo (hp : p ∈ W) :
    Inside (Region.files K W) (Wal.truncateFileTo p n) :=
  (Fs.inside_openWrite (.inr hp)).seq fun _ => (Fs.inside_setLen hp).seq fun _ => Fs.inside_touch

theorem inside_replayLoop (hp : p ∈ W) {bytes : Bytes} : ∀ turns offset n k : ℕ,
    Inside (withAny β K W) (Wal.replayLoop apply p bytes turns offset n k)
  | 0, _, _, _ => contained_pure trivial
  | turns + 1, offset, n, k => by
    rw [Wal.replayLoop]
    refine contained_ite (fun _ => ?_) fun _ => contained_pure trivial
    split
    · have hrest : ∀ record consumed, Inside (withAny β K W) (do
          Prog.modify fun s => (apply s.1 record, s.2)
          let offset ← Prog.ofExcept
            (okOr (checkedAdd offset consumed) (.corruptRecord "WAL replay offset overflow"))
          Wal.replayLoop apply p bytes turns offset (n + 1) offset) := fun record consumed =>
        (contained_modify (g := fun b => apply b record) fun _ _ => trivial).seq fun _ =>
          inside_ofExcept.seq fun _ =>
            inside_replayLoop hp turns _ _ _
      exact contained_ite
        (fun _ => contained_throw_bind) fun _ => hrest _ _
    · exact (inside_truncateFileTo hp).onSnd.seq fun _ => contained_pure trivial
    · exact contained_throw

theorem inside_replay (hp : p ∈ W) : Inside (withAny β K W) (Wal.replay apply p) := by
  refine (Fs.inside_pathExists (.inr hp)).onSnd.seq fun _ => contained_ite
    (fun _ => contained_pure trivial) fun _ => (Fs.inside_readFile (.inr hp)).onSnd.seq fun _ => ?_
  exact contained_ite (fun _ => contained_pure trivial) fun _ => inside_replayLoop hp _ _ _ _

theorem contained_openWal (hp : p ∈ Owned dir) :
    Contained (regionOf dir) (Wal.open p) fun wal => wal = ⟨p⟩ := by
  have hrest : Contained (regionOf dir) (do
      Fs.openCreate p
      return ⟨p⟩ : Io Wal) fun wal => wal = ⟨p⟩ :=
    (Fs.inside_openCreate hp).seq fun _ => contained_pure rfl
  exact contained_ite (fun _ => Fs.inside_touch.seq fun _ => hrest) fun _ => hrest

theorem inside_append (hp : wal.path ∈ Owned dir) : Inside (regionOf dir) (wal.append r) :=
  inside_ofExcept.seq fun _ =>
    Fs.inside_touch.seq fun _ => (Fs.inside_writeAll hp).seq fun _ => Fs.inside_touch

theorem inside_truncate (hp : wal.path ∈ Owned dir) : Inside (regionOf dir) wal.truncate :=
  (Fs.inside_setLen hp).seq fun _ => Fs.inside_touch.seq fun _ => Fs.inside_touch

end Log

/-! ## Writing segments and markers -/

section Write

variable {dir p : Path} {w : SegmentWriter}

theorem contained_create (hp : p ∈ Owned dir) :
    Contained (regionOf dir) (SegmentWriter.create p) fun w => w.path = p := by
  have hrest : Contained (regionOf dir) (do
      Fs.createTruncate p
      Fs.writeAll p SEGMENT_MAGIC
      Fs.writeAll p [SEGMENT_VERSION]
      return ⟨p, SEGMENT_HEADER_SIZE, [], 0, none⟩ : Io SegmentWriter) fun w => w.path = p :=
    (Fs.inside_createTruncate hp).seq fun _ => (Fs.inside_writeAll hp).seq fun _ =>
      (Fs.inside_writeAll hp).seq fun _ => contained_pure rfl
  exact contained_ite (fun _ => Fs.inside_touch.seq fun _ => hrest) fun _ => hrest

theorem contained_writeEntry {e : Entry} (hw : w.path ∈ Owned dir) :
    Contained (regionOf dir) (w.writeEntry e) fun w' => w'.path = w.path :=
  inside_ofExcept.seq fun _ => inside_ofExcept.seq fun _ =>
    (Fs.inside_writeAll hw).seq fun _ => inside_ofExcept.seq fun _ => contained_pure rfl

theorem contained_writeAll : ∀ (es : List Entry) (w : SegmentWriter), w.path ∈ Owned dir →
    Contained (regionOf dir) (w.writeAll es) fun w' => w'.path = w.path
  | [], _, _ => contained_pure rfl
  | _ :: es, _, hw => (contained_writeEntry hw).bind fun w₁ hw₁ =>
      (contained_writeAll es w₁ (hw₁ ▸ hw)).mono fun _ hw' => hw'.trans hw₁

theorem inside_writeIndex (hp : p ∈ Owned dir) : ∀ (is : List SparseIndexEntry) (offset : ℕ),
    Inside (regionOf dir) (SegmentWriter.writeIndex p offset is)
  | [], _ => contained_pure trivial
  | _ :: is, _ => (inside_ofExcept.seq fun _ => (Fs.inside_writeAll hp).seq fun _ =>
      (Fs.inside_writeAll hp).seq fun _ => (Fs.inside_writeAll hp).seq fun _ =>
        inside_ofExcept).seq fun _ => inside_writeIndex hp is _

theorem inside_finish (hw : w.path ∈ Owned dir) : Inside (regionOf dir) w.finish :=
  (inside_writeIndex hw _ _).seq fun _ => (Fs.inside_writeAll hw).seq fun _ =>
    (Fs.inside_writeAll hw).seq fun _ => inside_ofExcept.seq fun _ =>
      Fs.inside_touch.seq fun _ => Fs.inside_touch.seq fun _ =>
        (Fs.inside_metadataLen (.inr hw)).seq fun _ => inside_ofExcept.seq fun _ =>
          contained_pure trivial

theorem inside_write {es : List Entry} (hp : p ∈ Owned dir) :
    Inside (regionOf dir) (SegmentWriter.write p es) :=
  (contained_create hp).bind fun w hw => (contained_writeAll es w (hw ▸ hp)).bind fun _ hw' =>
    inside_finish (hw' ▸ hw ▸ hp)

theorem inside_ignore {m : Io Unit} (h : Inside (regionOf dir) m) :
    Inside (regionOf dir) (ignore m) := h.attempt.seq fun _ => contained_pure trivial

theorem inside_writeOldLines (hp : p ∈ Owned dir) : ∀ gs : List ℕ,
    Inside (regionOf dir) (writeOldLines p gs)
  | [] => contained_pure trivial
  | _ :: gs => (Fs.inside_writeAll hp).seq fun _ => inside_writeOldLines hp gs

theorem inside_writeMarkerFile {q : Path} {g : ℕ} {gs : List ℕ} (hp : p ∈ Owned dir)
    (hq : q ∈ Owned dir) : Inside (regionOf dir) (writeMarkerFile p q g gs) :=
  (Fs.inside_createTruncate hp).seq fun _ => (Fs.inside_writeAll hp).seq fun _ =>
    (Fs.inside_writeAll hp).seq fun _ => (inside_writeOldLines hp gs).seq fun _ =>
      Fs.inside_touch.seq fun _ => Fs.inside_touch.seq fun _ => Fs.inside_rename hp hq

theorem inside_installMarker {q : Path} {g : ℕ} {gs : List ℕ} (hp : p ∈ Owned dir)
    (hq : q ∈ Owned dir) : Inside (regionOf dir) (installMarker p q g gs) := by
  refine (inside_writeMarkerFile hp hq).attempt.seq fun result => ?_
  split
  · exact contained_pure trivial
  · exact (inside_ignore (Fs.inside_removeFile hp)).seq fun _ => contained_throw

theorem inside_writeCompactionMarker {g : ℕ} {gs : List ℕ} :
    Inside (regionOf dir) (writeCompactionMarker (segmentsDirOf dir) g gs) := by
  have hinstall : Inside (regionOf dir) (installMarker (markerTempPath (segmentsDirOf dir))
      (markerPath (segmentsDirOf dir)) g gs) :=
    inside_installMarker markerTemp_mem_owned marker_mem_owned
  have hrest : Inside (regionOf dir) (do
      if ← Fs.pathExists (markerTempPath (segmentsDirOf dir)) then
        Fs.removeFile (markerTempPath (segmentsDirOf dir))
      installMarker (markerTempPath (segmentsDirOf dir)) (markerPath (segmentsDirOf dir)) g gs) :=
    (Fs.inside_pathExists (.inr markerTemp_mem_owned)).seq fun _ => contained_ite
      (fun _ => (Fs.inside_removeFile markerTemp_mem_owned).seq fun _ => hinstall) fun _ => hinstall
  exact (Fs.inside_pathExists (.inr marker_mem_owned)).seq fun _ => contained_ite
    (fun _ => contained_throw_bind) fun _ => hrest

theorem inside_mergeInputs : ∀ (ps : List Path) (i : ℕ) (merged : Merged) (n b : ℕ),
    (∀ p ∈ ps, p ∈ Owned dir) → Inside (regionOf dir) (mergeInputs i ps merged n b)
  | [], _, _, _, _, _ => contained_pure trivial
  | _ :: ps, _, _, _, _, h => (Fs.inside_metadataLen (.inr (h _ List.mem_cons_self))).seq fun _ =>
      (contained_openReader (.inr (h _ List.mem_cons_self))).seq fun _ =>
        (Fs.contained_reads (V := fun _ => True) fun _ _ => trivial).seq fun _ =>
          inside_mergeInputs ps _ _ _ _ fun p hp => h p (List.mem_cons_of_mem _ hp)

theorem inside_compactAll {ps : List Path} (hps : ∀ p ∈ ps, p ∈ Owned dir) (hp : p ∈ Owned dir) :
    Inside (regionOf dir) (compactAll ps p) := by
  have hwrite : ∀ (es : List Entry) (f : SegmentWriteStats → CompactionBuildStats),
      Inside (regionOf dir) (do
        let writeStats ← SegmentWriter.write p es
        return f writeStats) := fun es f => (inside_write hp).seq fun _ => contained_pure trivial
  refine (inside_mergeInputs ps _ _ _ _ hps).seq fun _ => (Fs.inside_pathExists (.inr hp)).seq fun _ =>
    contained_ite (fun _ => (Fs.inside_removeFile hp).seq fun _ => hwrite _ _) fun _ => hwrite _ _

end Write

/-! ## Open stores -/

/-- The open store `s` is at `dir`. -/
structure Homed (dir : Path) (s : Store) : Prop where
  dir_eq : s.dir = dir
  wal : s.wal.path = walPathOf dir
  segments : ∀ r ∈ s.segments, r.path ∈ Owned dir
  next_lt : s.nextSegmentGeneration < u64Size

/-- An open store at `dir` beside what it may read and change. -/
abbrev homeOf (dir : Path) : Region (Store × Disk) := (regionOf dir).withVar (Homed dir)

theorem contained_openWithThreshold {dir : Path} {t : ℕ} :
    Contained (regionOf dir) (Store.openWithThreshold dir t) (Homed dir) := by
  refine Fs.inside_touch.seq fun _ => Fs.inside_touch.seq fun _ =>
    inside_recoverPendingCompaction.seq fun _ => inside_removeStaleTempFiles.seq fun _ =>
      contained_loadSegments.bind fun x hx => ?_
  refine ((inside_replay wal_mem_owned).withLocal trivial).seq fun y =>
    (contained_openWal wal_mem_owned).bind fun wal hwal => contained_pure ?_
  rw [hwal]
  exact ⟨rfl, rfl, hx.1, hx.2⟩

section Methods

variable {dir p : Path} {K W : Set Path} {g : ℕ}

theorem contained_self : Contained ((Region.files K W).withVar (Homed dir)) self (Homed dir) :=
  contained_get (f := fun s => pure s) fun _ hs => contained_pure hs

theorem inside_update {f : Store → Store} (hf : ∀ s, Homed dir s → Homed dir (f s)) :
    Inside (homeOf dir) (update f) := contained_modify hf

theorem Homed.setMemtable {s : Store} (h : Homed dir s) (m : Memtable) :
    Homed dir { s with memtable := m } := ⟨h.dir_eq, h.wal, h.segments, h.next_lt⟩

theorem Homed.setNext {s : Store} (h : Homed dir s) {n : ℕ} (hn : n < u64Size) :
    Homed dir { s with nextSegmentGeneration := n } := ⟨h.dir_eq, h.wal, h.segments, hn⟩

theorem Homed.setSegments {s : Store} (h : Homed dir s) {rs : List SegmentReader}
    (hrs : ∀ r ∈ rs, r.path ∈ Owned dir) : Homed dir { s with segments := rs } :=
  ⟨h.dir_eq, h.wal, hrs, h.next_lt⟩

theorem Homed.segment_mem {s : Store} (h : Homed dir s) :
    segmentPath s.segmentsDir s.nextSegmentGeneration ∈ Owned dir := by
  rw [Store.segmentsDir, h.dir_eq]
  exact segment_mem_owned h.next_lt

theorem Homed.temp_mem {s : Store} (h : Homed dir s) :
    segmentTempPath s.segmentsDir s.nextSegmentGeneration ∈ Owned dir := by
  rw [Store.segmentsDir, h.dir_eq]
  exact segmentTemp_mem_owned h.next_lt

theorem Homed.marker_mem {s : Store} (h : Homed dir s) : markerPath s.segmentsDir ∈ Owned dir := by
  rw [Store.segmentsDir, h.dir_eq]
  exact marker_mem_owned

theorem inside_removeIgnored (hp : p ∈ Owned dir) :
    Inside (homeOf dir) (io (ignore (Fs.removeFile p))) :=
  (inside_ignore (Fs.inside_removeFile hp)).onSnd

theorem contained_next : Contained (homeOf dir)
    (Prog.ofExcept (okOr (checkedAdd g 1) (.other "segment generation exhausted")) : Method ℕ)
    fun next => next < u64Size :=
  contained_ofExcept fun next hnext => by
    rw [okOr_eq_ok, checkedAdd_eq_some] at hnext
    exact hnext.1 ▸ hnext.2

theorem contained_validate (hp : p ∈ Owned dir) : Contained (homeOf dir)
    (io (SegmentReader.open p g).attempt) (Caught fun r => r.path ∈ Owned dir) :=
  ((contained_openReader (.inr hp)).mono fun _ hr => hr ▸ hp).attempt.onSnd

theorem inside_installFlushed (hp : p ∈ Owned dir) :
    Inside (homeOf dir) (Store.installFlushed g p) := by
  refine (contained_validate hp).bind fun x hx => ?_
  split
  · exact (inside_removeIgnored hp).seq fun _ => contained_throw
  · rename_i reader
    refine Contained.seq (inside_update fun s hs => hs.setSegments ?_) fun _ =>
      contained_next.bind fun next hnext =>
        Contained.seq (inside_update fun s hs => hs.setNext hnext) fun _ => ?_
    · rintro r (_ | ⟨_, hr⟩)
      · exact hx _ rfl
      · exact hs.segments r hr
    · exact contained_self.bind fun s hs =>
        ((inside_truncate (hs.wal ▸ wal_mem_owned)).onSnd).seq fun _ =>
          inside_update fun s hs => hs.setMemtable .new

theorem inside_flushMemtable : Inside (homeOf dir) Store.flushMemtable :=
  contained_self.bind fun _ hs => contained_ite (fun _ => contained_pure trivial) fun _ =>
    (inside_removeIfExists hs.temp_mem).onSnd.seq fun _ =>
      (inside_write hs.temp_mem).onSnd.seq fun _ =>
        (Fs.inside_rename hs.temp_mem hs.segment_mem).onSnd.seq fun _ =>
          inside_installFlushed hs.segment_mem

theorem inside_logged {r : Record} {change : Memtable → Memtable} :
    Inside (homeOf dir) (Store.logged r change) :=
  contained_self.bind fun _ hs => (inside_append (hs.wal ▸ wal_mem_owned)).onSnd.seq fun _ =>
    Contained.seq (inside_update fun _ hs => hs.setMemtable _) fun _ =>
      contained_self.seq fun _ =>
        contained_ite (fun _ => inside_flushMemtable) fun _ => contained_pure trivial

theorem inside_searchSegments {key : Key} : ∀ rs : List SegmentReader,
    Inside (Region.files K W) (Store.searchSegments key rs)
  | [] => contained_pure trivial
  | r :: rs => by
    refine (Fs.contained_reads (V := fun _ => True) fun _ _ => trivial).seq fun x => ?_
    split
    · exact contained_pure trivial
    · exact contained_pure trivial
    · exact inside_searchSegments rs

/-- `get` reads open files only. -/
theorem inside_get {key : Key} :
    Inside ((Region.files K W).withVar (Homed dir)) (Store.get key) := by
  refine contained_self.seq fun s => ?_
  split
  · exact contained_pure trivial
  · exact contained_pure trivial
  · exact (inside_searchSegments _).onSnd

/-! ## Compaction, statistics and verification -/

theorem inside_removeAll : ∀ ps : List Path, (∀ p ∈ ps, p ∈ Owned dir) →
    Inside (regionOf dir) (Store.removeAll ps)
  | [], _ => contained_pure trivial
  | _ :: ps, h => (Fs.inside_removeFile (h _ List.mem_cons_self)).seq fun _ =>
      inside_removeAll ps fun p hp => h p (List.mem_cons_of_mem _ hp)

theorem Homed.paths_mem {s : Store} (h : Homed dir s) :
    ∀ p ∈ s.segments.map SegmentReader.path, p ∈ Owned dir := fun p hp => by
  obtain ⟨r, hr, rfl⟩ := List.mem_map.mp hp
  exact h.segments r hr

theorem inside_installCompacted {build : CompactionBuildStats} (hp : p ∈ Owned dir) :
    Inside (homeOf dir) (Store.installCompacted g p build) := by
  refine contained_self.bind fun s hs => (contained_validate hp).bind fun x hx => ?_
  split
  · exact (inside_removeIgnored hp).seq fun _ => (inside_removeIgnored hs.marker_mem).seq fun _ =>
      contained_throw
  · refine contained_next.bind fun next hnext =>
      Contained.seq (inside_update fun s hs => hs.setNext hnext) fun _ =>
        Contained.seq (inside_update fun s hs => hs.setSegments ?_) fun _ => ?_
    · exact List.forall_mem_singleton.mpr (hx _ rfl)
    · exact (inside_removeAll _ hs.paths_mem).onSnd.seq fun _ =>
        (Fs.inside_removeFile hs.marker_mem).onSnd.seq fun _ => contained_pure trivial

theorem inside_compactSegments : Inside (homeOf dir) Store.compactSegments := by
  refine contained_self.bind fun s hs => (inside_removeIfExists hs.temp_mem).onSnd.seq fun _ =>
    (inside_compactAll (fun p hp => ?_) hs.temp_mem).onSnd.seq fun build => ?_
  · rw [List.map_reverse, List.mem_reverse] at hp
    exact hs.paths_mem p hp
  have hmarker : ∀ gs, Inside (regionOf dir)
      (writeCompactionMarker s.segmentsDir s.nextSegmentGeneration gs) := fun gs => by
    rw [Store.segmentsDir, hs.dir_eq]
    exact inside_writeCompactionMarker
  refine (hmarker _).attempt.onSnd.seq fun x => ?_
  split
  · exact (inside_removeIgnored hs.temp_mem).seq fun _ => contained_throw
  refine (Fs.inside_rename hs.temp_mem hs.segment_mem).attempt.onSnd.seq fun y => ?_
  split
  · exact (inside_removeIgnored hs.marker_mem).seq fun _ =>
      (inside_removeIgnored hs.temp_mem).seq fun _ => contained_throw
  · exact inside_installCompacted hs.segment_mem

theorem inside_compact : Inside (homeOf dir) Store.compact := by
  have hrest : Inside (homeOf dir) (do
      if (← self).segments.length < 2 then return .default
      Store.compactSegments) :=
    contained_self.seq fun _ =>
      contained_ite (fun _ => contained_pure trivial) fun _ => inside_compactSegments
  exact contained_self.seq fun _ =>
    contained_ite (fun _ => inside_flushMemtable.seq fun _ => hrest) fun _ => hrest

theorem inside_segmentLens : ∀ rs : List SegmentReader, (∀ r ∈ rs, r.path ∈ K ∨ r.path ∈ W) →
    Inside (Region.files K W) (Store.segmentLens rs)
  | [], _ => contained_pure trivial
  | r :: rs, h => by
    have hrest := inside_segmentLens rs fun r hr => h r (List.mem_cons_of_mem _ hr)
    refine (Fs.inside_metadataLen (h r List.mem_cons_self)).attempt.seq fun x => ?_
    split
    · exact hrest.seq fun _ => contained_pure trivial
    · exact hrest

/-- `stats` reads the metadata of files that the store may change. -/
theorem inside_stats (hK : ∀ p ∈ Owned dir, p ∈ K ∨ p ∈ W) :
    Inside ((Region.files K W).withVar (Homed dir)) Store.stats :=
  contained_self.bind fun s hs =>
    (inside_segmentLens s.segments fun r hr => hK _ (hs.segments r hr)).onSnd.seq fun _ =>
      (Fs.inside_metadataLen (hK _ (hs.wal ▸ wal_mem_owned))).attempt.onSnd.seq fun _ =>
        contained_pure trivial

theorem inside_verifySegments : ∀ (rs : List SegmentReader) (g : Option ℕ) (n : ℕ),
    Inside (Region.files K W) (Store.verifySegments rs g n)
  | [], _, _ => contained_pure trivial
  | _ :: rs, _, _ => inside_ofExcept.seq fun _ =>
      (Fs.contained_reads (V := fun _ => True) fun _ _ => trivial).seq fun _ =>
        inside_ofExcept.seq fun _ => inside_verifySegments rs _ _

/-- `verify` changes the log only. -/
theorem inside_verify (hW : walPathOf dir ∈ W) :
    Inside ((Region.files K W).withVar (Homed dir)) Store.verify :=
  contained_self.bind fun s hs =>
    ((inside_replay (p := s.wal.path) (hs.wal ▸ hW)).withLocal trivial).onSnd.seq fun _ =>
      (inside_verifySegments _ _ _).onSnd.seq fun _ => contained_pure trivial

end Methods

end StoneKV
