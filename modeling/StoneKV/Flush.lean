import StoneKV.Directory

/-!
# What a flush can do

* `Failed A big o`: the outcome `o` is a crash or an I/O error that the faults `A` can cause.
* `FlushStep`: what a flush can do to the store and its directory; **`wp_flushMemtable`**.
* `Writable`: all that a flush takes of a store; **`FlushStep.served_or_stuck`**, **`FlushStep.served`**:
  however it ends, the store serves what it served, unless its segment has the last generation.
-/

namespace StoneKV

open FaultProg

/-- The outcome is a crash, or an I/O error: of a file that grows too large, which takes `big`, or of
a call that fails. -/
def Failed {α : Type} (A : Fault → Prop) (big : Prop) (o : Outcome StoneError α) : Prop :=
  o = .crash ∨ ∃ i, o = .err (.io i) ∧ Fs.MayFail A big i

section Failed

variable {α : Type} {A : Fault → Prop} {big big' : Prop} {o : Outcome StoneError α} {i : IoError}

theorem failed_crash : Failed A big (.crash : Outcome StoneError α) := .inl rfl

theorem failed_err (h : Fs.MayFail A big i) : Failed A big (.err (.io i) : Outcome StoneError α) :=
  .inr ⟨i, rfl, h⟩

theorem failed_of_canFail (h : CanFail A) : Failed A big (.err (.io i) : Outcome StoneError α) :=
  failed_err (.inr h)

theorem Failed.ne_ok (h : Failed A big o) {a : α} : o ≠ .ok a := by
  rcases h with rfl | ⟨i, rfl, -⟩ <;> exact nofun

end Failed

/-! ## Flushing -/

/-- The name of the next segment. -/
def Store.nextName (s : Store) : Name := segmentFilename s.nextSegmentGeneration

theorem Store.not_isScratchName_next (s : Store) : ¬ IsScratchName s.nextName :=
  not_isScratchName_segment

theorem Store.nextName_ne_marker (s : Store) : s.nextName ≠ COMPACTION_MARKER_FILE :=
  segmentFilename_ne_marker

section Paths

variable {s : Store} {dir : Path}

theorem Store.segmentPath_next (h : s.dir = dir) :
    segmentPath s.segmentsDir s.nextSegmentGeneration = segmentsDirOf dir ++ [s.nextName] := by
  rw [Store.segmentsDir, h]
  rfl

theorem Store.segmentTempPath_next (h : s.dir = dir) :
    segmentTempPath s.segmentsDir s.nextSegmentGeneration =
      segmentsDirOf dir ++ [segmentTempFilename s.nextSegmentGeneration] := by
  rw [Store.segmentsDir, h]
  rfl

theorem Store.markerPath_eq (h : s.dir = dir) :
    markerPath s.segmentsDir = segmentsDirOf dir ++ [COMPACTION_MARKER_FILE] := by
  rw [Store.segmentsDir, h]
  rfl

theorem Store.markerTempPath_eq (h : s.dir = dir) :
    markerTempPath s.segmentsDir = segmentsDirOf dir ++ [COMPACTION_MARKER_TEMP_FILE] := by
  rw [Store.segmentsDir, h]
  rfl

end Paths

/-- The segment with the entries `es` as the next one. -/
def Store.nextReader (s : Store) (es : List Entry) : SegmentReader :=
  readerOf (segmentPath s.segmentsDir s.nextSegmentGeneration) s.nextSegmentGeneration es

/-- The store that lists its memtable as a segment. -/
def Store.flushed (s : Store) : Store :=
  { s with
    segments := s.nextReader s.memtable.iter :: s.segments
    nextSegmentGeneration := s.nextSegmentGeneration + 1 }

/-- The error of a generation that has no next one. -/
def exhausted : StoneError := .other "segment generation exhausted"

/-- What a flush can do to the store `s` in the directory `D`. -/
inductive FlushStep (A : Fault → Prop) (s : Store) (D : Dir) :
    Outcome StoneError Unit → Store → Dir → Prop
  | empty : s.memtable.isEmpty → FlushStep A s D (.ok ()) s D
  | aborted {o : Outcome StoneError Unit} {v : Option Bytes} :
    Failed A (maxFileLen < (segmentImage s.memtable.iter).length) o →
    (v = D.files s.nextName ∨ v = none ∨ v = some (segmentImage s.memtable.iter)) →
    ¬ s.memtable.isEmpty → FlushStep A s D o s (D.put s.nextName v)
  | exhausted : s.nextSegmentGeneration + 1 = u64Size → ¬ s.memtable.isEmpty →
    FlushStep A s D (.err StoneKV.exhausted)
      { s with segments := s.nextReader s.memtable.iter :: s.segments }
      (D.put s.nextName (some (segmentImage s.memtable.iter)))
  | installed {o : Outcome StoneError Unit} {w : Option Bytes} : Failed A False o →
    (w = D.wal ∨ w = some []) → s.nextSegmentGeneration + 1 < u64Size → ¬ s.memtable.isEmpty →
    FlushStep A s D o s.flushed
      ((D.put s.nextName (some (segmentImage s.memtable.iter))).setWal w)
  | done : s.nextSegmentGeneration + 1 < u64Size → ¬ s.memtable.isEmpty →
    FlushStep A s D (.ok ()) { s.flushed with memtable := .new }
      ((D.put s.nextName (some (segmentImage s.memtable.iter))).setWal (some []))

section Calls

variable {A : Fault → Prop} {d : Disk} {p : Path}

theorem wp_removeIfExists {Q : Outcome StoneError Unit → Disk → Prop}
    (hyes : (d.read p).isSome → Q (.ok ()) (d.erase p))
    (hno : d.read p = none ∨ A .deny → Q (.ok ()) d) (herr : CanFail A → Q (.err (.io .other)) d)
    (hcr : Q .crash d) : wp A (removeIfExists p) Q d := by
  refine wp_bind (Fs.wp_pathExists ?_ (fun hn => wp_pure (hno (.inr hn))) fun _ _ => hcr)
  dsimp only [Outcome.andThen]
  split_ifs with hex
  · exact Fs.wp_removeFile hyes (fun h => by rw [h] at hex; cases hex) (fun n hn => herr ⟨n, hn⟩)
      fun _ _ => hcr
  · exact wp_pure (hno (.inl (Option.not_isSome_iff_eq_none.mp hex)))

theorem wp_truncate {Q : Outcome StoneError Unit → Disk → Prop} {wal : Wal} {old : Bytes}
    (hd : d.read wal.path = some old) (hok : ∀ h, Q (.ok ()) (d.put wal.path [] h))
    (herr : CanFail A → Q (.err (.io .other)) d)
    (herr' : CanFail A → ∀ h, Q (.err (.io .other)) (d.put wal.path [] h)) (hcr : Q .crash d)
    (hcr' : ∀ h, Q .crash (d.put wal.path [] h)) : wp A wal.truncate Q d := by
  refine wp_bind (Fs.wp_setLen hd (Nat.zero_le _) (fun h => ?_) (fun n hn => herr ⟨n, hn⟩)
    fun _ _ => hcr)
  refine wp_bind (Fs.wp_touch ?_ (fun n hn => herr' ⟨n, hn⟩ h) fun _ _ => hcr' h)
  exact Fs.wp_touch (hok h) (fun n hn => herr' ⟨n, hn⟩ h) fun _ _ => hcr' h

end Calls

/-- The memtable and the log of the store are in order, whatever segments it lists. -/
structure Writable (dir : Path) (s : Store) (D : Dir) : Prop where
  dir_eq : s.dir = dir
  wal : s.wal.path = walPathOf dir
  log : D.wal.isSome
  valid : ∀ e ∈ s.memtable.iter, (toRecord e).Valid
  next_lt : s.nextSegmentGeneration < u64Size

theorem Served.writable {dir : Path} {s : Store} {D : Dir} {L : List (List Entry)}
    (h : Served dir s D L) : Writable dir s D := ⟨h.dir_eq, h.wal, h.log, h.valid, h.next_lt⟩

theorem Writable.storable_iter {dir : Path} {s : Store} {D : Dir} (h : Writable dir s D)
    (hlen : (segmentImage s.memtable.iter).length ≤ maxFileLen) : Storable s.memtable.iter :=
  ⟨Memtable.ascending_iter, h.valid, hlen⟩

section Methods

variable {A : Fault → Prop} {s : Store} {d : Disk}

theorem wp_self {Q : Outcome StoneError Store → Store × Disk → Prop} (h : Q (.ok s) (s, d)) :
    wp A self Q (s, d) := wp_bind (wp_get (wp_pure h))

theorem wp_update {f : Store → Store} {Q : Outcome StoneError Unit → Store × Disk → Prop}
    (h : Q (.ok ()) (f s, d)) : wp A (update f) Q (s, d) := wp_modify h

/-- Returning an error after the removal of a file, whose result is dropped. -/
theorem wp_removeThrow {α : Type} {Q : Outcome StoneError α → Store × Disk → Prop} {p : Path}
    {e : StoneError} (hgone : Q (.err e) (s, d.erase p)) (hkept : Q (.err e) (s, d))
    (hcr : Q .crash (s, d)) : wp A (do
      io (ignore (Fs.removeFile p))
      Prog.throw e : Method α) Q (s, d) := by
  refine wp_bind (wp_onSnd (wp_ignore_removeFile (fun _ => ?_) (fun _ => ?_) (fun _ => ?_) hcr))
  · exact wp_throw hgone
  · exact wp_throw hkept
  · exact wp_throw hkept

/-- **Validating an installed segment.** It opens, and the flush goes on; or it is removed again. -/
theorem wp_installFlushed {Q : Outcome StoneError Unit → Store × Disk → Prop} {g : ℕ} {p : Path}
    (hopen : ∀ b r, d.read p = some b → SegmentReader.openIn p g b = .ok r → wp A (do
      update fun s => { s with segments := r :: s.segments }
      let next ← Prog.ofExcept (okOr (checkedAdd g 1) exhausted)
      update fun s => { s with nextSegmentGeneration := next }
      io (← self).wal.truncate
      update fun s => { s with memtable := .new }) Q (s, d))
    (herr : ∀ e, (∀ b r, d.read p = some b → SegmentReader.openIn p g b = .ok r →
      e = .io .other ∧ CanFail A) → ∀ d', d' = d ∨ d' = d.erase p → Q (.err e) (s, d'))
    (hcr : Q .crash (s, d)) : wp A (Store.installFlushed g p) Q (s, d) := by
  have hremove : ∀ e, (∀ b r, d.read p = some b → SegmentReader.openIn p g b = .ok r →
      e = .io .other ∧ CanFail A) → wp A (do
        io (ignore (Fs.removeFile p))
        Prog.throw e : Method Unit) Q (s, d) := fun e he =>
    wp_removeThrow (herr e he _ (.inr rfl)) (herr e he _ (.inl rfl)) hcr
  refine wp_bind (wp_onSnd (wp_attempt (SegmentReader.wp_open (fun b r hb hr => ?_)
    (fun b e hb he => ?_) (fun hn => ?_) (fun n hn => ?_) hcr)))
  · exact hopen b r hb hr
  · refine hremove e fun b' r' hb' hr' => ?_
    rw [hb] at hb'
    cases hb'
    rw [he] at hr'
    cases hr'
  · refine hremove _ fun b' r' hb' hr' => ?_
    rw [hn] at hb'
    cases hb'
  · exact hremove _ fun _ _ _ _ => ⟨rfl, n, hn⟩

theorem flushStep_congr {D D' D'' : Dir} {o : Outcome StoneError Unit} {s' : Store} (h : D'' = D')
    (hs : FlushStep A s D o s' D') : FlushStep A s D o s' D'' := h ▸ hs

/-- What `installFlushed` does with the image of the memtable. -/
theorem wp_installFlushed_image {dir : Path} {D : Dir} (h : Writable dir s D) (hne : ¬ s.memtable.isEmpty)
    (hD : dirOf dir d = D.put s.nextName (some (segmentImage s.memtable.iter)))
    (hread : d.read (segmentPath s.segmentsDir s.nextSegmentGeneration) =
      some (segmentImage s.memtable.iter)) :
    wp A (Store.installFlushed s.nextSegmentGeneration
        (segmentPath s.segmentsDir s.nextSegmentGeneration))
      (fun o x => FlushStep A s D o x.1 (dirOf dir x.2)) (s, d) := by
  have hstor : Storable s.memtable.iter := h.storable_iter (Disk.length_le_of_read hread)
  have hpath := Store.segmentPath_next h.dir_eq
  have hwal : s.wal.path = walPathOf dir := h.wal
  obtain ⟨old, hold⟩ := Option.isSome_iff_exists.mp h.log
  have hlog : d.read s.wal.path = some old := by
    rw [hwal, ← dirOf_wal, hD, Dir.wal_put, hold]
  have hcut : ∀ h, dirOf dir (d.put s.wal.path [] h) =
      (D.put s.nextName (some (segmentImage s.memtable.iter))).setWal (some []) := fun h => by
    rw [hwal, dirOf_setWal Disk.touched_put, Disk.read_put, if_pos rfl, hD]
  have hkept : dirOf dir d =
      (D.put s.nextName (some (segmentImage s.memtable.iter))).setWal D.wal := hD
  refine wp_installFlushed (fun b r hb hr => ?_) (fun e he d' hd' => ?_) ?_
  · rw [hread] at hb
    cases hb
    rw [hstor.openIn] at hr
    cases hr
    refine wp_bind (wp_update (wp_bind (wp_ofExcept (fun next hnext => ?_) fun e he => ?_)))
    · rw [okOr_eq_ok, checkedAdd_eq_some] at hnext
      obtain ⟨rfl, hlt⟩ := hnext
      refine wp_bind (wp_update (wp_bind (wp_self (wp_bind (wp_onSnd ?_)))))
      refine wp_truncate hlog (fun hl => wp_update ?_) (fun hA => ?_) (fun hA hl => ?_) ?_ fun hl => ?_
      · exact flushStep_congr (hcut hl) (.done hlt hne)
      · exact flushStep_congr hkept (.installed (failed_of_canFail hA) (.inl rfl) hlt hne)
      · exact flushStep_congr (hcut hl) (.installed (failed_of_canFail hA) (.inr rfl) hlt hne)
      · exact flushStep_congr hkept (.installed failed_crash (.inl rfl) hlt hne)
      · exact flushStep_congr (hcut hl) (.installed failed_crash (.inr rfl) hlt hne)
    · have hlast : s.nextSegmentGeneration + 1 = u64Size := by
        have hlt := h.next_lt
        by_contra hne
        rw [checkedAdd_of_lt (by omega)] at he
        cases he
      rw [checkedAdd, if_neg (by omega)] at he
      cases he
      exact flushStep_congr hD (.exhausted hlast hne)
  · obtain ⟨rfl, hA⟩ := he _ _ hread (hstor.openIn _ _)
    rcases hd' with rfl | rfl
    · exact flushStep_congr hD (.aborted (failed_of_canFail hA) (.inr (.inr rfl)) hne)
    · have hgone : dirOf dir (d.erase (segmentsDirOf dir ++ [s.nextName])) =
          D.put s.nextName none := by
        rw [dirOf_erase s.not_isScratchName_next, hD, Dir.put_put]
      rw [hpath]
      exact flushStep_congr hgone (.aborted (failed_of_canFail hA) (.inr (.inl rfl)) hne)
  · exact flushStep_congr hD (.aborted failed_crash (.inr (.inr rfl)) hne)

/-- **Flushing.** -/
theorem wp_flushMemtable {dir : Path} (h : Writable dir s (dirOf dir d)) :
    wp A Store.flushMemtable (fun o x => FlushStep A s (dirOf dir d) o x.1 (dirOf dir x.2))
      (s, d) := by
  refine wp_bind (wp_self ?_)
  dsimp only [Outcome.andThen]
  by_cases hne : s.memtable.isEmpty
  · rw [if_pos hne]
    exact wp_pure (.empty hne)
  rw [if_neg hne]
  have htemp := Store.segmentTempPath_next h.dir_eq
  have hfinal := Store.segmentPath_next h.dir_eq
  have hscratch := isScratchName_temp h.next_lt
  have hkept : ∀ {o : Outcome StoneError Unit} {d' : Disk},
      Failed A (maxFileLen < (segmentImage s.memtable.iter).length) o →
      d.Touched (segmentTempPath s.segmentsDir s.nextSegmentGeneration) d' →
      FlushStep A s (dirOf dir d) o s (dirOf dir d') := fun {o d'} ho ht => by
    rw [htemp] at ht
    have := FlushStep.aborted (D := dirOf dir d) ho (.inl rfl) hne
    rw [Dir.put_files] at this
    exact flushStep_congr (dirOf_scratch hscratch ht) this
  have hwrite : ∀ d₁, d.Touched (segmentTempPath s.segmentsDir s.nextSegmentGeneration) d₁ →
      wp A (do
        let _stats ← io (SegmentWriter.write
          (segmentTempPath s.segmentsDir s.nextSegmentGeneration) s.memtable.iter)
        io (Fs.rename (segmentTempPath s.segmentsDir s.nextSegmentGeneration)
          (segmentPath s.segmentsDir s.nextSegmentGeneration))
        Store.installFlushed s.nextSegmentGeneration
          (segmentPath s.segmentsDir s.nextSegmentGeneration))
      (fun o x => FlushStep A s (dirOf dir d) o x.1 (dirOf dir x.2)) (s, d₁) := fun d₁ ht₁ => by
    refine wp_bind (wp_onSnd (SegmentWriter.wp_write Memtable.ascending_iter h.valid
      (fun d₂ ht₂ hread => ?_) (fun i hi d₂ ht₂ => hkept (failed_err hi) (ht₁.trans ht₂))
      fun d₂ ht₂ => hkept failed_crash (ht₁.trans ht₂)))
    refine wp_bind (wp_onSnd (Fs.wp_rename (fun b hb => ?_) (fun hn => ?_)
      (fun n hn => hkept (failed_of_canFail ⟨n, hn⟩) (ht₁.trans ht₂))
      fun _ _ => hkept failed_crash (ht₁.trans ht₂)))
    · rw [hread] at hb
      cases hb
      refine wp_installFlushed_image h hne ?_ (by rw [Disk.read_put, if_pos rfl])
      rw [dirOf_rename htemp hfinal hscratch s.not_isScratchName_next,
        dirOf_scratch hscratch (htemp ▸ ht₁.trans ht₂)]
    · rw [hread] at hn
      cases hn
  exact wp_bind (wp_onSnd (wp_removeIfExists (fun _ => hwrite _ Disk.touched_erase)
    (fun _ => hwrite _ Disk.touched_self)
    (fun hA => hkept (failed_of_canFail hA) Disk.touched_self)
    (hkept failed_crash Disk.touched_self)))

end Methods

/-! ### What a flush keeps -/

section Kept

variable {A : Fault → Prop} {dir : Path} {s s' : Store} {D D' : Dir} {L : List (List Entry)}
  {o : Outcome StoneError Unit}

theorem Served.parse_fileName (h : Served dir s D L) {r : SegmentReader} (hr : r ∈ s.segments) :
    parseSegmentGeneration (fileName r) = some r.generation := by
  obtain ⟨es, -, hl⟩ := h.exists_lists hr
  exact hl.parse

theorem Served.parse_nextName (h : Served dir s D L) :
    parseSegmentGeneration s.nextName = some s.nextSegmentGeneration :=
  parseSegmentGeneration_filename h.next_lt

theorem Served.fileName_ne_next (h : Served dir s D L) {r : SegmentReader} (hr : r ∈ s.segments) :
    fileName r ≠ s.nextName := by
  intro heq
  have hp := h.parse_fileName hr
  rw [heq, h.parse_nextName, Option.some_inj] at hp
  have hlt := h.below r hr
  omega

theorem Served.fileName_ne_marker (h : Served dir s D L) {r : SegmentReader} (hr : r ∈ s.segments) :
    fileName r ≠ COMPACTION_MARKER_FILE := ne_marker_of_parse (h.parse_fileName hr)

/-- Serving depends on the files of the listed segments and on there being a log. -/
theorem Served.congr (h : Served dir s D L) (hlog : D'.wal.isSome)
    (hD : ∀ r ∈ s.segments, D'.files (fileName r) = D.files (fileName r)) : Served dir s D' L := by
  refine ⟨h.dir_eq, h.wal, hlog, h.valid, ?_, h.decreasing, h.below, h.next_lt⟩
  rw [List.forall₂_iff_get]
  exact ⟨h.lists.length_eq, fun i hi hj =>
    ((List.forall₂_iff_get.mp h.lists).2 i hi hj).congr (hD _ (List.getElem_mem hi))⟩

/-- A file under the name of the next segment is not seen. -/
theorem Served.put_next (h : Served dir s D L) (v : Option Bytes) :
    Served dir s (D.put s.nextName v) L :=
  h.congr h.log fun r hr => by rw [Dir.files_put, if_neg (h.fileName_ne_next hr)]

theorem Served.put_marker (h : Served dir s D L) (v : Option Bytes) :
    Served dir s (D.put COMPACTION_MARKER_FILE v) L :=
  h.congr h.log fun r hr => by rw [Dir.files_put, if_neg (h.fileName_ne_marker hr)]

/-- The memtable is listed as the newest segment. -/
theorem Served.flushed (h : Served dir s D L) (hlt : s.nextSegmentGeneration + 1 < u64Size)
    (hD : D.files s.nextName = some (segmentImage s.memtable.iter))
    (hlen : (segmentImage s.memtable.iter).length ≤ maxFileLen) :
    Served dir s.flushed D (s.memtable.iter :: L) := by
  have hstor : Storable s.memtable.iter := ⟨Memtable.ascending_iter, h.valid, hlen⟩
  have hnew : Lists dir D (s.nextReader s.memtable.iter) s.memtable.iter := by
    rw [Store.nextReader, Store.segmentsDir, h.dir_eq]
    exact lists_readerOf h.next_lt hstor hD
  refine ⟨h.dir_eq, h.wal, h.log, h.valid, .cons hnew h.lists,
    List.pairwise_cons.mpr ⟨h.below, h.decreasing⟩, ?_, hlt⟩
  rintro r (_ | ⟨_, hr⟩)
  · exact Nat.lt_succ_self _
  · exact (h.below r hr).trans (Nat.lt_succ_self _)

theorem Served.clear (h : Served dir s D L) : Served dir { s with memtable := .new } D L := by
  refine ⟨h.dir_eq, h.wal, h.log, fun e he => ?_, h.lists, h.decreasing, h.below, h.next_lt⟩
  obtain ⟨k, v⟩ := e
  rw [Memtable.mem_iter, Memtable.get_new] at he
  cases he

/-- No segment has the last generation. -/
def Dir.Below (D : Dir) : Prop := D.files (segmentFilename (u64Size - 1)) = none

instance {D : Dir} : Decidable D.Below := inferInstanceAs (Decidable (_ = none))

theorem not_below_of_next {b : Bytes} (hlast : s.nextSegmentGeneration + 1 = u64Size)
    (hfile : D.files s.nextName = some b) : ¬ D.Below := fun hbelow => by
  have hname : s.nextName = segmentFilename (u64Size - 1) := by
    rw [Store.nextName, show u64Size - 1 = s.nextSegmentGeneration by omega]
  rw [hname, hbelow] at hfile
  cases hfile

/-- The files of the directory are no longer than files are. -/
def Dir.Bounded (D : Dir) : Prop := ∀ n b, D.files n = some b → b.length ≤ maxFileLen

theorem bounded_dirOf {d : Disk} : (dirOf dir d).Bounded := fun _ _ h => length_le_of_dirOf h

theorem Dir.Bounded.put_next {b : Bytes} (h : (D.put s.nextName (some b)).Bounded) :
    b.length ≤ maxFileLen := h s.nextName b (Dir.files_put_self _)

/-- The segments after a flush that returns. -/
def Store.segmentsAfter (s : Store) (L : List (List Entry)) : List (List Entry) :=
  if s.memtable.isEmpty then L else s.memtable.iter :: L

/-- **A flush that returns.** -/
theorem FlushStep.served_of_ok (hs : FlushStep A s D (.ok ()) s' D') (h : Served dir s D L)
    (hb : D'.Bounded) : Served dir s' D' (s.segmentsAfter L) ∧ s'.memtable.isEmpty ∧
      ∀ k, view s'.memtable (s.segmentsAfter L) k = view s.memtable L k := by
  unfold Store.segmentsAfter
  cases hs with
  | empty hempty =>
    rw [if_pos hempty]
    exact ⟨h, hempty, fun _ => rfl⟩
  | aborted ho => exact absurd rfl ho.ne_ok
  | installed ho => exact absurd rfl ho.ne_ok
  | done hlt hne =>
    rw [if_neg hne]
    have hput := (h.put_next (some (segmentImage s.memtable.iter))).flushed hlt
      (Dir.files_put_self _) (Dir.Bounded.put_next (D := D) hb)
    exact ⟨hput.clear.setWal _, Memtable.isEmpty_iff.mpr fun _ => Memtable.get_new,
      fun _ => view_new_iter⟩

/-- A flush shows what was shown, also when no generation is left. -/
theorem FlushStep.shows (hs : FlushStep A s D o s' D') (h : Served dir s D L) (hb : D'.Bounded) :
    ∃ L', List.Forall₂ (fun r es => r.Sound es) s'.segments L' ∧
      ∀ k, view s'.memtable L' k = view s.memtable L k := by
  have hnew : (segmentImage s.memtable.iter).length ≤ maxFileLen →
      List.Forall₂ (fun r es => r.Sound es) (s.nextReader s.memtable.iter :: s.segments)
        (s.memtable.iter :: L) := fun hlen =>
    .cons (Storable.sound ⟨Memtable.ascending_iter, h.valid, hlen⟩ _ _) h.sounds
  cases hs with
  | empty _ => exact ⟨L, h.sounds, fun _ => rfl⟩
  | aborted _ _ _ => exact ⟨L, h.sounds, fun _ => rfl⟩
  | exhausted _ _ => exact ⟨_, hnew hb.put_next, fun _ => view_iter⟩
  | installed _ _ _ _ => exact ⟨_, hnew hb.put_next, fun _ => view_iter⟩
  | done _ _ => exact ⟨_, hnew hb.put_next, fun _ => view_new_iter⟩

/-- There is something to flush, and no generation after the one that it takes. -/
structure Stuck (dir : Path) (s : Store) (D : Dir) : Prop where
  writable : Writable dir s D
  last : s.nextSegmentGeneration + 1 = u64Size
  holds : ¬ s.memtable.isEmpty

/-- However a flush ends, the store serves what it served; or it has written a segment of the last
generation. -/
theorem FlushStep.served_or_stuck (hs : FlushStep A s D o s' D') (h : Served dir s D L)
    (hb : D'.Bounded) : (∃ L', Served dir s' D' L' ∧
      ∀ k, view s'.memtable L' k = view s.memtable L k) ∨
    Stuck dir s' D' ∧ ¬ D'.Below := by
  cases hs with
  | empty hempty => exact .inl ⟨L, h, fun _ => rfl⟩
  | aborted _ _ _ => exact .inl ⟨L, h.put_next _, fun _ => rfl⟩
  | exhausted hlast hne =>
    refine .inr ⟨⟨⟨h.dir_eq, h.wal, h.log, h.valid, h.next_lt⟩, hlast, hne⟩,
      not_below_of_next hlast (Dir.files_put_self s.nextName)⟩
  | @installed _ w _ hw hlt hne =>
    have hput := (h.put_next (some (segmentImage s.memtable.iter))).flushed hlt
      (Dir.files_put_self _) (Dir.Bounded.put_next (D := D) hb)
    obtain ⟨w, rfl⟩ : ∃ b, w = some b := by
      rcases hw with rfl | rfl
      · exact Option.isSome_iff_exists.mp h.log
      · exact ⟨_, rfl⟩
    exact .inl ⟨_, hput.setWal _, fun _ => view_iter⟩
  | done hlt hne =>
    obtain ⟨hserved, -, hview⟩ := FlushStep.served_of_ok (A := A) (.done hlt hne) h hb
    exact .inl ⟨_, hserved, hview⟩

/-- **A flush.** However it ends, the store serves what it served. -/
theorem FlushStep.served (hs : FlushStep A s D o s' D') (h : Served dir s D L) (hb : D'.Bounded)
    (hbelow : D'.Below) : ∃ L', Served dir s' D' L' ∧
      ∀ k, view s'.memtable L' k = view s.memtable L k :=
  (hs.served_or_stuck h hb).resolve_right fun hstuck => hstuck.2 hbelow

/-- A store that is stuck stays so: it writes the segment of the last generation again. -/
theorem FlushStep.stuck (hs : FlushStep A s D o s' D') (h : Stuck dir s D) :
    Stuck dir s' D' ∧ o ≠ .ok () := by
  obtain ⟨hw, hlast, hne⟩ := h
  cases hs with
  | empty hempty => exact absurd hempty hne
  | aborted ho _ _ => exact ⟨⟨⟨hw.dir_eq, hw.wal, hw.log, hw.valid, hw.next_lt⟩, hlast, hne⟩, ho.ne_ok⟩
  | exhausted _ _ => exact ⟨⟨⟨hw.dir_eq, hw.wal, hw.log, hw.valid, hw.next_lt⟩, hlast, hne⟩, nofun⟩
  | installed _ _ hlt _ => omega
  | done hlt _ => omega

theorem marker_put_next : (D.put s.nextName v).marker = D.marker := by
  rw [Dir.marker, Dir.files_put, if_neg s.nextName_ne_marker.symm]
  rfl

theorem FlushStep.marker (hs : FlushStep A s D o s' D') : D'.marker = D.marker := by
  cases hs with
  | empty _ => rfl
  | aborted _ _ _ => exact marker_put_next
  | exhausted _ _ => exact marker_put_next
  | installed _ _ _ _ => exact marker_put_next (s := s) (v := some (segmentImage s.memtable.iter))
  | done _ _ => exact marker_put_next (s := s) (v := some (segmentImage s.memtable.iter))

end Kept

end StoneKV
