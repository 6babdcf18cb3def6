import StoneKV.Backed
import StoneKV.Merge
import StoneKV.Opened
import StoneKV.CrashPoints

/-!
# Interrupted compactions

A marker names segments by their generations, and recovery renders these as file names again; but a
segment is loaded from a file whose number has any padding.

* `CrashSafe dir s d`: after a crash anywhere in `compact` the store opens with what it had, and what
  was replaced is gone.
* `Store.Nameable s L`: the generations do not run out, and the names of the files are those that
  recovery looks for.
* `Opened.survives_back`, `Opened.survives_forward`: recovery with such names.
* **`interrupted_compaction_iff`**: these are the same.
* **`padded_names_break_recovery`**: with other names the store is lost, or an old value comes back.
-/

namespace StoneKV

open FaultProg Prog

/-- Opening the disk `x` succeeds; the store has the values that `s` had on `d`; and when the segment
of the compaction was there with its marker, the files that it replaces are gone. -/
def Reopens (dir : Path) (t : ℕ) (s : Store) (d x : Disk) : Prop :=
  ∃ s' d', (Store.openWithThreshold dir t).run x [] = (.ok s', d') ∧
    (∀ k, ∃ v, (Store.get k).run (s, d) [] = (.ok v, (s, d)) ∧
      (Store.get k).run (s', d') [] = (.ok v, (s', d'))) ∧
    ((x.read (markerPath s.segmentsDir)).isSome →
      (x.read (segmentPath s.segmentsDir s.afterFlush.nextSegmentGeneration)).isSome →
      ∀ r ∈ s.afterFlush.segments, d'.read r.path = none)

/-- Wherever the process dies in `compact`, the store reopens. -/
def CrashSafe (dir : Path) (s : Store) (d : Disk) : Prop :=
  ∀ l x t, (∀ f ∈ l, NoFail f) → Store.compact.run (s, d) l = (.crash, x) → Reopens dir t s d x.2

/-- The flushed segment and the merged one, if it is written, are not of the last generation; and
then the segments have the names that are rendered from their generations. -/
structure Store.Nameable (s : Store) (L : List (List Entry)) : Prop where
  flush : s.Flushable → s.afterFlush.nextSegmentGeneration < u64Size
  merge : s.Flushable → s.afterFlush.Mergeable (s.segmentsAfter L) →
    s.afterFlush.nextSegmentGeneration + 1 < u64Size ∧
      ∀ r ∈ s.segments, fileName r = segmentFilename r.generation

/-! ## Directories after a crash -/

section Survive

variable {dir : Path} {D : Dir} {d x : Disk} {s : Store} {t t' : ℕ} {g : ℕ} {es : List Entry}
  {readers : List SegmentReader} {rs rs' : List Record} {L : List (List Entry)} {olds : List Name}

/-- A new segment on top. -/
theorem Loads.cons (h : Loads dir D readers) (hnew : ∀ r ∈ readers, r.generation < g)
    (hlt : g + 1 < u64Size) (hstor : Storable es) :
    Loads dir (D.put (segmentFilename g) (some (segmentImage es)))
      (readerOf (segmentPath (segmentsDirOf dir) g) g es :: readers) := by
  have hlist : Lists dir (D.put (segmentFilename g) (some (segmentImage es)))
      (readerOf (segmentPath (segmentsDirOf dir) g) g es) es :=
    lists_readerOf (by omega) hstor (Dir.files_put_self _)
  have hne : ∀ r ∈ readers, fileName r ≠ segmentFilename g := fun r hr heq => by
    have hp := h.parse r hr
    rw [heq, parseSegmentGeneration_filename (by omega), Option.some_inj] at hp
    exact absurd (hnew r hr) (hp ▸ lt_irrefl _)
  refine ⟨List.forall_mem_cons.mpr ⟨hlist.path, h.path⟩,
    List.forall_mem_cons.mpr ⟨hlist.parse, h.parse⟩,
    List.forall_mem_cons.mpr ⟨hlist.file, fun r hr => ?_⟩,
    List.forall_mem_cons.mpr ⟨hlist.opened, h.opened⟩, List.pairwise_cons.mpr ⟨hnew, h.decreasing⟩,
    List.forall_mem_cons.mpr ⟨hlt, h.below⟩, fun n hn hl => ?_⟩
  · rw [Dir.files_put, if_neg (hne r hr)]
    exact h.file r hr
  · rw [Dir.files_put] at hn
    split_ifs at hn with heq
    · exact ⟨_, List.mem_cons_self, fileName_readerOf.trans heq.symm⟩
    · obtain ⟨r, hr, hname⟩ := h.complete n hn hl
      exact ⟨r, List.mem_cons_of_mem _ hr, hname⟩

/-- One segment. -/
theorem loads_singleton (hlt : g + 1 < u64Size) (hstor : Storable es)
    (hfile : D.files (segmentFilename g) = some (segmentImage es))
    (honly : ∀ n, (D.files n).isSome → LooksLikeSegment n → n = segmentFilename g) :
    Loads dir D [readerOf (segmentPath (segmentsDirOf dir) g) g es] := by
  have hlist : Lists dir D (readerOf (segmentPath (segmentsDirOf dir) g) g es) es :=
    lists_readerOf (by omega) hstor hfile
  refine ⟨List.forall_mem_singleton.mpr hlist.path, List.forall_mem_singleton.mpr hlist.parse,
    List.forall_mem_singleton.mpr hlist.file, List.forall_mem_singleton.mpr hlist.opened,
    List.pairwise_singleton _ _, List.forall_mem_singleton.mpr hlt, fun n hn hl => ?_⟩
  exact ⟨_, List.mem_singleton_self _, fileName_readerOf.trans (honly n hn hl).symm⟩

/-- The next segment is there, and the log has the records `rs'`. -/
theorem Opened.put_next {D' : Dir} (h : Opened dir D readers rs)
    (hlt : nextAfter readers + 1 < u64Size) (hstor : Storable es) (hrs' : ∀ r ∈ rs', r.Valid)
    (hD' : D' = (D.put (loadedStore dir readers rs t).nextName
      (some (segmentImage es))).setWal (some (logImage rs'))) :
    Opened dir D' ((loadedStore dir readers rs t).nextReader es :: readers) rs' := by
  subst hD'
  refine ⟨(h.loads.cons h.loads.lt_nextAfter hlt hstor).setWal _, ?_, hrs', rfl⟩
  rw [Dir.marker, Dir.files_setWal, ← Dir.marker, marker_put_next, h.marker]

theorem Opened.next_none (h : Opened dir D readers rs) :
    D.files (segmentFilename (nextAfter readers)) = none := by
  by_contra hne
  have hparse := parseSegmentGeneration_filename h.loads.nextAfter_lt
  obtain ⟨r, hr, hname⟩ := h.loads.complete _ (Option.isSome_iff_ne_none.mpr hne)
    (looksLikeSegment_of_parse hparse)
  have hp := h.loads.parse r hr
  rw [hname, hparse, Option.some_inj] at hp
  exact absurd (h.loads.lt_nextAfter r hr) (hp ▸ lt_irrefl _)

theorem Opened.put_next_none (h : Opened dir D readers rs) :
    D.put (loadedStore dir readers rs t).nextName none = D := by
  have hnone : D.files (loadedStore dir readers rs t).nextName = none := h.next_none
  rw [← hnone, Dir.put_files]

theorem Opened.put_setWal (h : Opened dir D readers rs) {n : Name} {v : Option Bytes} :
    D.put n v = (D.put n v).setWal (some (logImage rs)) := by
  rw [← h.log]
  exact Dir.setWal_wal.symm

theorem Opened.fileName_ne_next (h : Opened dir D readers rs) {r : SegmentReader} (hr : r ∈ readers) :
    fileName r ≠ segmentFilename (nextAfter readers) := fun heq => by
  have hfile := h.loads.file r hr
  rw [heq, h.next_none] at hfile
  cases hfile

theorem Opened.nextMarker_valid (h : Opened dir D readers rs) (hlen : 2 ≤ readers.length) :
    (loadedStore dir readers rs t).nextMarker.Valid :=
  Store.nextMarker_valid h.loads.nextAfter_lt h.loads.decreasing h.loads.lt_nextAfter hlen

/-- The names that recovery renders are those of the files. -/
theorem fileNames_of_rendered (hnames : ∀ r ∈ readers, fileName r = segmentFilename r.generation) :
    (loadedStore dir readers rs t).nextMarker.oldGenerations.map segmentFilename =
      (loadedStore dir readers rs t).fileNames := by
  rw [Store.nextMarker, Store.fileNames, List.map_map]
  exact List.map_congr_left fun r hr => (hnames r hr).symm

/-- **Going back.** The marker is there and its segment is not. -/
theorem Opened.survives_back (h : Opened dir D readers rs) (hlen : 2 ≤ readers.length)
    (hnames : ∀ r ∈ readers, fileName r = segmentFilename r.generation)
    (hx : dirOf dir x = D.put COMPACTION_MARKER_FILE
      (some (loadedStore dir readers rs t).nextMarkerText)) : ∃ d',
    (Store.openWithThreshold dir t').run x [] = (.ok (loadedStore dir readers rs t'), d') := by
  have hm := h.nextMarker_valid (t := t) hlen
  have hmarker : (dirOf dir x).marker =
      some (utf8 (markerText (loadedStore dir readers rs t).nextMarker)) := by
    rw [hx, Dir.marker, Dir.files_put_self]
    rfl
  have hnone : (dirOf dir x).files
      (segmentFilename (loadedStore dir readers rs t).nextMarker.outputGeneration) = none := by
    rw [hx, Dir.files_put, if_neg segmentFilename_ne_marker]
    exact h.next_none
  have hgone : (dirOf dir x).drop [COMPACTION_MARKER_FILE] = D := by
    rw [hx, ← Dir.put_none_eq_drop, Dir.put_put]
    have hkept := Dir.put_files (D := D) (n := COMPACTION_MARKER_FILE)
    rwa [← Dir.marker, h.marker] at hkept
  have hold : ∀ g ∈ (loadedStore dir readers rs t).nextMarker.oldGenerations,
      ((dirOf dir x).files (segmentFilename g)).isSome := fun g hg => by
    obtain ⟨r, hr, rfl⟩ := List.mem_map.mp hg
    rw [hx, Dir.files_put, if_neg segmentFilename_ne_marker, ← hnames r hr, h.loads.file r hr]
    rfl
  obtain ⟨d', hrun, -⟩ := run_open_of_recovered (d := x) h t' fun hok hcr =>
    wp_recoverPendingCompaction_marked hmarker hm reliable_noFault (fun _ d' hd' => by
      rw [← hd'] at hmarker hold hgone
      exact wp_rollBack reliable_noFault (by rw [hmarker]; rfl) hm hold
        (fun d'' hd'' => hok d'' (by rw [hd'', hgone])) fun d'' _ => hcr d'')
      (fun hthere => by rw [hnone] at hthere; cases hthere) fun d' _ => hcr d'
  exact ⟨d', hrun⟩

theorem Opened.nextName_not_mem (h : Opened dir D readers rs) :
    (loadedStore dir readers rs t).nextName ∉ (loadedStore dir readers rs t).fileNames := by
  intro hmem
  obtain ⟨r, hr, hname⟩ := mem_fileNames.mp hmem
  exact h.fileName_ne_next hr hname

theorem Opened.marker_not_mem (h : Opened dir D readers rs) :
    COMPACTION_MARKER_FILE ∉ (loadedStore dir readers rs t).fileNames := by
  intro hmem
  obtain ⟨r, hr, hname⟩ := mem_fileNames.mp hmem
  exact ne_marker_of_parse (h.loads.parse r hr) hname

/-- The new segment in place of all, once the marker is gone. -/
theorem Opened.replaced (h : Opened dir D readers rs) (hlt : nextAfter readers + 1 < u64Size)
    (hstor : Storable es) (holds : olds ⊆ (loadedStore dir readers rs t).fileNames) :
    Opened dir (((D.replacing (loadedStore dir readers rs t) es).drop olds).drop
        ((loadedStore dir readers rs t).fileNames ++ [COMPACTION_MARKER_FILE]))
      [(loadedStore dir readers rs t).nextReader es] rs := by
  have hnot : (loadedStore dir readers rs t).nextName ∉
      (loadedStore dir readers rs t).fileNames ++ [COMPACTION_MARKER_FILE] := by
    rw [List.mem_append, List.mem_singleton, not_or]
    exact ⟨h.nextName_not_mem, (loadedStore dir readers rs t).nextName_ne_marker⟩
  refine ⟨loads_singleton hlt hstor ?_ fun n hn hl => ?_, ?_, h.valid, h.log⟩
  · change Dir.files _ (loadedStore dir readers rs t).nextName = _
    rw [Dir.files_drop, if_neg hnot, Dir.files_drop, if_neg fun hmem => h.nextName_not_mem (holds hmem),
      Dir.files_replacing_next]
  · rw [Dir.files_drop] at hn
    split_ifs at hn with hmem
    · cases hn
    rw [List.mem_append, List.mem_singleton, not_or] at hmem
    rw [Dir.files_drop] at hn
    split_ifs at hn
    · cases hn
    rw [Dir.replacing, Dir.files_put, if_neg hmem.2, Dir.files_put] at hn
    split_ifs at hn with hnext
    · exact hnext
    · obtain ⟨r, hr, hname⟩ := h.loads.complete n hn hl
      exact absurd (mem_fileNames.mpr ⟨r, hr, hname⟩) hmem.1
  · rw [Dir.marker, Dir.files_drop, if_pos (List.mem_append_right _ (List.mem_singleton_self _))]

/-- **Going forward.** The marker and its segment are there, with some of the segments that it
replaces. -/
theorem Opened.survives_forward (h : Opened dir D readers rs) (hlen : 2 ≤ readers.length)
    (hlt : nextAfter readers + 1 < u64Size)
    (hnames : ∀ r ∈ readers, fileName r = segmentFilename r.generation) (hstor : Storable es)
    (holds : olds ⊆ (loadedStore dir readers rs t).fileNames)
    (hx : dirOf dir x = (D.replacing (loadedStore dir readers rs t) es).drop olds) : ∃ d',
    (Store.openWithThreshold dir t').run x [] =
      (.ok (loadedStore dir [(loadedStore dir readers rs t).nextReader es] rs t'), d') ∧
    ∀ r ∈ readers, d'.read r.path = none := by
  have hm := h.nextMarker_valid (t := t) hlen
  have hrendered : (loadedStore dir readers rs t).nextMarker.oldGenerations.map segmentFilename =
      (loadedStore dir readers rs t).fileNames := fileNames_of_rendered hnames
  have hfile : (dirOf dir x).files
      (segmentFilename (loadedStore dir readers rs t).nextMarker.outputGeneration) =
        some (segmentImage es) := by
    change Dir.files _ (loadedStore dir readers rs t).nextName = _
    rw [hx, Dir.files_drop, if_neg fun hmem => h.nextName_not_mem (holds hmem)]
    exact Dir.files_replacing_next
  have hmarker : (dirOf dir x).marker =
      some (utf8 (markerText (loadedStore dir readers rs t).nextMarker)) := by
    rw [hx, Dir.marker, Dir.files_drop, if_neg fun hmem => h.marker_not_mem (holds hmem),
      Dir.replacing, Dir.files_put_self]
    rfl
  have hopened := h.replaced hlt hstor holds
  rw [← hx, ← hrendered] at hopened
  obtain ⟨d', hrun, hd'⟩ := run_open_of_recovered (d := x) hopened t' fun hok hcr =>
    wp_recoverPendingCompaction_marked hmarker hm reliable_noFault
      (fun hnone => by rw [hfile] at hnone; cases hnone) (fun _ d' hd' => by
        rw [← hd'] at hmarker hfile hok
        exact wp_rollForward reliable_noFault (by rw [hmarker]; rfl) hm hstor hfile hok
          fun _ d'' _ _ => hcr d'') fun d' _ => hcr d'
  refine ⟨d', hrun, fun r hr => ?_⟩
  rw [h.loads.path r hr, ← dirOf_files (not_isScratchName_of_parse (h.loads.parse r hr)), hd',
    hrendered]
  exact if_pos (List.mem_append_left _ (mem_fileNames.mpr ⟨r, hr, rfl⟩))

/-- **Going back is refused** when a file has another name than the one that is rendered. -/
theorem Opened.refused (h : Opened dir D readers rs) (hlen : 2 ≤ readers.length)
    {r : SegmentReader} (hr : r ∈ readers) (hne : fileName r ≠ segmentFilename r.generation)
    (hx : dirOf dir x = D.put COMPACTION_MARKER_FILE
      (some (loadedStore dir readers rs t).nextMarkerText)) {d' : Disk} :
    (Store.openWithThreshold dir t').run x [] ≠ (.ok s, d') := by
  intro hopen
  obtain ⟨-, -, d₂, hrec, -⟩ := open_run_eq_ok hopen
  have hfile : ∀ g, x.read (segmentPath (segmentsDirOf dir) g) = D.files (segmentFilename g) :=
    fun g => by
      rw [segmentPath, ← dirOf_files not_isScratchName_segment, hx, Dir.files_put,
        if_neg segmentFilename_ne_marker]
  have hmarker := parseMarkerBytes_text (h.nextMarker_valid (t := t) hlen)
    (markerPath (segmentsDirOf dir))
  have hout : x.read (segmentPath (segmentsDirOf dir)
      (loadedStore dir readers rs t).nextMarker.outputGeneration) = none := (hfile _).trans h.next_none
  refine plan_of_missing ?_ hmarker hout (List.mem_map_of_mem hr) ?_ (plan_of_run hrec).1
  · rw [← dirOf_marker, hx, Dir.marker, Dir.files_put_self]
    rfl
  · rw [hfile]
    by_contra hthere
    -- another file would have the same generation
    have hlt := h.loads.below r hr
    have hparse := parseSegmentGeneration_filename (show r.generation < u64Size by omega)
    obtain ⟨r', hr', hname⟩ := h.loads.complete _ (Option.isSome_iff_ne_none.mpr hthere)
      (looksLikeSegment_of_parse hparse)
    have hgen := h.loads.parse r' hr'
    rw [hname, hparse, Option.some_inj] at hgen
    rw [eq_of_generation h.loads.decreasing hr hr' hgen] at hne
    exact hne (hname.trans (by rw [hgen]))

end Survive

/-! ## Crashes in a compaction -/

section Safe

variable {dir : Path} {d d₁ x : Disk} {D : Dir} {s : Store} {t t' : ℕ} {m : Memtable}
  {readers : List SegmentReader} {rs : List Record} {L : List (List Entry)}

/-- A store that was loaded and shows the same. -/
theorem reopens_of_loaded {readers' : List SegmentReader} {rs' : List Record}
    {L' : List (List Entry)} {d' : Disk} (hL : List.Forall₂ (fun r es => r.Sound es) s.segments L)
    (hrun : (Store.openWithThreshold dir t').run x [] = (.ok (loadedStore dir readers' rs' t'), d'))
    (hL' : List.Forall₂ (fun r es => r.Sound es) readers' L')
    (hview : ∀ k, view (memtableOf rs') L' k = view s.memtable L k)
    (hgone : (x.read (markerPath s.segmentsDir)).isSome →
      (x.read (segmentPath s.segmentsDir s.afterFlush.nextSegmentGeneration)).isSome →
      ∀ r ∈ s.afterFlush.segments, d'.read r.path = none) : Reopens dir t' s d x :=
  ⟨_, d', hrun, fun k => ⟨view s.memtable L k, get_run_of_sound hL k, by
    rw [← hview]
    exact get_run_of_sound (s := loadedStore dir readers' rs' t') hL' k⟩, hgone⟩

/-- A directory as `open` leaves it that shows the same. -/
theorem Opened.reopens {readers' : List SegmentReader} {rs' : List Record} {L' : List (List Entry)}
    (h : Opened dir (dirOf dir x) readers' rs') (hdir : s.dir = dir)
    (hL : List.Forall₂ (fun r es => r.Sound es) s.segments L)
    (hL' : List.Forall₂ (fun r es => r.Sound es) readers' L')
    (hview : ∀ k, view (memtableOf rs') L' k = view s.memtable L k) : Reopens dir t' s d x := by
  obtain ⟨d', hrun, -⟩ := h.run_open t'
  refine reopens_of_loaded hL hrun hL' hview fun hmarker => ?_
  rw [Store.segmentsDir, hdir, ← dirOf_marker, h.marker] at hmarker
  cases hmarker

/-- A flush that succeeded leaves a directory as `open` leaves it. -/
theorem FlushStep.opened {A : Fault → Prop} {s₁ : Store} {D₁ : Dir}
    (hs : FlushStep A (loadedStore dir readers rs t) D (.ok ()) s₁ D₁)
    (h : Opened dir D readers rs) (hb : D₁.Bounded) : s₁ = (loadedStore dir readers rs t).afterFlush ∧
      ∃ readers₁ rs₁, s₁ = loadedStore dir readers₁ rs₁ t ∧ Opened dir D₁ readers₁ rs₁ := by
  unfold Store.afterFlush
  cases hs with
  | empty hempty => exact ⟨(if_pos hempty).symm, readers, rs, rfl, h⟩
  | aborted ho => exact absurd rfl ho.ne_ok
  | installed ho => exact absurd rfl ho.ne_ok
  | done hlt hne =>
    have hstor : Storable (memtableOf rs).iter := ⟨Memtable.ascending_iter, valid_memtableOf h.valid,
      hb (loadedStore dir readers rs t).nextName _ (by rw [Dir.files_setWal, Dir.files_put_self]; rfl)⟩
    exact ⟨(if_neg hne).symm, _, [], rfl, h.put_next hlt hstor (List.forall_mem_nil _) rfl⟩

/-- **A crash in the flush** can be recovered from. -/
theorem FlushStep.reopens {s' : Store} (h : Opened dir (dirOf dir d) readers rs)
    (hs : FlushStep NoFail (loadedStore dir readers rs t) (dirOf dir d) .crash s' (dirOf dir x))
    (hL : List.Forall₂ (fun r es => r.Sound es) readers L)
    (hnext : (loadedStore dir readers rs t).Flushable →
      (loadedStore dir readers rs t).afterFlush.nextSegmentGeneration < u64Size) :
    Reopens dir t' (loadedStore dir readers rs t) d x := by
  have hput : ∀ {rs'}, (∀ r ∈ rs', r.Valid) → nextAfter readers + 1 < u64Size →
      dirOf dir x = ((dirOf dir d).put (loadedStore dir readers rs t).nextName
        (some (segmentImage (memtableOf rs).iter))).setWal (some (logImage rs')) →
      (∀ k, view (memtableOf rs') ((memtableOf rs).iter :: L) k = view (memtableOf rs) L k) →
      Reopens dir t' (loadedStore dir readers rs t) d x := fun hrs' hlt hx hview => by
    have hstor : Storable (memtableOf rs).iter := ⟨Memtable.ascending_iter, valid_memtableOf h.valid,
      bounded_dirOf (loadedStore dir readers rs t).nextName _ (by
        rw [hx, Dir.files_setWal, Dir.files_put_self])⟩
    exact (h.put_next hlt hstor hrs' hx).reopens rfl hL (.cons (hstor.sound _ _) hL) hview
  have hkept : dirOf dir x = dirOf dir d → Reopens dir t' (loadedStore dir readers rs t) d x :=
    fun hx => by
      have h' : Opened dir (dirOf dir x) readers rs := hx.symm ▸ h
      exact h'.reopens rfl hL hL fun _ => rfl
  generalize hX : dirOf dir x = X at hs hput hkept
  cases hs with
  | @aborted _ v ho hv hne =>
    have hnone : v = none → Reopens dir t' (loadedStore dir readers rs t) d x := fun hv =>
      hkept (by rw [hv, h.put_next_none])
    rcases hv with hv | hv | rfl
    · exact hnone (hv.trans h.next_none)
    · exact hnone hv
    · have hle : (segmentImage (memtableOf rs).iter).length ≤ maxFileLen := by
        have hb : (dirOf dir x).Bounded := bounded_dirOf
        rw [hX] at hb
        exact hb.put_next
      have hlt := hnext (.inr hle)
      rw [Store.afterFlush, if_neg hne] at hlt
      exact hput h.valid hlt h.put_setWal fun _ => view_iter
  | installed ho hw hlt hne =>
    rcases hw with rfl | rfl
    · exact hput h.valid hlt h.put_setWal fun _ => view_iter
    · exact hput (List.forall_mem_nil _) hlt rfl fun _ => view_new_iter

/-- **A crash in the merge** can be recovered from, when the names of the files are those that are
rendered. The store was `s` before its flush. -/
theorem wp_compactSegments_reopens {L₀ : List (List Entry)}
    (h : Opened dir (dirOf dir d₁) readers rs) (hafter : s.afterFlush = loadedStore dir readers rs t)
    (hdir : s.dir = dir) (hL₀ : List.Forall₂ (fun r es => r.Sound es) s.segments L₀)
    (hL : List.Forall₂ (fun r es => r.Sound es) readers L)
    (hview : ∀ k, view (memtableOf rs) L k = view s.memtable L₀ k) (hlen : 2 ≤ readers.length)
    (hnames : (loadedStore dir readers rs t).Mergeable L → nextAfter readers + 1 < u64Size ∧
      ∀ r ∈ readers, fileName r = segmentFilename r.generation) :
    wp NoFail Store.compactSegments (fun o x => o = .crash → Reopens dir t' s d x.2)
      (loadedStore dir readers rs t, d₁) := by
  have hserved := h.served hL t
  have hkept : ∀ {x}, dirOf dir x = dirOf dir d₁ → Reopens dir t' s d x := fun {x} hx => by
    have h' : Opened dir (dirOf dir x) readers rs := hx.symm ▸ h
    exact h'.reopens hdir hL₀ hL hview
  by_cases hbig : maxFileLen < (segmentImage (merged L)).length ∨
      maxFileLen < (loadedStore dir readers rs t).nextMarkerText.length
  · exact (wp_compactSegments_tooLarge hserved hbig).mono fun _ _ hx _ => hkept hx
  rw [not_or, Nat.not_lt, Nat.not_lt] at hbig
  obtain ⟨hlt, hnames⟩ := hnames ⟨hlen, hbig.1, hbig.2⟩
  have hstor : Storable (merged L) := hserved.storable_merged hbig.1
  have hforward : ∀ {x olds}, olds ⊆ (loadedStore dir readers rs t).fileNames →
      dirOf dir x = ((dirOf dir d₁).replacing (loadedStore dir readers rs t) (merged L)).drop olds →
      Reopens dir t' s d x := fun holds hx => by
    obtain ⟨d', hrun, hgone⟩ := h.survives_forward hlen hlt hnames hstor holds hx
    refine reopens_of_loaded hL₀ hrun (.cons (hstor.sound _ _) .nil)
      (fun k => (view_merged hserved.ascending).trans (hview k)) fun _ _ r hr => hgone r ?_
    rw [hafter] at hr
    exact hr
  refine (wp_compactSegments hserved).mono ?_
  rintro o ⟨s', x⟩ hs rfl
  change MergeStep NoFail _ _ _ .crash s' (dirOf dir x) at hs
  change Reopens dir t' s d x
  generalize hX : dirOf dir x = X at hs
  have hunmarked : ∀ {v}, ((dirOf dir d₁).put (loadedStore dir readers rs t).nextName v).put
      COMPACTION_MARKER_FILE none = (dirOf dir d₁).put (loadedStore dir readers rs t).nextName v := by
    intro v
    have hnone : ((dirOf dir d₁).put (loadedStore dir readers rs t).nextName v).files
        COMPACTION_MARKER_FILE = none := marker_put_next.trans h.marker
    rw [← hnone, Dir.put_files]
  cases hs with
  | failed _ => exact hkept hX
  | @aborted _ μ v _ _ hμ hv =>
    have hv : v = none ∨ v = some (segmentImage (merged L)) := by
      rcases hv with hv | hv | hv
      · exact .inl (hv.trans h.next_none)
      · exact .inl hv
      · exact .inr hv
    rcases hv with rfl | rfl <;> rcases hμ with rfl | rfl
    · exact hkept (by rw [hX, hunmarked, h.put_next_none])
    · rw [h.put_next_none] at hX
      obtain ⟨d', hrun⟩ : ∃ d', (Store.openWithThreshold dir t').run x [] =
          (.ok (loadedStore dir readers rs t'), d') := h.survives_back hlen hnames hX
      refine reopens_of_loaded hL₀ hrun hL hview fun _ hthere => ?_
      rw [hafter, Store.segmentsDir, hdir, segmentPath, ← dirOf_files not_isScratchName_segment, hX,
        Dir.files_put, if_neg segmentFilename_ne_marker] at hthere
      change (Dir.files _ (loadedStore dir readers rs t).nextName).isSome at hthere
      rw [show Dir.files _ (loadedStore dir readers rs t).nextName = none from h.next_none] at hthere
      cases hthere
    · rw [hunmarked] at hX
      refine (h.put_next hlt hstor h.valid (hX.trans h.put_setWal)).reopens hdir hL₀
        (.cons (hstor.sound _ _) hL) fun k => ?_
      rw [(replaces_merged hserved.ascending).covered k, hview]
    · exact hforward (List.nil_subset _) (by rw [hX, Dir.drop_nil]; rfl)
  | installed _ _ hpre _ => exact hforward hpre.subset hX

theorem FlushStep.flushable {A : Fault → Prop} {D' : Dir} {s' : Store}
    (hs : FlushStep A s D (.ok ()) s' D') (hb : D'.Bounded) : s.Flushable := by
  cases hs with
  | empty hempty => exact .inl hempty
  | aborted ho => exact absurd rfl ho.ne_ok
  | installed ho => exact absurd rfl ho.ne_ok
  | done _ _ => exact .inr (hb s.nextName _ (by rw [Dir.files_setWal, Dir.files_put_self]))

theorem mem_afterFlush {r : SegmentReader} (hr : r ∈ s.segments) : r ∈ s.afterFlush.segments := by
  unfold Store.afterFlush
  split_ifs
  · exact hr
  · exact List.mem_cons_of_mem _ hr

/-- The flushed segment has the name that is rendered. -/
theorem names_afterFlush (hnames : ∀ r ∈ s.segments, fileName r = segmentFilename r.generation) :
    ∀ r ∈ s.afterFlush.segments, fileName r = segmentFilename r.generation := by
  unfold Store.afterFlush
  split_ifs
  · exact hnames
  · exact List.forall_mem_cons.mpr ⟨fileName_readerOf, hnames⟩

/-- **Names that are rendered make compactions safe.** -/
theorem Opened.crashSafe (h : Opened dir (dirOf dir d) readers rs)
    (hL : List.Forall₂ (fun r es => r.Sound es) readers L)
    (hn : (loadedStore dir readers rs t).Nameable L) :
    CrashSafe dir (loadedStore dir readers rs t) d := by
  intro l x t' hl hrun
  have hserved := h.served hL t
  have hwp : wp NoFail Store.compact (fun o x => o = .crash →
      Reopens dir t' (loadedStore dir readers rs t) d x.2) (loadedStore dir readers rs t, d) := by
    refine wp_compact_parts hserved (fun _ _ _ _ => nofun)
      (fun _ _ hflush _ => hflush.reopens h hL hn.flush) (fun _ _ _ _ => nofun)
      fun s₁ d₁ hflush hlen => ?_
    obtain ⟨hserved₁, -, hview₁⟩ := hflush.served_of_ok hserved bounded_dirOf
    have hflushable := hflush.flushable bounded_dirOf
    obtain ⟨hs₁, readers₁, rs₁, rfl, h₁⟩ := hflush.opened h bounded_dirOf
    refine wp_compactSegments_reopens h₁ hs₁.symm rfl hL hserved₁.sounds hview₁ hlen fun hmerge => ?_
    rw [hs₁] at hmerge
    obtain ⟨hlt, hnames⟩ := hn.merge hflushable hmerge
    have hnames₁ := names_afterFlush hnames
    rw [← hs₁] at hlt hnames₁
    exact ⟨hlt, hnames₁⟩
  exact hwp.run_eq hl hrun rfl

/-- **Compactions that are safe** need such names. -/
theorem Opened.nameable (h : Opened dir (dirOf dir d) readers rs)
    (hL : List.Forall₂ (fun r es => r.Sound es) readers L)
    (hsafe : CrashSafe dir (loadedStore dir readers rs t) d) :
    (loadedStore dir readers rs t).Nameable L := by
  have hserved := h.served hL t
  -- wherever the process can die the directory opens again
  have hopens : ∀ {R}, Dies Store.compact R (loadedStore dir readers rs t, d) →
      ∃ x s' d', R x ∧ (Store.openWithThreshold dir t).run x.2 [] = (.ok s', d') := by
    rintro R ⟨l, hl, x, hrun, hx⟩
    obtain ⟨s', d', hopen, -⟩ := hsafe l x t hl hrun
    exact ⟨x, s', d', hx, hopen⟩
  have hlast : ∀ {g x s' d'}, g < u64Size → ((dirOf dir x).files (segmentFilename g)).isSome →
      (Store.openWithThreshold dir t).run x [] = (.ok s', d') → g + 1 < u64Size := by
    intro g x s' d' hg hfile hopen
    by_contra hge
    have hnone := last_none_of_open hopen
    rw [show u64Size - 1 = g by omega, segmentPath, ← dirOf_files not_isScratchName_segment] at hnone
    rw [hnone] at hfile
    cases hfile
  have hflush : (loadedStore dir readers rs t).Flushable →
      (loadedStore dir readers rs t).afterFlush.nextSegmentGeneration < u64Size := by
    intro hflushable
    unfold Store.afterFlush
    split_ifs with hempty
    · exact hserved.next_lt
    · obtain ⟨x, s', d', hx, hopen⟩ := hopens (dies_compact_flush hempty
        (dies_flushMemtable hserved hempty (hflushable.resolve_left hempty)))
      refine hlast hserved.next_lt ?_ hopen
      rw [hx]
      change (Dir.files _ (loadedStore dir readers rs t).nextName).isSome
      rw [Dir.files_put_self]
      rfl
  refine ⟨hflush, fun hflushable hmerge => ?_⟩
  have hdies := fun R => dies_compact (R := R) hserved hflushable (hflush hflushable) hmerge.two_le
  constructor
  · obtain ⟨x, s', d', hx, hopen⟩ := hopens (hdies (fun x => ((dirOf dir x.2).files
        (loadedStore dir readers rs t).afterFlush.nextName).isSome) fun d₁ hs => by
      have hserved₁ := (hs.served_of_ok hserved bounded_dirOf).1
      refine (dies_compactSegments_installed hserved₁ (hs.marker.trans h.marker) hmerge).mono ?_
      rintro x hx
      rw [hx, Dir.files_replacing_next]
      rfl)
    exact hlast (hflush hflushable) hx hopen
  · intro r hr
    by_contra hne
    obtain ⟨x, s', d', ⟨D₁, readers₁, rs₁, hafter, h₁, hx⟩, hopen⟩ := hopens (hdies (fun x =>
        ∃ D₁ readers₁ rs₁, (loadedStore dir readers rs t).afterFlush = loadedStore dir readers₁ rs₁ t ∧
          Opened dir D₁ readers₁ rs₁ ∧ dirOf dir x.2 = D₁.put COMPACTION_MARKER_FILE
            (some (loadedStore dir readers rs t).afterFlush.nextMarkerText)) fun d₁ hs => by
      have hserved₁ := (hs.served_of_ok hserved bounded_dirOf).1
      obtain ⟨-, readers₁, rs₁, hafter, h₁⟩ := hs.opened h bounded_dirOf
      exact (dies_compactSegments_marked hserved₁ (hs.marker.trans h.marker) hmerge).mono
        fun x hx => ⟨_, readers₁, rs₁, hafter, h₁, hx⟩)
    have hlen := hmerge.two_le
    have hmem := mem_afterFlush hr
    rw [hafter] at hlen hmem hx
    exact h₁.refused hlen hmem hne hx hopen

end Safe

/-- A segment that the writer wrote is sound when it is open. -/
theorem Loads.sound_of_written {dir : Path} {D : Dir} {readers : List SegmentReader}
    {r : SegmentReader} {es : List Entry} (h : Loads dir D readers) (hD : D.Bounded)
    (hr : r ∈ readers) (hby : WrittenBy es r.file) : r.Sound es := by
  obtain ⟨hstor, himg⟩ := hby.storable hby.accepted.1 (hD _ _ (h.file r hr))
  have hread := h.opened r hr
  rw [himg, hstor.openIn] at hread
  rw [← Except.ok.inj hread]
  exact hstor.sound _ _

/-- **Interrupted compactions** are recovered from exactly when the generations do not run out and
the files have the names that recovery looks for. -/
theorem interrupted_compaction_iff {dir : Path} {t : ℕ} {d₀ d : Disk} {s : Store}
    {L : List (List Entry)} (hopen : (Store.openWithThreshold dir t).run d₀ [] = (.ok s, d))
    (hwritten : List.Forall₂ (fun r es => ∃ b, d.read r.path = some b ∧ WrittenBy es b)
      s.segments L) : CrashSafe dir s d ↔ s.Nameable L := by
  obtain ⟨readers, rs, -, -, -, -, rfl, h⟩ := open_run_eq_ok hopen
  have hL : List.Forall₂ (fun r es => r.Sound es) readers L := by
    change List.Forall₂ _ readers L at hwritten
    rw [List.forall₂_iff_get] at hwritten ⊢
    refine ⟨hwritten.1, fun i hi hj => ?_⟩
    have hr := List.get_mem readers ⟨i, hi⟩
    obtain ⟨b, hfile, hby⟩ := hwritten.2 i hi hj
    rw [h.loads.path _ hr, ← dirOf_files (not_isScratchName_of_parse (h.loads.parse _ hr)),
      h.loads.file _ hr] at hfile
    cases hfile
    exact h.loads.sound_of_written bounded_dirOf hr hby
  exact ⟨h.nameable hL, h.crashSafe hL⟩

/-! ## Two segments -/

section Two

/-- The entries of two segments, the newer one of which deletes the key of the other. -/
def deletedEntries : List (List Entry) := [[([97], none)], [([97], some [49])]]

theorem length_deleted_le : (segmentImage [([97], none)]).length ≤ maxFileLen := by
  decide +kernel

theorem length_undeleted_le : (segmentImage [([97], some [49])]).length ≤ maxFileLen := by
  decide +kernel

/-- A disk with these segments in the files `new` and `old`. -/
def twoSegmentsDisk (new old : Name) : Disk :=
  (Disk.empty.put (segmentsDirOf [['d']] ++ [old]) (segmentImage [([97], some [49])])
    length_undeleted_le).put (segmentsDirOf [['d']] ++ [new]) (segmentImage [([97], none)])
    length_deleted_le

/-- Its store, with the disk once it is open. -/
def twoSegmentsStore (new old : Name) : Store × Disk :=
  (loadedStore [['d']] [readerOf (segmentsDirOf [['d']] ++ [new]) 2 [([97], none)],
    readerOf (segmentsDirOf [['d']] ++ [old]) 1 [([97], some [49])]] [] 0,
    (twoSegmentsDisk new old).put (walPathOf [['d']]) [] (Nat.zero_le _))

/-- The store of files with the names that are rendered. -/
def renderedStore : Store × Disk := twoSegmentsStore (segmentFilename 2) (segmentFilename 1)

/-- The store of files with less padding. -/
def paddedStore : Store × Disk := twoSegmentsStore "segment_2.seg".toList "segment_1.seg".toList

theorem deletedEntries_written : ∀ es ∈ deletedEntries, WrittenBy es (segmentImage es) := by
  intro es hes
  have hlen : (segmentImage es).length ≤ maxFileLen := by
    revert es
    decide +kernel
  have hasc : Ascending es := by
    revert es
    decide +kernel
  have hencode : ∀ es ∈ deletedEntries, ∀ e ∈ es,
      (toRecord e).encode = .ok (toRecord e).image := by decide +kernel
  exact Storable.writtenBy ⟨hasc, fun e he => valid_of_encode (hencode es hes e he), hlen⟩

theorem interrupted_compaction_rendered : CrashSafe [['d']] renderedStore.1 renderedStore.2 := by
  have hopen : (Store.openWithThreshold [['d']] 0).run
      (twoSegmentsDisk (segmentFilename 2) (segmentFilename 1)) [] =
      (.ok renderedStore.1, renderedStore.2) := rfl
  have hnew : renderedStore.2.read (segmentsDirOf [['d']] ++ [segmentFilename 2]) =
      some (segmentImage [([97], none)]) := by decide +kernel
  have hold : renderedStore.2.read (segmentsDirOf [['d']] ++ [segmentFilename 1]) =
      some (segmentImage [([97], some [49])]) := by decide +kernel
  refine (interrupted_compaction_iff hopen (.cons ⟨_, hnew, deletedEntries_written _ (.head _)⟩
    (.cons ⟨_, hold, deletedEntries_written _ (.tail _ (.head _))⟩ .nil))).mpr ⟨?_, ?_⟩
  · intro _
    decide +kernel
  · intro _ _
    exact ⟨by decide +kernel, by decide +kernel⟩

/-- **Other names break recovery.** When the process dies before the new segment is in place the
store does not open again. -/
theorem padded_names_break_recovery : ¬ ∀ (dir : Path) t d₀ d s L,
    (Store.openWithThreshold dir t).run d₀ [] = (.ok s, d) →
    List.Forall₂ (fun r es => ∃ b, d.read r.path = some b ∧ WrittenBy es b) s.segments L →
    CrashSafe dir s d := by
  intro hall
  have hopen : (Store.openWithThreshold [['d']] 0).run
      (twoSegmentsDisk "segment_2.seg".toList "segment_1.seg".toList) [] =
      (.ok paddedStore.1, paddedStore.2) := rfl
  have hnew : paddedStore.2.read (segmentsDirOf [['d']] ++ ["segment_2.seg".toList]) =
      some (segmentImage [([97], none)]) := by decide +kernel
  have hold : paddedStore.2.read (segmentsDirOf [['d']] ++ ["segment_1.seg".toList]) =
      some (segmentImage [([97], some [49])]) := by decide +kernel
  have hsafe := hall _ _ _ _ _ _ hopen (.cons ⟨_, hnew, deletedEntries_written _ (.head _)⟩
    (.cons ⟨_, hold, deletedEntries_written _ (.tail _ (.head _))⟩ .nil))
  obtain ⟨s', d', hagain, -⟩ := hsafe (List.replicate 27 .none ++ [.crash 0]) _ 0 (by simp [NoFail])
    (Prod.ext (by decide +kernel) rfl)
  obtain ⟨_, _, d₂, hrec, -⟩ := open_run_eq_ok hagain
  have hrefused : ((recoverPendingCompaction (segmentsDirOf [['d']])).run
      (Store.compact.run paddedStore (List.replicate 27 .none ++ [.crash 0])).2.2 []).1 =
      .err (.other "cannot roll back interrupted compaction: old segment 2 is missing") := by
    decide +kernel
  rw [hrec] at hrefused
  cases hrefused

/-- When the process dies once the first old segment is removed, the deleted key comes back. -/
def halfRemoved : Outcome StoneError Store × Disk :=
  (Store.openWithThreshold [['d']] 0).run
    (Store.compact.run paddedStore (List.replicate 30 .none ++ [.crash 0])).2.2 []

example : ((Store.get [97]).run paddedStore []).1 = .ok none := by decide +kernel

example : (match halfRemoved with
    | (.ok s, d) => some ((Store.get [97]).run (s, d) []).1
    | _ => none) = some (.ok (some [49])) := by decide +kernel

end Two

end StoneKV
