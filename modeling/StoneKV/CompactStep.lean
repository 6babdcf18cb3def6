import StoneKV.Flush

/-!
# What a compaction can do

* `MergeStep`: what `compact` can do with two segments or more to the store and its directory;
  **`wp_compactSegments`**.
* `CompactStep`: what `compact` can do; **`wp_compact`**.
-/

namespace StoneKV

open FaultProg Layers

/-- The entries of the segment that replaces segments with the entries `L`, the newest first. -/
def merged (L : List (List Entry)) : List Entry := liveEntries L.reverse

namespace Store

/-- The marker of the next compaction. -/
def nextMarker (s : Store) : CompactionMarker :=
  ⟨s.nextSegmentGeneration, s.segments.map SegmentReader.generation⟩

/-- The bytes of the marker of the next compaction. -/
def nextMarkerText (s : Store) : Bytes := utf8 (markerText s.nextMarker)

/-- The store that lists one segment with the entries `es`. -/
def compacted (s : Store) (es : List Entry) : Store :=
  { s with
    segments := [s.nextReader es]
    nextSegmentGeneration := s.nextSegmentGeneration + 1 }

/-- The names of the files of the segments. -/
def fileNames (s : Store) : List Name := s.segments.map fileName

end Store

/-- The directory with the new segment and the marker. -/
def Dir.replacing (D : Dir) (s : Store) (es : List Entry) : Dir :=
  (D.put s.nextName (some (segmentImage es))).put COMPACTION_MARKER_FILE (some s.nextMarkerText)

/-- What a compaction can do that replaces the segments of `s` by one with the entries `es`. -/
inductive MergeStep (A : Fault → Prop) (s : Store) (D : Dir) (es : List Entry) :
    Outcome StoneError Unit → Store → Dir → Prop
  | refused {e : StoneError} : D.marker.isSome → ¬ e.IsIo → MergeStep A s D es (.err e) s D
  | failed {o : Outcome StoneError Unit} :
    Failed A (maxFileLen < (segmentImage es).length ∨ maxFileLen < s.nextMarkerText.length) o →
    MergeStep A s D es o s D
  | aborted {o : Outcome StoneError Unit} {μ v : Option Bytes} : Failed A False o →
    D.marker = none ∨ A .deny → (μ = none ∨ μ = some s.nextMarkerText) →
    (v = D.files s.nextName ∨ v = none ∨ v = some (segmentImage es)) →
    MergeStep A s D es o s ((D.put s.nextName v).put COMPACTION_MARKER_FILE μ)
  | exhausted : s.nextSegmentGeneration + 1 = u64Size → D.marker = none ∨ A .deny →
    MergeStep A s D es (.err StoneKV.exhausted) s (D.replacing s es)
  | installed {o : Outcome StoneError Unit} {olds : List Name} : Failed A False o →
    D.marker = none ∨ A .deny → olds <+: s.fileNames → s.nextSegmentGeneration + 1 < u64Size →
    MergeStep A s D es o (s.compacted es) ((D.replacing s es).drop olds)
  | done : D.marker = none ∨ A .deny → s.nextSegmentGeneration + 1 < u64Size →
    MergeStep A s D es (.ok ()) (s.compacted es)
      (((D.replacing s es).drop s.fileNames).put COMPACTION_MARKER_FILE none)

section Names

variable {s : Store} {dir : Path} {D : Dir} {L : List (List Entry)} {es : List Entry}
  {r : SegmentReader}

theorem mem_fileNames {n : Name} : n ∈ s.fileNames ↔ ∃ r ∈ s.segments, fileName r = n := List.mem_map

theorem Served.nodup_fileNames (h : Served dir s D L) : s.fileNames.Nodup := by
  rw [List.Nodup, Store.fileNames, List.pairwise_map]
  refine h.decreasing.imp_of_mem fun ha hb hlt heq => ?_
  have hpa := h.parse_fileName ha
  rw [heq, h.parse_fileName hb, Option.some_inj] at hpa
  omega

theorem Served.nextName_not_mem (h : Served dir s D L) : s.nextName ∉ s.fileNames := by
  intro hm
  obtain ⟨r, hr, heq⟩ := mem_fileNames.mp hm
  exact h.fileName_ne_next hr heq

theorem Served.marker_not_mem (h : Served dir s D L) : COMPACTION_MARKER_FILE ∉ s.fileNames := by
  intro hm
  obtain ⟨r, hr, heq⟩ := mem_fileNames.mp hm
  exact h.fileName_ne_marker hr heq

/-- **The marker of the next compaction** of two segments or more. -/
theorem Store.nextMarker_valid (hnext : s.nextSegmentGeneration < u64Size)
    (hdec : s.segments.Pairwise fun a b => b.generation < a.generation)
    (hbelow : ∀ r ∈ s.segments, r.generation < s.nextSegmentGeneration)
    (hlen : 2 ≤ s.segments.length) : s.nextMarker.Valid := by
  refine ⟨hnext, ?_, ?_, fun g hg => ?_⟩
  · rwa [Store.nextMarker, List.length_map]
  · rw [Store.nextMarker, List.Nodup, List.pairwise_map]
    exact hdec.imp fun hlt heq => (heq ▸ hlt).false
  · obtain ⟨r, hr, rfl⟩ := List.mem_map.mp hg
    exact hbelow r hr

theorem Served.nextMarker_valid (h : Served dir s D L) (hlen : 2 ≤ s.segments.length) :
    s.nextMarker.Valid := Store.nextMarker_valid h.next_lt h.decreasing h.below hlen

/-- The new segment and the marker are no listed segments. -/
theorem Served.files_replacing (h : Served dir s D L) (hr : r ∈ s.segments) :
    (D.replacing s es).files (fileName r) = some r.file := by
  obtain ⟨es', -, hl⟩ := h.exists_lists hr
  rw [Dir.replacing, Dir.files_put, if_neg (h.fileName_ne_marker hr), Dir.files_put,
    if_neg (h.fileName_ne_next hr), hl.file]

end Names

section Calls

variable {A : Fault → Prop} {s : Store} {dir : Path} {D : Dir} {d : Disk}

theorem mergeStep_congr {D' D'' : Dir} {es : List Entry} {o : Outcome StoneError Unit} {s' : Store}
    (h : D'' = D') (hs : MergeStep A s D es o s' D') : MergeStep A s D es o s' D'' := h ▸ hs

/-- **Removing the old segments.** They are gone, or the first of them are. -/
theorem wp_removeAll {Q : Outcome StoneError Unit → Disk → Prop} :
    ∀ (rs : List SegmentReader) (olds : List Name) (d : Disk),
    (∀ r ∈ rs, r.path = segmentsDirOf dir ++ [fileName r] ∧ ¬ IsScratchName (fileName r) ∧
      (D.files (fileName r)).isSome) → (olds ++ rs.map fileName).Nodup →
    dirOf dir d = D.drop olds →
    (∀ d', dirOf dir d' = D.drop (olds ++ rs.map fileName) → Q (.ok ()) d') →
    (∀ o olds' d', Failed A False o → olds' <+: olds ++ rs.map fileName →
      dirOf dir d' = D.drop olds' → Q o d') →
    wp A (Store.removeAll (rs.map SegmentReader.path)) Q d
  | [], olds, d, _, _, hd, hok, _ => wp_pure (hok d (by simpa using hd))
  | r :: rs, olds, d, hrs, hnd, hd, hok, hfail => by
    obtain ⟨hpath, hscratch, hsome⟩ := hrs r List.mem_cons_self
    have hcat : olds ++ (r :: rs).map fileName = olds ++ [fileName r] ++ rs.map fileName := by simp
    have hnot : fileName r ∉ olds := by
      rw [hcat, List.append_assoc] at hnd
      exact fun h => List.disjoint_of_nodup_append hnd h (by simp)
    have hread : (d.read r.path).isSome := by
      rw [hpath, ← dirOf_files hscratch, hd, Dir.files_drop, if_neg hnot]
      exact hsome
    have hpre : olds <+: olds ++ (r :: rs).map fileName := List.prefix_append _ _
    refine wp_bind (Fs.wp_removeFile (fun _ => ?_) (fun h => by rw [h] at hread; cases hread)
      (fun n hn => hfail _ olds d (failed_of_canFail ⟨n, hn⟩) hpre hd)
      fun _ _ => hfail _ olds d failed_crash hpre hd)
    have hd' : dirOf dir (d.erase r.path) = D.drop (olds ++ [fileName r]) := by
      rw [hpath, dirOf_erase hscratch, hd, Dir.drop_put_none]
    rw [hcat] at hnd hok hfail
    exact wp_removeAll rs _ _ (fun x hx => hrs x (List.mem_cons_of_mem _ hx)) hnd hd' hok hfail

/-- **Validating the new segment.** It opens, and the compaction goes on; or it and the marker are
removed again. -/
theorem wp_installCompacted {Q : Outcome StoneError CompactionStats → Store × Disk → Prop} {g : ℕ}
    {p : Path} {build : CompactionBuildStats}
    (hopen : ∀ b r, d.read p = some b → SegmentReader.openIn p g b = .ok r → wp A (do
      let next ← Prog.ofExcept (okOr (checkedAdd g 1) exhausted)
      update fun s => { s with nextSegmentGeneration := next }
      let oldPaths := s.segments.map SegmentReader.path
      update fun s => { s with segments := [r] }
      io (Store.removeAll oldPaths)
      io (Fs.removeFile (markerPath s.segmentsDir))
      return ⟨build.segmentsRead, build.recordsBefore, build.liveRecordsAfter, build.bytesBefore,
        build.bytesAfter⟩) Q (s, d))
    (herr : ∀ e, (∀ b r, d.read p = some b → SegmentReader.openIn p g b = .ok r →
      e = .io .other ∧ CanFail A) → ∀ d' d'', d' = d ∨ d' = d.erase p →
      d'' = d' ∨ d'' = d'.erase (markerPath s.segmentsDir) → Q (.err e) (s, d''))
    (hcr : ∀ d', d' = d ∨ d' = d.erase p → Q .crash (s, d')) :
    wp A (Store.installCompacted g p build) Q (s, d) := by
  have hremove : ∀ e, (∀ b r, d.read p = some b → SegmentReader.openIn p g b = .ok r →
      e = .io .other ∧ CanFail A) → wp A (do
        io (ignore (Fs.removeFile p))
        io (ignore (Fs.removeFile (markerPath s.segmentsDir)))
        Prog.throw e : Method CompactionStats) Q (s, d) := fun e he => by
    have hmarker : ∀ d', d' = d ∨ d' = d.erase p → wp A (do
        io (ignore (Fs.removeFile (markerPath s.segmentsDir)))
        Prog.throw e : Method CompactionStats) Q (s, d') := fun d' hd' =>
      wp_removeThrow (herr e he d' _ hd' (.inr rfl)) (herr e he d' _ hd' (.inl rfl)) (hcr d' hd')
    exact wp_bind (wp_onSnd (wp_ignore_removeFile (fun _ => hmarker _ (.inr rfl))
      (fun _ => hmarker _ (.inl rfl)) (fun _ => hmarker _ (.inl rfl)) (hcr d (.inl rfl))))
  refine wp_bind (wp_self (wp_bind (wp_onSnd (wp_attempt (SegmentReader.wp_open
    (fun b r hb hr => ?_) (fun b e hb he => ?_) (fun hn => ?_) (fun n hn => ?_)
    (hcr d (.inl rfl)))))))
  · exact hopen b r hb hr
  · refine hremove e fun b' r' hb' hr' => ?_
    rw [hb] at hb'
    cases hb'
    rw [he] at hr'
    cases hr'
  · refine hremove _ fun b' r' hb' hr' => ?_
    rw [hn] at hb'
    cases hb'
  · exact hremove _ fun _ _ _ _ => ⟨rfl, n, hn⟩

/-- What `installCompacted` does with the image of the merged entries. -/
theorem wp_installCompacted_image {L : List (List Entry)} {es : List Entry}
    {build : CompactionBuildStats} (h : Served dir s D L) (hA : D.marker = none ∨ A .deny)
    (hasc : Ascending es) (hvalid : ∀ e ∈ es, (toRecord e).Valid)
    (hD : dirOf dir d = D.replacing s es)
    (hread : d.read (segmentPath s.segmentsDir s.nextSegmentGeneration) =
      some (segmentImage es)) :
    wp A (Store.installCompacted s.nextSegmentGeneration
        (segmentPath s.segmentsDir s.nextSegmentGeneration) build)
      (fun o x => MergeStep A s D es o.void x.1 (dirOf dir x.2)) (s, d) := by
  have hstor : Storable es := ⟨hasc, hvalid, Disk.length_le_of_read hread⟩
  have hpath := Store.segmentPath_next h.dir_eq
  have hmarker := Store.markerPath_eq h.dir_eq
  refine wp_installCompacted (fun b r hb hr => ?_) (fun e he d' d'' hd' hd'' => ?_)
    fun d' hd' => ?_
  · rw [hread] at hb
    cases hb
    rw [hstor.openIn] at hr
    cases hr
    refine wp_bind (wp_ofExcept (fun next hnext => ?_) fun e he => ?_)
    · rw [okOr_eq_ok, checkedAdd_eq_some] at hnext
      obtain ⟨rfl, hlt⟩ := hnext
      refine wp_bind (wp_update (wp_bind (wp_update (wp_bind (wp_onSnd ?_)))))
      refine wp_removeAll s.segments [] d (fun r hr => ?_) h.nodup_fileNames (by rw [hD, Dir.drop_nil])
        (fun d' hd' => ?_) fun o olds d' ho hpre hd' => ?_
      · obtain ⟨_, -, hl⟩ := h.exists_lists hr
        refine ⟨hl.path, not_isScratchName_of_parse hl.parse, ?_⟩
        rw [h.files_replacing hr]
        rfl
      · rw [List.nil_append, ← Store.fileNames] at hd'
        have hinst : ∀ {o : Outcome StoneError Unit}, Failed A False o →
            MergeStep A s D es o (s.compacted es) (dirOf dir d') := fun ho =>
          mergeStep_congr hd' (.installed ho hA (List.prefix_refl _) hlt)
        have hthere : (d'.read (markerPath s.segmentsDir)).isSome := by
          rw [hmarker, ← dirOf_files not_isScratchName_marker, hd', Dir.files_drop,
            if_neg h.marker_not_mem, Dir.replacing, Dir.files_put_self, Option.isSome_some]
        refine wp_bind (wp_onSnd (Fs.wp_removeFile (fun _ => wp_pure ?_)
          (fun hn => by rw [hn] at hthere; cases hthere)
          (fun n hn => hinst (failed_of_canFail ⟨n, hn⟩)) fun _ _ => hinst failed_crash))
        refine mergeStep_congr ?_ (.done hA hlt)
        change dirOf dir (d'.erase (markerPath s.segmentsDir)) = _
        rw [hmarker, dirOf_erase not_isScratchName_marker, hd']
      · rcases ho with rfl | ⟨i, rfl, hi⟩
        · exact mergeStep_congr hd' (.installed failed_crash hA hpre hlt)
        · exact mergeStep_congr hd' (.installed (failed_err hi) hA hpre hlt)
    · have hlast : s.nextSegmentGeneration + 1 = u64Size := by
        have hlt := h.next_lt
        by_contra hne
        rw [checkedAdd_of_lt (by omega)] at he
        cases he
      rw [checkedAdd, if_neg (by omega)] at he
      cases he
      exact mergeStep_congr hD (.exhausted hlast hA)
  · obtain ⟨rfl, hfail⟩ := he _ _ hread (hstor.openIn _ _)
    rw [hpath] at hd'
    rw [hmarker] at hd''
    have hv : ∃ v, (v = none ∨ v = some (segmentImage es)) ∧ dirOf dir d' =
        (D.put s.nextName v).put COMPACTION_MARKER_FILE (some s.nextMarkerText) := by
      rcases hd' with rfl | rfl
      · exact ⟨_, .inr rfl, hD⟩
      · refine ⟨none, .inl rfl, ?_⟩
        rw [dirOf_erase s.not_isScratchName_next, hD, Dir.replacing,
          Dir.put_comm s.nextName_ne_marker, Dir.put_put]
    obtain ⟨v, hv, hd'⟩ := hv
    rcases hd'' with rfl | rfl
    · exact mergeStep_congr hd' (.aborted (failed_of_canFail hfail) hA (.inr rfl) (.inr hv))
    · refine mergeStep_congr ?_ (.aborted (failed_of_canFail hfail) hA (.inl rfl) (.inr hv))
      change dirOf dir (d'.erase _) = _
      rw [dirOf_erase not_isScratchName_marker, hd', Dir.put_put]
  · rw [hpath] at hd'
    rcases hd' with rfl | rfl
    · exact mergeStep_congr hD (.aborted failed_crash hA (.inr rfl) (.inr (.inr rfl)))
    · refine mergeStep_congr ?_ (.aborted failed_crash hA (.inr rfl) (.inr (.inl rfl)))
      change dirOf dir (d.erase _) = _
      rw [dirOf_erase s.not_isScratchName_next, hD, Dir.replacing,
        Dir.put_comm s.nextName_ne_marker, Dir.put_put]

theorem Served.inputs {L : List (List Entry)} (h : Served dir s (dirOf dir d) L) :
    Inputs d (s.segments.reverse.map SegmentReader.path) L.reverse := by
  refine List.forall₂_map_left_iff.mpr (List.forall₂_reverse_iff.mpr (h.lists.imp fun r es hl => ?_))
  refine ⟨r.file, ?_, faithful_of_sound hl.opened hl.sound⟩
  rw [hl.path, ← dirOf_files (not_isScratchName_of_parse hl.parse), hl.file]

/-- What `compactSegments` does once the marker is in place. -/
def Store.renameCompacted (s : Store) (build : CompactionBuildStats) : Method CompactionStats := do
  match ← io (Fs.rename (segmentTempPath s.segmentsDir s.nextSegmentGeneration)
      (segmentPath s.segmentsDir s.nextSegmentGeneration) : Io Unit).attempt with
  | .error e => do
    io (ignore (Fs.removeFile (markerPath s.segmentsDir)))
    io (ignore (Fs.removeFile (segmentTempPath s.segmentsDir s.nextSegmentGeneration)))
    Prog.throw e
  | .ok () =>
    Store.installCompacted s.nextSegmentGeneration
      (segmentPath s.segmentsDir s.nextSegmentGeneration) build

/-- The end of a compaction: the new segment is moved into place and validated. -/
theorem wp_renameCompacted {L : List (List Entry)} {es : List Entry} {build : CompactionBuildStats}
    (h : Served dir s D L) (hA : D.marker = none ∨ A .deny) (hasc : Ascending es)
    (hvalid : ∀ e ∈ es, (toRecord e).Valid)
    (hD : dirOf dir d = D.put COMPACTION_MARKER_FILE (some s.nextMarkerText))
    (hread : d.read (segmentTempPath s.segmentsDir s.nextSegmentGeneration) =
      some (segmentImage es)) :
    wp A (s.renameCompacted build)
      (fun o x => MergeStep A s D es o.void x.1 (dirOf dir x.2)) (s, d) := by
  have htemp := Store.segmentTempPath_next h.dir_eq
  have hfinal := Store.segmentPath_next h.dir_eq
  have hmarker := Store.markerPath_eq h.dir_eq
  have hscratch := isScratchName_temp h.next_lt
  have habort : ∀ {o : Outcome StoneError Unit} {μ d'}, Failed A False o →
      μ = none ∨ μ = some s.nextMarkerText → dirOf dir d' = D.put COMPACTION_MARKER_FILE μ →
      MergeStep A s D es o s (dirOf dir d') := fun ho hμ hd' => by
    have : MergeStep A s D es _ s _ := .aborted ho hA hμ (.inl rfl)
    rw [Dir.put_files] at this
    exact mergeStep_congr hd' this
  -- the temporary segment goes last
  have hrest : ∀ {e : StoneError} {μ d'}, Failed A False (.err e : Outcome StoneError Unit) →
      μ = none ∨ μ = some s.nextMarkerText → dirOf dir d' = D.put COMPACTION_MARKER_FILE μ →
      wp A (do
        io (ignore (Fs.removeFile (segmentTempPath s.segmentsDir s.nextSegmentGeneration)))
        Prog.throw e : Method CompactionStats)
      (fun o x => MergeStep A s D es o.void x.1 (dirOf dir x.2)) (s, d') := fun {e μ d'} he hμ hd' => by
    have hgone : dirOf dir (d'.erase (segmentTempPath s.segmentsDir s.nextSegmentGeneration)) =
        D.put COMPACTION_MARKER_FILE μ := by rw [htemp, dirOf_erase_scratch hscratch, hd']
    exact wp_removeThrow (habort he hμ hgone) (habort he hμ hd') (habort failed_crash hμ hd')
  refine wp_bind (wp_onSnd (wp_attempt (Fs.wp_rename (fun b hb => ?_) (fun hn => ?_)
    (fun n hn => ?_) fun _ _ => habort failed_crash (.inr rfl) hD)))
  · rw [hread] at hb
    cases hb
    refine wp_installCompacted_image h hA hasc hvalid ?_ ?_
    · rw [dirOf_rename htemp hfinal hscratch s.not_isScratchName_next, hD,
        ← Dir.put_comm s.nextName_ne_marker.symm]
      rfl
    · rw [Disk.read_put, if_pos rfl]
  · rw [hread] at hn
    cases hn
  · have hfail : ∀ {i}, Failed A False (.err (.io i) : Outcome StoneError Unit) :=
      failed_of_canFail ⟨n, hn⟩
    refine wp_bind (wp_onSnd (wp_ignore_removeFile (fun _ => ?_) (fun _ => ?_) (fun _ => ?_)
      (habort failed_crash (.inr rfl) hD)))
    · refine hrest hfail (.inl rfl) ?_
      rw [hmarker, dirOf_erase not_isScratchName_marker, hD, Dir.put_put]
    · exact hrest hfail (.inr rfl) hD
    · exact hrest hfail (.inr rfl) hD

/-- **Compacting two segments or more**, up to where the marker is in place: the directory is as it
was. -/
theorem wp_buildCompacted {L : List (List Entry)}
    {Q : Outcome StoneError CompactionStats → Store × Disk → Prop}
    (h : Served dir s (dirOf dir d) L)
    (hrename : ∀ d' build, (dirOf dir d).marker = none ∨ A .deny →
      dirOf dir d' = (dirOf dir d).put COMPACTION_MARKER_FILE (some s.nextMarkerText) →
      d'.read (segmentTempPath s.segmentsDir s.nextSegmentGeneration) =
        some (segmentImage (merged L)) → wp A (s.renameCompacted build) Q (s, d'))
    (herr : ∀ e d', ((dirOf dir d).marker.isSome ∧ e = markerExists (markerPath s.segmentsDir)) ∨
      Failed A (maxFileLen < (segmentImage (merged L)).length ∨ maxFileLen < s.nextMarkerText.length)
        (.err e : Outcome StoneError Unit) → dirOf dir d' = dirOf dir d → Q (.err e) (s, d'))
    (hcr : ∀ d', dirOf dir d' = dirOf dir d → Q .crash (s, d')) :
    wp A Store.compactSegments Q (s, d) := by
  have htemp := Store.segmentTempPath_next h.dir_eq
  have hmarker := Store.markerPath_eq h.dir_eq
  have hmarkerTemp := Store.markerTempPath_eq h.dir_eq
  have hscratch := isScratchName_temp h.next_lt
  have hmerged : liveEntries L.reverse = merged L := rfl
  have hgone : ∀ {d₁}, dirOf dir d₁ = dirOf dir d → dirOf dir (d₁.erase
      (segmentTempPath s.segmentsDir s.nextSegmentGeneration)) = dirOf dir d := fun hd₁ => by
    rw [htemp, dirOf_erase_scratch hscratch, hd₁]
  have hrest : ∀ d₁, dirOf dir d₁ = dirOf dir d → wp A (do
      let build ← io (compactAll (s.segments.reverse.map SegmentReader.path)
        (segmentTempPath s.segmentsDir s.nextSegmentGeneration))
      match ← io (writeCompactionMarker s.segmentsDir s.nextSegmentGeneration
          (s.segments.map SegmentReader.generation)).attempt with
      | .error e => do
        io (ignore (Fs.removeFile (segmentTempPath s.segmentsDir s.nextSegmentGeneration)))
        Prog.throw e
      | .ok () => s.renameCompacted build) Q (s, d₁) := by
    intro d₁ hd₁
    have hin : Inputs d₁ (s.segments.reverse.map SegmentReader.path) L.reverse := by
      rw [← hd₁] at h
      exact h.inputs
    have hsame : ∀ {d₂}, d₁.Touched (segmentTempPath s.segmentsDir s.nextSegmentGeneration) d₂ →
        dirOf dir d₂ = dirOf dir d := fun ht => (dirOf_scratch hscratch (htemp ▸ ht)).trans hd₁
    refine wp_bind (wp_onSnd (wp_compactAll hin (fun d₂ ht₂ hread => ?_)
      (fun i hi d₂ ht₂ => herr _ _ (.inr (failed_err (hi.mono .inl))) (hsame ht₂))
      fun d₂ ht₂ => hcr _ (hsame ht₂)))
    have hd₂ := hsame ht₂
    have hm₂ : d₂.read (s.segmentsDir ++ [COMPACTION_MARKER_FILE]) = (dirOf dir d).marker := by
      rw [← hd₂, dirOf_marker, Store.segmentsDir, h.dir_eq]
      rfl
    have hscratch' : ∀ {d₃}, d₂.Touched (markerTempPath s.segmentsDir) d₃ →
        dirOf dir d₃ = dirOf dir d := fun ht =>
      (dirOf_scratch isScratchName_markerTemp (hmarkerTemp ▸ ht)).trans hd₂
    refine wp_bind (wp_onSnd (wp_attempt (wp_writeCompactionMarker (m := s.nextMarker) rfl rfl
      (fun hold => ?_) (fun hA d₃ hmarked => ?_) (fun _ i hi d₃ ht₃ => ?_)
      fun d₃ ht₃ => hcr _ (hscratch' ht₃))))
    · rw [hm₂] at hold
      exact wp_removeThrow (herr _ _ (.inl ⟨hold, rfl⟩) (hgone hd₂)) (herr _ _ (.inl ⟨hold, rfl⟩) hd₂)
        (hcr _ hd₂)
    · rw [hm₂] at hA
      have hne : ∀ n, n.head? ≠ some 's' → segmentTempPath s.segmentsDir s.nextSegmentGeneration ≠
          s.segmentsDir ++ [n] := fun n hn heq => by
        rw [segmentTempPath, append_singleton_inj] at heq
        exact hn (heq ▸ rfl)
      refine hrename _ _ hA ?_ ?_
      · rw [← hd₂]
        exact dirOf_marked hmarkerTemp hmarker hmarked
      · rw [hmarked _ (hne _ (by decide)), if_neg (hne _ (by decide)), hread, hmerged]
    · have he := fun d' => herr (.io i) d' (.inr (failed_err (hi.mono .inr)))
      exact wp_removeThrow (he _ (hgone (hscratch' ht₃))) (he _ (hscratch' ht₃))
        (hcr _ (hscratch' ht₃))
  refine wp_bind (wp_self (wp_bind (wp_onSnd (wp_removeIfExists (fun _ => hrest _ (hgone rfl))
    (fun _ => hrest _ rfl) (fun hA => herr _ _ (.inr (failed_of_canFail hA)) rfl) (hcr _ rfl)))))

/-- **Compacting two segments or more.** -/
theorem wp_compactSegments {L : List (List Entry)} (h : Served dir s (dirOf dir d) L) :
    wp A Store.compactSegments
      (fun o x => MergeStep A s (dirOf dir d) (merged L) o.void x.1 (dirOf dir x.2)) (s, d) := by
  refine wp_buildCompacted h (fun d' build hA hd' hread => ?_) (fun e d' he hd' => ?_)
    fun d' hd' => mergeStep_congr hd' (.failed failed_crash)
  · exact wp_renameCompacted h hA ascending_liveEntries
      (valid_liveEntries h.inputs.ascending h.inputs.valid) hd' hread
  · refine mergeStep_congr hd' ?_
    rcases he with ⟨hold, rfl⟩ | he
    · exact .refused hold fun ⟨_, hi⟩ => by cases hi
    · exact .failed he

/-- A segment or a marker that grows too large is not seen in the directory. -/
theorem wp_compactSegments_tooLarge {L : List (List Entry)} (h : Served dir s (dirOf dir d) L)
    (hbig : maxFileLen < (segmentImage (merged L)).length ∨ maxFileLen < s.nextMarkerText.length) :
    wp A Store.compactSegments (fun _ x => dirOf dir x.2 = dirOf dir d) (s, d) := by
  refine wp_buildCompacted h (fun d' build _ hd' hread => ?_) (fun _ _ _ hd' => hd')
    fun _ hd' => hd'
  have himage := Disk.length_le_of_read hread
  have hmarker : (dirOf dir d').marker = some s.nextMarkerText := by
    rw [hd', Dir.marker, Dir.files_put_self]
  have htext := bounded_dirOf _ _ hmarker
  omega

end Calls

/-! ## What a compaction keeps -/

section Kept

variable {A : Fault → Prop} {dir : Path} {s s' : Store} {D D' : Dir} {L : List (List Entry)}
  {es : List Entry} {o : Outcome StoneError Unit} {m : Memtable} {k : Key}

/-- **Merging.** The merged segment shows what the segments show. -/
theorem view_merged (h : ∀ es ∈ L, Ascending es) : view m [merged L] k = view m L k := by
  refine view_congr (value_live_find ?_)
  rw [merged, layer_liveEntries fun es hes => h es (List.mem_reverse.mp hes), List.reverse_reverse]

theorem Served.ascending (h : Served dir s D L) : ∀ es ∈ L, Ascending es := by
  intro es hes
  obtain ⟨r, -, hr⟩ := exists_of_forall₂ h.lists.flip hes
  exact hr.sound.ascending

theorem Served.valid_entries (h : Served dir s D L) : ∀ es ∈ L, ∀ e ∈ es, (toRecord e).Valid := by
  intro es hes
  obtain ⟨r, -, hr⟩ := exists_of_forall₂ h.lists.flip hes
  exact hr.sound.valid

theorem Served.storable_merged (h : Served dir s D L)
    (hlen : (segmentImage (merged L)).length ≤ maxFileLen) : Storable (merged L) :=
  ⟨ascending_liveEntries, valid_liveEntries (fun es hes => h.ascending es (List.mem_reverse.mp hes))
    (fun es hes => h.valid_entries es (List.mem_reverse.mp hes)), hlen⟩

/-- The new segment is listed in place of all. -/
theorem Served.compacted (h : Served dir s D L) (hlt : s.nextSegmentGeneration + 1 < u64Size)
    (hD : D'.files s.nextName = some (segmentImage es)) (hlog : D'.wal.isSome)
    (hstor : Storable es) : Served dir (s.compacted es) D' [es] := by
  have hnew : Lists dir D' (s.nextReader es) es := by
    rw [Store.nextReader, Store.segmentsDir, h.dir_eq]
    exact lists_readerOf h.next_lt hstor hD
  refine ⟨h.dir_eq, h.wal, hlog, h.valid, .cons hnew .nil, List.pairwise_singleton _ _, ?_, hlt⟩
  rintro r (_ | ⟨_, ⟨⟩⟩)
  exact Nat.lt_succ_self _

theorem Dir.files_replacing_next : (D.replacing s es).files s.nextName = some (segmentImage es) := by
  rw [Dir.replacing, Dir.files_put, if_neg s.nextName_ne_marker, Dir.files_put_self]

theorem Dir.marker_replacing : (D.replacing s es).marker = some s.nextMarkerText :=
  Dir.files_put_self _

/-- The new segment stays when the old ones are removed. -/
theorem Served.files_installed (h : Served dir s D L) (es : List Entry) {olds : List Name}
    (hpre : olds <+: s.fileNames) :
    ((D.replacing s es).drop olds).files s.nextName = some (segmentImage es) := by
  rw [Dir.files_drop, if_neg fun hm => h.nextName_not_mem (hpre.subset hm), Dir.files_replacing_next]

theorem Served.files_done (h : Served dir s D L) (es : List Entry) :
    (((D.replacing s es).drop s.fileNames).put COMPACTION_MARKER_FILE none).files s.nextName =
      some (segmentImage es) := by
  rw [Dir.files_put, if_neg s.nextName_ne_marker, h.files_installed es (List.prefix_refl _)]

/-- **A compaction.** However it ends, the store serves what it served. -/
theorem MergeStep.served (hs : MergeStep A s D (merged L) o s' D') (h : Served dir s D L)
    (hb : D'.Bounded) : ∃ L', Served dir s' D' L' ∧
      ∀ k, view s'.memtable L' k = view s.memtable L k := by
  have hview : ∀ k, view s.memtable [merged L] k = view s.memtable L k := fun _ =>
    view_merged h.ascending
  cases hs with
  | refused _ _ => exact ⟨L, h, fun _ => rfl⟩
  | failed _ => exact ⟨L, h, fun _ => rfl⟩
  | aborted _ _ _ _ => exact ⟨L, (h.put_next _).put_marker _, fun _ => rfl⟩
  | exhausted _ _ => exact ⟨L, (h.put_next _).put_marker _, fun _ => rfl⟩
  | installed _ _ hpre hlt =>
    have hfile := h.files_installed (merged L) hpre
    exact ⟨_, h.compacted hlt hfile h.log (h.storable_merged (hb _ _ hfile)), hview⟩
  | done _ hlt =>
    have hfile := h.files_done (merged L)
    exact ⟨_, h.compacted hlt hfile h.log (h.storable_merged (hb _ _ hfile)), hview⟩

end Kept

/-! ## The whole operation -/

/-- What `compact` can do to the store `s`, which serves the segments `L` in the directory `D`. -/
inductive CompactStep (A : Fault → Prop) (s : Store) (D : Dir) (L : List (List Entry)) :
    Outcome StoneError Unit → Store → Dir → Prop
  | unflushed {o : Outcome StoneError Unit} {s' : Store} {D' : Dir} : FlushStep A s D o s' D' →
    o ≠ .ok () → CompactStep A s D L o s' D'
  | short {s' : Store} {D' : Dir} : FlushStep A s D (.ok ()) s' D' → D'.Bounded →
    s'.segments.length < 2 → CompactStep A s D L (.ok ()) s' D'
  | merging {s₁ s' : Store} {D₁ D' : Dir} {o : Outcome StoneError Unit} :
    FlushStep A s D (.ok ()) s₁ D₁ → D₁.Bounded → 2 ≤ s₁.segments.length →
    MergeStep A s₁ D₁ (merged (s.segmentsAfter L)) o s' D' → CompactStep A s D L o s' D'

/-- However a compaction ends, the store serves what it served. -/
theorem CompactStep.served {A : Fault → Prop} {dir : Path} {s s' : Store} {D D' : Dir}
    {L : List (List Entry)} {o : Outcome StoneError Unit} (hs : CompactStep A s D L o s' D')
    (h : Served dir s D L) (hb : D'.Bounded) (hbelow : D'.Below) : ∃ L', Served dir s' D' L' ∧
      ∀ k, view s'.memtable L' k = view s.memtable L k := by
  cases hs with
  | unflushed hflush _ => exact hflush.served h hb hbelow
  | short hflush hb₁ _ =>
    obtain ⟨hserved, -, hview⟩ := hflush.served_of_ok h hb₁
    exact ⟨_, hserved, hview⟩
  | merging hflush hb₁ _ hmerge =>
    obtain ⟨hserved, -, hview⟩ := hflush.served_of_ok h hb₁
    obtain ⟨L', hserved', hview'⟩ := hmerge.served hserved hb
    exact ⟨L', hserved', fun k => (hview' k).trans (hview k)⟩

/-- However a compaction ends, the store shows what it showed, also when no generation is left. -/
theorem CompactStep.shows {A : Fault → Prop} {dir : Path} {s s' : Store} {D D' : Dir}
    {L : List (List Entry)} {o : Outcome StoneError Unit} (hs : CompactStep A s D L o s' D')
    (h : Served dir s D L) (hb : D'.Bounded) :
    ∃ L', List.Forall₂ (fun r es => r.Sound es) s'.segments L' ∧
      ∀ k, view s'.memtable L' k = view s.memtable L k := by
  cases hs with
  | unflushed hflush _ => exact hflush.shows h hb
  | short hflush hb₁ _ => exact hflush.shows h hb₁
  | merging hflush hb₁ _ hmerge =>
    obtain ⟨hserved, -, hview⟩ := hflush.served_of_ok h hb₁
    obtain ⟨L', hserved', hview'⟩ := hmerge.served hserved hb
    exact ⟨L', hserved'.sounds, fun k => (hview' k).trans (hview k)⟩

/-- Compacting is flushing, and then merging if there are two segments or more. -/
theorem wp_compact_parts {A : Fault → Prop} {dir : Path} {s : Store} {d : Disk}
    {L : List (List Entry)} {Q : Outcome StoneError CompactionStats → Store × Disk → Prop}
    (h : Served dir s (dirOf dir d) L)
    (herr : ∀ e s' d', FlushStep A s (dirOf dir d) (.err e) s' (dirOf dir d') → Q (.err e) (s', d'))
    (hcr : ∀ s' d', FlushStep A s (dirOf dir d) .crash s' (dirOf dir d') → Q .crash (s', d'))
    (hshort : ∀ s₁ d₁, FlushStep A s (dirOf dir d) (.ok ()) s₁ (dirOf dir d₁) →
      s₁.segments.length < 2 → Q (.ok .default) (s₁, d₁))
    (hmerge : ∀ s₁ d₁, FlushStep A s (dirOf dir d) (.ok ()) s₁ (dirOf dir d₁) →
      2 ≤ s₁.segments.length → wp A Store.compactSegments Q (s₁, d₁)) :
    wp A Store.compact Q (s, d) := by
  have hrest : ∀ s₁ d₁, FlushStep A s (dirOf dir d) (.ok ()) s₁ (dirOf dir d₁) → wp A (do
      if (← self).segments.length < 2 then return .default
      Store.compactSegments : Method CompactionStats) Q (s₁, d₁) := by
    intro s₁ d₁ hflush
    refine wp_bind (wp_self ?_)
    dsimp only [Outcome.andThen]
    split_ifs with hlen
    · exact wp_pure (hshort s₁ d₁ hflush hlen)
    · exact hmerge s₁ d₁ hflush (Nat.not_lt.mp hlen)
  refine wp_bind (wp_self ?_)
  dsimp only [Outcome.andThen]
  split_ifs with hempty
  · exact hrest s d (.empty hempty)
  · refine wp_bind ((wp_flushMemtable h.writable).mono ?_)
    rintro (_ | _ | _) ⟨s₁, d₁⟩ hflush
    · exact hrest s₁ d₁ hflush
    · exact herr _ s₁ d₁ hflush
    · exact hcr s₁ d₁ hflush

/-- **Compacting.** -/
theorem wp_compact {A : Fault → Prop} {dir : Path} {s : Store} {d : Disk} {L : List (List Entry)}
    (h : Served dir s (dirOf dir d) L) :
    wp A Store.compact
      (fun o x => CompactStep A s (dirOf dir d) L o.void x.1 (dirOf dir x.2)) (s, d) := by
  refine wp_compact_parts h (fun e s' d' hflush => .unflushed hflush nofun)
    (fun s' d' hflush => .unflushed hflush nofun)
    (fun s₁ d₁ hflush hlen => .short hflush bounded_dirOf hlen) fun s₁ d₁ hflush hlen => ?_
  have hserved := (hflush.served_of_ok h bounded_dirOf).1
  exact (wp_compactSegments hserved).mono fun o x hx => .merging hflush bounded_dirOf hlen hx

end StoneKV
