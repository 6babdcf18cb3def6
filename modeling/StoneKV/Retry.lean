import StoneKV.MarkerRuns
import StoneKV.CrashPoints
import StoneKV.Failures

/-!
# Compacting again after failures

A compaction that fails may leave its marker, and no other one is started while it is there.

* `MergeEnd`: how a merge ends when no call fails; **`wp_compactSegments_end`**.
* **`compact_retry`**: whatever failed before, when no call of it fails `compact` merges everything
  into one segment unless there is a marker.
* **`left_marker_refuses`**: a marker that is left keeps it from merging.
-/

namespace StoneKV

open FaultProg Layers

/-- How a merge of the segments of `s` into one with the entries `es` ends when no call fails. -/
inductive MergeEnd (s : Store) (D : Dir) (es : List Entry) :
    Outcome StoneError CompactionStats → Store → Dir → Prop
  | refused : D.marker.isSome → MergeEnd s D es (.err (markerExists (markerPath s.segmentsDir))) s D
  | exhausted : D.marker = none → s.nextSegmentGeneration + 1 = u64Size →
    MergeEnd s D es (.err StoneKV.exhausted) s (D.replacing s es)
  | done {stats : CompactionStats} : D.marker = none → s.nextSegmentGeneration + 1 < u64Size →
    MergeEnd s D es (.ok stats) (s.compacted es)
      (((D.replacing s es).drop s.fileNames).put COMPACTION_MARKER_FILE none)

/-- The process died, or a call failed. -/
def CutShort {α : Type} (o : Outcome StoneError α) : Prop := o = .crash ∨ ∃ i, o = .err (.io i)

section Ends

variable {α : Type} {A : Fault → Prop} {big : Prop} {dir : Path} {s s' : Store} {D D' : Dir} {d : Disk}
  {L : List (List Entry)} {es : List Entry} {o : Outcome StoneError CompactionStats}

theorem Failed.cut {o : Outcome StoneError α} (h : Failed A big o.void) : CutShort o := by
  rcases o with a | e | _
  · exact absurd rfl h.ne_ok
  · obtain ⟨i, hi, -⟩ := h.resolve_left nofun
    cases hi
    exact .inr ⟨i, rfl⟩
  · exact .inl rfl

theorem MergeStep.cut_or_end {o' : Outcome StoneError Unit} (hs : MergeStep NoFault s D es o' s' D')
    (ho : o' = o.void) (hm : D.marker = none) : CutShort o ∨ MergeEnd s D es o s' D' := by
  cases hs with
  | refused hsome _ =>
    rw [hm] at hsome
    cases hsome
  | failed hf => exact .inl (Failed.cut (ho ▸ hf))
  | aborted hf _ _ _ => exact .inl (Failed.cut (ho ▸ hf))
  | exhausted hlast _ =>
    rcases o with a | e | _ <;> cases ho
    exact .inr (.exhausted hm hlast)
  | installed hf _ _ _ => exact .inl (Failed.cut (ho ▸ hf))
  | done _ hlt =>
    rcases o with a | e | _ <;> cases ho
    exact .inr (.done hm hlt)

/-- **A merge without failing calls.** -/
theorem wp_compactSegments_end (h : Served dir s (dirOf dir d) L) :
    wp NoFault Store.compactSegments (fun o x => CutShort o ∨
      MergeEnd s (dirOf dir d) (merged L) o x.1 (dirOf dir x.2)) (s, d) := by
  rcases hm : (dirOf dir d).marker with _ | b
  · exact (wp_compactSegments h).mono fun _ _ hs => hs.cut_or_end rfl hm
  · refine wp_buildCompacted h (fun _ _ hA _ _ => ?_) (fun e d' he hd' => ?_) fun _ _ => .inl (.inl rfl)
    · rcases hA with hA | hA
      · rw [hm] at hA
        cases hA
      · exact absurd hA reliable_noFault.deny
    · rcases he with ⟨hold, rfl⟩ | he
      · rw [hd']
        exact .inr (.refused hold)
      · exact .inl (Failed.cut (o := .err e) he)

/-- **Compacting without failing calls.** -/
theorem wp_compact_end (h : Served dir s (dirOf dir d) L)
    (hnext : s.afterFlush.nextSegmentGeneration < u64Size) :
    wp NoFault Store.compact (fun o x => CutShort o ∨ ∃ D₁,
      FlushStep NoFault s (dirOf dir d) (.ok ()) s.afterFlush D₁ ∧ D₁.Bounded ∧
      (s.afterFlush.segments.length < 2 ∧ o = .ok .default ∧ x.1 = s.afterFlush ∧
          dirOf dir x.2 = D₁ ∨
        2 ≤ s.afterFlush.segments.length ∧
          MergeEnd s.afterFlush D₁ (merged (s.segmentsAfter L)) o x.1 (dirOf dir x.2))) (s, d) := by
  have hafter : ∀ {s₁ d₁}, FlushStep NoFault s (dirOf dir d) (.ok ()) s₁ (dirOf dir d₁) →
      s₁ = s.afterFlush := fun hs =>
    (((hs.ends hnext).resolve_left nofun).resolve_left fun ⟨_, _, hi⟩ => by cases hi).2
  refine wp_compact_parts h (fun e s' d' hs => ?_) (fun _ _ _ => .inl (.inl rfl))
    (fun s₁ d₁ hs hlen => ?_) fun s₁ d₁ hs hlen => ?_
  · obtain ⟨-, i, hi⟩ | ⟨hok, -⟩ := (hs.ends hnext).resolve_left nofun
    · cases hi
      exact .inl (.inr ⟨i, rfl⟩)
    · cases hok
  · obtain rfl := hafter hs
    exact .inr ⟨_, hs, bounded_dirOf, .inl ⟨hlen, rfl, rfl, rfl⟩⟩
  · obtain rfl := hafter hs
    have hserved := (hs.served_of_ok h bounded_dirOf).1
    exact (wp_compactSegments_end hserved).mono fun o x hx =>
      hx.imp_right fun hend => ⟨_, hs, bounded_dirOf, .inr ⟨hlen, hend⟩⟩

theorem MergeEnd.step (hs : MergeEnd s D es o s' D') : MergeStep NoFault s D es o.void s' D' := by
  cases hs with
  | refused hsome => exact .refused hsome fun ⟨_, hi⟩ => by cases hi
  | exhausted hm hlast => exact .exhausted hlast (.inl hm)
  | done hm hlt => exact .done (.inl hm) hlt

end Ends

section Retry

variable {dir : Path} {s : Store} {D : Dir} {d : Disk} {L : List (List Entry)} {es : List Entry}

/-- An empty memtable over one segment shows its entries. -/
theorem view_singleton {m : Memtable} (hm : m.isEmpty) (hasc : Ascending es) {k : Key} {v : Val} :
    view m [es] k = some v ↔ (k, some v) ∈ es := by
  have hnone : m.get k = none := Memtable.isEmpty_iff.mp hm k
  have hview : view m [es] k = value [layer es] k := value_cons_of_none hnone
  rw [hview, value, find_singleton, Option.join_eq_some_iff]
  exact lookup_eq_some hasc

/-- The records of a merged segment are the sets of what it shows. -/
theorem mem_merged_records (hL : ∀ es ∈ L, Ascending es) {m : Memtable} (hm : m.isEmpty)
    {rec : Record} : rec ∈ (merged L).map toRecord ↔
      ∃ k v, rec = .newSet k v ∧ view m L k = some v := by
  have hshow : ∀ k v, view m L k = some v ↔ (k, some v) ∈ merged L := fun k v => by
    rw [← view_merged hL]
    exact view_singleton hm ascending_liveEntries
  rw [List.mem_map]
  constructor
  · rintro ⟨⟨k, v⟩, he, rfl⟩
    have hlist : ∀ es ∈ L.reverse, Ascending es := fun es hes => hL es (List.mem_reverse.mp hes)
    obtain ⟨v, rfl⟩ := Option.isSome_iff_exists.mp ((mem_liveEntries hlist).mp he).2
    exact ⟨k, v, rfl, (hshow k v).mpr he⟩
  · rintro ⟨k, v, rfl, hv⟩
    exact ⟨_, (hshow k v).mp hv, rfl⟩

/-- The merged segment, as it is read. -/
theorem merged_run (h : Served dir s D L) (hlen : (segmentImage (merged L)).length ≤ maxFileLen) :
    (s.nextReader (merged L)).iterAll.run d [] = (.ok ((merged L).map toRecord), d) := by
  have hsound : (s.nextReader (merged L)).Sound (merged L) := (h.storable_merged hlen).sound _ _
  exact Fs.run_reads hsound.iterAllIn

end Retry

/-- **Compaction after failures.** Take a store reached from an empty directory, whatever failed and
however often the process died, and a call of `compact` in which no call fails. Its flush does not
take the last generation. With fewer than two segments after the flush, it returns `Ok` and merges
nothing. With two or more, it returns `Ok` if there is no marker and the merged segment is not of the
last generation; and then there is one segment, with a set for each key that is there, in the order
of the keys. With a marker it returns an error. In all cases the store answers what it answered. -/
theorem compact_retry {dir : Path} {s : Store} {d : Disk} (h : Reached dir (some s) d)
    (hnext : s.afterFlush.nextSegmentGeneration < u64Size)
    (hio : ∀ i, (Store.compact.run (s, d) []).1 ≠ .err (.io i)) :
    ∃ f, Answers (s, d) f ∧ Answers (Store.compact.run (s, d) []).2 f ∧
      (s.afterFlush.segments.length < 2 → (Store.compact.run (s, d) []).1 = .ok .default ∧
        (Store.compact.run (s, d) []).2.1.segments = s.afterFlush.segments) ∧
      (2 ≤ s.afterFlush.segments.length → d.read (markerPath (segmentsDirOf dir)) = none →
        s.afterFlush.nextSegmentGeneration + 1 < u64Size →
        ∃ stats r rs, (Store.compact.run (s, d) []).1 = .ok stats ∧
          (Store.compact.run (s, d) []).2.1.segments = [r] ∧
          r.iterAll.run (Store.compact.run (s, d) []).2.2 [] =
            (.ok rs, (Store.compact.run (s, d) []).2.2) ∧
          rs.Pairwise (fun a b => compare a.key b.key = .lt) ∧
          ∀ rec, rec ∈ rs ↔ ∃ k v, rec = .newSet k v ∧ f k = some v) ∧
      (2 ≤ s.afterFlush.segments.length → (d.read (markerPath (segmentsDirOf dir))).isSome →
        (Store.compact.run (s, d) []).1 = .err (markerExists (markerPath (segmentsDirOf dir))) ∧
        (Store.compact.run (s, d) []).2.1.segments = s.afterFlush.segments) := by
  obtain ⟨L, hL⟩ : ∃ L, Served dir s (dirOf dir d) L := by
    rcases h.standing.2 s rfl with hserved | hstuck
    · exact hserved
    · have hlast := hstuck.last
      unfold Store.afterFlush at hnext
      rw [if_neg hstuck.holds] at hnext
      exact absurd hlast (Nat.ne_of_lt hnext)
  obtain ⟨D₁, hflush, hb₁, hend⟩ := (run_nil_of_wp ((wp_compact_end hL hnext).mono
    fun o x hx => or_assoc.mp (show (o = .crash ∨ _) ∨ _ from hx))).resolve_left
      fun ⟨i, hi⟩ => hio i hi
  generalize Store.compact.run (s, d) [] = y at hend hio ⊢
  obtain ⟨o, s', d'⟩ := y
  obtain ⟨hserved, hempty, hview⟩ := hflush.served_of_ok hL hb₁
  have hmarker : D₁.marker = d.read (markerPath (segmentsDirOf dir)) := by
    rw [hflush.marker, dirOf_marker]
  have hserves : ∃ L', Served dir s' (dirOf dir d') L' ∧
      ∀ k, view s'.memtable L' k = view s.memtable L k := by
    obtain ⟨-, -, rfl, rfl⟩ | ⟨-, hmerge⟩ := hend
    · exact ⟨_, hserved, hview⟩
    · obtain ⟨L', hL', hview'⟩ := hmerge.step.served hserved bounded_dirOf
      exact ⟨L', hL', fun k => (hview' k).trans (hview k)⟩
  obtain ⟨L', hL', hview'⟩ := hserves
  refine ⟨view s.memtable L, hL.answers, fun k => hview' k ▸ hL'.answers k, fun hlen => ?_,
    fun hlen hm hlt => ?_, fun hlen hm => ?_⟩
  · obtain ⟨-, ho, hs, -⟩ | ⟨hlen', -⟩ := hend
    · exact ⟨ho, congrArg Store.segments hs⟩
    · exact absurd hlen (Nat.not_lt.mpr hlen')
  · obtain ⟨hlen', -⟩ | ⟨-, hmerge⟩ := hend
    · exact absurd hlen' (Nat.not_lt.mpr hlen)
    rw [← hmarker] at hm
    generalize hD' : dirOf dir d' = D' at hmerge
    cases hmerge with
    | refused hsome =>
      rw [hm] at hsome
      cases hsome
    | exhausted _ hlast => exact absurd hlast (Nat.ne_of_lt hlt)
    | @done stats _ _ =>
      have hfile := hserved.files_done (merged (s.segmentsAfter L))
      rw [← hD'] at hfile
      refine ⟨stats, _, _, rfl, rfl, merged_run hserved (bounded_dirOf _ _ hfile), ?_, fun rec => ?_⟩
      · rw [List.pairwise_map]
        exact ascending_liveEntries.imp fun h => by simpa using h
      · rw [mem_merged_records hserved.ascending hempty]
        simp only [hview]
  · obtain ⟨hlen', -⟩ | ⟨-, hmerge⟩ := hend
    · exact absurd hlen' (Nat.not_lt.mpr hlen)
    rw [← hmarker] at hm
    generalize hD' : dirOf dir d' = D' at hmerge
    cases hmerge with
    | refused _ =>
      rw [Store.segmentsDir, hserved.dir_eq]
      exact ⟨rfl, rfl⟩
    | exhausted hnone _ =>
      rw [hnone] at hm
      cases hm
    | done hnone _ =>
      rw [hnone] at hm
      cases hm

theorem Reached.call {dir : Path} {y : Store × Disk} (h : Reached dir (some y.1) y.2) (c : Call)
    (l : List Fault) (ho : (c.method.run y l).1 ≠ .crash) :
    Reached dir (some (c.method.run y l).2.1) (c.method.run y l).2.2 := by
  rw [← leftStore_of_ne_crash ho]
  exact h.called rfl

theorem reached_twoSegments : Reached [['d']] (some twoSegments.1) twoSegments.2 := by
  have hopen : Reached [['d']] (some eagerStore) openedDisk :=
    .opened (o := .ok eagerStore) (.fresh (fresh_empty _)) (open_empty 1)
  have ho₁ : ((Call.set [97] [49]).method.run (eagerStore, openedDisk) []).1 ≠ .crash := by
    decide +kernel
  have ho₂ : ((Call.set [98] [50]).method.run
      ((Call.set [97] [49]).method.run (eagerStore, openedDisk) []).2 []).1 ≠ .crash := by
    decide +kernel
  exact (hopen.call (y := (eagerStore, openedDisk)) _ _ ho₁).call _ _ ho₂

/-- A compaction whose renaming fails, and that removes its marker. -/
def renameFailed : Store × Disk :=
  (Call.compact.method.run twoSegments (List.replicate 32 .none ++ [.fail 0])).2

/-- The next compaction succeeds. -/
theorem compact_retry_renamed : ∃ stats r,
    (Store.compact.run (renameFailed.1, renameFailed.2) []).1 = .ok stats ∧
      (Store.compact.run (renameFailed.1, renameFailed.2) []).2.1.segments = [r] := by
  have ho : (Call.compact.method.run twoSegments (List.replicate 32 .none ++ [.fail 0])).1 ≠ .crash := by
    decide +kernel
  obtain ⟨f, -, -, -, hmerge, -⟩ := compact_retry (s := renameFailed.1) (d := renameFailed.2)
    (reached_twoSegments.call _ _ ho) (by decide +kernel) fun i => by
      have hok : (Store.compact.run (renameFailed.1, renameFailed.2) []).1 =
          .ok ⟨2, 2, 2, 90, 60⟩ := by decide +kernel
      rw [hok]
      nofun
  obtain ⟨stats, r, _, hok, hr, -⟩ := hmerge (by decide +kernel) (by decide +kernel) (by decide +kernel)
  exact ⟨stats, r, hok, hr⟩

/-! ## A marker that is left -/

/-- Calls on an open store, in which any calls can fail but have no effect then. -/
inductive FailingRun (x : Store × Disk) : Store × Disk → Prop
  | start : FailingRun x x
  | call {y : Store × Disk} (c : Call) (l : List Fault) : FailingRun x y → (∀ f ∈ l, NoEffect f) →
    FailingRun x (c.method.run y l).2

/-- The removal of an old segment fails. -/
def removalFails : List Fault := List.replicate 34 .none ++ [.fail 0]

/-- A compaction whose marker is left, and another segment. -/
def markerInTheWay : Store × Disk :=
  ((Call.set [99] [51]).method.run (Call.compact.method.run twoSegments removalFails).2 []).2

/-- **A marker that is left** when an old segment is not removed keeps every later `compact` from
merging, until the store is opened again. -/
theorem left_marker_refuses : ¬ ∀ (dir : Path) (t : ℕ) (s : Store) (d d' : Disk) (y : Store × Disk),
    Fresh dir d → (Store.openWithThreshold dir t).run d [] = (.ok s, d') → FailingRun (s, d') y →
    ∃ stats, (Store.compact.run y []).1 = .ok stats := by
  intro hall
  have hnoEffect : ∀ e ∈ removalFails, NoEffect e := by
    intro e he
    rcases List.mem_append.mp he with he | he
    · exact .inl (List.eq_of_mem_replicate he)
    · exact .inr (.inl (List.mem_singleton.mp he))
  have hrun : FailingRun (eagerStore, openedDisk) markerInTheWay :=
    .call _ _ (.call _ _ (.call _ _ (.call _ _ .start (by simp)) (by simp)) hnoEffect) (by simp)
  obtain ⟨stats, hok⟩ := hall [['d']] 1 eagerStore Disk.empty openedDisk _ (fresh_empty _) rfl hrun
  have herr : (Store.compact.run markerInTheWay []).1 =
      .err (markerExists (markerPath (segmentsDirOf [['d']]))) := by decide +kernel
  rw [herr] at hok
  cases hok

end StoneKV
