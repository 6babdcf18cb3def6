import StoneKV.Restart
import StoneKV.Sessions

/-!
# Which directories open

* `Replaced`: the segments that recovery removes; `Stays`: those that it leaves.
* `InOrder dir d`: the files of the store at `dir` are in order; `Accepted dir d`: and no file is in the
  way of its directories.
* **`opens_iff`**: this is when `open` returns, and what it returns then.
-/

namespace StoneKV

open FaultProg Prog

/-- The file `n` is an old segment of a compaction whose segment is in place. -/
def Replaced (dir : Path) (d : Disk) (n : Name) : Prop :=
  ∃ b m, d.read (markerPath (segmentsDirOf dir)) = some b ∧
    parseMarkerBytes (markerPath (segmentsDirOf dir)) b = .ok m ∧
    (d.read (segmentPath (segmentsDirOf dir) m.outputGeneration)).isSome ∧
    ∃ g ∈ m.oldGenerations, n = segmentFilename g

/-- The file `n` is in the directory of the segments and is not replaced. -/
structure Stays (dir : Path) (d : Disk) (n : Name) : Prop where
  there : (d.read (segmentsDirOf dir ++ [n])).isSome
  kept : ¬ Replaced dir d n

/-- The compaction of the marker can be finished, or undone. -/
def Completable (dir : Path) (d : Disk) (m : CompactionMarker) : Prop :=
  match d.read (segmentPath (segmentsDirOf dir) m.outputGeneration) with
  | some file => ∃ r, SegmentReader.openIn (segmentPath (segmentsDirOf dir) m.outputGeneration)
      m.outputGeneration file = .ok r
  | none => ∀ g ∈ m.oldGenerations, (d.read (segmentPath (segmentsDirOf dir) g)).isSome

/-- The files of the store at `dir` are in order: the marker, if there is one, is that of a compaction
that can be finished or undone; of the files that stay, each one with a name like a segment is a
segment, of a generation of its own and not the last one; and the log is made of records. -/
structure InOrder (dir : Path) (d : Disk) : Prop where
  marker : ∀ b, d.read (markerPath (segmentsDirOf dir)) = some b →
    ∃ m, parseMarkerBytes (markerPath (segmentsDirOf dir)) b = .ok m ∧ Completable dir d m
  parse : ∀ n, Stays dir d n → LooksLikeSegment n → (parseSegmentGeneration n).isSome
  unique : ∀ n n' g, Stays dir d n → Stays dir d n' →
    parseSegmentGeneration n = some g → parseSegmentGeneration n' = some g → n = n'
  below : ∀ n g, Stays dir d n → parseSegmentGeneration n = some g → g + 1 < u64Size
  opens : ∀ n g b, Stays dir d n → parseSegmentGeneration n = some g →
    d.read (segmentsDirOf dir ++ [n]) = some b →
    ∃ r, SegmentReader.openIn (segmentsDirOf dir ++ [n]) g b = .ok r
  log : ∃ rs, LogOf (d.read (walPathOf dir)) rs

/-- No file stands where the directory, its directory of segments, or a directory above them is to be:
there `create_dir_all` would fail. -/
def Clear (dir : Path) (d : Disk) : Prop := ∀ p, p <+: segmentsDirOf dir → d.read p = none

instance {dir : Path} {d : Disk} : Decidable (Clear dir d) :=
  decidable_of_iff (∀ p ∈ (segmentsDirOf dir).inits, d.read p = none)
    (forall_congr' fun _ => by rw [List.mem_inits])

/-- Nothing keeps the store at `dir` from being opened. -/
structure Accepted (dir : Path) (d : Disk) : Prop extends InOrder dir d where
  clear : Clear dir d

section Plan

variable {dir : Path} {d : Disk} {n : Name}

/-- **Recovery succeeds** when the compaction can be finished or undone. -/
theorem plan_ok_iff : (recoveryPlan (segmentsDirOf dir) d).1 = .ok () ↔
    ∀ b, d.read (markerPath (segmentsDirOf dir)) = some b →
      ∃ m, parseMarkerBytes (markerPath (segmentsDirOf dir)) b = .ok m ∧ Completable dir d m := by
  unfold recoveryPlan
  rcases hb : d.read (markerPath (segmentsDirOf dir)) with _ | b
  · simp
  rcases hm : parseMarkerBytes (markerPath (segmentsDirOf dir)) b with e | m
  · simp [hm]
  simp only [Option.some.injEq, forall_eq', hm, Except.ok.injEq, exists_eq_left', Completable]
  rcases hout : d.read (segmentPath (segmentsDirOf dir) m.outputGeneration) with _ | file
  · dsimp only
    rcases hfind : m.oldGenerations.find? fun g =>
        (d.read (segmentPath (segmentsDirOf dir) g)).isNone with _ | g
    · simpa [List.find?_eq_none, Option.isSome_iff_ne_none] using hfind
    · have hg := List.find?_some hfind
      have hmem := List.mem_of_find?_eq_some hfind
      simp only [reduceCtorEq, false_iff, not_forall]
      exact ⟨g, hmem, by simpa using hg⟩
  · dsimp only
    rcases hopen : SegmentReader.openIn (segmentPath (segmentsDirOf dir) m.outputGeneration)
      m.outputGeneration file with e | r <;> simp

theorem not_looksLikeSegment_marker : ¬ LooksLikeSegment COMPACTION_MARKER_FILE := by
  unfold LooksLikeSegment
  decide

/-- What recovery removes of the segments. -/
theorem mem_plan_iff (hok : (recoveryPlan (segmentsDirOf dir) d).1 = .ok ()) (hl : LooksLikeSegment n) :
    segmentsDirOf dir ++ [n] ∈ (recoveryPlan (segmentsDirOf dir) d).2 ↔ Replaced dir d n := by
  have hscratch := not_isScratchName_of_looksLikeSegment hl
  have htemp : segmentsDirOf dir ++ [n] ≠ markerTempPath (segmentsDirOf dir) := fun h =>
    hscratch (append_singleton_inj.mp h ▸ isScratchName_markerTemp)
  have hmarker : segmentsDirOf dir ++ [n] ≠ markerPath (segmentsDirOf dir) := fun h =>
    not_looksLikeSegment_marker (append_singleton_inj.mp h ▸ hl)
  unfold Replaced
  unfold recoveryPlan at hok ⊢
  rcases hb : d.read (markerPath (segmentsDirOf dir)) with _ | b
  · simp [htemp]
  rw [hb] at hok
  dsimp only at hok ⊢
  rcases hm : parseMarkerBytes (markerPath (segmentsDirOf dir)) b with e | m
  · rw [hm] at hok
    cases hok
  rw [hm] at hok
  dsimp only at hok ⊢
  have houtTemp : segmentsDirOf dir ++ [n] ≠ segmentTempPath (segmentsDirOf dir) m.outputGeneration :=
    fun h => hscratch (append_singleton_inj.mp h ▸
      isScratchName_temp (valid_of_parseMarkerBytes hm).output_lt)
  simp only [Option.some.injEq, exists_and_left, exists_eq_left', hm, Except.ok.injEq]
  rcases hout : d.read (segmentPath (segmentsDirOf dir) m.outputGeneration) with _ | file
  · -- undone: no segment is removed
    rw [hout] at hok
    dsimp only at hok ⊢
    split at hok
    · cases hok
    · simp [htemp, hmarker, houtTemp]
  · rw [hout] at hok
    dsimp only at hok ⊢
    split at hok
    · cases hok
    · simp only [List.mem_append, List.mem_cons, List.not_mem_nil, List.mem_map, htemp, hmarker,
        houtTemp, or_false, false_or, Option.isSome_some, true_and]
      exact exists_congr fun g => and_congr_right fun _ =>
        ⟨fun h => (append_singleton_inj.mp h).symm, fun h => by rw [h]; rfl⟩

/-- The disk after recovery. -/
def recoveredDisk (dir : Path) (d : Disk) : Disk := d.eraseAll (recoveryPlan (segmentsDirOf dir) d).2

/-- The disk after recovery and the removal of temporary segments. -/
def sweptDisk (dir : Path) (d : Disk) : Disk :=
  (recoveredDisk dir d).eraseAll (staleTemps (segmentsDirOf dir) (recoveredDisk dir d))

theorem read_recovered (hok : (recoveryPlan (segmentsDirOf dir) d).1 = .ok ()) (hl : LooksLikeSegment n)
    (hn : ¬ Replaced dir d n) : (recoveredDisk dir d).read (segmentsDirOf dir ++ [n]) =
      d.read (segmentsDirOf dir ++ [n]) := by
  rw [recoveredDisk, Disk.read_eraseAll, if_neg fun h => hn ((mem_plan_iff hok hl).mp h)]

theorem stays_iff (hok : (recoveryPlan (segmentsDirOf dir) d).1 = .ok ()) (hl : LooksLikeSegment n) :
    ((recoveredDisk dir d).read (segmentsDirOf dir ++ [n])).isSome ↔ Stays dir d n := by
  constructor
  · intro h
    rw [recoveredDisk, Disk.read_eraseAll] at h
    split_ifs at h with hmem
    · cases h
    · exact ⟨h, fun hr => hmem ((mem_plan_iff hok hl).mpr hr)⟩
  · rintro ⟨hthere, hkept⟩
    rwa [read_recovered hok hl hkept]

end Plan

section Open

variable {dir : Path} {d d' : Disk} {s : Store} {t : ℕ}

/-- A directory with fewer files. -/
theorem Loadable.anti {sd : Path} (h : Loadable d sd)
    (hd : ∀ n, d'.read (sd ++ [n]) = d.read (sd ++ [n]) ∨ d'.read (sd ++ [n]) = none) :
    Loadable d' sd := by
  have hread : ∀ {n b}, d'.read (sd ++ [n]) = some b → d.read (sd ++ [n]) = some b := fun {n b} hb => by
    rcases hd n with heq | hnone
    · rw [← heq, hb]
    · rw [hnone] at hb
      cases hb
  have hthere : ∀ {n}, (d'.read (sd ++ [n])).isSome → (d.read (sd ++ [n])).isSome := fun hn => by
    obtain ⟨b, hb⟩ := Option.isSome_iff_exists.mp hn
    rw [hread hb]
    rfl
  exact ⟨fun n hn => h.parse n (hthere hn), fun n n' g hn hn' => h.unique n n' g (hthere hn) (hthere hn'),
    fun n g hn => h.below n g (hthere hn), fun n g b hb => h.opens n g b (hread hb)⟩

theorem InOrder.plan_ok (h : InOrder dir d) : (recoveryPlan (segmentsDirOf dir) d).1 = .ok () :=
  plan_ok_iff.mpr h.marker

/-- What recovery leaves is loaded. -/
theorem InOrder.loadable (h : InOrder dir d) :
    Loadable (recoveredDisk dir d) (segmentsDirOf dir) := by
  have hstays : ∀ {n}, LooksLikeSegment n → _ → Stays dir d n := fun hl =>
    (stays_iff h.plan_ok hl).mp
  refine ⟨fun n hn hl => h.parse n (hstays hl hn) hl, fun n n' g hn hn' hp hp' => ?_,
    fun n g hn hp => ?_, fun n g b hb hp => ?_⟩
  · exact h.unique n n' g (hstays (looksLikeSegment_of_parse hp) hn)
      (hstays (looksLikeSegment_of_parse hp') hn') hp hp'
  · exact h.below n g (hstays (looksLikeSegment_of_parse hp) hn) hp
  · have hl := looksLikeSegment_of_parse hp
    have hn := hstays hl (by rw [hb]; rfl)
    exact h.opens n g b hn hp (by rwa [← read_recovered h.plan_ok hl hn.kept])

theorem run_recovered (hok : (recoveryPlan (segmentsDirOf dir) d).1 = .ok ()) :
    (recoverPendingCompaction (segmentsDirOf dir)).run d [] = (.ok (), recoveredDisk dir d) := by
  rw [run_recoverPendingCompaction, hok]
  rfl

theorem read_sweptDisk (p : Path) : (sweptDisk dir d).read p = (recoveredDisk dir d).read p ∨
    (sweptDisk dir d).read p = none := by
  rw [sweptDisk, Disk.read_eraseAll]
  split_ifs
  · exact .inr rfl
  · exact .inl rfl

theorem wal_sweptDisk : (sweptDisk dir d).read (walPathOf dir) = d.read (walPathOf dir) := by
  rw [sweptDisk, recoveredDisk, Disk.read_eraseAll, Disk.read_eraseAll, if_neg, if_neg]
  · intro h
    obtain ⟨n, hn⟩ := exists_of_mem_plan h
    exact segmentsDir_ne_wal hn.symm
  · intro h
    obtain ⟨n, -, -, hn⟩ := mem_staleTemps.mp h
    exact segmentsDir_ne_wal hn.symm

/-- **A directory that is in order is opened**: recovery and the removal of temporary segments go
through, the segments that stay are loaded, and the log is cut to its records. -/
theorem InOrder.run_open (h : InOrder dir d) (t : ℕ) : ∃ readers rs hlen,
    Loads dir (dirOf dir (sweptDisk dir d)) readers ∧ LogOf (d.read (walPathOf dir)) rs ∧
    (Store.openWithThreshold dir t).run d [] = (.ok (loadedStore dir readers rs t),
      (sweptDisk dir d).put (walPathOf dir) (logImage rs) hlen) := by
  have hloadable : Loadable (sweptDisk dir d) (segmentsDirOf dir) :=
    h.loadable.anti fun n => read_sweptDisk _
  -- the segments
  obtain ⟨readers, hload, hloads⟩ : ∃ readers,
      (loadSegments (segmentsDirOf dir)).run (sweptDisk dir d) [] =
        (.ok (readers, nextAfter readers), sweptDisk dir d) ∧
      Loads dir (dirOf dir (sweptDisk dir d)) readers := by
    have hwp : wp NoFault (loadSegments (segmentsDirOf dir)) (fun o d' => o = .crash ∨
        d' = sweptDisk dir d ∧ ∃ readers, o = .ok (readers, nextAfter readers) ∧
          Loads dir (dirOf dir (sweptDisk dir d)) readers) (sweptDisk dir d) := by
      refine wp_loadSegments (fun xs readers next hx ho hn => ?_) (fun e he => ?_) (.inl rfl)
      · obtain ⟨hloads, rfl⟩ := hx.loads ho hn hloadable.parse
        exact .inr ⟨rfl, readers, rfl, hloads⟩
      · rcases he with he | ⟨n, hn⟩
        · exact absurd hloadable he
        · exact absurd hn (not_noFault_fail n)
    obtain ⟨hd, readers, ho, hloads⟩ := run_nil_of_wp hwp
    exact ⟨readers, Prod.ext ho hd, hloads⟩
  -- the log
  obtain ⟨rs, hlog⟩ := h.log
  have hlen : (logImage rs).length ≤ maxFileLen := by
    obtain ⟨tail, hrs⟩ := hlog
    have hle : ((d.read (walPathOf dir)).getD []).length ≤ maxFileLen := by
      rcases hw : d.read (walPathOf dir) with _ | b
      · exact Nat.zero_le _
      · exact Disk.length_le_of_read hw
    rw [hrs.eq, List.length_append] at hle
    omega
  have hlog' := hlog
  rw [← wal_sweptDisk] at hlog'
  refine ⟨readers, rs, hlen, hloads, hlog, ?_⟩
  have htouch : (Fs.touch : Io Unit).run d [] = (.ok (), d) := rfl
  have hswept : (removeStaleTempFiles (segmentsDirOf dir)).run (recoveredDisk dir d) [] =
    (.ok (), sweptDisk dir d) := run_removeStaleTempFiles
  rw [openWithThreshold_parts, run_bind_nil htouch, run_bind_nil htouch,
    run_bind_nil (run_recovered h.plan_ok)]
  unfold sweepAndLoad loadAndLog
  rw [run_bind_nil hswept, run_bind_nil hload]
  exact run_openLog hlog' hlen

/-- A directory that is opened is in order. -/
theorem inOrder_of_run (h : (Store.openWithThreshold dir t).run d [] = (.ok s, d')) :
    InOrder dir d := by
  obtain ⟨readers, rs, d₂, hrecover, hlog, hdir, -, hopened⟩ := open_run_eq_ok h
  obtain ⟨hok, rfl⟩ := plan_of_run hrecover
  have hloads := hopened.loads
  rw [hdir] at hloads
  have hloadable : Loadable (recoveredDisk dir d) (segmentsDirOf dir) :=
    (hloads.setWal _ : Loads dir (dirOf dir (recoveredDisk dir d)) readers).loadable
  have hthere : ∀ {n g}, Stays dir d n → parseSegmentGeneration n = some g →
      ((recoveredDisk dir d).read (segmentsDirOf dir ++ [n])).isSome := fun hn hp =>
    (stays_iff hok (looksLikeSegment_of_parse hp)).mpr hn
  refine ⟨plan_ok_iff.mp hok, fun n hn hl => hloadable.parse n ((stays_iff hok hl).mpr hn) hl,
    fun n n' g hn hn' hp hp' => hloadable.unique n n' g (hthere hn hp) (hthere hn' hp') hp hp',
    fun n g hn hp => hloadable.below n g (hthere hn hp) hp, fun n g b hn hp hb => ?_, rs, hlog⟩
  refine hloadable.opens n g b ?_ hp
  rwa [read_recovered hok (looksLikeSegment_of_parse hp) hn.kept]

/-- The segments that are loaded are the files that stay and have a generation. -/
theorem mem_loaded_iff {readers : List SegmentReader}
    (hok : (recoveryPlan (segmentsDirOf dir) d).1 = .ok ())
    (hloads : Loads dir (dirOf dir (sweptDisk dir d)) readers) (g : ℕ) (p : Path) :
    (∃ r ∈ readers, r.generation = g ∧ r.path = p) ↔
      ∃ n, Stays dir d n ∧ parseSegmentGeneration n = some g ∧ p = segmentsDirOf dir ++ [n] := by
  constructor
  · rintro ⟨r, hr, rfl, rfl⟩
    have hparse := hloads.parse r hr
    have hfile := hloads.file r hr
    rw [dirOf_files (not_isScratchName_of_parse hparse)] at hfile
    refine ⟨fileName r, (stays_iff hok (looksLikeSegment_of_parse hparse)).mp ?_, hparse, hloads.path r hr⟩
    rcases read_sweptDisk (d := d) (segmentsDirOf dir ++ [fileName r]) with heq | hnone
    · rw [← heq, hfile]
      rfl
    · rw [hnone] at hfile
      cases hfile
  · rintro ⟨n, hn, hparse, rfl⟩
    have hl := looksLikeSegment_of_parse hparse
    have hscratch := not_isScratchName_of_looksLikeSegment hl
    have hthere : ((dirOf dir (sweptDisk dir d)).files n).isSome := by
      rw [dirOf_files hscratch, sweptDisk, Disk.read_eraseAll, if_neg]
      · exact (stays_iff hok hl).mpr hn
      · intro h
        obtain ⟨n', htemp, -, heq⟩ := mem_staleTemps.mp h
        exact hscratch (.inl (append_singleton_inj.mp heq ▸ htemp))
    obtain ⟨r, hr, rfl⟩ := hloads.complete n hthere hl
    refine ⟨r, hr, ?_, hloads.path r hr⟩
    rw [← Option.some_inj, ← hloads.parse r hr, hparse]

/-- A directory loads in one way. -/
theorem Loads.unique {rs rs' : List SegmentReader} (h : Loads dir (dirOf dir d) rs)
    (h' : Loads dir (dirOf dir d) rs') : rs = rs' := by
  have hrun : ∀ {rs}, Loads dir (dirOf dir d) rs →
      (loadSegments (segmentsDirOf dir)).run d [] = (.ok (rs, nextAfter rs), d) := fun h =>
    wp.run_nil_eq (h.wp_loadSegments reliable_noFault (fun _ => rfl) fun hc => absurd rfl hc)
  have := (hrun h).symm.trans (hrun h')
  cases this
  rfl

/-! ### Other orders -/

section Order

variable {f : List Name → List Name} {hf : ∀ l, (f l).Perm l}

theorem stays_reorder {n : Name} : Stays dir (d.reorder f hf) n ↔ Stays dir d n :=
  ⟨fun h => ⟨h.there, h.kept⟩, fun h => ⟨h.there, h.kept⟩⟩

theorem InOrder.reorder (h : InOrder dir d) : InOrder dir (d.reorder f hf) := by
  refine ⟨h.marker, fun n hn => h.parse n (stays_reorder.mp hn), fun n n' g hn hn' =>
    h.unique n n' g (stays_reorder.mp hn) (stays_reorder.mp hn'), fun n g hn =>
    h.below n g (stays_reorder.mp hn), fun n g b hn => h.opens n g b (stays_reorder.mp hn), h.log⟩

theorem eraseAll_reorder : ∀ (ps : List Path) (d : Disk),
    (d.reorder f hf).eraseAll ps = (d.eraseAll ps).reorder f hf
  | [], _ => rfl
  | p :: ps, d => eraseAll_reorder ps (d.erase p)

theorem sweptDisk_reorder : sweptDisk dir (d.reorder f hf) = (sweptDisk dir d).reorder f hf := by
  have hrecovered : recoveredDisk dir (d.reorder f hf) = (recoveredDisk dir d).reorder f hf :=
    eraseAll_reorder _ d
  rw [sweptDisk, hrecovered, eraseAll_reorder, sweptDisk]
  congr 1
  exact Disk.eraseAll_congr fun p _ => by rw [mem_staleTemps, mem_staleTemps]; rfl

/-- **Opening** does not depend on the order in which the files are listed. -/
theorem open_run_reorder (h : (Store.openWithThreshold dir t).run d [] = (.ok s, d')) :
    (Store.openWithThreshold dir t).run (d.reorder f hf) [] = (.ok s, d'.reorder f hf) := by
  have horder := inOrder_of_run h
  obtain ⟨readers, rs, hlen, hloads, hlog, hrun⟩ := horder.run_open t
  rw [hrun] at h
  cases h
  obtain ⟨readers', rs', hlen', hloads', hlog', hrun'⟩ :=
    (InOrder.reorder (f := f) horder).run_open t
  obtain rfl : rs = rs' := hlog.unique hlog'
  rw [sweptDisk_reorder] at hloads' hrun'
  obtain rfl : readers = readers' := hloads.unique hloads'
  exact hrun'

end Order

/-- **Which directories open, and as what.** On any disk on which no file is in the way of the
directories, `open` returns exactly when nothing keeps the store from being opened. Then the store has
the segments that stay, each with its generation, and the records of the log in the memtable; and in
whatever order the directory is listed, it is the same store, and the same files are left. -/
theorem opens_iff (dir : Path) (d : Disk) (t : ℕ) (hclear : Clear dir d) :
    ((∃ s d', (Store.openWithThreshold dir t).run d [] = (.ok s, d')) ↔ Accepted dir d) ∧
      ∀ s d', (Store.openWithThreshold dir t).run d [] = (.ok s, d') →
        (∀ g p, (∃ r ∈ s.segments, r.generation = g ∧ r.path = p) ↔
          ∃ n, Stays dir d n ∧ parseSegmentGeneration n = some g ∧ p = segmentsDirOf dir ++ [n]) ∧
        (∃ rs, LogOf (d.read (walPathOf dir)) rs ∧ s.memtable = memtableOf rs) ∧
        ∀ f hf, (Store.openWithThreshold dir t).run (d.reorder f hf) [] = (.ok s, d'.reorder f hf) := by
  refine ⟨⟨fun ⟨s, d', h⟩ => ⟨inOrder_of_run h, hclear⟩, fun h => ?_⟩, fun s d' h => ?_⟩
  · obtain ⟨readers, rs, hlen, -, -, hrun⟩ := h.run_open t
    exact ⟨_, _, hrun⟩
  · have horder := inOrder_of_run h
    obtain ⟨readers, rs, hlen, hloads, hlog, hrun⟩ := horder.run_open t
    rw [hrun] at h
    cases h
    exact ⟨mem_loaded_iff horder.plan_ok hloads, ⟨rs, hlog, rfl⟩, fun f hf => open_run_reorder hrun⟩

/-- Two segments and a log of two records. -/
theorem opens_iff_used : Accepted [['d']] used.2 ∧ ∃ s d',
    (Store.openWithThreshold [['d']] 0).run used.2 [] = (.ok s, d') ∧
      (∀ g p, (∃ r ∈ s.segments, r.generation = g ∧ r.path = p) ↔
        ∃ n, Stays [['d']] used.2 n ∧ parseSegmentGeneration n = some g ∧
          p = segmentsDirOf [['d']] ++ [n]) ∧
      (∃ rs, LogOf (used.2.read (walPathOf [['d']])) rs ∧ s.memtable = memtableOf rs) ∧
      ∀ f hf, (Store.openWithThreshold [['d']] 0).run (used.2.reorder f hf) [] =
        (.ok s, d'.reorder f hf) := by
  obtain ⟨g, hresumes⟩ := reachable_used.live.1
  obtain ⟨s, d', -, -, -, hrun, -⟩ := hresumes.opens_nil (t := 0)
  have hopens := opens_iff [['d']] used.2 0 (by decide +kernel)
  exact ⟨hopens.1.mp ⟨s, d', hrun⟩, s, d', hrun, hopens.2 s d' hrun⟩

end Open

end StoneKV
