import StoneKV.Reopening
import StoneKV.Acknowledged
import StoneKV.RecoveryPlan

/-!
# Stores that were just opened

* `loadedStore dir readers rs t`: the store that `open` makes of these segments and log records.
* `Opened dir D readers rs`: the directory `D` as `open` leaves it.
* **`open_run_eq_ok`**: what a store that was opened has loaded, whatever the names of its files.
* `Opened.served`, `Opened.run_open`: this store serves its segments, and opens again as it is.
* `last_none_of_open`: a directory with a segment of the last generation does not open.
-/

namespace StoneKV

open FaultProg Prog

/-- The store with the segments `readers` and the records `rs` in its log. -/
def loadedStore (dir : Path) (readers : List SegmentReader) (rs : List Record) (t : ℕ) : Store :=
  ⟨dir, ⟨walPathOf dir⟩, memtableOf rs, readers, nextAfter readers, t⟩

/-- The directory holds the segments `readers`, no other ones and no marker, and the records `rs` in
its log. -/
structure Opened (dir : Path) (D : Dir) (readers : List SegmentReader) (rs : List Record) : Prop where
  loads : Loads dir D readers
  marker : D.marker = none
  valid : ∀ r ∈ rs, r.Valid
  log : D.wal = some (logImage rs)

/-! ## Loading -/

section Loading

variable {dir sd : Path} {d d' : Disk} {n : Name} {x : List SegmentReader × ℕ} {next : ℕ}
  {xs : List (ℕ × Path)} {readers : List SegmentReader}

theorem parse_of_discover : ∀ {names : List Name} {xs : List (ℕ × Path)},
    discover sd names = .ok xs → ∀ n ∈ names, LooksLikeSegment n →
      (parseSegmentGeneration n).isSome
  | [], _, _, n, hn, _ => by cases hn
  | m :: names, xs, h, n, hn, hl => by
    rw [discover] at h
    split_ifs at h with hm
    · simp only [bind_eq_ok, okOr_eq_ok] at h
      obtain ⟨g, hg, ys, hys, -⟩ := h
      rcases List.mem_cons.mp hn with rfl | hn
      · rw [hg]
        rfl
      · exact parse_of_discover hys n hn hl
    · rcases List.mem_cons.mp hn with rfl | hn
      · exact absurd hl hm
      · exact parse_of_discover h n hn hl

/-- In a directory that is loaded every name that looks like one of a segment has a generation. -/
theorem parse_of_loadSegments (h : (loadSegments sd).run d [] = (.ok x, d'))
    (hn : (d.read (sd ++ [n])).isSome) (hl : LooksLikeSegment n) :
    (parseSegmentGeneration n).isSome := by
  obtain ⟨names, d₁, hlist, h₁⟩ := exists_of_run_bind_nil h
  have hlist : (Outcome.ok (d.list sd), d) = (Outcome.ok names, d₁) := hlist
  cases hlist
  obtain ⟨found, d₂, hfound, -⟩ := exists_of_run_bind_nil h₁
  exact parse_of_discover (eq_of_run_ofExcept hfound).1 n (Disk.mem_list.mpr hn) hl

theorem Discovered.loads (hx : Discovered d (segmentsDirOf dir) xs)
    (ho : List.Forall₂ (Opens d) xs readers) (hn : nextGeneration xs = .ok next)
    (hparse : ∀ n, (d.read (segmentsDirOf dir ++ [n])).isSome → LooksLikeSegment n →
      (parseSegmentGeneration n).isSome) :
    Loads dir (dirOf dir d) readers ∧ next = nextAfter readers := by
  have hgen := generations_of_opens ho
  obtain ⟨hbelow, hlt⟩ := lt_of_nextGeneration hx.decreasing hn
  -- each open segment is one of those that were found
  have hfound : ∀ r ∈ readers, r.path = segmentsDirOf dir ++ [fileName r] ∧
      parseSegmentGeneration (fileName r) = some r.generation ∧
      (dirOf dir d).files (fileName r) = some r.file ∧
      SegmentReader.openIn r.path r.generation r.file = .ok r := by
    intro r hr
    obtain ⟨⟨g, p⟩, hmem, b, hb, hopen⟩ := exists_of_forall₂ ho.flip hr
    obtain ⟨n, -, hp, rfl⟩ := (hx.mem _ _).mp hmem
    obtain ⟨i, is, hc, rfl⟩ := SegmentReader.openIn_eq_ok.mp hopen
    have hname : fileName ⟨b, segmentsDirOf dir ++ [n], g, is, SEGMENT_HEADER_SIZE, i⟩ = n :=
      List.getLastD_concat
    rw [hname]
    exact ⟨rfl, hp, by rw [dirOf_files (not_isScratchName_of_parse hp)]; exact hb, hopen⟩
  refine ⟨⟨fun r hr => (hfound r hr).1, fun r hr => (hfound r hr).2.1,
    fun r hr => (hfound r hr).2.2.1, fun r hr => (hfound r hr).2.2.2, ?_, fun r hr => ?_,
    fun n hn hl => ?_⟩, ?_⟩
  · rw [← List.pairwise_map (f := SegmentReader.generation) (R := fun a b => b < a), hgen,
      List.pairwise_map]
    exact hx.decreasing
  · have hmem : r.generation ∈ xs.map Prod.fst := hgen ▸ List.mem_map_of_mem hr
    have := hbelow _ hmem
    omega
  · rw [dirOf_files (not_isScratchName_of_looksLikeSegment hl)] at hn
    obtain ⟨g, hg⟩ := Option.isSome_iff_exists.mp (hparse n hn hl)
    obtain ⟨r, hr, hopens⟩ := exists_of_forall₂ ho ((hx.mem g _).mpr ⟨n, hn, hg, rfl⟩)
    refine ⟨r, hr, ?_⟩
    rw [fileName, hopens.generation.2]
    exact List.getLastD_concat
  · unfold nextGeneration at hn
    rcases ho with _ | ⟨hr, -⟩
    · cases hn
      rfl
    · simp only [List.head?_cons, okOr_eq_ok, checkedAdd_eq_some] at hn
      rw [hn.1, nextAfter, hr.generation.1]

end Loading

/-! ## The log -/

section Log

variable {dir : Path} {d d₂ : Disk}

/-- The records of a log that is there or not. -/
def LogOf (w : Option Bytes) (recs : List Record) : Prop := ∃ t, IsLog (w.getD []) recs t

/-- Opening the log leaves the records in it, and the memtable that they give. -/
theorem openLog_run_eq_ok {stats : ReplayStats} {mem : Memtable} {wal : Wal} {d₃ : Disk}
    (hreplay : (Prog.withLocal Memtable.new (Wal.replay applyRecord (walPathOf dir))).run d [] =
      (.ok (stats, mem), d₂)) (hopen : (Wal.open (walPathOf dir)).run d₂ [] = (.ok wal, d₃)) :
    ∃ recs, LogOf (d.read (walPathOf dir)) recs ∧ (∀ r ∈ recs, r.Valid) ∧
      mem = memtableOf recs ∧ wal = ⟨walPathOf dir⟩ ∧ d.Touched (walPathOf dir) d₃ ∧
      d₃.read (walPathOf dir) = some (logImage recs) := by
  have hrun := run_of_run_withLocal hreplay
  rcases hlog : d.read (walPathOf dir) with _ | b
  · have hnew : (Wal.replay applyRecord (walPathOf dir)).run (.new, d) [] =
        (.ok .default, (.new, d)) :=
      wp.run_nil_eq (Wal.wp_replay_none hlog reliable_noFault (fun _ => rfl) fun hc => absurd rfl hc)
    rw [hnew] at hrun
    cases hrun
    have hcreate : (Wal.open (walPathOf dir)).run d [] =
        (.ok ⟨walPathOf dir⟩, d.put (walPathOf dir) [] (Nat.zero_le _)) :=
      wp.run_nil_eq (wp_openWal (fun _ _ => rfl) (fun h => by rw [hlog] at h; cases h)
        (fun ⟨n, hn⟩ => absurd hn (not_noFault_fail n)) fun hc => absurd rfl hc)
    rw [hcreate] at hopen
    cases hopen
    exact ⟨[], ⟨[], rfl, by simp, .inl rfl⟩, by simp, rfl, rfl, Disk.touched_put, by simp⟩
  · by_cases h : ∃ recs t, IsLog b recs t
    · obtain ⟨recs, t, h⟩ := h
      obtain ⟨d', ht, hd', hrun'⟩ := replay_of_isLog applyRecord hlog h
      rw [hrun'] at hrun
      cases hrun
      rw [open_run hd'] at hopen
      cases hopen
      exact ⟨recs, ⟨t, h⟩, h.valid, rfl, rfl, ht, hd'⟩
    · obtain ⟨e, x, hrun'⟩ := replay_of_not_isLog applyRecord .new hlog h
      rw [hrun'] at hrun
      cases hrun

end Log

/-! ## Opening -/

section Open

variable {dir : Path} {d d₁ : Disk} {D : Dir} {s : Store} {t : ℕ} {readers : List SegmentReader}
  {r : SegmentReader} {rs : List Record} {L : List (List Entry)}

/-- **What was loaded.** A store that was opened has the segments of the directory that recovery left,
and the records of the log. -/
theorem open_run_eq_ok (h : (Store.openWithThreshold dir t).run d [] = (.ok s, d₁)) :
    ∃ readers recs d₂, (recoverPendingCompaction (segmentsDirOf dir)).run d [] = (.ok (), d₂) ∧
      LogOf (dirOf dir d).wal recs ∧ dirOf dir d₁ = (dirOf dir d₂).setWal (some (logImage recs)) ∧
      s = loadedStore dir readers recs t ∧ Opened dir (dirOf dir d₁) readers recs := by
  have htouch : ∀ {x d d'}, (Fs.touch : Io Unit).run d [] = (.ok x, d') → d' = d := fun h =>
    (congrArg Prod.snd h).symm.trans (Fs.run_touch _ [])
  obtain ⟨_, da, ha, h₁⟩ := exists_of_run_bind_nil h
  obtain ⟨_, db, hb, h₂⟩ := exists_of_run_bind_nil h₁
  rw [htouch ha] at hb
  rw [htouch hb] at h₂
  obtain ⟨_, d₂, hrecover, h₃⟩ := exists_of_run_bind_nil h₂
  obtain ⟨_, d₃, hstale, h₄⟩ := exists_of_run_bind_nil h₃
  obtain ⟨⟨readers, next⟩, d₄, hload, h₅⟩ := exists_of_run_bind_nil h₄
  obtain ⟨⟨stats, mem⟩, d₅, hreplay, h₆⟩ := exists_of_run_bind_nil h₅
  obtain ⟨wal, d₆, hopen, h₇⟩ := exists_of_run_bind_nil h₆
  have hend : (Outcome.ok _, d₆) = (Outcome.ok s, d₁) := h₇
  cases hend
  obtain rfl := loadSegments_run hload
  have hw₂ := (wp_recoverPendingCompaction_within (A := NoFault) (.refl _)).run_eq (by simp) hrecover
  have hd₃ : dirOf dir d₄ = dirOf dir d₂ :=
    (wp_removeStaleTempFiles (Q := fun _ d' => dirOf dir d' = dirOf dir d₂) reliable_noFault
      (fun _ h => h) fun _ h => h).run_eq (by simp) hstale
  obtain ⟨recs, hlog, hvalid, rfl, rfl, ht, hd₁⟩ := openLog_run_eq_ok hreplay hopen
  have hdir : dirOf dir d₁ = (dirOf dir d₂).setWal (some (logImage recs)) := by
    rw [dirOf_setWal ht, hd₁, hd₃]
  have hloaded : wp NoFault (loadSegments (segmentsDirOf dir)) (fun o d' => ∀ readers next,
      o = .ok (readers, next) → ∃ xs, Discovered d₄ (segmentsDirOf dir) xs ∧
        List.Forall₂ (Opens d₄) xs readers ∧ nextGeneration xs = .ok next) d₄ :=
    wp_loadSegments (fun xs readers next hx ho hn readers' next' h => by
      cases h
      exact ⟨xs, hx, ho, hn⟩) (fun _ _ _ _ h => by cases h) fun _ _ h => by cases h
  obtain ⟨xs, hx, ho, hn⟩ := hloaded.run_eq (by simp) hload _ _ rfl
  obtain ⟨hloads, rfl⟩ := hx.loads ho hn fun n => parse_of_loadSegments hload
  have hmarker : (dirOf dir d₂).marker = none := dirOf_marker.trans (marker_of_run hrecover)
  refine ⟨readers, recs, d₂, hrecover, ?_, hdir, rfl, ?_⟩
  · rw [← hw₂.wal, ← hd₃]
    exact hlog
  · rw [hdir]
    rw [hd₃] at hloads
    exact ⟨hloads.setWal _, hmarker, hvalid, rfl⟩

theorem Loads.bounded (h : Loads dir D readers) (hD : D.Bounded) (hr : r ∈ readers) : r.Bounded :=
  SegmentReader.bounded_of_openIn (h.opened r hr) (hD _ _ (h.file r hr))

/-- **A store that was opened serves its segments.** -/
theorem Opened.served (h : Opened dir D readers rs)
    (hL : List.Forall₂ (fun r es => r.Sound es) readers L) (t : ℕ) :
    Served dir (loadedStore dir readers rs t) D L := by
  refine ⟨rfl, rfl, by rw [h.log]; rfl, valid_memtableOf h.valid, ?_, h.loads.decreasing,
    h.loads.lt_nextAfter, h.loads.nextAfter_lt⟩
  change List.Forall₂ (Lists dir D) readers L
  rw [List.forall₂_iff_get] at hL ⊢
  refine ⟨hL.1, fun i hi hj => ?_⟩
  have hr := List.get_mem readers ⟨i, hi⟩
  exact ⟨h.loads.path _ hr, h.loads.parse _ hr, h.loads.file _ hr, h.loads.opened _ hr, hL.2 i hi hj⟩

/-- **Opening** a directory that recovery makes into one as `open` leaves it. -/
theorem run_open_of_recovered (h : Opened dir D readers rs) (t : ℕ)
    (hrec : ∀ {R : Outcome StoneError Unit → Disk → Prop}, (∀ d', dirOf dir d' = D → R (.ok ()) d') →
      (∀ d', R .crash d') → wp NoFault (recoverPendingCompaction (segmentsDirOf dir)) R d) : ∃ d',
    (Store.openWithThreshold dir t).run d [] = (.ok (loadedStore dir readers rs t), d') ∧
      dirOf dir d' = D := by
  obtain ⟨ho, hd⟩ := run_nil_of_wp (Q := fun o d' => o = .ok (loadedStore dir readers rs t) ∧
      dirOf dir d' = D) (wp_openRecovered (fun hok hcr => hrec hok fun d' => hcr d' (.inl rfl))
    h.loads (by rw [h.log]; exact logHolds_image h.valid) reliable_noFault
    (fun d' hd' => .inr ⟨rfl, by rw [hd', ← h.log, Dir.setWal_wal]⟩) (.inl rfl)
    fun _ _ _ _ => .inl rfl)
  exact ⟨_, Prod.ext ho rfl, hd⟩

/-- A directory that is as `open` left it. -/
theorem Opened.run_open (h : Opened dir (dirOf dir d) readers rs) (t : ℕ) : ∃ d',
    (Store.openWithThreshold dir t).run d [] = (.ok (loadedStore dir readers rs t), d') ∧
      dirOf dir d' = dirOf dir d :=
  run_open_of_recovered h t fun hok hcr =>
    wp_recoverPendingCompaction_unmarked h.marker reliable_noFault hok (hcr _)

/-- A directory with a segment of the last generation does not open. -/
theorem last_none_of_open (h : (Store.openWithThreshold dir t).run d [] = (.ok s, d₁)) :
    d.read (segmentPath (segmentsDirOf dir) (u64Size - 1)) = none := by
  obtain ⟨readers, recs, d₂, hrec, -, hdir, -, hopened⟩ := open_run_eq_ok h
  have hkept : d₂.read (segmentPath (segmentsDirOf dir) (u64Size - 1)) =
      d.read (segmentPath (segmentsDirOf dir) (u64Size - 1)) := by
    rw [(plan_of_run hrec).2, Disk.read_eraseAll, if_neg last_not_mem_plan]
  rw [← hkept, segmentPath, ← dirOf_files not_isScratchName_segment]
  by_contra hne
  have hfile : ((dirOf dir d₁).files (segmentFilename (u64Size - 1))).isSome := by
    rw [hdir]
    exact Option.isSome_iff_ne_none.mpr hne
  have hparse := parseSegmentGeneration_filename (show u64Size - 1 < u64Size by decide)
  obtain ⟨r, hr, hname⟩ := hopened.loads.complete _ hfile (looksLikeSegment_of_parse hparse)
  have hgen := hopened.loads.parse r hr
  rw [hname, hparse, Option.some_inj] at hgen
  have := hopened.loads.below r hr
  omega

end Open

end StoneKV
