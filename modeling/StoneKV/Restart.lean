import StoneKV.Lib.Reentrant
import StoneKV.Footprint
import StoneKV.Opened

/-!
# Opening again

* `staleTemps`: the temporary segments that `open` removes.
* `Tidied`: the log as it was, or cut to its records.
* `reentrant_*`: each part of `open` can be started again.
* **`open_reentrant`**: after any attempts to open any directory, `open` ends as it would have at first.
-/

namespace StoneKV

open FaultProg Prog

/-! ## Temporary segments -/

/-- The temporary segments in the directory. -/
def staleTemps (segmentsDir : Path) (d : Disk) : List Path :=
  ((d.list segmentsDir).filter fun n => (parseTempSegmentGeneration n).isSome).map fun n =>
    segmentsDir ++ [n]

section Stale

variable {sd p : Path} {d : Disk} {ps : List Path}

theorem mem_staleTemps : p ∈ staleTemps sd d ↔
    ∃ n, (parseTempSegmentGeneration n).isSome ∧ (d.read p).isSome ∧ p = sd ++ [n] := by
  simp only [staleTemps, List.mem_map, List.mem_filter, Disk.mem_list]
  constructor
  · rintro ⟨n, ⟨hthere, hn⟩, rfl⟩
    exact ⟨n, hn, hthere, rfl⟩
  · rintro ⟨n, hn, hthere, rfl⟩
    exact ⟨n, ⟨hthere, hn⟩, rfl⟩

theorem steady_removeTempFiles : ∀ names : List Name, Steady (.io .other) (removeTempFiles sd names)
  | [] => steady_pure
  | _ :: names => steady_ite (fun _ => steady_call.bind fun _ => steady_removeTempFiles names)
      fun _ => steady_removeTempFiles names

theorem steady_removeStaleTempFiles : Steady (.io .other) (removeStaleTempFiles sd) :=
  steady_call.bind fun names => steady_removeTempFiles names

/-- Some of the temporary segments of `d` are removed. -/
def Swept (sd : Path) (d d' : Disk) : Prop := ∃ ps ⊆ staleTemps sd d, d' = d.eraseAll ps

theorem swept_self : Swept sd d d := ⟨[], List.nil_subset _, rfl⟩

theorem Swept.erase {d' : Disk} {n : Name} (h : Swept sd d d') (hn : n ∈ d.list sd)
    (htemp : (parseTempSegmentGeneration n).isSome) : Swept sd d (d'.erase (sd ++ [n])) := by
  obtain ⟨ps, hps, rfl⟩ := h
  refine ⟨ps ++ [sd ++ [n]], List.append_subset.mpr ⟨hps, ?_⟩, by rw [Disk.eraseAll_append]; rfl⟩
  intro p hp
  rw [List.mem_singleton.mp hp]
  exact mem_staleTemps.mpr ⟨n, htemp, Disk.mem_list.mp hn, rfl⟩

/-- Whatever fails, some of the temporary segments are removed. -/
theorem wp_removeTempFiles_swept {A : Fault → Prop} : ∀ (names : List Name) (d' : Disk),
    names ⊆ d.list sd → Swept sd d d' →
      wp A (removeTempFiles sd names) (fun _ d' => Swept sd d d') d'
  | [], _, _, h => wp_pure h
  | n :: names, d', hsub, h => by
    rw [List.cons_subset] at hsub
    rw [removeTempFiles]
    split_ifs with hn
    · exact wp_bind (Fs.wp_removeFile
        (fun _ => wp_removeTempFiles_swept names _ hsub.2 (h.erase hsub.1 hn)) (fun _ => h)
        (fun _ _ => h) fun _ _ => h)
    · exact wp_removeTempFiles_swept names d' hsub.2 h

theorem wp_removeStaleTempFiles_swept {A : Fault → Prop} :
    wp A (removeStaleTempFiles sd) (fun _ d' => Swept sd d d') d :=
  wp_bind (Fs.wp_readDir (wp_removeTempFiles_swept _ d (List.Subset.refl _) swept_self)
    (fun _ _ => swept_self) fun _ _ => swept_self)

/-- Without faults all temporary files that are named are removed. -/
theorem run_removeTempFiles : ∀ (names : List Name) (d : Disk), names.Nodup →
    (∀ n ∈ names, (d.read (sd ++ [n])).isSome) → (removeTempFiles sd names).run d [] =
      (.ok (), d.eraseAll ((names.filter fun n => (parseTempSegmentGeneration n).isSome).map
        fun n => sd ++ [n]))
  | [], _, _, _ => rfl
  | n :: names, d, hnd, hthere => by
    rw [List.nodup_cons] at hnd
    have hrest : ∀ x ∈ names, (d.read (sd ++ [x])).isSome := fun x hx =>
      hthere x (List.mem_cons_of_mem _ hx)
    rw [removeTempFiles]
    split_ifs with hn
    · have hremove : (Fs.removeFile (sd ++ [n]) : Io Unit).run d [] =
          (.ok (), d.erase (sd ++ [n])) := by
        refine wp.run_nil_eq (Fs.wp_removeFile (fun _ _ => rfl) (fun h => ?_)
          (fun k hk => absurd hk (not_noFault_fail k)) fun _ _ hc => absurd rfl hc)
        have := hthere n List.mem_cons_self
        rw [h] at this
        cases this
      rw [run_bind_nil hremove, run_removeTempFiles names _ hnd.2 fun x hx => ?_,
        List.filter_cons, if_pos hn, List.map_cons, Disk.eraseAll_cons]
      have hne : x ≠ n := fun h => hnd.1 (h ▸ hx)
      rw [Disk.read_erase, if_neg fun h => hne (append_singleton_inj.mp h)]
      exact hrest x hx
    · rw [run_removeTempFiles names d hnd.2 hrest, List.filter_cons, if_neg hn]

theorem run_removeStaleTempFiles :
    (removeStaleTempFiles sd).run d [] = (.ok (), d.eraseAll (staleTemps sd d)) := by
  have hlist : (Fs.readDir sd : Io (List Name)).run d [] = (.ok (d.list sd), d) := rfl
  unfold removeStaleTempFiles
  rw [run_bind_nil hlist]
  exact run_removeTempFiles _ d Disk.nodup_list fun n hn => Disk.mem_list.mp hn

/-- What is left to remove after some of it. -/
theorem eraseAll_staleTemps {d' : Disk} (h : Swept sd d d') :
    d'.eraseAll (staleTemps sd d') = d.eraseAll (staleTemps sd d) := by
  obtain ⟨ps, hps, rfl⟩ := h
  rw [← Disk.eraseAll_of_subset hps]
  refine Disk.eraseAll_congr fun p hp => ?_
  have hthere : (d.read p).isSome := by
    rw [Disk.read_eraseAll] at hp
    split_ifs at hp with hmem
    · cases hp
    · exact hp
  rw [mem_staleTemps, mem_staleTemps]
  simp only [hp, hthere]

theorem reentrant_removeStaleTempFiles : Reentrant (.io .other) (removeStaleTempFiles sd) := by
  refine ⟨steady_removeStaleTempFiles, fun d l _ => ?_⟩
  have hwp : wp AnyFault (removeStaleTempFiles sd) (fun _ d' => Swept sd d d') d :=
    wp_removeStaleTempFiles_swept
  have hswept := hwp.run (l := l) fun _ _ => trivial
  rw [run_removeStaleTempFiles, run_removeStaleTempFiles, eraseAll_staleTemps hswept]

/-- There are no temporary segments left. -/
theorem staleTemps_of_settled (h : (removeStaleTempFiles sd).run d [] = (.ok (), d)) :
    staleTemps sd d = [] := by
  rw [run_removeStaleTempFiles] at h
  refine List.eq_nil_iff_forall_not_mem.mpr fun p hp => ?_
  obtain ⟨n, -, hthere, -⟩ := mem_staleTemps.mp hp
  have heq : d.eraseAll (staleTemps sd d) = d := congrArg Prod.snd h
  rw [← heq, Disk.read_eraseAll, if_pos hp] at hthere
  cases hthere

end Stale

/-! ## Recovery -/

section Recovery

variable {sd : Path} {d : Disk}

theorem steady_recoverPendingCompaction :
    Steady (.io .other) (recoverPendingCompaction sd) := by
  intro d l o d' hl hcr hio h
  have hwp : wp (· ≠ .deny) (recoverPendingCompaction sd) (fun o d' => o ≠ .crash →
      o ≠ .err (.io .other) → Outcome.ofExcept (recoveryPlan sd d).1 = o ∧
        d' = d.eraseAll (recoveryPlan sd d).2) d := by
    refine wp_recoverPendingCompaction_plan (not_not.mpr rfl) (fun _ _ => ⟨rfl, rfl⟩)
      fun _ o _ ho hcr hio => ?_
    rcases o with _ | e | _
    · exact ho.elim
    · exact absurd (congrArg _ ho.1) hio
    · exact absurd rfl hcr
  obtain ⟨ho, rfl⟩ := hwp.run_eq (fun f hf he => hl (he ▸ hf)) h hcr hio
  rw [run_recoverPendingCompaction, ho]

/-- **Recovery** can be started again. -/
theorem reentrant_recoverPendingCompaction : Reentrant (.io .other) (recoverPendingCompaction sd) := by
  refine ⟨steady_recoverPendingCompaction, fun d l hl => ?_⟩
  obtain ⟨ps, hps, heq⟩ := recover_cut (d := d) hl
  rw [heq]
  exact recover_again hps

/-- Recovery has nothing to do when there is no marker, and only then. -/
theorem recovered_iff : (recoverPendingCompaction sd).run d [] = (.ok (), d) ↔
    d.read (markerPath sd) = none ∧ d.read (markerTempPath sd) = none := by
  constructor
  · intro h
    have hmarker := marker_of_run h
    obtain ⟨-, heq⟩ := plan_of_run h
    have hplan : (recoveryPlan sd d).2 = [markerTempPath sd] := by
      unfold recoveryPlan
      rw [hmarker]
    rw [hplan] at heq
    refine ⟨hmarker, ?_⟩
    rw [heq, Disk.read_eraseAll, if_pos List.mem_cons_self]
  · rintro ⟨hmarker, htemp⟩
    have hplan : recoveryPlan sd d = (.ok (), [markerTempPath sd]) := by
      unfold recoveryPlan
      rw [hmarker]
    rw [run_recoverPendingCompaction, hplan]
    exact congrArg (Prod.mk _) (Disk.erase_of_none htemp)

/-- Recovery removes files of the directory. -/
theorem exists_of_mem_plan {p : Path} (hp : p ∈ (recoveryPlan sd d).2) : ∃ n, p = sd ++ [n] := by
  have hone : p ∈ [markerTempPath sd] → ∃ n, p = sd ++ [n] := fun h => ⟨_, List.mem_singleton.mp h⟩
  unfold recoveryPlan at hp
  split at hp
  · exact hone hp
  split at hp
  · exact hone hp
  split at hp
  · split at hp
    · exact hone hp
    · simp only [List.mem_append, List.mem_cons, List.not_mem_nil, or_false] at hp
      rcases hp with rfl | rfl | rfl <;> exact ⟨_, rfl⟩
  · split at hp
    · exact hone hp
    · simp only [List.mem_append, List.mem_cons, List.mem_map, List.not_mem_nil, or_false] at hp
      rcases hp with rfl | ⟨g, -, rfl⟩ | rfl | rfl <;> exact ⟨_, rfl⟩

end Recovery

/-! ## The log -/

section Log

variable {β : Type} {apply : β → Record → β} {path dir : Path} {d d' : Disk} {x : β} {bytes : Bytes}

/-- The log at `path` is as it was, or cut to its records. -/
def Tidied (path : Path) (d d' : Disk) : Prop :=
  d' = d ∨ ∃ rs h, LogOf (d.read path) rs ∧ d' = d.put path (logImage rs) h

theorem tidied_self : Tidied path d d := .inl rfl

theorem Tidied.touched (h : Tidied path d d') : d.Touched path d' := by
  obtain rfl | ⟨rs, h, -, rfl⟩ := h
  · exact Disk.touched_self
  · exact Disk.touched_put

theorem steady_truncateFileTo {n : ℕ} : Steady (.io .other) (Wal.truncateFileTo path n) :=
  steady_call.bind fun _ => steady_call.bind fun _ => steady_call

theorem steady_replayLoop : ∀ turns offset n k : ℕ,
    Steady (.io .other) (Wal.replayLoop apply path bytes turns offset n k)
  | 0, _, _, _ => steady_pure
  | turns + 1, offset, n, k => by
    rw [Wal.replayLoop]
    refine steady_ite (fun _ => ?_) fun _ => steady_pure
    split
    · have hrest : ∀ record consumed, Steady (.io .other) (do
          Prog.modify fun s => (apply s.1 record, s.2)
          let offset ← Prog.ofExcept
            (okOr (checkedAdd offset consumed) (.corruptRecord "WAL replay offset overflow"))
          Wal.replayLoop apply path bytes turns offset (n + 1) offset) := fun record consumed =>
        steady_modify.bind fun _ => steady_ofExcept.bind fun _ => steady_replayLoop turns _ _ _
      exact steady_ite (fun _ => steady_throw.bind fun _ => hrest _ _) fun _ => hrest _ _
    · exact steady_truncateFileTo.onSnd.bind fun _ => steady_pure
    · exact steady_throw

theorem steady_replay : Steady (.io .other) (Wal.replay apply path) :=
  steady_ask.onSnd.bind fun _ => steady_ite (fun _ => steady_pure) fun _ =>
    steady_call.onSnd.bind fun _ => steady_ite (fun _ => steady_pure) fun _ =>
      steady_replayLoop _ _ _ _

theorem steady_openWal : Steady (.io .other) (Wal.open path) :=
  have hrest : Steady (.io .other) (do
      Fs.openCreate path
      return ⟨path⟩ : Io Wal) := steady_call.bind fun _ => steady_pure
  steady_ite (fun _ => steady_call.bind fun _ => hrest) fun _ => hrest

/-- Whatever fails, replaying a log leaves it as it was, or cuts it to its records. -/
theorem wp_replay_tidied {A : Fault → Prop} :
    wp A (Wal.replay apply path) (fun _ s => Tidied path d s.2) (x, d) := by
  refine wp_bind (wp_onSnd (Fs.wp_pathExists ?_ (fun _ => wp_pure tidied_self)
    fun _ _ => tidied_self))
  dsimp only [Outcome.andThen]
  split_ifs
  · refine wp_bind (wp_onSnd (Fs.wp_readFile (fun b hb => ?_) (fun _ => tidied_self)
      (fun _ _ => tidied_self) fun _ _ => tidied_self))
    dsimp only [Outcome.andThen]
    split_ifs
    · exact wp_pure tidied_self
    obtain ⟨rs, t, e, rfl, hrs, hdec⟩ := exists_logImage b
    refine Wal.wp_replayLoop (Disk.length_le_of_read hb) rs _ 0 0 x hrs rfl (by omega) fun turns _ => ?_
    rw [Nat.zero_add, Nat.zero_add]
    rcases turns with _ | turns
    · exact wp_pure tidied_self
    -- what is behind the records is cut off when it is reported as truncated
    rw [Wal.replayLoop]
    split_ifs
    · rw [List.drop_left, hdec]
      split
      · cases ‹_›
      · rename_i n a heq
        cases heq
        have hcut : (logImage rs ++ t).take (logImage rs).length = logImage rs := List.take_left
        have htidied : ∀ h, Tidied path d (d.put path (logImage rs) h) := fun h =>
          .inr ⟨rs, h, ⟨t, by rw [hb]; exact ⟨rfl, hrs, .inr ⟨n, a, hdec⟩⟩⟩, rfl⟩
        refine wp_bind (wp_onSnd (wp_bind (Fs.wp_openWrite (fun _ => ?_) (fun _ => tidied_self)
          (fun _ _ => tidied_self) fun _ _ => tidied_self)))
        refine wp_bind (Fs.wp_setLen hb (by simp) (fun h => ?_) (fun _ _ => tidied_self)
          fun _ _ => tidied_self)
        simp only [hcut] at h ⊢
        exact Fs.wp_touch (wp_pure (htidied h)) (fun _ _ => htidied h) fun _ _ => htidied h
      · exact wp_throw tidied_self
    · exact wp_pure tidied_self
  · exact wp_pure tidied_self

/-- What `open_with_threshold` does with the log. -/
def openLog (dir : Path) (t : ℕ) (x : List SegmentReader × ℕ) : Io Store := do
  let (_stats, memtable) ← Prog.withLocal Memtable.new (Wal.replay applyRecord (walPathOf dir))
  let wal ← Wal.open (walPathOf dir)
  return ⟨dir, wal, memtable, x.1, x.2, t⟩

variable {t : ℕ} {y : List SegmentReader × ℕ} {rs : List Record}

theorem steady_openLog : Steady (.io .other) (openLog dir t y) :=
  steady_replay.withLocal.bind fun _ => steady_openWal.bind fun _ => steady_pure

theorem logOf_none : LogOf none rs ↔ rs = [] := by
  constructor
  · rintro ⟨t, heq, -⟩
    exact logImage_eq_nil.mp (List.append_eq_nil_iff.mp heq.symm).1
  · rintro rfl
    exact ⟨[], rfl, by simp, .inl rfl⟩

theorem logOf_image (h : ∀ r ∈ rs, r.Valid) : LogOf (some (logImage rs)) rs :=
  ⟨[], (List.append_nil _).symm, h, .inl rfl⟩

theorem LogOf.valid {w : Option Bytes} (h : LogOf w rs) : ∀ r ∈ rs, r.Valid := by
  obtain ⟨t, h⟩ := h
  exact IsLog.valid h

/-- The records of a log are those that a replay collects. -/
theorem LogOf.unique {rs' : List Record} (h : LogOf (d.read path) rs) (h' : LogOf (d.read path) rs') :
    rs = rs' := by
  rcases hw : d.read path with _ | b
  · rw [hw, logOf_none] at h h'
    rw [h, h']
  · rw [hw] at h h'
    obtain ⟨t, h⟩ := h
    obtain ⟨t', h'⟩ := h'
    have hcollect : ∀ l : List Record, l.foldl (fun l r => l ++ [r]) [] = l := fun l => by
      rw [List.foldl_append_eq_append, ← List.flatMap_def, List.flatMap_singleton', List.nil_append]
    obtain ⟨d₁, -, -, hrun⟩ := replay_of_isLog (fun l r => l ++ [r]) hw h
    obtain ⟨d₂, -, -, hrun'⟩ := replay_of_isLog (fun l r => l ++ [r]) hw h'
    have hsame := congrArg (fun x => x.2.1) ((hrun []).symm.trans (hrun' []))
    dsimp only at hsame
    rwa [hcollect, hcollect] at hsame

/-- Whatever fails, the log is as it was, or cut to its records. -/
theorem wp_openLog_tidied {A : Fault → Prop} :
    wp A (openLog dir t y) (fun _ d' => Tidied (walPathOf dir) d d') d := by
  refine wp_bind (wp_withLocal (wp_replay_tidied.mono ?_))
  rintro (_ | _ | _) ⟨m, d'⟩ h
  · refine wp_bind (wp_openWal (fun hn => wp_pure ?_) (fun _ => wp_pure h) (fun _ => h) h)
    obtain rfl | ⟨rs, _, -, rfl⟩ := h
    · exact .inr ⟨[], Nat.zero_le _, by rw [hn]; exact logOf_none.mpr rfl, rfl⟩
    · rw [Disk.read_put, if_pos rfl] at hn
      cases hn
  · exact h
  · exact h

/-- The log of the records `rs` is opened. -/
theorem run_openLog (hlog : LogOf (d.read (walPathOf dir)) rs)
    (h : (logImage rs).length ≤ maxFileLen) : (openLog dir t y).run d [] =
      (.ok ⟨dir, ⟨walPathOf dir⟩, memtableOf rs, y.1, y.2, t⟩, d.put (walPathOf dir) (logImage rs) h) := by
  unfold openLog
  rcases hw : d.read (walPathOf dir) with _ | b
  · rw [hw, logOf_none] at hlog
    subst hlog
    have hreplay : (Prog.withLocal Memtable.new (Wal.replay applyRecord (walPathOf dir))).run d [] =
        (.ok (.default, .new), d) :=
      run_withLocal (wp.run_nil_eq (Wal.wp_replay_none hw reliable_noFault (fun _ => rfl)
        fun hc => absurd rfl hc))
    have hopen : (Wal.open (walPathOf dir)).run d [] =
        (.ok ⟨walPathOf dir⟩, d.put (walPathOf dir) [] h) :=
      wp.run_nil_eq (wp_openWal (fun _ _ => rfl) (fun hs => by rw [hw] at hs; cases hs)
        (fun ⟨n, hn⟩ => absurd hn (not_noFault_fail n)) fun hc => absurd rfl hc)
    rw [run_bind_nil hreplay, run_bind_nil hopen]
    rfl
  · rw [hw] at hlog
    obtain ⟨t', hlog⟩ := hlog
    obtain rfl : b = logImage rs ++ t' := hlog.eq
    have hreplay : (Wal.replay applyRecord (walPathOf dir)).run (.new, d) [] =
        (.ok ⟨rs.length, (logImage rs).length, t'.length⟩,
          (memtableOf rs, d.put (walPathOf dir) (logImage rs) h)) :=
      wp.run_nil_eq (Wal.wp_replay hw hlog.valid hlog.decode reliable_noFault (fun _ _ => rfl)
        (fun _ hc => absurd rfl hc) fun _ _ hc => absurd rfl hc)
    have hthere : (d.put (walPathOf dir) (logImage rs) h).read (walPathOf dir) = some (logImage rs) := by
      rw [Disk.read_put, if_pos rfl]
    rw [run_bind_nil (run_withLocal hreplay), run_bind_nil (open_run hthere)]
    rfl

theorem reentrant_openLog : Reentrant (.io .other) (openLog dir t y) := by
  refine ⟨steady_openLog, fun d l _ => ?_⟩
  have hwp : wp AnyFault (openLog dir t y) (fun _ d' => Tidied (walPathOf dir) d d') d :=
    wp_openLog_tidied
  obtain heq | ⟨rs, h, hlog, heq⟩ := hwp.run (l := l) fun _ _ => trivial
  · rw [heq]
  · have hcut : LogOf ((d.put (walPathOf dir) (logImage rs) h).read (walPathOf dir)) rs := by
      rw [Disk.read_put, if_pos rfl]
      exact logOf_image hlog.valid
    rw [heq, run_openLog hlog h, run_openLog hcut h, Disk.put_put]

end Log

/-! ## Loading -/

section Load

variable {sd dir : Path} {d d' : Disk}

theorem steady_openSegments : ∀ xs : List (ℕ × Path), Steady (.io .other) (openSegments xs)
  | [] => steady_pure
  | _ :: xs => (steady_call.bind fun _ => steady_ofExcept).bind fun _ =>
      (steady_openSegments xs).bind fun _ => steady_pure

theorem steady_loadSegments : Steady (.io .other) (loadSegments sd) := by
  refine steady_call.bind fun _ => steady_ofExcept.bind fun _ => ?_
  dsimp only
  split
  · exact steady_throw
  · exact steady_ofExcept.bind fun _ => (steady_openSegments _).bind fun _ => steady_pure

theorem reentrant_loadSegments : Reentrant (.io .other) (loadSegments sd) :=
  steady_loadSegments.reentrant fun d l => by
    have hwp : wp AnyFault (loadSegments sd) (fun _ d' => d' = d) d :=
      wp_loadSegments (fun _ _ _ _ _ _ => rfl) (fun _ _ => rfl) rfl
    exact hwp.run fun _ _ => trivial

/-- Loading does not see the log. -/
theorem Tidied.run_loadSegments {x : List SegmentReader × ℕ} (h : Tidied (walPathOf dir) d d')
    (hload : (loadSegments (segmentsDirOf dir)).run d [] = (.ok x, d)) :
    (loadSegments (segmentsDirOf dir)).run d' [] = (.ok x, d') := by
  have halike : (Region.files (Beside dir) ∅).alike d d' := by
    refine ⟨?_, ?_⟩
    · rintro p (⟨n, rfl⟩ | hp)
      · exact (h.touched _ segmentsDir_ne_wal).symm
      · exact hp.elim
    · obtain rfl | ⟨rs, _, -, rfl⟩ := h <;> rfl
  have hsame : ((loadSegments (segmentsDirOf dir)).run d []).1 =
    ((loadSegments (segmentsDirOf dir)).run d' []).1 := (contained_loadSegments d d' [] halike).outcome
  rw [hload] at hsame
  have hrun : (loadSegments (segmentsDirOf dir)).run d' [] =
    (.ok x, ((loadSegments (segmentsDirOf dir)).run d' []).2) := Prod.ext hsame.symm rfl
  exact hrun.trans (congrArg (Prod.mk _) (StoneKV.loadSegments_run hrun))

end Load

/-! ## Opening -/

section Open

variable {A : Fault → Prop} {dir : Path} {d d' : Disk} {t : ℕ}

/-- `open_with_threshold` from the loading of the segments on. -/
def loadAndLog (dir : Path) (t : ℕ) : Io Store := do
  let x ← loadSegments (segmentsDirOf dir)
  openLog dir t x

/-- `open_with_threshold` from the removal of temporary segments on. -/
def sweepAndLoad (dir : Path) (t : ℕ) : Io Store := do
  removeStaleTempFiles (segmentsDirOf dir)
  loadAndLog dir t

theorem openWithThreshold_parts : Store.openWithThreshold dir t = (do
    Fs.touch
    Fs.touch
    recoverPendingCompaction (segmentsDirOf dir)
    sweepAndLoad dir t) := rfl

theorem wp_loadAndLog_tidied :
    wp A (loadAndLog dir t) (fun _ d' => Tidied (walPathOf dir) d d') d :=
  wp_bind (wp_loadSegments (fun _ _ _ _ _ _ => wp_openLog_tidied) (fun _ _ => tidied_self) tidied_self)

theorem reentrant_loadAndLog : Reentrant (.io .other) (loadAndLog dir t) := by
  refine reentrant_loadSegments.bind (fun _ => reentrant_openLog) fun x d l _ hload => ?_
  have hwp : wp AnyFault (openLog dir t x) (fun _ d' => Tidied (walPathOf dir) d d') d :=
    wp_openLog_tidied
  exact (hwp.run fun _ _ => trivial).run_loadSegments hload

/-- Whatever fails, temporary segments are removed and the log is cut to its records. -/
theorem wp_sweepAndLoad : wp A (sweepAndLoad dir t) (fun _ d' => ∃ d₁,
    Swept (segmentsDirOf dir) d d₁ ∧ Tidied (walPathOf dir) d₁ d') d := by
  refine FaultProg.wp.bind wp_removeStaleTempFiles_swept (fun _ d₁ h => ?_)
    (fun _ d₁ h => ⟨d₁, h, tidied_self⟩) fun d₁ h => ⟨d₁, h, tidied_self⟩
  exact wp_loadAndLog_tidied.mono fun _ _ ht => ⟨d₁, h, ht⟩

theorem reentrant_sweepAndLoad : Reentrant (.io .other) (sweepAndLoad dir t) := by
  refine reentrant_removeStaleTempFiles.bind (fun _ => reentrant_loadAndLog) fun _ d l _ hswept => ?_
  have hwp : wp AnyFault (loadAndLog dir t) (fun _ d' => Tidied (walPathOf dir) d d') d :=
    wp_loadAndLog_tidied
  have htidied := hwp.run (l := l) fun _ _ => trivial
  have hnone := staleTemps_of_settled hswept
  have hnone' : staleTemps (segmentsDirOf dir) ((loadAndLog dir t).run d l).2 = [] := by
    refine List.eq_nil_iff_forall_not_mem.mpr fun p hp => ?_
    obtain ⟨n, hn, hthere, rfl⟩ := mem_staleTemps.mp hp
    rw [htidied.touched _ segmentsDir_ne_wal] at hthere
    have hmem := mem_staleTemps.mpr ⟨n, hn, hthere, rfl⟩
    rw [hnone] at hmem
    cases hmem
  rw [run_removeStaleTempFiles, hnone']
  rfl

theorem reentrant_recoverAndLoad : Reentrant (.io .other) (do
    recoverPendingCompaction (segmentsDirOf dir)
    sweepAndLoad dir t) := by
  refine reentrant_recoverPendingCompaction.bind (fun _ => reentrant_sweepAndLoad)
    fun _ d l _ hrecovered => ?_
  have hwp : wp AnyFault (sweepAndLoad dir t) (fun _ d' => ∃ d₁,
      Swept (segmentsDirOf dir) d d₁ ∧ Tidied (walPathOf dir) d₁ d') d := wp_sweepAndLoad
  obtain ⟨d₁, ⟨ps, -, hswept⟩, htidied⟩ := hwp.run (l := l) fun _ _ => trivial
  -- what is not there is not there afterwards
  have hnone : ∀ n, d.read (segmentsDirOf dir ++ [n]) = none →
      ((sweepAndLoad dir t).run d l).2.read (segmentsDirOf dir ++ [n]) = none := fun n hn => by
    rw [htidied.touched _ segmentsDir_ne_wal, hswept, Disk.read_eraseAll, hn, ite_self]
  obtain ⟨hmarker, htemp⟩ := recovered_iff.mp hrecovered
  exact recovered_iff.mpr ⟨hnone _ hmarker, hnone _ htemp⟩

/-- **`open` can be started again.** -/
theorem reentrant_openWithThreshold : Reentrant (.io .other) (Store.openWithThreshold dir t) := by
  have htouch : Reentrant (.io .other) (Fs.touch : Io Unit) := steady_call.reentrant Fs.run_touch
  rw [openWithThreshold_parts]
  exact htouch.bind (fun _ => htouch.bind (fun _ => reentrant_recoverAndLoad) fun _ _ _ _ _ => rfl)
    fun _ _ _ _ _ => rfl

/-- What `open` does to the disk does not depend on the threshold. -/
theorem open_run_state (t t' : ℕ) (d : Disk) (l : List Fault) :
    ((Store.openWithThreshold dir t).run d l).2 = ((Store.openWithThreshold dir t').run d l).2 := by
  have hlog : ∀ x d l, ((openLog dir t x).run d l).2 = ((openLog dir t' x).run d l).2 := fun x =>
    run_bind_state_congr fun _ => run_bind_state_congr fun _ _ _ => rfl
  have hload : ∀ d l, ((sweepAndLoad dir t).run d l).2 = ((sweepAndLoad dir t').run d l).2 :=
    run_bind_state_congr fun _ => run_bind_state_congr hlog
  rw [openWithThreshold_parts, openWithThreshold_parts]
  exact run_bind_state_congr (fun _ => run_bind_state_congr fun _ =>
    run_bind_state_congr fun _ => hload) d l

/-- Files are removed, and the log is as it was or cut to its records. -/
structure Reduced (dir : Path) (d d' : Disk) : Prop where
  files : ∀ p ≠ walPathOf dir, d'.read p = d.read p ∨ d'.read p = none
  log : d'.read (walPathOf dir) = d.read (walPathOf dir) ∨
    ∃ rs, LogOf (d.read (walPathOf dir)) rs ∧ d'.read (walPathOf dir) = some (logImage rs)

theorem reduced_eraseAll {ps : List Path} (h : walPathOf dir ∉ ps) : Reduced dir d (d.eraseAll ps) := by
  refine ⟨fun p _ => ?_, .inl ?_⟩
  · rw [Disk.read_eraseAll]
    split_ifs
    · exact .inr rfl
    · exact .inl rfl
  · rw [Disk.read_eraseAll, if_neg h]

theorem reduced_self : Reduced dir d d := by
  show Reduced dir d (d.eraseAll [])
  exact reduced_eraseAll List.not_mem_nil

theorem Reduced.trans {d'' : Disk} (h : Reduced dir d d') (h' : Reduced dir d' d'') :
    Reduced dir d d'' := by
  refine ⟨fun p hp => ?_, ?_⟩
  · rcases h'.files p hp with heq | hnone
    · rw [heq]
      exact h.files p hp
    · exact .inr hnone
  · rcases h.log with heq | ⟨rs, hlog, heq⟩
    · rw [← heq]
      exact h'.log
    · -- whole records are not cut again
      refine .inr ⟨rs, hlog, ?_⟩
      rcases h'.log with heq' | ⟨rs', hlog', heq'⟩
      · rw [heq', heq]
      · have himage : LogOf (d'.read (walPathOf dir)) rs := by
          rw [heq]
          exact logOf_image hlog.valid
        rw [heq', hlog'.unique himage]

theorem reduced_of_dir {ps : List Path} (h : ∀ p ∈ ps, ∃ n, p = segmentsDirOf dir ++ [n]) :
    Reduced dir d (d.eraseAll ps) := by
  refine reduced_eraseAll fun hwal => ?_
  obtain ⟨n, hn⟩ := h _ hwal
  exact segmentsDir_ne_wal hn.symm

theorem Tidied.reduced (h : Tidied (walPathOf dir) d d') : Reduced dir d d' := by
  refine ⟨fun p hp => .inl (h.touched p hp), ?_⟩
  obtain rfl | ⟨rs, _, hlog, rfl⟩ := h
  · exact .inl rfl
  · exact .inr ⟨rs, hlog, by rw [Disk.read_put, if_pos rfl]⟩

/-- **An attempt to open** removes files and cuts the log to its records. -/
theorem reduced_open {l : List Fault} (hl : .deny ∉ l) :
    Reduced dir d ((Store.openWithThreshold dir t).run d l).2 := by
  have hself : Reduced dir d d := reduced_self
  have hplan : ∀ ps ⊆ (recoveryPlan (segmentsDirOf dir) d).2, Reduced dir d (d.eraseAll ps) :=
    fun ps hps => reduced_of_dir fun p hp => exists_of_mem_plan (hps hp)
  have hrecover : wp (· ≠ .deny) (recoverPendingCompaction (segmentsDirOf dir))
      (fun _ d' => Reduced dir d d') d :=
    wp_recoverPendingCompaction_plan (not_not.mpr rfl) (hplan _ (List.Subset.refl _))
      fun ps _ hps _ => hplan ps hps.subset
  have hrest : wp (· ≠ .deny) (Store.openWithThreshold dir t) (fun _ d' => Reduced dir d d') d := by
    rw [openWithThreshold_parts]
    refine wp_bind (Fs.wp_touch ?_ (fun _ _ => hself) fun _ _ => hself)
    refine wp_bind (Fs.wp_touch ?_ (fun _ _ => hself) fun _ _ => hself)
    refine FaultProg.wp.bind hrecover (fun _ d₂ h => ?_) (fun _ _ h => h) fun _ h => h
    refine wp_sweepAndLoad.mono ?_
    rintro _ d' ⟨_, ⟨ps, hps, rfl⟩, htidied⟩
    refine h.trans (Reduced.trans (reduced_of_dir fun p hp => ?_) htidied.reduced)
    obtain ⟨n, -, -, rfl⟩ := mem_staleTemps.mp (hps hp)
    exact ⟨n, rfl⟩
  exact hrest.run fun f hf he => hl (he ▸ hf)

/-- The disk after attempts to open the store at `dir`, each with its threshold and its faults. -/
def afterOpenings (dir : Path) (ws : List (ℕ × List Fault)) (d : Disk) : Disk :=
  ws.foldl (fun d w => ((Store.openWithThreshold dir w.1).run d w.2).2) d

/-- What is removed or cut is also removed or cut by what comes later. -/
theorem Reduced.between {d'' : Disk} (h : Reduced dir d d') (h' : Reduced dir d' d'') (p : Path) :
    d'.read p = d.read p ∨ d'.read p = d''.read p := by
  by_cases hp : p = walPathOf dir
  · subst hp
    rcases h.log with heq | ⟨rs, hlog, heq⟩
    · exact .inl heq
    · rcases h'.log with heq' | ⟨rs', hlog', heq'⟩
      · exact .inr heq'.symm
      · have himage : LogOf (d'.read (walPathOf dir)) rs := by
          rw [heq]
          exact logOf_image hlog.valid
        exact .inr (by rw [heq', hlog'.unique himage, heq])
  · rcases h.files p hp with heq | hnone
    · exact .inl heq
    · refine .inr ?_
      rcases h'.files p hp with heq | hnone'
      · exact heq.symm
      · rw [hnone, hnone']

/-- **Opening is re-entrant.** On any disk, after any attempts to open the store at `dir`, each of
which may have returned, failed or died at any operation: `open` ends as it would have at first, with
the same store or error and the same disk; and until then every file is as it was at first, or as
`open` leaves it. -/
theorem open_reentrant (dir : Path) (ws : List (ℕ × List Fault)) (hws : ∀ w ∈ ws, .deny ∉ w.2)
    (d : Disk) (t : ℕ) :
    (Store.openWithThreshold dir t).run (afterOpenings dir ws d) [] =
        (Store.openWithThreshold dir t).run d [] ∧
      ∀ p, (afterOpenings dir ws d).read p = d.read p ∨
        (afterOpenings dir ws d).read p = ((Store.openWithThreshold dir t).run d []).2.read p := by
  have hfold : ∀ d, afterOpenings dir ws d =
      (ws.map Prod.snd).foldl (fun d l => ((Store.openWithThreshold dir t).run d l).2) d := fun d => by
    unfold afterOpenings
    rw [List.foldl_map]
    exact List.foldl_ext _ _ d fun d w _ => open_run_state w.1 t d w.2
  have hagain : (Store.openWithThreshold dir t).run (afterOpenings dir ws d) [] =
      (Store.openWithThreshold dir t).run d [] := by
    rw [hfold]
    refine reentrant_openWithThreshold.after _ (fun l hl => ?_) d
    obtain ⟨w, hw, rfl⟩ := List.mem_map.mp hl
    exact hws w hw
  have hreduced : Reduced dir d (afterOpenings dir ws d) := by
    unfold afterOpenings
    clear hfold hagain
    induction ws using List.reverseRecOn with
    | nil => exact reduced_self
    | append_singleton ws w ih =>
      rw [List.foldl_append]
      exact (ih fun w hw => hws w (List.mem_append_left _ hw)).trans
        (reduced_open (hws w (List.mem_append_right _ List.mem_cons_self)))
  refine ⟨hagain, hreduced.between ?_⟩
  rw [← hagain]
  exact reduced_open List.not_mem_nil

/-- A log with the first byte of a record. -/
def tornLogDisk : Disk := Disk.empty.put (walPathOf [['d']]) [0] (by decide)

/-- An attempt that dies, one that fails, and one that returns. -/
def threeOpenings : List (ℕ × List Fault) :=
  [(0, [.none, .none, .crash 0]), (7, [.none, .fail 0]), (0, [])]

theorem open_reentrant_torn :
    (Store.openWithThreshold [['d']] 0).run (afterOpenings [['d']] threeOpenings tornLogDisk) [] =
        (Store.openWithThreshold [['d']] 0).run tornLogDisk [] ∧
      ∀ p, (afterOpenings [['d']] threeOpenings tornLogDisk).read p = tornLogDisk.read p ∨
        (afterOpenings [['d']] threeOpenings tornLogDisk).read p =
          ((Store.openWithThreshold [['d']] 0).run tornLogDisk []).2.read p :=
  open_reentrant _ threeOpenings (by decide) _ _

end Open

end StoneKV
