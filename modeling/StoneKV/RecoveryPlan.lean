import StoneKV.Flush

/-!
# What recovery removes

* `recoveryPlan`: the outcome of recovery and the files that it tries to remove, in order, as one
  function of the directory; `recoveryRemovals`: those that are there.
* `wp_recoverPendingCompaction_plan`: recovery follows the plan, up to where it is cut.
* `recoveryPlan_eraseAll`: while the marker is there, the plan stays what it was.
* `wp_recoverPendingCompaction_own`: recovery removes no other files, whatever fails.
* **`recovery_reentrant`**: recovery that starts again ends as it would have.
-/

namespace StoneKV

open FaultProg

/-- The outcome of recovery and the files that it tries to remove, in order. -/
def recoveryPlan (segmentsDir : Path) (d : Disk) : Except StoneError Unit × List Path :=
  match d.read (markerPath segmentsDir) with
  | none => (.ok (), [markerTempPath segmentsDir])
  | some bytes =>
    match parseMarkerBytes (markerPath segmentsDir) bytes with
    | .error e => (.error e, [markerTempPath segmentsDir])
    | .ok m =>
      match d.read (segmentPath segmentsDir m.outputGeneration) with
      | none =>
        match m.oldGenerations.find? fun g => (d.read (segmentPath segmentsDir g)).isNone with
        | some g => (.error (.other ("cannot roll back interrupted compaction: " ++
            s!"old segment {g} is missing")), [markerTempPath segmentsDir])
        | none => (.ok (), [markerTempPath segmentsDir] ++
            [segmentTempPath segmentsDir m.outputGeneration, markerPath segmentsDir])
      | some file =>
        match SegmentReader.openIn (segmentPath segmentsDir m.outputGeneration) m.outputGeneration
          file with
        | .error e => (.error e, [markerTempPath segmentsDir])
        | .ok _ => (.ok (), [markerTempPath segmentsDir] ++
            (m.oldGenerations.map (segmentPath segmentsDir) ++
              [segmentTempPath segmentsDir m.outputGeneration, markerPath segmentsDir]))

/-- The files that recovery removes, in order. -/
def recoveryRemovals (segmentsDir : Path) (d : Disk) : List Path :=
  (recoveryPlan segmentsDir d).2.filter fun p => (d.read p).isSome

/-- The files that recovery may remove: the markers; what the marker names as the temporary file of
its output; and, when the output is there and opens, the old segments that it names. -/
def RecoveryOwns (segmentsDir : Path) (d : Disk) (p : Path) : Prop :=
  p = markerPath segmentsDir ∨ p = markerTempPath segmentsDir ∨
    ∃ bytes m, d.read (markerPath segmentsDir) = some bytes ∧
      parseMarkerBytes (markerPath segmentsDir) bytes = .ok m ∧
      (p = segmentTempPath segmentsDir m.outputGeneration ∨
        (∃ g ∈ m.oldGenerations, p = segmentPath segmentsDir g) ∧
          ∃ file r, d.read (segmentPath segmentsDir m.outputGeneration) = some file ∧
            SegmentReader.openIn (segmentPath segmentsDir m.outputGeneration) m.outputGeneration
              file = .ok r)

section Paths

variable {sd : Path} {g g' : ℕ}

theorem segmentPath_injective (h : segmentPath sd g = segmentPath sd g') : g = g' :=
  segmentFilename_injective (List.singleton_injective (List.append_cancel_left h))

theorem segmentPath_ne_marker : segmentPath sd g ≠ markerPath sd := fun h =>
  segmentFilename_ne_marker (List.singleton_injective (List.append_cancel_left h))

theorem segmentPath_ne_markerTemp : segmentPath sd g ≠ markerTempPath sd := fun h =>
  not_isScratchName_segment (List.singleton_injective (List.append_cancel_left h) ▸
    isScratchName_markerTemp)

theorem segmentPath_ne_temp : segmentPath sd g ≠ segmentTempPath sd g' := fun h =>
  segmentFilename_ne_temp (List.singleton_injective (List.append_cancel_left h))

theorem segmentTempPath_ne_marker : segmentTempPath sd g ≠ markerPath sd := fun h =>
  segmentTempFilename_ne_marker (List.singleton_injective (List.append_cancel_left h))

theorem segmentTempPath_ne_markerTemp : segmentTempPath sd g ≠ markerTempPath sd := fun h =>
  segmentTempFilename_ne_markerTemp (List.singleton_injective (List.append_cancel_left h))

theorem markerTempPath_ne_marker : markerTempPath sd ≠ markerPath sd := fun h =>
  absurd (List.singleton_injective (List.append_cancel_left h)) (by decide)

end Paths

/-! ## Recovery follows the plan -/

section Follow

variable {A : Fault → Prop} {sd p : Path} {d : Disk} {ps : List Path} {m : CompactionMarker}
  {Q : Outcome StoneError Unit → Disk → Prop}

/-- A file that is removed if it is there is gone. -/
theorem wp_removeIfExists_erase (hA : ¬ A .deny) (hok : Q (.ok ()) (d.erase p))
    (herr : CanFail A → Q (.err (.io .other)) d) (hcr : Q .crash d) :
    wp A (removeIfExists p) Q d := by
  refine wp_removeIfExists (fun _ => hok) (fun h => ?_) herr hcr
  rw [Disk.erase_of_none (h.resolve_right hA)] at hok
  exact hok

/-- A run with an outcome of its own that was cut: the process died or a call failed. -/
def Cut (A : Fault → Prop) : Outcome StoneError Unit → Prop
  | .ok _ => False
  | .err e => e = .io .other ∧ CanFail A
  | .crash => True

theorem Cut.andThen {o : Outcome StoneError Unit} {f : Unit → Disk → Prop} (ho : Cut A o)
    (h : Q o d) : Outcome.andThen f Q o d := by
  cases o with
  | ok a => cases ho
  | err e => exact h
  | crash => exact h

theorem cut_err (h : CanFail A) : Cut A (.err (.io .other)) := ⟨rfl, h⟩

theorem wp_removeOldSegments_erase (hA : ¬ A .deny) : ∀ (gs : List ℕ) (d : Disk),
    Q (.ok ()) (d.eraseAll (gs.map (segmentPath sd))) →
    (∀ ps o, ps <+: gs.map (segmentPath sd) → Cut A o → Q o (d.eraseAll ps)) →
    wp A (removeOldSegments sd gs) Q d
  | [], _, hok, _ => wp_pure hok
  | g :: gs, d, hok, hcut => by
    refine wp_bind (wp_removeIfExists_erase hA ?_
      (fun h => hcut [] _ (List.nil_prefix) (cut_err h)) (hcut [] _ (List.nil_prefix) trivial))
    refine wp_removeOldSegments_erase hA gs (d.erase (segmentPath sd g)) hok fun ps o hps ho => ?_
    exact hcut (segmentPath sd g :: ps) o (List.prefix_cons_inj _ |>.mpr hps) ho

/-- The first of the old segments that is missing, if any, is reported. -/
theorem wp_requireOldSegments_find (hA : ¬ A .deny) (hcut : ∀ o, Cut A o → Q o d) :
    ∀ gs : List ℕ,
    (gs.find? (fun g => (d.read (segmentPath sd g)).isNone) = none → Q (.ok ()) d) →
    (∀ g, gs.find? (fun g => (d.read (segmentPath sd g)).isNone) = some g →
      Q (.err (.other ("cannot roll back interrupted compaction: " ++
        s!"old segment {g} is missing"))) d) → wp A (requireOldSegments sd gs) Q d
  | [], hok, _ => wp_pure (hok rfl)
  | g :: gs, hok, herr => by
    refine wp_bind (Fs.wp_pathExists ?_ (fun h => absurd h hA) fun _ _ => hcut _ trivial)
    dsimp only [Outcome.andThen]
    rw [List.find?_cons] at hok herr
    by_cases hex : (d.read (segmentPath sd g)).isSome
    · rw [if_neg (not_not.mpr hex)]
      rw [show (d.read (segmentPath sd g)).isNone = false by
        rw [← Option.not_isSome, hex]; rfl] at hok herr
      exact wp_requireOldSegments_find hA hcut gs hok herr
    · rw [if_pos hex]
      rw [show (d.read (segmentPath sd g)).isNone = true by
        rw [← Option.not_isSome, Bool.eq_false_iff.mpr hex]; rfl] at herr
      exact wp_bind (wp_throw (herr g rfl))

theorem wp_endRecovery (hA : ¬ A .deny) {temp : Path} (hne : temp ≠ markerPath sd)
    (hmarker : (d.read (markerPath sd)).isSome)
    (hok : Q (.ok ()) (d.eraseAll [temp, markerPath sd]))
    (hcut : ∀ ps o, ps <+: [temp, markerPath sd] → Cut A o → Q o (d.eraseAll ps)) :
    wp A (do
      removeIfExists temp
      Fs.removeFile (markerPath sd)) Q d := by
  refine wp_bind (wp_removeIfExists_erase hA ?_
    (fun h => hcut [] _ List.nil_prefix (cut_err h)) (hcut [] _ List.nil_prefix trivial))
  have hone : [temp] <+: [temp, markerPath sd] := List.prefix_append [temp] [markerPath sd]
  refine Fs.wp_removeFile (fun _ => hok) (fun hn => ?_)
    (fun n hn => hcut [temp] _ hone (cut_err ⟨n, hn⟩)) fun _ _ => hcut [temp] _ hone trivial
  rw [Disk.read_erase, if_neg hne.symm] at hn
  rw [hn] at hmarker
  cases hmarker

theorem wp_rollBack_plan (hA : ¬ A .deny) (hmarker : (d.read (markerPath sd)).isSome)
    (hok : (m.oldGenerations.find? fun g => (d.read (segmentPath sd g)).isNone) = none →
      Q (.ok ()) (d.eraseAll [segmentTempPath sd m.outputGeneration, markerPath sd]))
    (herr : ∀ g, (m.oldGenerations.find? fun g => (d.read (segmentPath sd g)).isNone) = some g →
      Q (.err (.other ("cannot roll back interrupted compaction: " ++
        s!"old segment {g} is missing"))) d)
    (hcut : ∀ o, Cut A o → Q o d)
    (hcut' : (m.oldGenerations.find? fun g => (d.read (segmentPath sd g)).isNone) = none →
      ∀ ps o, ps <+: [segmentTempPath sd m.outputGeneration, markerPath sd] → Cut A o →
        Q o (d.eraseAll ps)) : wp A (rollBack sd m) Q d := by
  refine wp_bind (wp_requireOldSegments_find hA (fun o ho => ho.andThen (hcut o ho)) _
    (fun h => ?_) herr)
  exact wp_endRecovery hA segmentTempPath_ne_marker hmarker (hok h) (hcut' h)

theorem wp_rollForward_plan (hA : ¬ A .deny) (hmarker : (d.read (markerPath sd)).isSome)
    {file : Bytes} (hfile : d.read (segmentPath sd m.outputGeneration) = some file)
    (hok : ∀ r, SegmentReader.openIn (segmentPath sd m.outputGeneration) m.outputGeneration
      file = .ok r → Q (.ok ()) (d.eraseAll (m.oldGenerations.map (segmentPath sd) ++
        [segmentTempPath sd m.outputGeneration, markerPath sd])))
    (herr : ∀ e, SegmentReader.openIn (segmentPath sd m.outputGeneration) m.outputGeneration
      file = .error e → Q (.err e) d)
    (hcut : ∀ o, Cut A o → Q o d)
    (hcut' : ∀ r, SegmentReader.openIn (segmentPath sd m.outputGeneration) m.outputGeneration
      file = .ok r → ∀ ps o, ps <+: m.oldGenerations.map (segmentPath sd) ++
        [segmentTempPath sd m.outputGeneration, markerPath sd] → Cut A o → Q o (d.eraseAll ps)) :
    wp A (rollForward sd m) Q d := by
  refine wp_bind (SegmentReader.wp_open (fun b r hb hr => ?_) (fun b e hb he => ?_)
    (fun hn => by rw [hfile] at hn; cases hn) (fun n hn => hcut _ (cut_err ⟨n, hn⟩))
    (hcut _ trivial))
  swap
  · rw [hfile] at hb
    cases hb
    exact herr e he
  rw [hfile] at hb
  cases hb
  have hok := hok r hr
  have hcut' := hcut' r hr
  refine wp_bind (wp_removeOldSegments_erase hA _ d ?_ fun ps o hps ho =>
    ho.andThen (hcut' ps o (hps.trans (List.prefix_append _ _)) ho))
  rw [Disk.eraseAll_append] at hok
  refine wp_endRecovery hA segmentTempPath_ne_marker ?_ hok fun ps o hps ho => ?_
  · rw [Disk.read_eraseAll, if_neg]
    · exact hmarker
    · rw [List.mem_map]
      rintro ⟨g, -, hg⟩
      exact segmentPath_ne_marker hg
  · rw [← Disk.eraseAll_append]
    exact hcut' _ o ((List.prefix_append_right_inj _).mpr hps) ho

/-- **Recovery follows its plan**, up to where it is cut. -/
theorem wp_recoverPendingCompaction_plan (hA : ¬ A .deny)
    (hok : Q (Outcome.ofExcept (recoveryPlan sd d).1) (d.eraseAll (recoveryPlan sd d).2))
    (hcut : ∀ ps o, ps <+: (recoveryPlan sd d).2 → Cut A o → Q o (d.eraseAll ps)) :
    wp A (recoverPendingCompaction sd) Q d := by
  have hstart : ∀ o, Cut A o → Q o d := fun o => hcut [] o List.nil_prefix
  refine wp_bind (Fs.wp_pathExists ?_ (fun h => absurd h hA) fun _ _ => hstart _ trivial)
  dsimp only [Outcome.andThen]
  rcases hmarker : d.read (markerPath sd) with _ | bytes
  · rw [if_pos (by simp)]
    simp only [recoveryPlan, hmarker] at hok
    exact wp_removeIfExists_erase hA hok (fun h => hstart _ (cut_err h)) (hstart _ trivial)
  rw [if_neg (by simp)]
  refine wp_bind (wp_removeIfExists_erase hA ?_ (fun h => hstart _ (cut_err h)) (hstart _ trivial))
  have hfirst : [markerTempPath sd] <+: (recoveryPlan sd d).2 := by
    unfold recoveryPlan
    rw [hmarker]
    dsimp only
    split
    · exact List.prefix_refl _
    · split
      · split
        · exact List.prefix_refl _
        · exact List.prefix_append _ _
      · split
        · exact List.prefix_refl _
        · exact List.prefix_append _ _
  have hcut₁ : ∀ o, Cut A o → Q o (d.erase (markerTempPath sd)) := fun o => hcut _ o hfirst
  have hread : (d.erase (markerTempPath sd)).read (markerPath sd) = some bytes := by
    rw [Disk.read_erase, if_neg markerTempPath_ne_marker.symm, hmarker]
  have hsegment : ∀ g, (d.erase (markerTempPath sd)).read (segmentPath sd g) =
      d.read (segmentPath sd g) := fun g => by
    rw [Disk.read_erase, if_neg segmentPath_ne_markerTemp]
  refine wp_bind (wp_bind (Fs.wp_readFile (fun b hb => ?_)
    (fun hn => by rw [hread] at hn; cases hn) (fun n hn => hcut₁ _ (cut_err ⟨n, hn⟩))
    fun _ _ => hcut₁ _ trivial))
  rw [hread] at hb
  cases hb
  refine wp_ofExcept (fun m hm => ?_) fun e he => ?_
  swap
  · simp only [recoveryPlan, hmarker, he] at hok
    exact hok
  refine wp_bind (Fs.wp_pathExists ?_ (fun h => absurd h hA) fun _ _ => hcut₁ _ trivial)
  dsimp only [Outcome.andThen]
  rw [hsegment]
  rcases hout : d.read (segmentPath sd m.outputGeneration) with _ | file
  · rw [if_pos (by simp)]
    refine wp_rollBack_plan hA (by rw [hread]; rfl) (fun h => ?_) (fun g h => ?_) hcut₁ fun h => ?_
    all_goals
      simp only [hsegment] at h
      simp only [recoveryPlan, hmarker, hm, hout, h] at hok hcut
    · rw [Disk.eraseAll_append] at hok
      exact hok
    · exact hok
    · intro ps o hps ho
      have := hcut ([markerTempPath sd] ++ ps) o ((List.prefix_append_right_inj _).mpr hps) ho
      rwa [Disk.eraseAll_append] at this
  · rw [if_neg (by simp)]
    refine wp_rollForward_plan hA (by rw [hread]; rfl) ((hsegment _).trans hout) (fun r h => ?_)
      (fun e h => ?_) hcut₁ fun r h => ?_
    all_goals simp only [recoveryPlan, hmarker, hm, hout, h] at hok hcut
    · rw [Disk.eraseAll_append] at hok
      exact hok
    · exact hok
    · intro ps o hps ho
      have := hcut ([markerTempPath sd] ++ ps) o ((List.prefix_append_right_inj _).mpr hps) ho
      rwa [Disk.eraseAll_append] at this

end Follow

/-! ## Recovery that starts again -/

section Again

variable {sd p : Path} {d d' : Disk} {ps : List Path} {l : List Fault}

/-- **While the marker is there**, the plan stays what it was. -/
theorem recoveryPlan_eraseAll (hps : ps ⊆ (recoveryPlan sd d).2) (hmarker : markerPath sd ∉ ps) :
    recoveryPlan sd (d.eraseAll ps) = recoveryPlan sd d := by
  have hkept : ∀ p ∉ ps, (d.eraseAll ps).read p = d.read p := fun p hp => by
    rw [Disk.read_eraseAll, if_neg hp]
  have hread := hkept _ hmarker
  unfold recoveryPlan at hps ⊢
  rw [hread]
  rcases hb : d.read (markerPath sd) with _ | bytes
  · rfl
  rw [hb] at hps
  dsimp only at hps ⊢
  rcases hm : parseMarkerBytes (markerPath sd) bytes with e | m
  · rfl
  rw [hm] at hps
  dsimp only at hps ⊢
  rcases hout : d.read (segmentPath sd m.outputGeneration) with _ | file
  · -- no segment is removed
    have hsegment : ∀ g, (d.eraseAll ps).read (segmentPath sd g) = d.read (segmentPath sd g) := by
      refine fun g => hkept _ fun hg => ?_
      have := hps hg
      rw [hout] at this
      dsimp only at this
      split at this <;> simp [segmentPath_ne_markerTemp, segmentPath_ne_temp,
        segmentPath_ne_marker] at this
    simp only [hsegment, hout]
  · -- the output is not among the segments that are removed
    have hkeep : segmentPath sd m.outputGeneration ∉ ps := by
      intro hg
      have := hps hg
      rw [hout] at this
      dsimp only at this
      split at this
      · simp [segmentPath_ne_markerTemp] at this
      · simp only [List.mem_append, List.mem_cons, segmentPath_ne_markerTemp, segmentPath_ne_temp,
          segmentPath_ne_marker, List.not_mem_nil, or_false, false_or, List.mem_map] at this
        obtain ⟨g, hg, heq⟩ := this
        exact absurd ((valid_of_parseMarkerBytes hm).old_lt g hg)
          (segmentPath_injective heq ▸ lt_irrefl _)
    rw [hkept _ hkeep, hout]

/-- The marker is the last file that is removed. -/
theorem marker_last (h : markerPath sd ∈ (recoveryPlan sd d).2) :
    (recoveryPlan sd d).1 = .ok () ∧ ∃ ps, (recoveryPlan sd d).2 = ps ++ [markerPath sd] ∧
      markerPath sd ∉ ps ∧ markerTempPath sd ∈ ps := by
  have hone : markerPath sd ∉ [markerTempPath sd] := by
    simp [markerTempPath_ne_marker.symm]
  unfold recoveryPlan at h ⊢
  split at h
  · exact absurd h hone
  split at h
  · exact absurd h hone
  rename_i m hm
  split at h
  · split at h
    · exact absurd h hone
    · refine ⟨rfl, [markerTempPath sd, segmentTempPath sd m.outputGeneration], rfl, ?_,
        List.mem_cons_self⟩
      simp [markerTempPath_ne_marker.symm, segmentTempPath_ne_marker.symm]
  · split at h
    · exact absurd h hone
    · refine ⟨rfl, markerTempPath sd :: (m.oldGenerations.map (segmentPath sd) ++
        [segmentTempPath sd m.outputGeneration]), by simp, ?_, List.mem_cons_self⟩
      simp [markerTempPath_ne_marker.symm, segmentTempPath_ne_marker.symm, segmentPath_ne_marker]

/-- Recovery without faults. -/
theorem run_recoverPendingCompaction : (recoverPendingCompaction sd).run d [] =
    (Outcome.ofExcept (recoveryPlan sd d).1, d.eraseAll (recoveryPlan sd d).2) := by
  refine wp.run_nil_eq (wp_recoverPendingCompaction_plan reliable_noFault.deny (fun _ => rfl)
    fun ps o _ ho hne => ?_)
  cases o with
  | ok a => cases ho
  | err e =>
    obtain ⟨n, hn⟩ := ho.2
    exact absurd hn (not_noFault_fail n)
  | crash => exact absurd rfl hne

/-- Recovery that succeeds removes the marker that is there. -/
theorem marker_mem_plan (h : (recoveryPlan sd d).1 = .ok ()) :
    d.read (markerPath sd) = none ∨ markerPath sd ∈ (recoveryPlan sd d).2 := by
  revert h
  unfold recoveryPlan
  split
  · exact fun _ => .inl ‹_›
  split
  · exact nofun
  split
  · split
    · exact nofun
    · exact fun _ => .inr (by simp)
  · split
    · exact nofun
    · exact fun _ => .inr (by simp)

/-- Recovery that succeeds has done what it planned. -/
theorem plan_of_run (h : (recoverPendingCompaction sd).run d [] = (.ok (), d')) :
    (recoveryPlan sd d).1 = .ok () ∧ d' = d.eraseAll (recoveryPlan sd d).2 := by
  rw [run_recoverPendingCompaction] at h
  refine ⟨?_, (congrArg Prod.snd h).symm⟩
  rcases hplan : (recoveryPlan sd d).1 with e | _
  · rw [hplan] at h
    exact absurd (congrArg Prod.fst h) nofun
  · rfl

/-- Recovery that succeeds leaves no marker. -/
theorem marker_of_run (h : (recoverPendingCompaction sd).run d [] = (.ok (), d')) :
    d'.read (markerPath sd) = none := by
  obtain ⟨hok, rfl⟩ := plan_of_run h
  rw [Disk.read_eraseAll]
  rcases marker_mem_plan hok with hnone | hmem
  · rw [hnone, ite_self]
  · rw [if_pos hmem]

/-- A rollback that misses an old segment is refused. -/
theorem plan_of_missing {bytes : Bytes} {m : CompactionMarker} {g : ℕ}
    (hmarker : d.read (markerPath sd) = some bytes)
    (hm : parseMarkerBytes (markerPath sd) bytes = .ok m)
    (hout : d.read (segmentPath sd m.outputGeneration) = none) (hg : g ∈ m.oldGenerations)
    (hmissing : d.read (segmentPath sd g) = none) : (recoveryPlan sd d).1 ≠ .ok () := by
  have hfound : (m.oldGenerations.find? fun g => (d.read (segmentPath sd g)).isNone).isSome := by
    rw [List.find?_isSome]
    exact ⟨g, hg, by rw [hmissing]; rfl⟩
  obtain ⟨g', hg'⟩ := Option.isSome_iff_exists.mp hfound
  simp [recoveryPlan, hmarker, hm, hout, hg']

/-- Recovery removes no segment of the last generation. -/
theorem last_not_mem_plan : segmentPath sd (u64Size - 1) ∉ (recoveryPlan sd d).2 := by
  have hone : segmentPath sd (u64Size - 1) ∉ [markerTempPath sd] := by
    simp [segmentPath_ne_markerTemp]
  unfold recoveryPlan
  split
  · exact hone
  split
  · exact hone
  rename_i m hm
  split
  · split
    · exact hone
    · simp [segmentPath_ne_markerTemp, segmentPath_ne_temp, segmentPath_ne_marker]
  · split
    · exact hone
    · simp only [List.mem_append, List.mem_cons, segmentPath_ne_markerTemp, segmentPath_ne_temp,
        segmentPath_ne_marker, List.not_mem_nil, or_false, false_or, List.mem_map]
      rintro ⟨g, hg, heq⟩
      have hvalid := valid_of_parseMarkerBytes hm
      have hlt := hvalid.old_lt g hg
      have := hvalid.output_lt
      rw [segmentPath_injective heq] at hlt
      omega

theorem eraseAll_filter : d.eraseAll (ps.filter fun p => (d.read p).isSome) = d.eraseAll ps :=
  Disk.eraseAll_congr fun p hp => by rw [List.mem_filter, and_iff_left hp]

theorem nodup_recoveryRemovals : (recoveryRemovals sd d).Nodup := by
  have hnext : (recoveryPlan sd d).2.Nodup := by
    unfold recoveryPlan
    split
    · exact List.nodup_singleton _
    split
    · exact List.nodup_singleton _
    rename_i m hm
    split
    · split
      · exact List.nodup_singleton _
      · simp [segmentTempPath_ne_markerTemp.symm, markerTempPath_ne_marker,
          segmentTempPath_ne_marker]
    · split
      · exact List.nodup_singleton _
      · have holds : (m.oldGenerations.map (segmentPath sd)).Nodup :=
          (valid_of_parseMarkerBytes hm).nodup.map fun _ _ => segmentPath_injective
        simp [List.nodup_append, holds, segmentTempPath_ne_markerTemp.symm,
          markerTempPath_ne_marker, segmentTempPath_ne_marker, segmentPath_ne_temp,
          segmentPath_ne_marker, segmentPath_ne_markerTemp]
  exact hnext.filter _

/-- A run that is cut leaves some of the removals, in order, done. -/
theorem recover_cut (hl : .deny ∉ l) : ∃ ps, ps <+: recoveryRemovals sd d ∧
    ((recoverPendingCompaction sd).run d l).2 = d.eraseAll ps := by
  have h : wp (· ≠ .deny) (recoverPendingCompaction sd) (fun _ d' => ∃ ps,
      ps <+: (recoveryPlan sd d).2 ∧ d' = d.eraseAll ps) d :=
    wp_recoverPendingCompaction_plan (not_not.mpr rfl) ⟨_, List.prefix_refl _, rfl⟩
      fun ps _ hps _ => ⟨ps, hps, rfl⟩
  obtain ⟨ps, hps, heq⟩ := h.run (l := l) fun f hf he => hl (he ▸ hf)
  refine ⟨ps.filter fun p => (d.read p).isSome, hps.filter _, ?_⟩
  rw [heq, eraseAll_filter]

/-- **Starting again** after some of the removals. -/
theorem recover_again (hps : ps <+: recoveryRemovals sd d) :
    (recoverPendingCompaction sd).run (d.eraseAll ps) [] = (recoverPendingCompaction sd).run d [] := by
  have hsub : ps ⊆ (recoveryPlan sd d).2 := fun _ hp => List.mem_of_mem_filter (hps.subset hp)
  rw [run_recoverPendingCompaction, run_recoverPendingCompaction]
  by_cases hmarker : markerPath sd ∈ ps
  · -- everything is removed
    obtain ⟨hok, ts, hplan, hts, htemp⟩ := marker_last (hsub hmarker)
    have hall : ps = recoveryRemovals sd d := by
      have hthere : (d.read (markerPath sd)).isSome := (List.mem_filter.mp (hps.subset hmarker)).2
      rw [recoveryRemovals, hplan, List.filter_append, List.filter_singleton, hthere] at hps ⊢
      exact (List.prefix_concat_iff.mp hps).resolve_right fun h =>
        hts (List.mem_of_mem_filter (h.subset hmarker))
    have hnone : recoveryPlan sd (d.eraseAll ps) = (.ok (), [markerTempPath sd]) := by
      unfold recoveryPlan
      rw [Disk.read_eraseAll, if_pos hmarker]
    rw [hnone, hok, hall, recoveryRemovals, eraseAll_filter, ← Disk.eraseAll_append]
    refine congrArg (Prod.mk _) (Disk.eraseAll_congr fun p _ => ?_)
    rw [List.mem_append, or_iff_left_of_imp]
    intro hp
    rw [List.mem_singleton.mp hp, hplan]
    exact List.mem_append_left _ htemp
  · rw [recoveryPlan_eraseAll hsub hmarker, Disk.eraseAll_of_subset hsub]

end Again

/-! ## What recovery owns -/

section Own

variable {A : Fault → Prop} {sd p : Path} {d d' : Disk} {m : CompactionMarker}

/-- Only files that recovery owns are not what they were on `d`. -/
abbrev Spared {α : Type} (sd : Path) (d : Disk) : Outcome StoneError α → Disk → Prop :=
  fun _ d' => ∀ p, d'.read p ≠ d.read p → RecoveryOwns sd d p

theorem spared_erase (hp : RecoveryOwns sd d p) (h : Spared sd d (.ok ()) d') :
    Spared sd d (.ok ()) (d'.erase p) := by
  intro q hq
  rw [Disk.read_erase] at hq
  split_ifs at hq with hqp
  · exact hqp ▸ hp
  · exact h q hq

theorem wp_removeFile_spared (hp : RecoveryOwns sd d p) (h : Spared sd d (.ok ()) d') :
    wp A (Fs.removeFile p : Io Unit) (Spared sd d) d' :=
  Fs.wp_removeFile (fun _ => spared_erase hp h) (fun _ => h) (fun _ _ => h) fun _ _ => h

theorem wp_removeIfExists_spared (hp : RecoveryOwns sd d p) (h : Spared sd d (.ok ()) d') :
    wp A (removeIfExists p) (Spared sd d) d' :=
  wp_removeIfExists (fun _ => spared_erase hp h) (fun _ => h) (fun _ => h) h

/-- A step that spares files, followed by another. -/
theorem wp_bind_spared {α β : Type} {m : Io α} {f : α → Io β} (h : wp A m (Spared sd d) d')
    (hf : ∀ a d', Spared sd d (.ok ()) d' → wp A (f a) (Spared sd d) d') :
    wp A (m >>= f) (Spared sd d) d' :=
  FaultProg.wp.bind h hf (fun _ _ h => h) fun _ h => h

theorem wp_requireOldSegments_spared : ∀ (gs : List ℕ), Spared sd d (.ok ()) d' →
    wp A (requireOldSegments sd gs) (Spared sd d) d'
  | [], h => wp_pure h
  | g :: gs, h => by
    refine wp_bind (Fs.wp_pathExists ?_ (fun _ => wp_bind (wp_throw h)) fun _ _ => h)
    dsimp only [Outcome.andThen]
    split_ifs
    · exact wp_requireOldSegments_spared gs h
    · exact wp_bind (wp_throw h)

theorem wp_removeOldSegments_spared : ∀ (gs : List ℕ) (d' : Disk),
    (∀ g ∈ gs, RecoveryOwns sd d (segmentPath sd g)) → Spared sd d (.ok ()) d' →
    wp A (removeOldSegments sd gs) (Spared sd d) d'
  | [], _, _, h => wp_pure h
  | g :: gs, _, hgs, h =>
    wp_bind_spared (wp_removeIfExists_spared (hgs g List.mem_cons_self) h) fun _ d' h =>
      wp_removeOldSegments_spared gs d' (fun g hg => hgs g (List.mem_cons_of_mem _ hg)) h

/-- **Recovery removes no other files**, whatever fails. -/
theorem wp_recoverPendingCompaction_own : wp A (recoverPendingCompaction sd) (Spared sd d) d := by
  have hnone : Spared sd d (.ok ()) d := fun _ h => absurd rfl h
  have hmarker : RecoveryOwns sd d (markerPath sd) := .inl rfl
  have htemp : RecoveryOwns sd d (markerTempPath sd) := .inr (.inl rfl)
  -- with at most the temporary marker removed
  have hrest : ∀ d', d.Touched (markerTempPath sd) d' → Spared sd d (.ok ()) d' → wp A (do
      let marker ← readCompactionMarker (markerPath sd)
      if ¬ (← Fs.pathExists (segmentPath sd marker.outputGeneration)) then
        rollBack sd marker
      else rollForward sd marker) (Spared sd d) d' := by
    intro d' ht h
    refine wp_bind (wp_bind (Fs.wp_readFile (fun b hb => ?_) (fun _ => h) (fun _ _ => h)
      fun _ _ => h))
    refine wp_ofExcept (fun m hm => ?_) fun _ _ => h
    have hb := (ht _ markerTempPath_ne_marker.symm).symm.trans hb
    have hsegtemp : RecoveryOwns sd d (segmentTempPath sd m.outputGeneration) :=
      .inr (.inr ⟨b, m, hb, hm, .inl rfl⟩)
    have hback : wp A (rollBack sd m) (Spared sd d) d' :=
      wp_bind_spared (wp_requireOldSegments_spared _ h) fun _ _ h =>
        wp_bind_spared (wp_removeIfExists_spared hsegtemp h) fun _ _ h =>
          wp_removeFile_spared hmarker h
    have hforward : wp A (rollForward sd m) (Spared sd d) d' := by
      refine wp_bind (SegmentReader.wp_open (fun file r hfile hr => ?_) (fun _ _ _ _ => h)
        (fun _ => h) (fun _ _ => h) h)
      have hfile := (ht _ segmentPath_ne_markerTemp).symm.trans hfile
      refine wp_bind_spared (wp_removeOldSegments_spared _ _ (fun g hg => ?_) h) fun _ _ h =>
        wp_bind_spared (wp_removeIfExists_spared hsegtemp h) fun _ _ h =>
          wp_removeFile_spared hmarker h
      exact .inr (.inr ⟨b, m, hb, hm, .inr ⟨⟨g, hg, rfl⟩, file, r, hfile, hr⟩⟩)
    refine wp_bind (Fs.wp_pathExists ?_ (fun _ => hback) fun _ _ => h)
    dsimp only [Outcome.andThen]
    split_ifs
    · exact hforward
    · exact hback
  refine wp_bind (Fs.wp_pathExists ?_ (fun _ => wp_removeIfExists_spared htemp hnone)
    fun _ _ => hnone)
  dsimp only [Outcome.andThen]
  split_ifs
  · refine wp_bind (wp_removeIfExists (fun _ => ?_) (fun _ => hrest d Disk.touched_self hnone)
      (fun _ => hnone) hnone)
    exact hrest _ Disk.touched_erase (spared_erase htemp hnone)
  · exact wp_removeIfExists_spared htemp hnone

/-- **Recovery is re-entrant** and touches its own files only: it removes `recoveryRemovals`, in
order; a run that is cut leaves some of these removed, the first ones; after any number of them a new
run ends as the whole one, and after a run that succeeded it changes nothing; and no run, whatever
fails in it, touches a file that is not recovery's own. -/
theorem recovery_reentrant (segmentsDir : Path) (d : Disk) :
    (((recoverPendingCompaction segmentsDir).run d []).2 =
        d.eraseAll (recoveryRemovals segmentsDir d) ∧
      (recoveryRemovals segmentsDir d).Nodup ∧
      (∀ p ∈ recoveryRemovals segmentsDir d, (d.read p).isSome) ∧
      ∀ l, .deny ∉ l → ∃ ps, ps <+: recoveryRemovals segmentsDir d ∧
        ((recoverPendingCompaction segmentsDir).run d l).2 = d.eraseAll ps) ∧
    (∀ ps, ps <+: recoveryRemovals segmentsDir d →
      (recoverPendingCompaction segmentsDir).run (d.eraseAll ps) [] =
        (recoverPendingCompaction segmentsDir).run d []) ∧
    (∀ d', (recoverPendingCompaction segmentsDir).run d [] = (.ok (), d') →
      (recoverPendingCompaction segmentsDir).run d' [] = (.ok (), d')) ∧
    ∀ l p, ((recoverPendingCompaction segmentsDir).run d l).2.read p ≠ d.read p →
      RecoveryOwns segmentsDir d p := by
  have hend : ((recoverPendingCompaction segmentsDir).run d []).2 =
      d.eraseAll (recoveryRemovals segmentsDir d) := by
    rw [run_recoverPendingCompaction, recoveryRemovals, eraseAll_filter]
  refine ⟨⟨hend, nodup_recoveryRemovals, fun p hp => (List.mem_filter.mp hp).2,
    fun l hl => recover_cut hl⟩, fun ps => recover_again, fun d' h => ?_, fun l => ?_⟩
  · rw [h] at hend
    have := recover_again (List.prefix_refl (recoveryRemovals segmentsDir d))
    rw [← hend] at this
    exact this.trans h
  · have h : wp AnyFault _ (Spared segmentsDir d) d := wp_recoverPendingCompaction_own
    exact h.run fun _ _ => trivial

end Own

end StoneKV
