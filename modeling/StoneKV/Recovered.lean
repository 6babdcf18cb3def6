import StoneKV.CompactStep
import StoneKV.Loading

/-!
# What recovery does

* `Dir.Within`: a directory with some of its files removed; all that recovery does, whatever fails.
* `Pending D gs`: the directory holds segments of the generations `gs`, and perhaps a compaction that
  was cut.
* `Recoverable D gs L`: moreover these hold the entries `L`.
* **`wp_recoverPendingCompaction`**: recovery ends the compaction; a crash in it can be recovered from.
-/

namespace StoneKV

open FaultProg

/-! ## Removals -/

/-- `D'` is `D` with some of its files removed. -/
structure Dir.Within (D' D : Dir) : Prop where
  files : ∀ n, D'.files n = D.files n ∨ D'.files n = none
  wal : D'.wal = D.wal

section Within

variable {A : Fault → Prop} {dir : Path} {D D' : Dir} {d : Disk} {n : Name}

theorem Dir.Within.refl (D : Dir) : D.Within D := ⟨fun _ => .inl rfl, rfl⟩

theorem Dir.Within.put_none (h : D'.Within D) : (D'.put n none).Within D := by
  refine ⟨fun m => ?_, h.wal⟩
  rw [Dir.files_put]
  split_ifs
  · exact .inr rfl
  · exact h.files m

/-- The disk after some removals. -/
abbrev Removed {α : Type} (dir : Path) (D : Dir) : Outcome StoneError α → Disk → Prop :=
  fun _ d => (dirOf dir d).Within D

theorem within_erase (h : (dirOf dir d).Within D) :
    (dirOf dir (d.erase (segmentsDirOf dir ++ [n]))).Within D := by
  by_cases hn : IsScratchName n
  · rwa [dirOf_erase_scratch hn]
  · rw [dirOf_erase hn]
    exact h.put_none

theorem wp_removeFile_within (h : (dirOf dir d).Within D) :
    wp A (Fs.removeFile (segmentsDirOf dir ++ [n]) : Io Unit) (Removed dir D) d :=
  Fs.wp_removeFile (fun _ => within_erase h) (fun _ => h) (fun _ _ => h) fun _ _ => h

theorem wp_removeIfExists_within (h : (dirOf dir d).Within D) :
    wp A (removeIfExists (segmentsDirOf dir ++ [n])) (Removed dir D) d :=
  wp_removeIfExists (fun _ => within_erase h) (fun _ => h) (fun _ => h) h

/-- A step that removes files, followed by another. -/
theorem wp_bind_within {α β : Type} {m : Io α} {f : α → Io β} (h : wp A m (Removed dir D) d)
    (hf : ∀ a d, (dirOf dir d).Within D → wp A (f a) (Removed dir D) d) :
    wp A (m >>= f) (Removed dir D) d :=
  FaultProg.wp.bind h hf (fun _ _ h => h) fun _ h => h

theorem wp_requireOldSegments_within {sd : Path} : ∀ (gs : List ℕ) (d : Disk),
    (dirOf dir d).Within D → wp A (requireOldSegments sd gs) (Removed dir D) d
  | [], _, h => wp_pure h
  | g :: gs, d, h => by
    refine wp_bind (Fs.wp_pathExists ?_ (fun _ => wp_bind (wp_throw h)) fun _ _ => h)
    dsimp only [Outcome.andThen]
    split_ifs
    · exact wp_requireOldSegments_within gs d h
    · exact wp_bind (wp_throw h)

theorem wp_removeOldSegments_within : ∀ (gs : List ℕ) (d : Disk), (dirOf dir d).Within D →
    wp A (removeOldSegments (segmentsDirOf dir) gs) (Removed dir D) d
  | [], _, h => wp_pure h
  | _ :: gs, _, h =>
    wp_bind_within (wp_removeIfExists_within h) fun _ d h => wp_removeOldSegments_within gs d h

theorem wp_removeTempFiles_within : ∀ (names : List Name) (d : Disk), (dirOf dir d).Within D →
    wp A (removeTempFiles (segmentsDirOf dir) names) (Removed dir D) d
  | [], _, h => wp_pure h
  | n :: names, d, h => by
    rw [removeTempFiles]
    split_ifs
    · exact wp_bind_within (wp_removeFile_within h) fun _ d h => wp_removeTempFiles_within names d h
    · exact wp_removeTempFiles_within names d h

/-- **Recovery only removes files**, whatever fails. -/
theorem wp_recoverPendingCompaction_within (h : (dirOf dir d).Within D) :
    wp A (recoverPendingCompaction (segmentsDirOf dir)) (Removed dir D) d := by
  have hback : ∀ m d, (dirOf dir d).Within D →
      wp A (rollBack (segmentsDirOf dir) m) (Removed dir D) d := fun m d h =>
    wp_bind_within (wp_requireOldSegments_within _ d h) fun _ _ h =>
      wp_bind_within (wp_removeIfExists_within h) fun _ _ h => wp_removeFile_within h
  have hforward : ∀ m d, (dirOf dir d).Within D →
      wp A (rollForward (segmentsDirOf dir) m) (Removed dir D) d := fun m d h =>
    wp_bind (SegmentReader.wp_open (fun _ _ _ _ =>
      wp_bind_within (wp_removeOldSegments_within _ d h) fun _ _ h =>
        wp_bind_within (wp_removeIfExists_within h) fun _ _ h => wp_removeFile_within h)
      (fun _ _ _ _ => h) (fun _ => h) (fun _ _ => h) h)
  have hrest : ∀ m d, (dirOf dir d).Within D → wp A (do
      if ¬ (← Fs.pathExists (segmentPath (segmentsDirOf dir) m.outputGeneration)) then
        rollBack (segmentsDirOf dir) m
      else rollForward (segmentsDirOf dir) m) (Removed dir D) d := fun m d h => by
    refine wp_bind (Fs.wp_pathExists ?_ (fun _ => ?_) fun _ _ => h)
    · dsimp only [Outcome.andThen]
      split_ifs
      · exact hforward m d h
      · exact hback m d h
    · exact hback m d h
  refine wp_bind (Fs.wp_pathExists ?_ (fun _ => wp_removeIfExists_within h) fun _ _ => h)
  dsimp only [Outcome.andThen]
  split_ifs
  · refine wp_bind_within (wp_removeIfExists_within h) fun _ d h => ?_
    refine wp_bind (wp_bind (Fs.wp_readFile (fun b _ => ?_) (fun _ => h) (fun _ _ => h) fun _ _ => h))
    exact wp_ofExcept (fun m _ => hrest m d h) fun _ _ => h
  · exact wp_removeIfExists_within h

theorem wp_removeStaleTempFiles_within (h : (dirOf dir d).Within D) :
    wp A (removeStaleTempFiles (segmentsDirOf dir)) (Removed dir D) d :=
  wp_bind (Fs.wp_readDir (wp_removeTempFiles_within _ d h) (fun _ _ => h) fun _ _ => h)

end Within

/-! ## Compactions that were cut -/

/-- The segments of the generations `gs`, the newest first, hold the entries `L`. -/
structure Dir.Holds (D : Dir) (gs : List ℕ) (L : List (List Entry)) : Prop where
  lt : ∀ g ∈ gs, g + 1 < u64Size
  decreasing : gs.Pairwise fun a b => b < a
  images : List.Forall₂ (fun g es => Storable es ∧
    D.files (segmentFilename g) = some (segmentImage es)) gs L

/-- The directory holds the segments of the generations `gs` and nothing else; or also the marker of
a compaction that has not put its segment in place, whose inputs are among these; or the marker of one
that has, with any of its inputs. -/
inductive Pending (D : Dir) (gs : List ℕ) : Prop
  | none : (∀ n, (D.files n).isSome → n ∈ gs.map segmentFilename) → Pending D gs
  | back {m : CompactionMarker} : D.marker = some (utf8 (markerText m)) → m.Valid →
    m.outputGeneration ∉ gs → m.oldGenerations ⊆ gs →
    (∀ n, (D.files n).isSome → n = COMPACTION_MARKER_FILE ∨ n ∈ gs.map segmentFilename) →
    Pending D gs
  | forward {m : CompactionMarker} : D.marker = some (utf8 (markerText m)) → m.Valid →
    m.outputGeneration ∈ gs → (∀ g ∈ m.oldGenerations, g ∉ gs) →
    (∀ n, (D.files n).isSome → n = COMPACTION_MARKER_FILE ∨ n ∈ gs.map segmentFilename ∨
      n ∈ m.oldGenerations.map segmentFilename) → Pending D gs

/-- Recovery makes of the directory the segments of the generations `gs` with the entries `L`. -/
structure Recoverable (D : Dir) (gs : List ℕ) (L : List (List Entry)) : Prop where
  holds : D.Holds gs L
  pending : Pending D gs

section Recover

variable {A : Fault → Prop} {dir : Path} {D D' : Dir} {d : Disk} {n : Name} {g : ℕ}
  {gs : List ℕ} {L : List (List Entry)} {ns ns' : List Name} {m : CompactionMarker}
  {Q : Outcome StoneError Unit → Disk → Prop}

theorem marker_not_mem_segments : COMPACTION_MARKER_FILE ∉ gs.map segmentFilename := by
  intro h
  obtain ⟨g, -, hg⟩ := List.mem_map.mp h
  exact segmentFilename_ne_marker hg

theorem mem_segments : segmentFilename g ∈ gs.map segmentFilename ↔ g ∈ gs := by
  rw [List.mem_map]
  constructor
  · rintro ⟨g', hg', heq⟩
    exact segmentFilename_injective heq ▸ hg'
  · exact fun h => ⟨g, h, rfl⟩

/-- What is held depends on the held files. -/
theorem Dir.Holds.congr (h : D.Holds gs L)
    (hD : ∀ g ∈ gs, D'.files (segmentFilename g) = D.files (segmentFilename g)) : D'.Holds gs L := by
  refine ⟨h.lt, h.decreasing, ?_⟩
  have := h.images
  rw [List.forall₂_iff_get] at this ⊢
  refine ⟨this.1, fun i hi hj => ?_⟩
  rw [hD _ (List.get_mem _ _)]
  exact this.2 i hi hj

theorem Dir.Holds.image (h : D.Holds gs L) (hg : g ∈ gs) :
    ∃ es ∈ L, Storable es ∧ D.files (segmentFilename g) = some (segmentImage es) := by
  exact exists_of_forall₂ h.images hg

theorem Dir.Holds.drop (h : D.Holds gs L) (hns : ∀ g ∈ gs, segmentFilename g ∉ ns) :
    (D.drop ns).Holds gs L :=
  h.congr fun g hg => by rw [Dir.files_drop, if_neg (hns g hg)]

/-- Files that are held, or are gone. -/
theorem Dir.drop_eq_only (hD : ∀ n, (D.files n).isSome → n ∈ ns ∨ n ∈ gs.map segmentFilename)
    (hns : ∀ g ∈ gs, segmentFilename g ∉ ns) : D.drop ns = D.only gs := by
  refine Dir.ext (funext fun n => ?_) rfl
  rw [Dir.files_drop, Dir.files_only]
  by_cases hg : n ∈ gs.map segmentFilename
  · obtain ⟨g, hg', rfl⟩ := List.mem_map.mp hg
    rw [if_neg (hns g hg'), if_pos hg]
  · rw [if_neg hg]
    split_ifs with hn
    · rfl
    · by_contra hne
      exact (hD n (Option.isSome_iff_ne_none.mpr hne)).elim hn hg

/-- A directory with no other files is its own part. -/
theorem Dir.only_eq_self (hD : ∀ n, (D.files n).isSome → n ∈ gs.map segmentFilename) :
    D.only gs = D :=
  (Dir.drop_eq_only (fun n hn => .inr (hD n hn)) fun _ _ => List.not_mem_nil).symm.trans
    Dir.drop_nil

theorem wp_removeIfExists_scratch (hn : IsScratchName n) (hA : Reliable A)
    (hok : ∀ d', dirOf dir d' = dirOf dir d → Q (.ok ()) d') (hcr : Q .crash d) :
    wp A (removeIfExists (segmentsDirOf dir ++ [n])) Q d :=
  wp_removeIfExists (fun _ => hok _ (dirOf_erase_scratch hn)) (fun _ => hok _ rfl)
    (fun ⟨k, hk⟩ => absurd hk (hA.fail k)) hcr

theorem wp_removeIfExists_segment (hA : Reliable A)
    (hok : ∀ d', dirOf dir d' = (dirOf dir d).drop [segmentFilename g] → Q (.ok ()) d')
    (hcr : Q .crash d) : wp A (removeIfExists (segmentPath (segmentsDirOf dir) g)) Q d := by
  refine wp_removeIfExists (fun _ => hok _ ?_) (fun h => hok _ ?_)
    (fun ⟨k, hk⟩ => absurd hk (hA.fail k)) hcr
  · rw [segmentPath, dirOf_erase not_isScratchName_segment, Dir.put_none_eq_drop]
  · refine (Dir.drop_of_none fun n hn => ?_).symm
    rw [List.mem_singleton.mp hn, dirOf_files not_isScratchName_segment]
    exact h.resolve_right hA.deny

theorem wp_removeMarker (hmarker : (dirOf dir d).marker.isSome) (hA : Reliable A)
    (hok : ∀ d', dirOf dir d' = (dirOf dir d).drop [COMPACTION_MARKER_FILE] → Q (.ok ()) d')
    (hcr : Q .crash d) : wp A (Fs.removeFile (markerPath (segmentsDirOf dir))) Q d := by
  rw [dirOf_marker] at hmarker
  refine Fs.wp_removeFile (fun _ => hok _ ?_) (fun h => by rw [h] at hmarker; cases hmarker)
    (fun k hk => absurd hk (hA.fail k)) fun _ _ => hcr
  rw [markerPath, dirOf_erase not_isScratchName_marker, Dir.put_none_eq_drop]

/-- The old segments are removed one by one. -/
theorem wp_removeOldSegments (hA : Reliable A) : ∀ (olds : List ℕ) (d : Disk),
    (∀ d', dirOf dir d' = (dirOf dir d).drop (olds.map segmentFilename) → Q (.ok ()) d') →
    (∀ ns d', ns ⊆ olds.map segmentFilename → dirOf dir d' = (dirOf dir d).drop ns → Q .crash d') →
    wp A (removeOldSegments (segmentsDirOf dir) olds) Q d
  | [], d, hok, _ => wp_pure (hok d (by rw [List.map_nil, Dir.drop_nil]))
  | g :: olds, d, hok, hcr => by
    refine wp_bind (wp_removeIfExists_segment hA (fun d₁ hd₁ => ?_)
      (hcr [] d (List.nil_subset _) (by rw [Dir.drop_nil])))
    refine wp_removeOldSegments hA olds d₁ (fun d' hd' => hok d' ?_) fun ns d' hns hd' =>
      hcr (segmentFilename g :: ns) d' (List.cons_subset_cons _ hns) ?_
    · rw [hd', hd₁, Dir.drop_drop]
      rfl
    · rw [hd', hd₁, Dir.drop_drop]
      rfl

/-- Old segments that are all there. -/
theorem wp_requireOldSegments (hA : Reliable A) (hok : Q (.ok ()) d) (hcr : Q .crash d) :
    ∀ olds : List ℕ, (∀ g ∈ olds, ((dirOf dir d).files (segmentFilename g)).isSome) →
    wp A (requireOldSegments (segmentsDirOf dir) olds) Q d
  | [], _ => wp_pure hok
  | g :: olds, holds => by
    have hthere : (d.read (segmentPath (segmentsDirOf dir) g)).isSome := by
      rw [segmentPath, ← dirOf_files not_isScratchName_segment]
      exact holds g List.mem_cons_self
    refine wp_bind (Fs.wp_pathExists ?_ (fun h => absurd h hA.deny) fun _ _ => hcr)
    dsimp only [Outcome.andThen]
    rw [if_neg (not_not.mpr hthere)]
    exact wp_requireOldSegments hA hok hcr olds fun x hx => holds x (List.mem_cons_of_mem _ hx)

/-- The segment of the compaction is not in place: the marker is removed. -/
theorem wp_rollBack (hA : Reliable A) (hmarker : (dirOf dir d).marker.isSome) (hm : m.Valid)
    (hold : ∀ g ∈ m.oldGenerations, ((dirOf dir d).files (segmentFilename g)).isSome)
    (hok : ∀ d', dirOf dir d' = (dirOf dir d).drop [COMPACTION_MARKER_FILE] → Q (.ok ()) d')
    (hcr : ∀ d', dirOf dir d' = dirOf dir d → Q .crash d') :
    wp A (rollBack (segmentsDirOf dir) m) Q d := by
  refine wp_bind (wp_requireOldSegments hA ?_ ?_ m.oldGenerations hold)
  swap
  · exact hcr d rfl
  refine wp_bind (wp_removeIfExists_scratch (isScratchName_temp hm.output_lt) hA (fun d' hd' => ?_)
    (hcr d rfl))
  rw [← hd'] at hmarker hok
  exact wp_removeMarker hmarker hA hok (hcr d' hd')

/-- The segment of the compaction is in place: the old segments and the marker are removed. -/
theorem wp_rollForward (hA : Reliable A) (hmarker : (dirOf dir d).marker.isSome) (hm : m.Valid)
    {es : List Entry} (hstor : Storable es)
    (hfile : (dirOf dir d).files (segmentFilename m.outputGeneration) = some (segmentImage es))
    (hok : ∀ d', dirOf dir d' = (dirOf dir d).drop (m.oldGenerations.map segmentFilename ++
      [COMPACTION_MARKER_FILE]) → Q (.ok ()) d')
    (hcr : ∀ ns d', ns ⊆ m.oldGenerations.map segmentFilename →
      dirOf dir d' = (dirOf dir d).drop ns → Q .crash d') :
    wp A (rollForward (segmentsDirOf dir) m) Q d := by
  have hread : d.read (segmentPath (segmentsDirOf dir) m.outputGeneration) =
      some (segmentImage es) := by
    rw [← hfile, dirOf_files not_isScratchName_segment]
    rfl
  have hnil := hcr [] d (List.nil_subset _) (by rw [Dir.drop_nil])
  refine wp_bind (SegmentReader.wp_open (fun b r _ _ => ?_) (fun b e hb he => ?_)
    (fun hn => by rw [hread] at hn; cases hn) (fun n hn => absurd hn (hA.fail n)) hnil)
  · refine wp_bind (wp_removeOldSegments hA m.oldGenerations d (fun d₁ hd₁ => ?_) hcr)
    have hall := fun d' hd' => hcr (m.oldGenerations.map segmentFilename) d' (List.Subset.refl _) hd'
    refine wp_bind (wp_removeIfExists_scratch (isScratchName_temp hm.output_lt) hA (fun d₂ hd₂ => ?_)
      (hall d₁ hd₁))
    refine wp_removeMarker ?_ hA (fun d' hd' => hok d' ?_) (hall d₂ (hd₂.trans hd₁))
    · rw [hd₂, hd₁, Dir.marker, Dir.files_drop, if_neg marker_not_mem_segments]
      exact hmarker
    · rw [hd', hd₂, hd₁, Dir.drop_drop]
  · rw [hread] at hb
    cases hb
    rw [hstor.openIn] at he
    cases he

/-- Without a marker nothing is recovered. -/
theorem wp_recoverPendingCompaction_unmarked (hm : (dirOf dir d).marker = none) (hA : Reliable A)
    (hok : ∀ d', dirOf dir d' = dirOf dir d → Q (.ok ()) d') (hcr : Q .crash d) :
    wp A (recoverPendingCompaction (segmentsDirOf dir)) Q d := by
  have hnone : d.read (markerPath (segmentsDirOf dir)) = none := by rw [← dirOf_marker, hm]
  refine wp_bind (Fs.wp_pathExists ?_ (fun hd => absurd hd hA.deny) fun _ _ => hcr)
  dsimp only [Outcome.andThen]
  rw [if_pos (by rw [hnone]; simp)]
  exact wp_removeIfExists_scratch isScratchName_markerTemp hA hok hcr

/-- With a marker, recovery goes back or forward. -/
theorem wp_recoverPendingCompaction_marked
    (hmarker : (dirOf dir d).marker = some (utf8 (markerText m))) (hm : m.Valid) (hA : Reliable A)
    (hback : (dirOf dir d).files (segmentFilename m.outputGeneration) = none →
      ∀ d', dirOf dir d' = dirOf dir d → wp A (rollBack (segmentsDirOf dir) m) Q d')
    (hforward : ((dirOf dir d).files (segmentFilename m.outputGeneration)).isSome →
      ∀ d', dirOf dir d' = dirOf dir d → wp A (rollForward (segmentsDirOf dir) m) Q d')
    (hcr : ∀ d', dirOf dir d' = dirOf dir d → Q .crash d') :
    wp A (recoverPendingCompaction (segmentsDirOf dir)) Q d := by
  have hread := dirOf_marker.symm.trans hmarker
  refine wp_bind (Fs.wp_pathExists ?_ (fun hd => absurd hd hA.deny) fun _ _ => hcr d rfl)
  dsimp only [Outcome.andThen]
  rw [if_neg (by rw [hread]; simp)]
  refine wp_bind (wp_removeIfExists_scratch isScratchName_markerTemp hA (fun d' hd' => ?_)
    (hcr d rfl))
  have hread' : d'.read (markerPath (segmentsDirOf dir)) = some (utf8 (markerText m)) := by
    rw [← dirOf_marker, hd', hmarker]
  refine wp_bind (wp_bind (Fs.wp_readFile (fun b hb => ?_)
    (fun hn => by rw [hread'] at hn; cases hn) (fun n hn => absurd hn (hA.fail n))
    fun _ _ => hcr d' hd'))
  rw [hread'] at hb
  cases hb
  refine wp_ofExcept (fun m' hm' => ?_) fun e he => ?_
  swap
  · rw [parseMarkerBytes_text hm] at he
    cases he
  rw [parseMarkerBytes_text hm] at hm'
  cases hm'
  have hfile : d'.read (segmentPath (segmentsDirOf dir) m.outputGeneration) =
      (dirOf dir d).files (segmentFilename m.outputGeneration) := by
    rw [segmentPath, ← dirOf_files not_isScratchName_segment, hd']
  refine wp_bind (Fs.wp_pathExists ?_ (fun hd => absurd hd hA.deny) fun _ _ => hcr d' hd')
  dsimp only [Outcome.andThen]
  rw [hfile]
  split_ifs with hout
  · exact hforward hout d' hd'
  · exact hback (Option.not_isSome_iff_eq_none.mp hout) d' hd'

/-- **Recovering.** Without failures it leaves the segments that the directory is recovered to, and
when the process dies in it the directory can be recovered to the same ones. -/
theorem wp_recoverPendingCompaction (h : Recoverable (dirOf dir d) gs L) (hA : Reliable A)
    (hok : ∀ d', dirOf dir d' = (dirOf dir d).only gs → Q (.ok ()) d')
    (hcr : ∀ d', Recoverable (dirOf dir d') gs L → (dirOf dir d').wal = (dirOf dir d).wal →
      Q .crash d') : wp A (recoverPendingCompaction (segmentsDirOf dir)) Q d := by
  have hsame : ∀ d', dirOf dir d' = dirOf dir d → Q .crash d' := fun d' hd' =>
    hcr d' (hd'.symm ▸ h) (by rw [hd'])
  cases h.pending with
  | none hfiles =>
    have hnone : (dirOf dir d).marker = none := by
      by_contra hne
      exact marker_not_mem_segments (hfiles _ (Option.isSome_iff_ne_none.mpr hne))
    have honly : (dirOf dir d).only gs = dirOf dir d := by
      exact Dir.only_eq_self hfiles
    exact wp_recoverPendingCompaction_unmarked hnone hA (fun d' hd' => hok d' (hd'.trans honly.symm))
      (hsame d rfl)
  | @back m hmarker hm hout hold hfiles =>
    refine wp_recoverPendingCompaction_marked hmarker hm hA (fun _ d' hd' => ?_) (fun hthere => ?_)
      hsame
    · refine wp_rollBack hA (by rw [hd', hmarker]; rfl) hm (fun g hg => ?_)
        (fun d'' hd'' => hok d'' ?_) fun d'' hd'' => hsame d'' (hd''.trans hd')
      · obtain ⟨es, -, -, hfile⟩ := h.holds.image (hold hg)
        rw [hd', hfile]
        rfl
      · rw [hd'', hd']
        refine Dir.drop_eq_only (fun n hn => (hfiles n hn).imp_left List.mem_singleton.mpr)
          fun g _ => ?_
        rw [List.mem_singleton]
        exact segmentFilename_ne_marker
    · rcases hfiles _ hthere with hm | hm
      · exact absurd hm segmentFilename_ne_marker
      · exact absurd (mem_segments.mp hm) hout
  | @forward m hmarker hm hout hold hfiles =>
    obtain ⟨es, -, hstor, hfile⟩ := h.holds.image hout
    have hkept : ∀ {ns}, ns ⊆ m.oldGenerations.map segmentFilename → ∀ g ∈ gs,
        segmentFilename g ∉ ns := fun hns g hg hn => hold g (mem_segments.mp (hns hn)) hg
    refine wp_recoverPendingCompaction_marked hmarker hm hA (fun hnone => ?_) (fun _ d' hd' => ?_)
      hsame
    · rw [hfile] at hnone
      cases hnone
    have hcut : ∀ ns d'', ns ⊆ m.oldGenerations.map segmentFilename →
        dirOf dir d'' = (dirOf dir d').drop ns → Q .crash d'' := fun ns d'' hns hd'' => by
      rw [hd'] at hd''
      refine hcr d'' ?_ (by rw [hd'']; rfl)
      rw [hd'']
      refine ⟨h.holds.drop (hkept hns), .forward (m := m) ?_ hm hout hold fun n hn => hfiles n ?_⟩
      · rw [Dir.marker, Dir.files_drop, if_neg fun hn => marker_not_mem_segments (hns hn)]
        exact hmarker
      · rw [Dir.files_drop] at hn
        split_ifs at hn
        · cases hn
        · exact hn
    refine wp_rollForward hA (by rw [hd', hmarker]; rfl) hm hstor (by rw [hd', hfile])
      (fun d'' hd'' => hok d'' ?_) hcut
    rw [hd'', hd']
    refine Dir.drop_eq_only (fun n hn => ?_) fun g hg hn => ?_
    · rw [List.mem_append, List.mem_singleton]
      rcases hfiles n hn with h | h | h
      · exact .inl (.inr h)
      · exact .inr h
      · exact .inl (.inl h)
    · rw [List.mem_append, List.mem_singleton] at hn
      rcases hn with hn | hn
      · exact hkept (List.Subset.refl _) g hg hn
      · exact segmentFilename_ne_marker hn

end Recover

end StoneKV
