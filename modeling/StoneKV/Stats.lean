import StoneKV.History
import StoneKV.CompactionSize

/-!
# What the numbers say

* `Served.stats_run`: the numbers of `stats`; `Served.compactSegments_reported`: those of a merge.
* `SegmentTree.stats`, `SegmentTree.verifyStats`, `SegmentTree.compactionStats`: the numbers of a tree.
* **`numbers_agree`**: the numbers of `stats`, `verify` and `compact` before and after a compaction
  agree with each other and with what `get` answers.
-/

namespace StoneKV

open FaultProg Prog LsmTree

/-! ## Statistics -/

section Stats

variable {dir : Path} {s : Store} {d : Disk} {L : List (List Entry)} {p : Path} {b : Bytes}

theorem metadataLen_run (h : d.read p = some b) :
    (Fs.metadataLen p : Io ℕ).attempt.run d [] = (.ok (.ok b.length), d) := by
  simp [Prog.run, Prog.attempt, Fs.metadataLen, Prog.call, Prog.callPart, Prog.finish, h]

theorem segmentLens_run {rs : List SegmentReader} (h : List.Forall₂ (Lists dir (dirOf dir d)) rs L) :
    (Store.segmentLens rs).run d [] = (.ok (rs.map fun r => r.file.length), d) := by
  induction h with
  | nil => rfl
  | @cons r es rs L hr _ ih =>
    have hread : d.read r.path = some r.file := by
      rw [hr.path, ← dirOf_files (not_isScratchName_of_parse hr.parse), hr.file]
    exact (run_bind_nil (metadataLen_run hread)).trans (run_bind_nil ih)

/-- **The numbers of `stats`.** -/
theorem Served.stats_run (h : Served dir s (dirOf dir d) L) {w : Bytes}
    (hw : (dirOf dir d).wal = some w) : Store.stats.run (s, d) [] =
      (.ok ⟨s.segments.length, (s.segments.map fun r => r.file.length).sum % u64Size, w.length,
        s.memtable.len, s.memtable.approxSizeBytes⟩, (s, d)) := by
  rw [dirOf_wal, ← h.wal] at hw
  exact (run_bind_nil (show self.run (s, d) [] = (.ok s, (s, d)) from rfl)).trans
    ((run_bind_nil (run_onSnd (segmentLens_run h.lists))).trans
      (run_bind_nil (run_onSnd (metadataLen_run hw))))

end Stats

/-! ## Merging -/

section Merge

variable {dir : Path} {s s' : Store} {d d' : Disk} {L : List (List Entry)} {cs : CompactionStats}
  {y : Store × Disk} {g : ℕ} {p : Path}

/-- What `compact` reports of a merge. -/
def CompactionBuildStats.reported (build : CompactionBuildStats) : CompactionStats :=
  ⟨build.segmentsRead, build.recordsBefore, build.liveRecordsAfter, build.bytesBefore,
    build.bytesAfter⟩

/-- Once there is a merged segment, what is reported is what was built. -/
theorem installCompacted_reported {build : CompactionBuildStats}
    (h : (Store.installCompacted g p build).run (s, d) [] = (.ok cs, y)) : cs = build.reported := by
  unfold Store.installCompacted at h
  obtain ⟨s₁, x₁, -, h⟩ := exists_of_run_bind_nil h
  obtain ⟨_ | reader, x₂, -, h⟩ := exists_of_run_bind_nil h
  · obtain ⟨_, _, -, h⟩ := exists_of_run_bind_nil h
    obtain ⟨_, _, -, h⟩ := exists_of_run_bind_nil h
    exact absurd (congrArg Prod.fst h) nofun
  · obtain ⟨_, _, -, h⟩ := exists_of_run_bind_nil h
    obtain ⟨_, _, -, h⟩ := exists_of_run_bind_nil h
    obtain ⟨_, _, -, h⟩ := exists_of_run_bind_nil h
    obtain ⟨_, _, -, h⟩ := exists_of_run_bind_nil h
    obtain ⟨_, _, -, h⟩ := exists_of_run_bind_nil h
    exact (Outcome.ok.inj (congrArg Prod.fst h)).symm

theorem bytesOf_served (h : Served dir s (dirOf dir d) L) :
    bytesOf d (s.segments.reverse.map SegmentReader.path) =
      (s.segments.map fun r => r.file.length).sum := by
  rw [bytesOf, List.map_map, List.map_reverse, List.sum_reverse]
  refine congrArg List.sum (List.map_congr_left fun r hr => ?_)
  obtain ⟨es, -, hl⟩ := h.exists_lists hr
  rw [Function.comp_apply, hl.path, ← dirOf_files (not_isScratchName_of_parse hl.parse), hl.file,
    Option.getD_some]

/-- The numbers of a merge of segments with the entries `L` and `n` bytes. -/
def mergeStats (L : List (List Entry)) (n : ℕ) : CompactionStats :=
  ⟨L.length, min (entryCount L) (u64Size - 1), (merged L).length, min n (u64Size - 1),
    (segmentImage (merged L)).length⟩

/-- **The numbers of a merge.** -/
theorem Served.compactSegments_reported (h : Served dir s (dirOf dir d) L)
    (hrun : Store.compactSegments.run (s, d) [] = (.ok cs, y)) :
    cs = mergeStats L (s.segments.map fun r => r.file.length).sum := by
  replace hrun := run_self_bind.symm.trans hrun
  obtain ⟨_, x₁, hremove, hrun⟩ := exists_of_run_bind_nil hrun
  have htemp := Store.segmentTempPath_next h.dir_eq
  obtain ⟨d₁, hd₁, rfl⟩ : ∃ d₁, ((removeIfExists (segmentTempPath s.segmentsDir
      s.nextSegmentGeneration)).run d []).2 = d₁ ∧ x₁ = (s, d₁) :=
    ⟨_, rfl, (congrArg Prod.snd hremove).symm⟩
  obtain ⟨build, x₂, hbuild, hrun⟩ := exists_of_run_bind_nil hrun
  have hsame : dirOf dir d₁ = dirOf dir d := by
    have hwp : wp NoFault (removeIfExists (segmentTempPath s.segmentsDir s.nextSegmentGeneration))
        (fun _ d' => dirOf dir d' = dirOf dir d) d := by
      rw [htemp]
      have hscratch := isScratchName_temp h.next_lt
      exact wp_removeIfExists (fun _ => dirOf_erase_scratch hscratch) (fun _ => rfl) (fun _ => rfl) rfl
    rw [← hd₁]
    exact hwp.run (l := []) (by simp)
  have h₁ : Served dir s (dirOf dir d₁) L := hsame ▸ h
  have hreported : build.reported = mergeStats L (s.segments.map fun r => r.file.length).sum := by
    have hwp : wp NoFault (compactAll (s.segments.reverse.map SegmentReader.path)
        (segmentTempPath s.segmentsDir s.nextSegmentGeneration)) (fun o _ => ∀ build, o = .ok build →
          build.reported = mergeStats L (s.segments.map fun r => r.file.length).sum) d₁ := by
      refine wp_compactAll h₁.inputs (fun d' _ _ build hb => ?_) (fun _ _ _ _ _ h => by cases h)
        fun _ _ _ h => by cases h
      cases hb
      rw [bytesOf_served h₁]
      simp only [CompactionBuildStats.reported, mergeStats, saturatingAdd, Nat.zero_add, recordCount,
        entryCount, List.map_reverse, List.sum_reverse, List.length_map, List.length_reverse, merged,
        h.lists.length_eq]
    exact hwp.run (l := []) (by simp) _ (congrArg Prod.fst hbuild)
  obtain ⟨_ | _, x₃, -, hrun⟩ := exists_of_run_bind_nil hrun
  · obtain ⟨_, _, -, hrun⟩ := exists_of_run_bind_nil hrun
    cases congrArg Prod.fst hrun
  obtain ⟨_ | _, ⟨s₄, d₄⟩, -, hrun⟩ := exists_of_run_bind_nil hrun
  · obtain ⟨_, _, -, hrun⟩ := exists_of_run_bind_nil hrun
    obtain ⟨_, _, -, hrun⟩ := exists_of_run_bind_nil hrun
    cases congrArg Prod.fst hrun
  exact (installCompacted_reported hrun).trans hreported

end Merge

/-! ## The numbers of a tree -/

namespace SegmentTree

/-- The bytes of the segments. -/
def bytes (T : SegmentTree) : ℕ := (T.segments.map fun es => (segmentImage es).length).sum

def stats (T : SegmentTree) : StoreStats :=
  ⟨T.runs.length, T.bytes % u64Size, (logImage T.log).length, (memtableOf T.log).len,
    (memtableOf T.log).approxSizeBytes⟩

def verifyStats (T : SegmentTree) : VerifyStats := ⟨T.log.length, T.runs.length, entryCount T.segments⟩

/-- What compacting reports, when the memtable is flushed already. -/
def compactionStats (T : SegmentTree) : CompactionStats :=
  if T.runs.length < 2 then .default else mergeStats T.segments T.bytes

end SegmentTree

section Trees

variable {dir : Path} {t : ℕ} {T : SegmentTree} {s : Store} {d : Disk} {cs : CompactionStats}
  {vs : VerifyStats} {x y : Store × Disk} {es : List Entry} {f : Contents} {r : Record}
  {rs : List Record}

theorem IsTree.bytes_eq (h : IsTree dir t T s (dirOf dir d)) :
    (s.segments.map fun r => r.file.length).sum = T.bytes := by
  rw [(Live.backed h).segments, SegmentTree.bytes]
  unfold SegmentTree.generations SegmentTree.segments
  induction T.runs with
  | nil => rfl
  | cons r runs ih =>
    rw [List.map_cons, List.map_cons, readersOf_cons, List.map_cons, List.sum_cons, ih]
    rfl

theorem IsTree.stats_run (h : IsTree dir t T s (dirOf dir d)) :
    Store.stats.run (s, d) [] = (.ok T.stats, (s, d)) := by
  rw [(Live.backed h).served.stats_run (Live.log h), h.segments_length, h.bytes_eq,
    Live.memtable_eq h]
  rfl

theorem IsTree.recordCount_eq (h : IsTree dir t T s (dirOf dir d)) :
    s.recordCount = entryCount T.segments :=
  StoneKV.recordCount_eq ((Live.backed h).served.lists.imp fun _ _ hr => hr.sound.iterAllIn)

theorem IsTree.verify_run (h : IsTree dir t T s (dirOf dir d))
    (hlt : entryCount T.segments < u64Size) :
    Store.verify.run (s, d) [] = (.ok T.verifyStats, (s, d)) := by
  rw [← h.recordCount_eq] at hlt
  rw [((Live.backed h).served.verify_run (Live.log h) (Live.records h)).1 hlt, h.segments_length,
    h.recordCount_eq]
  rfl

theorem IsTree.verify_eq (h : IsTree dir t T s (dirOf dir d))
    (hrun : Store.verify.run (s, d) [] = (.ok vs, x)) : vs = T.verifyStats := by
  by_cases hlt : entryCount T.segments < u64Size
  · rw [h.verify_run hlt] at hrun
    cases hrun
    rfl
  · rw [← h.recordCount_eq] at hlt
    rw [((Live.backed h).served.verify_run (Live.log h) (Live.records h)).2 (Nat.not_lt.mp hlt)]
      at hrun
    cases hrun

/-- **A compaction** is a flush and a merge of the tree, and reports the numbers of these. -/
theorem IsTree.compact_run (h : IsTree dir t T s (dirOf dir d))
    (hrun : Store.compact.run (s, d) [] = (.ok cs, y)) (hbelow : (dirOf dir y.2).Below) :
    cs = SegmentTree.compactionStats ((parts t).flush T) ∧
      IsTree dir t ((parts t).compact T) y.1 (dirOf dir y.2) := by
  have hcall : Call.compact.method.run (s, d) [] = (.ok (), y) := run_bind_nil hrun
  have hy := (h.call (c := .compact) nofun (by rw [hcall]; nofun) (by rw [hcall]; exact hbelow)).2
  rw [hcall] at hy
  refine ⟨?_, hy⟩
  replace hrun := run_self_bind.symm.trans hrun
  have hrest : ∀ {x₁ : Store × Disk}, IsTree dir t ((parts t).flush T) x₁.1 (dirOf dir x₁.2) →
      (do
        if (← self).segments.length < 2 then return .default
        Store.compactSegments : Method CompactionStats).run x₁ [] = (.ok cs, y) →
      cs = SegmentTree.compactionStats ((parts t).flush T) := fun {x₁} h₁ hrun₁ => by
    replace hrun₁ := run_self_bind.symm.trans hrun₁
    rw [SegmentTree.compactionStats, ← h₁.segments_length]
    split_ifs at hrun₁ ⊢
    · exact (Outcome.ok.inj (congrArg Prod.fst hrun₁)).symm
    · rw [(Live.backed h₁).served.compactSegments_reported hrun₁, h₁.bytes_eq]
  by_cases hempty : s.memtable.isEmpty
  · have hflush : (parts t).flush T = T := Parts.flush_of_isEmpty (by rw [h.buffer_eq]; exact hempty)
    rw [if_neg (by simpa using hempty)] at hrun
    exact hrest (hflush.symm ▸ h) hrun
  · rw [if_pos (by simpa using hempty)] at hrun
    obtain ⟨_, ⟨s₁, d₁⟩, hflush, hrun⟩ := exists_of_run_bind_nil hrun
    have hstep := (wp_flushMemtable (A := NoFault) (Live.backed h).served.writable).run_eq
      (by simp) hflush
    exact hrest (hstep.tree h bounded_dirOf) hrun

/-! ### Counting -/

theorem len_memtableOf_le : (memtableOf rs).len ≤ rs.length := by
  induction rs using List.reverseRecOn with
  | nil => exact le_rfl
  | append_singleton rs r ih =>
    rw [memtableOf_append, applyRecord_eq_put, List.length_append, List.length_singleton]
    exact Std.ExtTreeMap.size_insert_le.trans (Nat.succ_le_succ ih)

theorem length_le_segmentImage : es.length ≤ (segmentImage es).length := by
  have hle : es.length ≤ (recordsImage es).length := by
    induction es with
    | nil => exact le_rfl
    | cons e es ih =>
      have hpos : 0 < (toRecord e).image.length := List.length_pos_of_ne_nil Record.image_ne_nil
      rw [recordsImage_cons, List.length_cons, List.length_append]
      omega
  rw [length_segmentImage_eq]
  omega

/-- Live entries are as many as there are keys with a value. -/
theorem length_of_layer (h : Ascending es) (hl : layer es = fun k => (f k).map some) :
    es.length = {k | (f k).isSome}.ncard := by
  have hset : {k | (f k).isSome} = ((es.map Prod.fst).toFinset : Set Key) := by
    ext k
    have hk : (f k).isSome ↔ es.lookup k ≠ none := by
      rw [show es.lookup k = (f k).map some from congrFun hl k]
      cases f k <;> simp
    rw [Set.mem_ofPred_eq, hk, Ne, lookup_eq_none]
    simp
  rw [hset, Set.ncard_coe_finset, List.toFinset_card_of_nodup h.nodup, List.length_map]

theorem isEmpty_iff_len {m : Memtable} : m.isEmpty ↔ m.len = 0 := by
  rw [Memtable.isEmpty, Std.ExtTreeMap.isEmpty_eq_size_beq_zero, beq_iff_eq, Memtable.len]

/-- What a flush adds to the segments. -/
theorem flush_counts (t : ℕ) (T : SegmentTree) : ((parts t).flush T).runs.length =
      T.runs.length + min (memtableOf T.log).len 1 ∧
    entryCount (SegmentTree.segments ((parts t).flush T)) =
      entryCount T.segments + (memtableOf T.log).len := by
  by_cases hempty : (memtableOf T.log).isEmpty
  · rw [Parts.flush_of_isEmpty (P := parts t) (T := T) hempty, isEmpty_iff_len.mp hempty]
    exact ⟨rfl, rfl⟩
  · have hlen : (memtableOf T.log).iter.length = (memtableOf T.log).len :=
      Std.ExtTreeMap.length_toList
    have hne : (memtableOf T.log).len ≠ 0 := fun h => hempty (isEmpty_iff_len.mpr h)
    rw [Parts.flush_of_not_isEmpty (P := parts t) (T := T) hempty, List.length_cons,
      Nat.min_eq_right (Nat.one_le_iff_ne_zero.mpr hne)]
    refine ⟨rfl, ?_⟩
    rw [SegmentTree.segments, List.map_cons, entryCount, List.map_cons, List.sum_cons,
      Nat.add_comm, ← hlen]
    rfl

/-- The numbers before a compaction, its own, and those after it agree, in a store with a value for
`held` keys. -/
structure Agree (held : ℕ) (st : StoreStats) (vs : VerifyStats) (cs : CompactionStats)
    (st' : StoreStats) (vs' : VerifyStats) : Prop where
  before : st.segmentCount = vs.segmentsChecked ∧ st.memtableEntries ≤ vs.walRecords
  after : st'.segmentCount = vs'.segmentsChecked ∧ vs'.walRecords = 0 ∧ st'.walBytes = 0 ∧
    st'.memtableEntries = 0 ∧ st'.memtableSizeBytes = 0
  merged : 2 ≤ st.segmentCount + min st.memtableEntries 1 →
    cs.segmentsMerged = st.segmentCount + min st.memtableEntries 1 ∧
    cs.recordsBefore = min (vs.recordsChecked + st.memtableEntries) (u64Size - 1) ∧
    cs.liveRecordsAfter = held ∧ vs'.recordsChecked = held ∧
    cs.bytesAfter = st'.totalSegmentBytes ∧ st'.segmentCount = 1
  kept : st.segmentCount + min st.memtableEntries 1 < 2 → cs = .default ∧
    st'.segmentCount = st.segmentCount + min st.memtableEntries 1 ∧
    vs'.recordsChecked = vs.recordsChecked + st.memtableEntries

theorem IsTree.storable (h : IsTree dir t T s (dirOf dir d)) : ∀ r ∈ T.runs, Storable r.2 := by
  have himages := (Live.settled h).holds.images
  rw [SegmentTree.generations, SegmentTree.segments, List.forall₂_map_left_iff,
    List.forall₂_map_right_iff, List.forall₂_same] at himages
  exact fun r hr => (himages r hr).1

theorem bytes_singleton {g : ℕ} (h : Storable es) :
    SegmentTree.bytes ⟨rs, [(g, es)]⟩ % u64Size = (segmentImage es).length := by
  have hlt : (segmentImage es).length < u64Size := Nat.lt_of_le_of_lt h.length_le (by decide)
  exact Nat.mod_eq_of_lt hlt

/-- There are not too many records in one segment to count. -/
theorem IsTree.entryCount_lt (h : IsTree dir t T s (dirOf dir d)) (hlen : T.runs.length < 2) :
    entryCount T.segments < u64Size := by
  have hstor := h.storable
  obtain ⟨log, _ | ⟨⟨g, es⟩, _ | ⟨_, _⟩⟩⟩ := T
  · exact Nat.two_pow_pos 64
  · have hle := length_le_segmentImage.trans (hstor _ List.mem_cons_self).length_le
    rw [SegmentTree.segments, List.map_singleton, entryCount, List.map_singleton, List.sum_singleton]
    exact Nat.lt_of_le_of_lt hle (by decide)
  · rw [List.length_cons, List.length_cons] at hlen
    omega

/-- The numbers of a tree and of its compaction agree. -/
theorem IsTree.agree (h : IsTree dir t T s (dirOf dir d))
    (hy : IsTree dir t ((parts t).compact T) y.1 (dirOf dir y.2)) :
    Agree {k | (answersOf (s, d) k).isSome}.ncard T.stats T.verifyStats
      (SegmentTree.compactionStats ((parts t).flush T))
      (SegmentTree.stats ((parts t).compact T)) (SegmentTree.verifyStats ((parts t).compact T)) := by
  obtain ⟨hlen, hcount⟩ := flush_counts t T
  have hbefore : T.stats.segmentCount = T.verifyStats.segmentsChecked ∧
      T.stats.memtableEntries ≤ T.verifyStats.walRecords := ⟨rfl, len_memtableOf_le⟩
  have hcompactLog : ((parts t).compact T).log = [] := by
    rw [← log_flush (t := t) (T := T)]
    exact Parts.log_merged
  have hafter : (SegmentTree.stats ((parts t).compact T)).segmentCount =
      (SegmentTree.verifyStats ((parts t).compact T)).segmentsChecked ∧
      (SegmentTree.verifyStats ((parts t).compact T)).walRecords = 0 ∧
      (SegmentTree.stats ((parts t).compact T)).walBytes = 0 ∧
      (SegmentTree.stats ((parts t).compact T)).memtableEntries = 0 ∧
      (SegmentTree.stats ((parts t).compact T)).memtableSizeBytes = 0 := by
    unfold SegmentTree.stats SegmentTree.verifyStats
    rw [hcompactLog]
    exact ⟨rfl, rfl, rfl, rfl, rfl⟩
  refine ⟨hbefore, hafter, fun htwo => ?_, fun hlt => ?_⟩
  · rw [show T.stats.segmentCount + min T.stats.memtableEntries 1 = _ from hlen.symm] at htwo ⊢
    obtain ⟨es, hcompact, hasc, hlayer⟩ := layer_compact (lawful_parts t) h.good htwo
    rw [← h.answersOf_eq] at hlayer
    have hmerged : merged (SegmentTree.segments ((parts t).flush T)) = es := by
      have heq := (Parts.merged_of_le (P := parts t) htwo).symm.trans hcompact
      exact congrArg (fun T : SegmentTree => T.runs.head?.elim [] Prod.snd) heq
    rw [SegmentTree.compactionStats, if_neg (Nat.not_lt.mpr htwo), mergeStats, hmerged, hcompact,
      ← length_of_layer hasc hlayer]
    rw [hcompact] at hy
    refine ⟨List.length_map _, congrArg (min · _) hcount, rfl, Nat.add_zero _,
      (bytes_singleton (hy.storable _ List.mem_cons_self)).symm, rfl⟩
  · rw [show T.stats.segmentCount + min T.stats.memtableEntries 1 = _ from hlen.symm] at hlt ⊢
    rw [SegmentTree.compactionStats, if_pos hlt,
      show (parts t).compact T = (parts t).flush T from Parts.merged_of_lt hlt]
    exact ⟨rfl, rfl, hcount⟩

/-- **The numbers agree.** Take a store reached without failures whose `verify` returns, and let
`compact` return too. `stats` and `verify` then return before and after it, and their numbers agree
with those of `compact`; when it merges, the records that it says are live are as many as there are
keys for which `get` answers a value. -/
theorem numbers_agree (h : Reachable NoFail (fun _ => NoFail) dir (some s) d)
    (hverify : Store.verify.run (s, d) [] = (.ok vs, x))
    (hcompact : Store.compact.run (s, d) [] = (.ok cs, y)) (hbelow : (dirOf dir y.2).Below) :
    ∃ st st' vs', Store.stats.run (s, d) [] = (.ok st, (s, d)) ∧
      Store.stats.run y [] = (.ok st', y) ∧ Store.verify.run y [] = (.ok vs', y) ∧
      Agree {k | (answersOf (s, d) k).isSome}.ncard st vs cs st' vs' := by
  obtain ⟨T, hT⟩ := h.isTree
  obtain ⟨rfl, hy⟩ := hT.compact_run hcompact hbelow
  rw [hT.verify_eq hverify]
  exact ⟨_, _, _, hT.stats_run, hy.stats_run, hy.verify_run (hy.entryCount_lt Parts.length_compact_lt),
    hT.agree hy⟩

/-- Two segments. -/
theorem numbers_agree_two : ∃ vs cs st st' vs',
    Store.stats.run twoSegments [] = (.ok st, twoSegments) ∧
      Store.stats.run (Store.compact.run twoSegments []).2 [] =
        (.ok st', (Store.compact.run twoSegments []).2) ∧
      Store.verify.run (Store.compact.run twoSegments []).2 [] =
        (.ok vs', (Store.compact.run twoSegments []).2) ∧
      Agree {k | (answersOf twoSegments k).isSome}.ncard st vs cs st' vs' := by
  have hreach := cleanRun_twoSegments.reachable reachable_eagerStore
  have hverify : (Store.verify.run twoSegments []).1 = .ok ⟨0, 2, 2⟩ := by decide +kernel
  have hcompact : (Store.compact.run twoSegments []).1 = .ok ⟨2, 2, 2, 90, 60⟩ := by decide +kernel
  exact ⟨_, _, numbers_agree (s := twoSegments.1) (d := twoSegments.2) hreach
    (Prod.ext hverify rfl) (Prod.ext hcompact rfl) (by decide +kernel)⟩

end Trees

end StoneKV
