import StoneKV.Merge

/-!
# The size of a merge

A segment takes 17 bytes for its header and footer, its records, and for every 16th record 12 bytes
and a copy of the key.

* `length_segmentImage_eq`: the size of a segment.
* **`subperm_liveEntries`**: the entries of a merge are among those of its inputs.
* **`compactAll_size`**: neither the records nor the entries of the index get more by a merge; how
  much longer the output can be is how much longer the keys in its index are.
* **`compactAll_can_grow`**: it can be longer than the inputs.
-/

namespace StoneKV

open FaultProg Layers

/-- How many entries the index of a segment with the entries `es` has. -/
def indexCount (es : List Entry) : ℕ := (es.length + (SPARSE_INDEX_INTERVAL - 1)) / SPARSE_INDEX_INTERVAL

/-- The bytes of the keys in the index of a segment with the entries `es`. -/
def indexKeyBytes (es : List Entry) : ℕ :=
  ((sparseIndexOf 0 SEGMENT_HEADER_SIZE es).map fun i => i.key.length).sum

/-- The bytes of the header and the footer. -/
def SEGMENT_FRAME_SIZE : ℕ := SEGMENT_HEADER_SIZE + SEGMENT_FOOTER_SIZE

section Size

variable {es es' : List Entry} {ess : List (List Entry)} {n offset : ℕ}

theorem length_sparseIndexOf : (sparseIndexOf 0 offset es).length = indexCount es := by
  induction es using List.reverseRecOn with
  | nil => rfl
  | append_singleton es e ih =>
    rw [sparseIndexOf_append, List.length_append, ih, indexCount, indexCount, List.length_append,
      List.length_singleton, Nat.zero_add]
    unfold SPARSE_INDEX_INTERVAL
    split_ifs with h
    · rw [List.length_singleton]
      omega
    · rw [List.length_nil]
      omega

theorem length_indexImage (is : List SparseIndexEntry) :
    (indexImage is).length = 12 * is.length + (is.map fun i => i.key.length).sum := by
  induction is with
  | nil => rfl
  | cons i is ih =>
    rw [indexImage_cons, List.length_append, length_indexEntryImage, ih, List.length_cons,
      List.map_cons, List.sum_cons]
    omega

/-- **The size of a segment.** -/
theorem length_segmentImage_eq : (segmentImage es).length =
    SEGMENT_FRAME_SIZE + (recordsImage es).length + 12 * indexCount es + indexKeyBytes es := by
  rw [length_segmentImage, length_indexImage, length_sparseIndexOf, indexKeyBytes,
    SEGMENT_FRAME_SIZE]
  omega

theorem length_recordsImage :
    (recordsImage es).length = (es.map fun e => (toRecord e).image.length).sum := by
  induction es with
  | nil => rfl
  | cons e es ih =>
    rw [recordsImage_cons, List.length_append, ih, List.map_cons, List.sum_cons]

/-! ### Fewer entries -/

theorem length_recordsImage_le (h : es.Subperm es') :
    (recordsImage es).length ≤ (recordsImage es').length := by
  obtain ⟨l, hperm, hsub⟩ := h
  rw [length_recordsImage, length_recordsImage,
    ← (hperm.map fun e => (toRecord e).image.length).sum_eq]
  exact (hsub.map _).sum_le_sum fun _ _ => Nat.zero_le _

theorem indexCount_le (h : es.Subperm es') : indexCount es ≤ indexCount es' := by
  have := h.length_le
  unfold indexCount SPARSE_INDEX_INTERVAL
  omega

/-- **The entries of a merge** are among those of its inputs. -/
theorem subperm_liveEntries (h : ∀ es ∈ ess, Ascending es) :
    (liveEntries ess).Subperm ess.flatten := by
  refine List.Nodup.subperm (ascending_liveEntries.nodup.of_map _) ?_
  rintro ⟨k, v⟩ he
  obtain ⟨l, hl, hk⟩ := List.exists_of_findSome?_eq_some ((mem_liveEntries h).mp he).1
  obtain ⟨es, hes, rfl⟩ := List.mem_map.mp hl
  rw [List.mem_reverse] at hes
  exact List.mem_flatten.mpr ⟨es, hes, (lookup_eq_some (h es hes)).mp hk⟩

/-! ### Sums over the inputs -/

/-- The bytes of the records of the inputs. -/
def recordBytesOf (ess : List (List Entry)) : ℕ := (ess.map fun es => (recordsImage es).length).sum

/-- How many entries the indexes of the inputs have. -/
def indexCountOf (ess : List (List Entry)) : ℕ := (ess.map indexCount).sum

/-- The bytes of the keys in the indexes of the inputs. -/
def indexKeyBytesOf (ess : List (List Entry)) : ℕ := (ess.map indexKeyBytes).sum

theorem length_recordsImage_flatten : (recordsImage ess.flatten).length = recordBytesOf ess := by
  induction ess with
  | nil => rfl
  | cons es ess ih =>
    rw [List.flatten_cons, recordsImage_append, List.length_append, ih, recordBytesOf,
      recordBytesOf, List.map_cons, List.sum_cons]

theorem indexCount_flatten_le : indexCount ess.flatten ≤ indexCountOf ess := by
  induction ess with
  | nil => exact le_rfl
  | cons es ess ih =>
    rw [indexCountOf, List.map_cons, List.sum_cons, ← indexCountOf]
    refine le_trans ?_ (Nat.add_le_add_left ih _)
    unfold indexCount SPARSE_INDEX_INTERVAL
    rw [List.flatten_cons, List.length_append]
    omega

theorem sum_length_segmentImage : (ess.map fun es => (segmentImage es).length).sum =
    SEGMENT_FRAME_SIZE * ess.length + recordBytesOf ess + 12 * indexCountOf ess +
      indexKeyBytesOf ess := by
  induction ess with
  | nil => rfl
  | cons es ess ih =>
    rw [List.map_cons, List.sum_cons, ih, length_segmentImage_eq, List.length_cons, recordBytesOf,
      recordBytesOf, indexCountOf, indexCountOf, indexKeyBytesOf, indexKeyBytesOf, List.map_cons,
      List.map_cons, List.map_cons, List.sum_cons, List.sum_cons, List.sum_cons]
    ring

/-- The keys in the index when all keys have one length. -/
theorem indexKeyBytes_of_length (h : ∀ e ∈ es, e.1.length = n) :
    indexKeyBytes es = n * indexCount es := by
  have hall : ∀ i ∈ sparseIndexOf 0 SEGMENT_HEADER_SIZE es, i.key.length = n := by
    intro i hi
    obtain ⟨pre, e, post, rfl, hk, -⟩ := mem_sparseIndexOf hi
    rw [hk]
    exact h e (by simp)
  rw [indexKeyBytes, List.map_congr_left hall, ← length_sparseIndexOf, List.map_const',
    List.sum_replicate, smul_eq_mul, Nat.mul_comm]

theorem indexKeyBytesOf_of_length (h : ∀ es ∈ ess, ∀ e ∈ es, e.1.length = n) :
    indexKeyBytesOf ess = n * indexCountOf ess := by
  rw [indexKeyBytesOf, List.map_congr_left fun es hes => indexKeyBytes_of_length (h es hes),
    List.sum_map_mul_left]
  rfl

end Size

/-! ## The sizes that are reported -/

section Reported

variable {d d' : Disk} {out : Path} {stats : CompactionBuildStats} {inputs : List (Path × List Entry)}

theorem bytesOf_written (hasc : ∀ x ∈ inputs, Ascending x.2)
    (hwritten : ∀ x ∈ inputs, ∃ b, d.read x.1 = some b ∧ WrittenBy x.2 b) :
    bytesOf d (inputs.map Prod.fst) =
      ((inputs.map Prod.snd).map fun es => (segmentImage es).length).sum := by
  rw [bytesOf, List.map_map, List.map_map]
  refine congrArg List.sum (List.map_congr_left fun x hx => ?_)
  obtain ⟨b, hb, hw⟩ := hwritten x hx
  obtain ⟨-, rfl⟩ := hw.storable (hasc x hx) (Disk.length_le_of_read hb)
  rw [Function.comp_apply, Function.comp_apply, hb, Option.getD_some]

/-- What `compact_all` reports and leaves. -/
theorem compactAll_reported (hasc : ∀ x ∈ inputs, Ascending x.2)
    (hwritten : ∀ x ∈ inputs, ∃ b, d.read x.1 = some b ∧ WrittenBy x.2 b)
    (hrun : (compactAll (inputs.map Prod.fst) out).run d [] = (.ok stats, d')) :
    stats.bytesBefore = saturatingAdd 0 (bytesOf d (inputs.map Prod.fst)) ∧
      stats.bytesAfter = (segmentImage (liveEntries (inputs.map Prod.snd))).length ∧
      d'.read out = some (segmentImage (liveEntries (inputs.map Prod.snd))) := by
  have hwp : wp NoFault (compactAll (inputs.map Prod.fst) out) (fun o d' => ∀ stats, o = .ok stats →
      stats.bytesBefore = saturatingAdd 0 (bytesOf d (inputs.map Prod.fst)) ∧
      stats.bytesAfter = (segmentImage (liveEntries (inputs.map Prod.snd))).length ∧
      d'.read out = some (segmentImage (liveEntries (inputs.map Prod.snd)))) d := by
    refine wp_compactAll (inputs_of_written hasc hwritten) (fun d' _ hread stats hs => ?_)
      (fun _ _ _ _ _ h => by cases h) fun _ _ _ h => by cases h
    cases hs
    exact ⟨rfl, rfl, hread⟩
  exact hwp.run_eq (by simp) hrun stats rfl

end Reported

/-- **How large a merge is.** The inputs are segments written from increasing entries, and
`compact_all` returns `Ok`. It reports the size of the inputs, as far as 64 bits go, and that of the
output. The output has no more bytes of records than the inputs, and no more entries in its index;
headers and footers are saved; and the rest is the keys in the indexes. So the output is no longer
than the inputs unless the keys in its index take more than theirs, by more than the headers and
footers that are saved; and never when all keys have one length. -/
theorem compactAll_size {d d' : Disk} {out : Path} {stats : CompactionBuildStats}
    (inputs : List (Path × List Entry)) (hlen : 2 ≤ inputs.length)
    (hasc : ∀ x ∈ inputs, Ascending x.2)
    (hwritten : ∀ x ∈ inputs, ∃ b, d.read x.1 = some b ∧ WrittenBy x.2 b)
    (hrun : (compactAll (inputs.map Prod.fst) out).run d [] = (.ok stats, d')) :
    stats.bytesBefore = min (bytesOf d (inputs.map Prod.fst)) (u64Size - 1) ∧
    (∃ b, d'.read out = some b ∧ stats.bytesAfter = b.length) ∧
    (recordsImage (liveEntries (inputs.map Prod.snd))).length ≤
      recordBytesOf (inputs.map Prod.snd) ∧
    indexCount (liveEntries (inputs.map Prod.snd)) ≤ indexCountOf (inputs.map Prod.snd) ∧
    stats.bytesAfter + SEGMENT_FRAME_SIZE * inputs.length + recordBytesOf (inputs.map Prod.snd) +
        12 * indexCountOf (inputs.map Prod.snd) + indexKeyBytesOf (inputs.map Prod.snd) =
      bytesOf d (inputs.map Prod.fst) + SEGMENT_FRAME_SIZE +
        (recordsImage (liveEntries (inputs.map Prod.snd))).length +
        12 * indexCount (liveEntries (inputs.map Prod.snd)) +
        indexKeyBytes (liveEntries (inputs.map Prod.snd)) ∧
    (indexKeyBytes (liveEntries (inputs.map Prod.snd)) ≤ indexKeyBytesOf (inputs.map Prod.snd) +
        SEGMENT_FRAME_SIZE * (inputs.length - 1) → stats.bytesAfter ≤ stats.bytesBefore) ∧
    ∀ n, (∀ x ∈ inputs, ∀ e ∈ x.2, e.1.length = n) → stats.bytesAfter ≤ stats.bytesBefore := by
  obtain ⟨hbefore, hafter, hread⟩ := compactAll_reported hasc hwritten hrun
  have hess := (inputs_of_written hasc hwritten).ascending
  have hsub := subperm_liveEntries hess
  have hrecords := length_recordsImage_le hsub
  rw [length_recordsImage_flatten] at hrecords
  have hcount := (indexCount_le hsub).trans indexCount_flatten_le
  have htotal := bytesOf_written hasc hwritten
  rw [sum_length_segmentImage, List.length_map] at htotal
  have himage := hafter
  rw [length_segmentImage_eq] at himage
  have hmax := Disk.length_le_of_read hread
  rw [← hafter] at hmax
  have hframe : SEGMENT_FRAME_SIZE = 17 := rfl
  have hle : indexKeyBytes (liveEntries (inputs.map Prod.snd)) ≤ indexKeyBytesOf (inputs.map Prod.snd) +
      SEGMENT_FRAME_SIZE * (inputs.length - 1) → stats.bytesAfter ≤ stats.bytesBefore := fun hkeys => by
    have hsum : stats.bytesAfter ≤ bytesOf d (inputs.map Prod.fst) := by
      rw [hframe] at hkeys himage htotal
      omega
    rw [hbefore]
    unfold saturatingAdd u64Size
    unfold maxFileLen at hmax
    omega
  refine ⟨?_, ⟨_, hread, hafter⟩, hrecords, hcount, ?_, hle, fun n hn => hle ?_⟩
  · rw [hbefore, saturatingAdd, Nat.zero_add]
  · rw [htotal, himage]
    ring
  · have hout : ∀ e ∈ liveEntries (inputs.map Prod.snd), e.1.length = n := by
      intro e he
      obtain ⟨es, hes, hmem⟩ := List.mem_flatten.mp (hsub.subset he)
      obtain ⟨x, hx, rfl⟩ := List.mem_map.mp hes
      exact hn x hx e hmem
    have hin : ∀ es ∈ inputs.map Prod.snd, ∀ e ∈ es, e.1.length = n := by
      intro es hes
      obtain ⟨x, hx, rfl⟩ := List.mem_map.mp hes
      exact hn x hx
    rw [indexKeyBytes_of_length hout, indexKeyBytesOf_of_length hin]
    exact (Nat.mul_le_mul_left n hcount).trans (Nat.le_add_right _ _)

/-- The disk with these segments. -/
def inputsDisk (inputs : List (Path × List Entry)) : Disk :=
  inputs.foldl (fun d x => ((SegmentWriter.write x.1 x.2).run d []).2) Disk.empty

theorem written_inputsDisk {inputs : List (Path × List Entry)}
    (hread : ∀ x ∈ inputs, (inputsDisk inputs).read x.1 = some (segmentImage x.2))
    (hasc : ∀ x ∈ inputs, Ascending x.2)
    (hencode : ∀ x ∈ inputs, ∀ e ∈ x.2, (toRecord e).encode = .ok (toRecord e).image) :
    ∀ x ∈ inputs, ∃ b, (inputsDisk inputs).read x.1 = some b ∧ WrittenBy x.2 b := fun x hx =>
  ⟨_, hread x hx, Storable.writtenBy ⟨hasc x hx, fun e he => valid_of_encode (hencode x hx e he),
    Disk.length_le_of_read (hread x hx)⟩⟩

/-- Two segments with keys of one byte; the newer one deletes a key of the older one. -/
def byteKeys : List (Path × List Entry) :=
  [([['a']], [([0], some [1]), ([1], some [2])]), ([['b']], [([0], none), ([2], some [3])])]

/-- What merging them reports. -/
def byteKeysStats : CompactionBuildStats := ⟨2, 4, 2, 119, 60⟩

/-- The keys have one length, and the merged segment is shorter. -/
theorem compactAll_size_byteKeys : ∃ d', (compactAll (byteKeys.map Prod.fst) [['c']]).run
    (inputsDisk byteKeys) [] = (.ok byteKeysStats, d') ∧
      byteKeysStats.bytesAfter ≤ byteKeysStats.bytesBefore := by
  have hok : ((compactAll (byteKeys.map Prod.fst) [['c']]).run (inputsDisk byteKeys) []).1 =
      .ok byteKeysStats := by decide +kernel
  have hrun := Prod.fst_eq_iff.mp hok
  obtain ⟨-, -, -, -, -, -, hle⟩ := compactAll_size byteKeys (by decide) (by decide +kernel)
    (written_inputsDisk (by decide +kernel) (by decide +kernel) (by decide +kernel)) hrun
  exact ⟨_, hrun, hle 1 (by decide)⟩

/-- A key of 64 bytes. -/
def longKey : Key := List.replicate 64 1

/-- Two segments: the older one has a long key that is not in its index, and the newer one deletes the
key before it. -/
def uncoveredKey : List (Path × List Entry) :=
  [([['a']], [([0], some [1]), (longKey, some [2])]), ([['b']], [([0], none)])]

/-- What merging the two segments reports. -/
def uncoveredKeyStats : CompactionBuildStats := ⟨2, 3, 1, 167, 171⟩

/-- **A merge can be longer than its inputs**: the long key enters the index. -/
theorem compactAll_can_grow : ¬ ∀ (inputs : List (Path × List Entry)) (d d' : Disk) (out : Path)
    (stats : CompactionBuildStats), 2 ≤ inputs.length → (∀ x ∈ inputs, Ascending x.2) →
    (∀ x ∈ inputs, ∃ b, d.read x.1 = some b ∧ WrittenBy x.2 b) →
    (compactAll (inputs.map Prod.fst) out).run d [] = (.ok stats, d') →
    stats.bytesAfter ≤ stats.bytesBefore := by
  intro h
  have hok : ((compactAll (uncoveredKey.map Prod.fst) [['c']]).run (inputsDisk uncoveredKey) []).1 =
      .ok uncoveredKeyStats := by decide +kernel
  have hrun := Prod.fst_eq_iff.mp hok
  have hle := h uncoveredKey (inputsDisk uncoveredKey) _ [['c']] uncoveredKeyStats (by decide)
    (by decide +kernel)
    (written_inputsDisk (by decide +kernel) (by decide +kernel) (by decide +kernel)) hrun
  exact absurd hle (by decide)

end StoneKV
