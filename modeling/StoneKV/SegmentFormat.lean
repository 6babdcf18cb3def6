import StoneKV.Segment
import StoneKV.Wal

/-!
# What is in a segment

* `SegmentReader.Sound r es`: the open segment `r` holds the entries `es`, and its index points at
  records of these entries.
* **`Sound.iterAllIn`**, **`Sound.getIn`**: then `iter_all` lists them and `get` looks a key up.
* `segmentImage es`: the bytes that the writer leaves; **`Storable.sound`**: they are sound.
* `Framed`, `IsSegment`: what the bytes of a segment are made of; **`Framed.checkFile`**: such bytes are
  accepted.
-/

namespace StoneKV

open FaultProg

/-! ## Entries and records -/

/-- The entry of a record. -/
def toEntry (r : Record) : Entry := (r.key, match r.op with | .set => some r.val | .delete => none)

/-- The bytes of the records of entries. -/
def recordsImage (es : List Entry) : Bytes := logImage (es.map toRecord)

section Entries

variable {e : Entry} {es es' : List Entry} {r : Record}

@[simp] theorem recordsImage_nil : recordsImage [] = [] := rfl

theorem recordsImage_cons : recordsImage (e :: es) = (toRecord e).image ++ recordsImage es := rfl

theorem recordsImage_append : recordsImage (es ++ es') = recordsImage es ++ recordsImage es' := by
  rw [recordsImage, List.map_append, logImage_append]
  rfl

@[simp] theorem toRecord_key : (toRecord e).key = e.1 := by
  unfold toRecord
  split <;> rfl

theorem toRecord_toEntry (h : r.Valid) : toRecord (toEntry r) = r := by
  obtain ⟨_ | _, k, v⟩ := r
  · rfl
  · have hv : v = [] := h.delete rfl
    rw [hv]
    rfl

end Entries

namespace SegmentReader

variable {r : SegmentReader} {rec : Record} {rs : List Record} {offset n turns : ℕ} {rest : Bytes}

/-! ## One record -/

/-- The places of a reader are within its file, which is no longer than files are. -/
structure Bounded (r : SegmentReader) : Prop where
  start : r.recordsStart = SEGMENT_HEADER_SIZE
  le : r.indexOffset ≤ r.file.length
  length_le : r.file.length ≤ maxFileLen

theorem readExact_of_le {file : Bytes} {i : ℕ} (h : i + n ≤ file.length) :
    readExact file i n = .ok (slice file i n) := if_pos h

theorem readExact_eq_ok {file b : Bytes} {i : ℕ} :
    readExact file i n = .ok b ↔ i + n ≤ file.length ∧ b = slice file i n := by
  unfold readExact
  split_ifs with h <;> simp [h, eq_comm]

theorem fromLe_slice_lt (file : Bytes) (i : ℕ) : fromLe (slice file i 4) < 2 ^ 32 := by
  refine (fromLe_lt _).trans_le ?_
  rw [show (2 : ℕ) ^ 32 = 256 ^ 4 by norm_num]
  exact Nat.pow_le_pow_right (by omega) (List.length_take_le _ _)

/-- Bytes that the lengths in them place within the record area are decoded. -/
theorem Bounded.readRecordAt_eq (hr : r.Bounded) (h5 : r.recordsStart ≤ offset) {k v : ℕ}
    (hk : fromLe (slice r.file (offset + 1) 4) = k)
    (hv : fromLe (slice r.file (offset + 5 + k) 4) = v)
    (hend : offset + (13 + k + v) ≤ r.indexOffset) :
    r.readRecordAt offset = (do
      let (record, consumed) ← Record.decode (slice r.file offset (13 + k + v))
      rejectIf (consumed ≠ 13 + k + v)
        (invalidSegment r.path "record decoder consumed unexpected number of bytes")
      return (record, 13 + k + v)) := by
  have hsize : u64Size = 2 ^ 64 := rfl
  have hfmax : maxFileLen = 2 ^ 63 - 1 := rfl
  have hle := hr.le
  have hlen := hr.length_le
  have hk32 := hk ▸ fromLe_slice_lt r.file (offset + 1)
  have hv32 := hv ▸ fromLe_slice_lt r.file (offset + 5 + k)
  have hslice : (slice r.file offset (13 + k + v)).length = 13 + k + v := length_slice (by omega)
  unfold SegmentReader.readRecordAt
  simp (disch := omega) only [rejectIf_of_not, checkedAdd_of_lt, okOr_some, ok_bind,
    Option.bind_eq_bind, Option.bind_some, readExact_of_le, slice_slice, hk, hv]
  simp only [show 1 + 4 + k + 4 + v + 4 = 13 + k + v by omega, hslice]

/-- A record in the record area is read. -/
theorem Bounded.readRecordAt (hr : r.Bounded) (h5 : r.recordsStart ≤ offset)
    (hrec : rec.Valid) (hend : offset + rec.image.length ≤ r.indexOffset)
    (hfile : r.file.drop offset = rec.image ++ rest) :
    r.readRecordAt offset = .ok (rec, rec.image.length) := by
  have himg := hrec.length_image
  have hk : fromLe (slice r.file (offset + 1) 4) = rec.key.length := by
    rw [← slice_drop, hfile, hrec.image_eq, List.append_assoc, Record.slice_keyLen,
      Record.fromLe_length hrec.key_le]
  have hv : fromLe (slice r.file (offset + 5 + rec.key.length) 4) = rec.val.length := by
    rw [Nat.add_assoc, ← slice_drop, hfile, hrec.image_eq, List.append_assoc, Record.slice_valLen,
      Record.fromLe_length hrec.val_le]
  have hslice : slice r.file offset (13 + rec.key.length + rec.val.length) = rec.image := by
    rw [slice, hfile, ← himg, List.take_left]
  rw [hr.readRecordAt_eq h5 hk hv (by omega), hslice, ← himg]
  rw [Record.decode_image_self hrec, ok_bind]
  dsimp only
  rw [rejectIf_of_not (not_not.mpr rfl)]
  rfl

/-- What is read is a valid record that lies within the record area. -/
theorem readRecordAt_eq_ok (h : r.readRecordAt offset = .ok (rec, n)) :
    rec.Valid ∧ n = rec.image.length ∧ r.recordsStart ≤ offset ∧ offset + n ≤ r.indexOffset ∧
      slice r.file offset n = rec.image := by
  unfold SegmentReader.readRecordAt at h
  simp only [bind_eq_ok, okOr_eq_ok, rejectIf_eq_ok, readExact_eq_ok] at h
  obtain ⟨-, hstart, -, -, -, -, _, ⟨-, rfl⟩, _, -, _, -, -, -, _, ⟨-, rfl⟩, totalLen, -, recordEnd,
    hadd, -, hend, _, ⟨hle, rfl⟩, ⟨rec', consumed⟩, hdec, -, hcons, hret⟩ := h
  obtain ⟨hvalid, ⟨rest, hb⟩, hn⟩ := Record.decode_eq_ok hdec
  cases hret
  obtain ⟨rfl, -⟩ := checkedAdd_eq_some.mp hadd
  have hlen := length_slice hle
  rw [not_not] at hcons
  dsimp only at hcons hn ⊢
  have hrest : rest = [] := by
    have := congrArg List.length hb
    rw [List.length_append] at this
    exact List.eq_nil_of_length_eq_zero (by omega)
  rw [hrest, List.append_nil] at hb
  exact ⟨hvalid, by omega, by omega, by omega, hb⟩

/-! ## All records -/

/-- The loop of `iter_all` reads the records of the area; what it does at the end decides the rest. -/
theorem Bounded.iterLoop (hr : r.Bounded) {x : Except StoneError (List Record)} :
    ∀ (rs : List Record) (turns offset : ℕ) (acc : List Record), r.recordsStart ≤ offset →
    (∀ rec ∈ rs, rec.Valid) → offset + (logImage rs).length ≤ r.indexOffset →
    r.file.drop offset = logImage rs ++ rest → r.indexOffset ≤ offset + turns →
    (∀ turns, r.indexOffset ≤ offset + (logImage rs).length + turns →
      r.iterLoop turns (offset + (logImage rs).length) (acc ++ rs) = x) →
    r.iterLoop turns offset acc = x
  | [], turns, offset, acc, _, _, _, _, hturns, hend => by
    simpa using hend turns (by simpa using hturns)
  | rec :: rs, turns, offset, acc, h5, hrs, hle, hfile, hturns, hend => by
    have hrec := hrs rec List.mem_cons_self
    have hpos : 0 < rec.image.length := List.length_pos_of_ne_nil Record.image_ne_nil
    rw [logImage_cons, List.length_append] at hle
    obtain ⟨turns, rfl⟩ : ∃ k, turns = k + 1 := ⟨turns - 1, by omega⟩
    have hadd : checkedAdd offset rec.image.length = some (offset + rec.image.length) := by
      have h₁ := hr.le
      have h₂ := hr.length_le
      exact checkedAdd_of_lt (by unfold maxFileLen at h₂; unfold u64Size; omega)
    rw [logImage_cons, List.append_assoc] at hfile
    rw [SegmentReader.iterLoop, if_pos (by omega),
      hr.readRecordAt h5 hrec (by omega) hfile, ok_bind]
    simp only [hadd, okOr_some, ok_bind]
    refine hr.iterLoop rs turns _ _ (by omega) (fun x hx => hrs x (List.mem_cons_of_mem _ hx))
      (by omega) (by rw [← List.drop_drop, hfile, List.drop_left]) (by omega) fun k hk => ?_
    have := hend k (by rw [logImage_cons, List.length_append]; omega)
    rwa [logImage_cons, List.length_append, ← Nat.add_assoc, List.append_cons] at this

theorem endOfRecords_eq_ok {acc out : List Record} :
    r.endOfRecords offset acc = .ok out ↔ offset = r.indexOffset ∧ acc = out := by
  unfold endOfRecords
  by_cases h : offset = r.indexOffset
  · rw [rejectIf_of_not (not_not.mpr h)]
    simp [h, pure, Except.pure]
  · rw [rejectIf_of h]
    simp [h]

/-- What `iter_all` lists are the records of the record area. -/
theorem iterLoop_eq_ok : ∀ {turns offset : ℕ} {acc out : List Record},
    r.iterLoop turns offset acc = .ok out → ∃ rs, out = acc ++ rs ∧ (∀ rec ∈ rs, rec.Valid) ∧
      offset + (logImage rs).length = r.indexOffset ∧
      slice r.file offset (logImage rs).length = logImage rs
  | 0, offset, acc, out, h => by
    obtain ⟨h₁, h₂⟩ := endOfRecords_eq_ok.mp h
    exact ⟨[], by simp [h₂], by simp, by simp [h₁], by simp [slice]⟩
  | turns + 1, offset, acc, out, h => by
    rw [SegmentReader.iterLoop] at h
    split_ifs at h with hlt
    · simp only [bind_eq_ok, okOr_eq_ok] at h
      obtain ⟨⟨rec, n⟩, hread, offset', hadd, hloop⟩ := h
      obtain ⟨hvalid, rfl, hstart, hend, hslice⟩ := readRecordAt_eq_ok hread
      obtain ⟨rfl, -⟩ := checkedAdd_eq_some.mp hadd
      obtain ⟨rs, rfl, hrs, hlen, hs⟩ := iterLoop_eq_ok hloop
      refine ⟨rec :: rs, by simp, ?_, ?_, ?_⟩
      · rintro x (_ | ⟨_, hx⟩)
        · exact hvalid
        · exact hrs x hx
      · rw [logImage_cons, List.length_append]
        simp only at hlen
        omega
      · rw [logImage_cons, List.length_append]
        simp only at hslice hs
        conv_rhs => rw [← hslice, ← hs]
        unfold slice
        rw [List.take_add, List.drop_drop]
    · obtain ⟨h₁, h₂⟩ := endOfRecords_eq_ok.mp h
      exact ⟨[], by simp [h₂], by simp, by simp [h₁], by simp [slice]⟩

/-- **Listing.** `iter_all` lists the records of the record area. -/
theorem Bounded.iterAllIn (hr : r.Bounded) (hrs : ∀ rec ∈ rs, rec.Valid)
    (harea : r.recordsStart + (logImage rs).length = r.indexOffset)
    (hslice : slice r.file r.recordsStart (logImage rs).length = logImage rs) :
    r.iterAllIn = .ok rs := by
  have hdrop : r.file.drop r.recordsStart = logImage rs ++ r.file.drop r.indexOffset := by
    rw [drop_eq_slice _ r.recordsStart (logImage rs).length, hslice, harea]
  refine hr.iterLoop rs _ _ [] le_rfl hrs harea.le hdrop (by omega) fun turns _ => ?_
  rw [harea, List.nil_append]
  cases turns with
  | zero => exact endOfRecords_eq_ok.mpr ⟨rfl, rfl⟩
  | succ turns =>
    rw [SegmentReader.iterLoop, if_neg (lt_irrefl _)]
    exact endOfRecords_eq_ok.mpr ⟨rfl, rfl⟩

/-! ## Sound segments -/

/-- The open segment holds the entries `es`: its record area is their records in order, and each
entry of its index gives the key and the place of one of them. -/
structure Sound (r : SegmentReader) (es : List Entry) : Prop extends Bounded r where
  ascending : Ascending es
  valid : ∀ e ∈ es, (toRecord e).Valid
  area : r.recordsStart + (recordsImage es).length = r.indexOffset
  records : slice r.file r.recordsStart (recordsImage es).length =
    recordsImage es
  index : ∀ i ∈ r.sparseIndex, ∃ pre e post, es = pre ++ e :: post ∧ i.key = e.1 ∧
    i.fileOffset = r.recordsStart + (recordsImage pre).length

variable {es pre post : List Entry} {k : Key}

theorem Sound.drop (h : r.Sound es) : r.file.drop r.recordsStart =
    recordsImage es ++ r.file.drop r.indexOffset := by
  conv_lhs => rw [drop_eq_slice _ _ (recordsImage es).length, h.records, h.area]

theorem Sound.valid_records (h : r.Sound es) : ∀ rec ∈ es.map toRecord, rec.Valid := by
  intro rec hrec
  obtain ⟨e, he, rfl⟩ := List.mem_map.mp hrec
  exact h.valid e he

/-- `iter_all` lists the records of the entries. -/
theorem Sound.iterAllIn (h : r.Sound es) : r.iterAllIn = .ok (es.map toRecord) :=
  h.toBounded.iterAllIn h.valid_records h.area h.records

/-- The loop of `get` finds the key in the entries that it reads, if they reach the key or the end. -/
theorem Bounded.getLoop (hr : r.Bounded) : ∀ (es : List Entry) (turns offset : ℕ), Ascending es →
    (∀ e ∈ es, (toRecord e).Valid) → r.recordsStart ≤ offset →
    offset + (recordsImage es).length ≤ r.indexOffset →
    r.file.drop offset = recordsImage es ++ rest → (recordsImage es).length ≤ turns →
    ((∃ e ∈ es, compare e.1 k ≠ .lt) ∨ offset + (recordsImage es).length = r.indexOffset) →
    r.getLoop k turns offset = .ok (es.lookup k)
  | [], turns, offset, _, _, _, _, _, _, hend => by
    have hend : offset = r.indexOffset := hend.resolve_left fun ⟨_, he, _⟩ => List.not_mem_nil he
    rw [hend]
    cases turns with
    | zero => rfl
    | succ turns =>
      rw [SegmentReader.getLoop, if_neg (lt_irrefl _)]
      rfl
  | e :: es, turns, offset, hasc, hvalid, hstart, hle, hfile, hturns, hend => by
    have hrec : (toRecord e).Valid := hvalid e List.mem_cons_self
    have hpos : 0 < (toRecord e).image.length := List.length_pos_of_ne_nil Record.image_ne_nil
    rw [recordsImage_cons, List.length_append] at hle hturns hend
    rw [recordsImage_cons, List.append_assoc] at hfile
    obtain ⟨turns, rfl⟩ : ∃ n, turns = n + 1 := ⟨turns - 1, by omega⟩
    have hread := hr.readRecordAt hstart hrec (by omega) hfile
    rw [SegmentReader.getLoop, if_pos (by omega), hread, ok_bind]
    simp only [toRecord_key]
    rw [List.lookup_cons]
    rcases hc : compare e.1 k with _ | _ | _
    · -- the record is before the key
      have hne : (k == e.1) = false := by
        rw [beq_eq_false_iff_ne]
        rintro rfl
        exact compare_ne_lt_self hc
      have hnext : checkedAdd offset (toRecord e).image.length =
          some (offset + (toRecord e).image.length) := checkedAdd_of_lt (by
        have h₁ := hr.le
        have h₂ := hr.length_le
        unfold maxFileLen at h₂
        unfold u64Size
        omega)
      simp only [hne, hnext, okOr_some, ok_bind]
      refine hr.getLoop es turns _ hasc.tail (fun x hx => hvalid x (List.mem_cons_of_mem _ hx))
        (by omega) (by omega) (by rw [← List.drop_drop, hfile, List.drop_left]) (by omega) ?_
      refine hend.imp ?_ fun h => by omega
      rintro ⟨x, hx, hxk⟩
      rcases List.mem_cons.mp hx with rfl | hx
      · exact absurd hc hxk
      · exact ⟨x, hx, hxk⟩
    · have heq : e.1 = k := Std.LawfulEqCmp.eq_of_compare hc
      simp only [heq, beq_self_eq_true]
      obtain ⟨ek, _ | v⟩ := e <;> rfl
    · -- all records from here on are past the key
      have hne : (k == e.1) = false := by
        rw [beq_eq_false_iff_ne]
        rintro rfl
        have : compare e.1 e.1 = .eq := Std.ReflCmp.compare_self
        rw [this] at hc
        cases hc
      have hnone : es.lookup k = none := by
        rw [lookup_eq_none]
        rintro e' he' rfl
        have hlt := (List.pairwise_cons.mp hasc).1 e' he'
        rw [Std.OrientedCmp.gt_iff_lt] at hc
        exact compare_ne_lt_self (Std.TransCmp.lt_trans hlt hc)
      simp only [hne, hnone]
      rfl

/-- The loop of `get` from the place of a record finds the key in the entries from there on. -/
theorem Sound.getLoop (h : r.Sound es) (post pre : List Entry) (turns : ℕ) (hes : es = pre ++ post)
    (hturns : (recordsImage post).length ≤ turns) :
    r.getLoop k turns (r.recordsStart + (recordsImage pre).length) = .ok (post.lookup k) := by
  have harea := h.area
  have hdrop := h.drop
  have hasc := h.ascending
  rw [hes] at hasc
  rw [hes, recordsImage_append] at harea hdrop
  rw [List.length_append] at harea
  have hfile : r.file.drop (r.recordsStart + (recordsImage pre).length) =
      recordsImage post ++ r.file.drop r.indexOffset := by
    rw [← List.drop_drop, hdrop, List.append_assoc, List.drop_left]
  refine h.toBounded.getLoop post turns _ (List.pairwise_append.mp hasc).2.1 (fun e he => h.valid e ?_)
    (Nat.le_add_right _ _) (by omega) hfile hturns (.inr (by omega))
  rw [hes]
  exact List.mem_append_right _ he

/-- The entries before a place of the index are before every key that the place is for. -/
theorem lookup_append_of_isLE {e : Entry} (h : Ascending (pre ++ e :: post))
    (hk : (compare e.1 k).isLE) : (pre ++ e :: post).lookup k = (e :: post).lookup k := by
  have hnone : pre.lookup k = none := by
    rw [lookup_eq_none]
    rintro e' he' rfl
    have hlt := (List.pairwise_append.mp h).2.2 e' he' e List.mem_cons_self
    rw [Ordering.isLE_iff_ne_gt] at hk
    rw [← Std.OrientedCmp.gt_iff_lt] at hlt
    exact hk hlt
  rw [List.lookup_append, hnone, Option.none_or]

/-- Where `get` starts: at a record that the entries up to the key do not go past. -/
theorem Sound.startOffset (h : r.Sound es) : ∀ (is : List SparseIndexEntry) (start : ℕ),
    (∀ i ∈ is, i ∈ r.sparseIndex) →
    (∃ pre post, es = pre ++ post ∧ es.lookup k = post.lookup k ∧
      start = r.recordsStart + (recordsImage pre).length) →
    ∃ pre post, es = pre ++ post ∧ es.lookup k = post.lookup k ∧
      startOffset k is start = r.recordsStart + (recordsImage pre).length
  | [], _, _, hstart => hstart
  | i :: is, start, his, hstart => by
    rw [SegmentReader.startOffset]
    split_ifs with hle
    · refine h.startOffset is _ (fun x hx => his x (List.mem_cons_of_mem _ hx)) ?_
      obtain ⟨pre, e, post, hes, hkey, hoff⟩ := h.index i (his i List.mem_cons_self)
      refine ⟨pre, e :: post, hes, ?_, hoff⟩
      have hasc := h.ascending
      rw [hes] at hasc ⊢
      exact lookup_append_of_isLE hasc (hkey ▸ hle)
    · exact hstart

/-- **Looking up.** `get` finds what the entries have for the key. -/
theorem Sound.getIn (h : r.Sound es) (k : Key) : r.getIn k = .ok (es.lookup k) := by
  obtain ⟨pre, post, hes, hlook, hstart⟩ := h.startOffset (k := k) r.sparseIndex r.recordsStart
    (fun _ hi => hi) ⟨[], es, rfl, rfl, by simp⟩
  unfold SegmentReader.getIn
  rw [hstart, hlook]
  refine h.getLoop post pre _ hes ?_
  have := h.area
  rw [hes, recordsImage_append, List.length_append] at this
  omega

end SegmentReader

/-! ## The bytes of a segment -/

/-- The sparse index of entries from number `n` on, the first of which is at `offset`. -/
def sparseIndexOf : ℕ → ℕ → List Entry → List SparseIndexEntry
  | _, _, [] => []
  | n, offset, e :: es =>
    (if n % SPARSE_INDEX_INTERVAL = 0 then [⟨e.1, offset⟩] else []) ++
      sparseIndexOf (n + 1) (offset + (toRecord e).image.length) es

/-- The bytes of an index entry. -/
def indexEntryImage (i : SparseIndexEntry) : Bytes :=
  toLe 4 i.key.length ++ i.key ++ toLe 8 i.fileOffset

/-- The bytes of an index. -/
def indexImage (is : List SparseIndexEntry) : Bytes := is.flatMap indexEntryImage

/-- The bytes of a segment with the entries `es`. -/
def segmentImage (es : List Entry) : Bytes :=
  SEGMENT_MAGIC ++ [SEGMENT_VERSION] ++ recordsImage es ++
    indexImage (sparseIndexOf 0 SEGMENT_HEADER_SIZE es) ++
    (toLe 8 (SEGMENT_HEADER_SIZE + (recordsImage es).length) ++ SEGMENT_MAGIC)

section Index

variable {es : List Entry} {e : Entry} {is : List SparseIndexEntry} {i : SparseIndexEntry}
  {n offset : ℕ}

theorem mem_sparseIndexOf : ∀ {es : List Entry} {n offset : ℕ}, i ∈ sparseIndexOf n offset es →
    ∃ pre e post, es = pre ++ e :: post ∧ i.key = e.1 ∧
      i.fileOffset = offset + (recordsImage pre).length
  | [], n, offset, h => by cases h
  | e :: es, n, offset, h => by
    rw [sparseIndexOf, List.mem_append] at h
    rcases h with h | h
    · split_ifs at h
      · rw [List.mem_singleton] at h
        exact ⟨[], e, es, rfl, by rw [h], by rw [h]; rfl⟩
      · cases h
    · obtain ⟨pre, e', post, rfl, hk, ho⟩ := mem_sparseIndexOf h
      refine ⟨e :: pre, e', post, rfl, hk, ?_⟩
      rw [ho, recordsImage_cons, List.length_append, Nat.add_assoc]

/-- Keys and places of the index are strictly increasing. -/
theorem pairwise_sparseIndexOf : ∀ {es : List Entry} {n offset : ℕ}, Ascending es →
    (sparseIndexOf n offset es).Pairwise fun a b =>
      compare a.key b.key = .lt ∧ a.fileOffset < b.fileOffset
  | [], _, _, _ => List.Pairwise.nil
  | e :: es, n, offset, h => by
    have ih : (sparseIndexOf (n + 1) (offset + (toRecord e).image.length) es).Pairwise _ :=
      pairwise_sparseIndexOf h.tail
    rw [sparseIndexOf]
    split_ifs
    · refine List.pairwise_cons.mpr ⟨fun i hi => ?_, ih⟩
      obtain ⟨pre, e', post, rfl, hk, ho⟩ := mem_sparseIndexOf hi
      have hpos : 0 < (toRecord e).image.length := List.length_pos_of_ne_nil Record.image_ne_nil
      refine ⟨?_, by simp only; omega⟩
      rw [hk]
      exact (List.pairwise_cons.mp h).1 e' (by simp)
    · exact ih

theorem indexImage_cons : indexImage (i :: is) = indexEntryImage i ++ indexImage is := rfl

theorem length_indexEntryImage : (indexEntryImage i).length = 12 + i.key.length := by
  simp only [indexEntryImage, List.length_append, length_toLe]
  omega

/-- **Reading the index.** Entries in order, with places before the index, are read back. -/
theorem readSparseIndexLoop_eq {file : Bytes} {path : Path} {indexOffset footerStart : ℕ}
    (hf : footerStart ≤ file.length) (hmax : file.length ≤ maxFileLen)
    (hidx : indexOffset ≤ footerStart) {rest : Bytes} :
    ∀ (is : List SparseIndexEntry) (turns current : ℕ) (pk : Option Key) (po : Option ℕ)
      (acc : List SparseIndexEntry),
    file.drop current = indexImage is ++ rest → current + (indexImage is).length = footerStart →
    footerStart ≤ current + turns →
    (is.Pairwise fun a b => compare a.key b.key = .lt ∧ a.fileOffset < b.fileOffset) →
    (∀ i ∈ is, i.key.length < 2 ^ 32 ∧ SEGMENT_HEADER_SIZE ≤ i.fileOffset ∧
      i.fileOffset < indexOffset) →
    (∀ p ∈ pk, ∀ i ∈ is, compare p i.key = .lt) → (∀ p ∈ po, ∀ i ∈ is, p < i.fileOffset) →
    readSparseIndexLoop file path indexOffset footerStart turns current pk po acc =
      .ok (acc ++ is)
  | [], turns, current, pk, po, acc, _, hcur, _, _, _, _, _ => by
    have hend : endOfIndex path footerStart current acc = .ok acc := by
      unfold endOfIndex
      rw [rejectIf_of_not (not_not.mpr (by simpa [indexImage] using hcur))]
      rfl
    rw [List.append_nil]
    cases turns with
    | zero => exact hend
    | succ turns =>
      rw [readSparseIndexLoop, if_neg (by simp [indexImage] at hcur; omega)]
      exact hend
  | i :: is, turns, current, pk, po, acc, hdrop, hcur, hturns, hpair, hbound, hpk, hpo => by
    have hsize : u64Size = 2 ^ 64 := rfl
    have hfmax : maxFileLen = 2 ^ 63 - 1 := rfl
    have hlen := length_indexEntryImage (i := i)
    rw [indexImage_cons] at hdrop hcur
    rw [List.length_append] at hcur
    obtain ⟨turns, rfl⟩ : ∃ n, turns = n + 1 := ⟨turns - 1, by omega⟩
    obtain ⟨hkey, h5, hoff⟩ := hbound i List.mem_cons_self
    have hcat : file.drop current = toLe 4 i.key.length ++ i.key ++ toLe 8 i.fileOffset ++
        (indexImage is ++ rest) := by rw [hdrop, indexEntryImage, List.append_assoc]
    have hk : slice file current 4 = toLe 4 i.key.length := by
      have := slice_append [] (toLe 4 i.key.length)
        (i.key ++ toLe 8 i.fileOffset ++ (indexImage is ++ rest))
      rw [← Nat.add_zero current, ← slice_drop, hcat]
      simpa using this
    have hkeyBytes : slice file (current + 4) i.key.length = i.key := by
      have := slice_append (toLe 4 i.key.length) i.key (toLe 8 i.fileOffset ++ (indexImage is ++ rest))
      rw [← slice_drop, hcat]
      simpa using this
    have hoffBytes : slice file (current + 4 + i.key.length) 8 = toLe 8 i.fileOffset := by
      have := slice_append (toLe 4 i.key.length ++ i.key) (toLe 8 i.fileOffset)
        (indexImage is ++ rest)
      rw [Nat.add_assoc, ← slice_drop, hcat]
      simpa using this
    have hfk : fromLe (toLe 4 i.key.length) = i.key.length := fromLe_toLe (by omega)
    have hfo : fromLe (toLe 8 i.fileOffset) = i.fileOffset := fromLe_toLe (by omega)
    have hpk' : ¬ (pk.any fun previous => (compare i.key previous).isLE) = true := by
      rcases pk with _ | p
      · simp
      · have hlt := hpk p rfl i List.mem_cons_self
        rw [← Std.OrientedCmp.gt_iff_lt] at hlt
        simp [hlt]
    have hpo' : ¬ (po.any fun previous => decide (i.fileOffset ≤ previous)) = true := by
      rcases po with _ | p
      · simp
      · have := hpo p rfl i List.mem_cons_self
        simpa using this
    have hhead := List.pairwise_cons.mp hpair
    rw [readSparseIndexLoop, if_pos (by omega)]
    simp (disch := omega) only [checkedAdd_of_lt, okOr_some, ok_bind, rejectIf_of_not,
      SegmentReader.readExact_of_le, hk, hfk, Option.bind_eq_bind, Option.bind_some, hkeyBytes,
      hoffBytes, hfo]
    have hnext : file.drop (current + 4 + i.key.length + 8) = indexImage is ++ rest := by
      rw [Nat.add_assoc, Nat.add_assoc, ← List.drop_drop, hdrop, List.append_assoc]
      exact List.drop_left' (by omega)
    refine (readSparseIndexLoop_eq hf hmax hidx is turns _ (some i.key) (some i.fileOffset) _ hnext
      (by omega) (by omega) hhead.2 (fun j hj => hbound j (List.mem_cons_of_mem _ hj)) ?_ ?_).trans
      (by simp)
    · rintro p ⟨⟩ j hj
      exact (hhead.1 j hj).1
    · rintro p ⟨⟩ j hj
      exact (hhead.1 j hj).2

end Index

section Image

variable {es : List Entry}

theorem length_segmentImage : (segmentImage es).length = SEGMENT_HEADER_SIZE +
    (recordsImage es).length + (indexImage (sparseIndexOf 0 SEGMENT_HEADER_SIZE es)).length +
    SEGMENT_FOOTER_SIZE := by
  have hm : SEGMENT_MAGIC.length = 4 := rfl
  have h5 : SEGMENT_HEADER_SIZE = 5 := rfl
  have h12 : SEGMENT_FOOTER_SIZE = 12 := rfl
  simp only [segmentImage, List.length_append, length_toLe, List.length_cons, List.length_nil]
  omega

/-- The reader of the bytes of a segment. -/
def readerOf (path : Path) (generation : ℕ) (es : List Entry) : SegmentReader :=
  ⟨segmentImage es, path, generation, sparseIndexOf 0 SEGMENT_HEADER_SIZE es,
    SEGMENT_HEADER_SIZE, SEGMENT_HEADER_SIZE + (recordsImage es).length⟩

/-- Entries of a segment that has its bytes in one file. -/
structure Storable (es : List Entry) : Prop where
  ascending : Ascending es
  valid : ∀ e ∈ es, (toRecord e).Valid
  length_le : (segmentImage es).length ≤ maxFileLen

/-- A header, a record area of any bytes, an index in order with places in the area, and a footer. -/
structure Framed (b area : Bytes) (is : List SparseIndexEntry) : Prop where
  eq : b = SEGMENT_MAGIC ++ [SEGMENT_VERSION] ++ area ++ indexImage is ++
    (toLe 8 (SEGMENT_HEADER_SIZE + area.length) ++ SEGMENT_MAGIC)
  pairwise : is.Pairwise fun i j => compare i.key j.key = .lt ∧ i.fileOffset < j.fileOffset
  places : ∀ i ∈ is, i.key.length < 2 ^ 32 ∧ SEGMENT_HEADER_SIZE ≤ i.fileOffset ∧
    i.fileOffset < SEGMENT_HEADER_SIZE + area.length
  empty : is = [] ↔ area = []
  first : ∀ i ∈ is.head?, i.fileOffset = SEGMENT_HEADER_SIZE

/-- The bytes of a segment with the records `rs` and the index `is`. -/
structure IsSegment (b : Bytes) (rs : List Record) (is : List SparseIndexEntry) : Prop where
  eq : b = SEGMENT_MAGIC ++ [SEGMENT_VERSION] ++ logImage rs ++ indexImage is ++
    (toLe 8 (SEGMENT_HEADER_SIZE + (logImage rs).length) ++ SEGMENT_MAGIC)
  valid : ∀ rec ∈ rs, rec.Valid
  pairwise : is.Pairwise fun i j => compare i.key j.key = .lt ∧ i.fileOffset < j.fileOffset
  places : ∀ i ∈ is, i.key.length < 2 ^ 32 ∧ SEGMENT_HEADER_SIZE ≤ i.fileOffset ∧
    i.fileOffset < SEGMENT_HEADER_SIZE + (logImage rs).length
  empty : is = [] ↔ rs = []
  first : ∀ i ∈ is.head?, i.fileOffset = SEGMENT_HEADER_SIZE

section Parts

variable {b area : Bytes} {rs : List Record} {is : List SparseIndexEntry}

theorem Framed.length_eq (h : Framed b area is) : b.length = SEGMENT_HEADER_SIZE +
    area.length + (indexImage is).length + SEGMENT_FOOTER_SIZE := by
  have hm : SEGMENT_MAGIC.length = 4 := rfl
  have h5 : SEGMENT_HEADER_SIZE = 5 := rfl
  have h12 : SEGMENT_FOOTER_SIZE = 12 := rfl
  simp only [h.eq, List.length_append, length_toLe, List.length_cons, List.length_nil]
  omega

/-- Other bytes in the record area. -/
theorem Framed.congr {b' : Bytes} (h : Framed b area is) (hlen : b'.length = b.length)
    (hhead : b'.take SEGMENT_HEADER_SIZE = b.take SEGMENT_HEADER_SIZE)
    (hrest : b'.drop (SEGMENT_HEADER_SIZE + area.length) = b.drop (SEGMENT_HEADER_SIZE + area.length)) :
    Framed b' (slice b' SEGMENT_HEADER_SIZE area.length) is := by
  have h5 : (SEGMENT_MAGIC ++ [SEGMENT_VERSION]).length = SEGMENT_HEADER_SIZE := rfl
  have harea : (slice b' SEGMENT_HEADER_SIZE area.length).length = area.length :=
    length_slice (by rw [hlen, h.length_eq]; omega)
  have hhead' : b'.take SEGMENT_HEADER_SIZE = SEGMENT_MAGIC ++ [SEGMENT_VERSION] := by
    rw [hhead, h.eq, List.append_assoc, List.append_assoc]
    exact List.take_left' h5
  have hrest' : b'.drop (SEGMENT_HEADER_SIZE + area.length) =
      indexImage is ++ (toLe 8 (SEGMENT_HEADER_SIZE + area.length) ++ SEGMENT_MAGIC) := by
    rw [hrest, h.eq, List.append_assoc _ (indexImage is)]
    exact List.drop_left' (by rw [List.length_append, h5])
  refine ⟨?_, h.pairwise, fun i hi => ?_, h.empty.trans ?_, h.first⟩
  · rw [harea, ← hhead', List.append_assoc, ← hrest']
    exact slice_split b' _ _
  · rw [harea]
    exact h.places i hi
  · rw [← List.length_eq_zero_iff, ← List.length_eq_zero_iff, harea]

theorem Framed.readSparseIndex (h : Framed b area is) (hb : b.length ≤ maxFileLen)
    (path : Path) : readSparseIndex b path (SEGMENT_HEADER_SIZE + area.length)
      (b.length - SEGMENT_FOOTER_SIZE) = .ok is := by
  have hlen := h.length_eq
  have hm : (SEGMENT_MAGIC ++ [SEGMENT_VERSION] ++ area).length =
      SEGMENT_HEADER_SIZE + area.length := by
    rw [List.length_append]
    rfl
  have hdrop : b.drop (SEGMENT_HEADER_SIZE + area.length) = indexImage is ++
      (toLe 8 (SEGMENT_HEADER_SIZE + area.length) ++ SEGMENT_MAGIC) := by
    rw [h.eq, List.append_assoc _ (indexImage is)]
    exact List.drop_left' hm
  exact readSparseIndexLoop_eq (Nat.sub_le _ _) hb (by omega) is _ _ none none [] hdrop
    (by omega) (by omega) h.pairwise h.places (fun _ hp => by cases hp) fun _ hp => by cases hp

/-- **Checking a file.** -/
theorem Framed.checkFile (h : Framed b area is) (hb : b.length ≤ maxFileLen) (path : Path) :
    SegmentReader.checkFile path b = .ok (SEGMENT_HEADER_SIZE + area.length, is) := by
  have hlen := h.length_eq
  have h5 : SEGMENT_HEADER_SIZE = 5 := rfl
  have h12 : SEGMENT_FOOTER_SIZE = 12 := rfl
  have hfmax : maxFileLen = 2 ^ 63 - 1 := rfl
  have hhead : slice b 0 5 = SEGMENT_MAGIC ++ [SEGMENT_VERSION] := by rw [h.eq]; rfl
  obtain ⟨body, hfile⟩ : ∃ body, b =
      body ++ (toLe 8 (SEGMENT_HEADER_SIZE + area.length) ++ SEGMENT_MAGIC) := ⟨_, h.eq⟩
  have hbl : body.length = b.length - SEGMENT_FOOTER_SIZE := by
    rw [hfile, List.length_append, List.length_append, length_toLe]
    rfl
  have hoff : slice b (b.length - SEGMENT_FOOTER_SIZE) 8 =
      toLe 8 (SEGMENT_HEADER_SIZE + area.length) := by
    have := slice_append body (toLe 8 (SEGMENT_HEADER_SIZE + area.length)) SEGMENT_MAGIC
    rw [length_toLe, List.append_assoc, ← hfile, hbl] at this
    exact this
  have hmag : slice b (b.length - SEGMENT_FOOTER_SIZE + 8) 4 = SEGMENT_MAGIC := by
    have := slice_append (body ++ toLe 8 (SEGMENT_HEADER_SIZE + area.length))
      SEGMENT_MAGIC []
    rw [List.append_nil, List.append_assoc, ← hfile, List.length_append, length_toLe, hbl] at this
    exact this
  have hfo : fromLe (toLe 8 (SEGMENT_HEADER_SIZE + area.length)) =
      SEGMENT_HEADER_SIZE + area.length := fromLe_toLe (by omega)
  unfold SegmentReader.checkFile
  simp (disch := omega) only [rejectIf_of_not, ok_bind, SegmentReader.readExact_of_le, hhead, hoff,
    hmag, hfo, h.readSparseIndex hb]
  rw [rejectIf_of_not (by decide), rejectIf_of_not (by decide), ok_bind, ok_bind]
  have hempty := h.empty
  have hfirst := h.first
  rcases is with _ | ⟨i, is⟩
  · rw [hempty.mp rfl]
    rfl
  · have hpos : 0 < area.length := List.length_pos_of_ne_nil fun hn => by
      cases hempty.mpr hn
    have hne : ¬ (i :: is = []) := List.cons_ne_nil _ _
    have hplace : ¬ ((i :: is).head?.any fun first =>
        decide (first.fileOffset ≠ SEGMENT_HEADER_SIZE)) = true := by simp [hfirst i rfl]
    rw [if_neg (by omega)]
    simp only [rejectIf_of_not hne, rejectIf_of_not hplace]
    rfl

theorem IsSegment.framed (h : IsSegment b rs is) : Framed b (logImage rs) is :=
  ⟨h.eq, h.pairwise, h.places, h.empty.trans logImage_eq_nil.symm, h.first⟩

end Parts

theorem Storable.key_lt (h : Storable es) {e : Entry} (he : e ∈ es) : e.1.length < 2 ^ 32 := by
  have := (h.valid e he).key_le
  rw [toRecord_key] at this
  have hmax : Record.MAX_FIELD_LEN = 67108864 := rfl
  omega

theorem Storable.isSegment (h : Storable es) : IsSegment (segmentImage es) (es.map toRecord)
    (sparseIndexOf 0 SEGMENT_HEADER_SIZE es) where
  eq := rfl
  valid rec hrec := by
    obtain ⟨e, he, rfl⟩ := List.mem_map.mp hrec
    exact h.valid e he
  pairwise := pairwise_sparseIndexOf h.ascending
  places i hi := by
    obtain ⟨pre, e, post, rfl, hk, ho⟩ := mem_sparseIndexOf hi
    have hpos : 0 < (toRecord e).image.length := List.length_pos_of_ne_nil Record.image_ne_nil
    refine ⟨hk ▸ h.key_lt (by simp), by omega, ?_⟩
    rw [ho, ← recordsImage, recordsImage_append, recordsImage_cons, List.length_append,
      List.length_append]
    omega
  empty := by cases es <;> simp [sparseIndexOf]
  first i hi := by
    rcases es with _ | ⟨e, es⟩
    · cases hi
    · cases hi
      rfl

theorem Storable.checkFile (h : Storable es) (path : Path) :
    SegmentReader.checkFile path (segmentImage es) =
      .ok (SEGMENT_HEADER_SIZE + (recordsImage es).length,
        sparseIndexOf 0 SEGMENT_HEADER_SIZE es) := h.isSegment.framed.checkFile h.length_le path

/-- **Opening what was written.** -/
theorem Storable.openIn (h : Storable es) (path : Path) (generation : ℕ) :
    SegmentReader.openIn path generation (segmentImage es) = .ok (readerOf path generation es) := by
  rw [SegmentReader.openIn, h.checkFile]
  rfl

theorem Storable.sound (h : Storable es) (path : Path) (generation : ℕ) :
    (readerOf path generation es).Sound es := by
  have hlen : (segmentImage es).length = _ := length_segmentImage
  refine ⟨⟨rfl, ?_, h.length_le⟩, h.ascending, h.valid, rfl, ?_, fun i hi => mem_sparseIndexOf hi⟩
  · simp only [readerOf]
    omega
  · have := slice_append (SEGMENT_MAGIC ++ [SEGMENT_VERSION]) (recordsImage es)
      (indexImage (sparseIndexOf 0 SEGMENT_HEADER_SIZE es) ++
        (toLe 8 (SEGMENT_HEADER_SIZE + (recordsImage es).length) ++ SEGMENT_MAGIC))
    rw [← List.append_assoc] at this
    exact this

end Image

/-! ## Faithful files -/

namespace SegmentReader

variable {path : Path} {b : Bytes} {g : ℕ} {r : SegmentReader} {es : List Entry}

theorem checkFile_eq_ok {i : ℕ} {is : List SparseIndexEntry} (h : checkFile path b = .ok (i, is)) :
    SEGMENT_HEADER_SIZE ≤ i ∧ i ≤ b.length := by
  unfold checkFile at h
  simp only [bind_eq_ok, rejectIf_eq_ok] at h
  obtain ⟨-, -, _, -, -, -, -, -, _, -, _, -, -, -, -, hi, _, -, h⟩ := h
  split_ifs at h
  · simp only [bind_eq_ok] at h
    obtain ⟨-, -, h⟩ := h
    cases h
    omega
  · simp only [bind_eq_ok] at h
    obtain ⟨-, -, -, -, h⟩ := h
    cases h
    omega

theorem openIn_eq_ok : openIn path g b = .ok r ↔ ∃ i is, checkFile path b = .ok (i, is) ∧
    r = ⟨b, path, g, is, SEGMENT_HEADER_SIZE, i⟩ := by
  unfold openIn
  rw [bind_eq_ok]
  constructor
  · rintro ⟨⟨i, is⟩, h, hr⟩
    cases hr
    exact ⟨i, is, h, rfl⟩
  · rintro ⟨i, is, h, rfl⟩
    exact ⟨(i, is), h, rfl⟩

theorem bounded_of_openIn (h : openIn path g b = .ok r) (hb : b.length ≤ maxFileLen) : r.Bounded := by
  obtain ⟨i, is, hc, rfl⟩ := openIn_eq_ok.mp h
  exact ⟨rfl, (checkFile_eq_ok hc).2, hb⟩

/-- **Opening.** The file is there and its bytes decide, or a call fails. -/
theorem wp_open {A : Fault → Prop} {d : Disk} {Q : Outcome StoneError SegmentReader → Disk → Prop}
    (hok : ∀ b r, d.read path = some b → openIn path g b = .ok r → Q (.ok r) d)
    (hbad : ∀ b e, d.read path = some b → openIn path g b = .error e → Q (.err e) d)
    (hnone : d.read path = none → Q (.err (.io .notFound)) d)
    (hfail : ∀ n, A (.fail n) → Q (.err (.io .other)) d) (hcr : Q .crash d) :
    wp A (SegmentReader.open path g) Q d := by
  refine wp_bind (Fs.wp_readFile (fun b hb => ?_) hnone hfail fun _ _ => hcr)
  exact wp_ofExcept (fun r hr => hok b r hb hr) fun e he => hbad b e hb he

/-- The generation of a reader does not matter to what it holds. -/
theorem Sound.withGeneration (h : r.Sound es) (g : ℕ) :
    ({ r with generation := g } : SegmentReader).Sound es :=
  ⟨⟨h.start, h.le, h.length_le⟩, h.ascending, h.valid, h.area, h.records, h.index⟩

end SegmentReader

/-- The bytes `b` at `path` open, under any generation, as a segment with the entries `es`. -/
def Faithful (path : Path) (b : Bytes) (es : List Entry) : Prop :=
  ∀ g, ∃ r, SegmentReader.openIn path g b = .ok r ∧ r.Sound es

section Faithful

variable {path : Path} {b : Bytes} {g : ℕ} {r : SegmentReader} {es : List Entry}

theorem Storable.faithful (h : Storable es) (path : Path) : Faithful path (segmentImage es) es :=
  fun g => ⟨_, h.openIn path g, h.sound path g⟩

theorem faithful_of_sound (ho : SegmentReader.openIn path g b = .ok r) (h : r.Sound es) :
    Faithful path b es := by
  intro g'
  obtain ⟨i, is, hc, rfl⟩ := SegmentReader.openIn_eq_ok.mp ho
  exact ⟨_, SegmentReader.openIn_eq_ok.mpr ⟨i, is, hc, rfl⟩, h.withGeneration g'⟩

theorem Faithful.sound (h : Faithful path b es) (ho : SegmentReader.openIn path g b = .ok r) :
    r.Sound es := by
  obtain ⟨r', ho', hs⟩ := h g
  rw [ho] at ho'
  cases ho'
  exact hs

theorem Faithful.ascending (h : Faithful path b es) : Ascending es := by
  obtain ⟨r, -, hs⟩ := h 0
  exact hs.ascending

theorem Faithful.valid (h : Faithful path b es) : ∀ e ∈ es, (toRecord e).Valid := by
  obtain ⟨r, -, hs⟩ := h 0
  exact hs.valid

end Faithful

end StoneKV
