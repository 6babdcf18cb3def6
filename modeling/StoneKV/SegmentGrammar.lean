import StoneKV.SegmentRoundTrip

/-!
# What the reader accepts

* `readSparseIndexLoop_eq_ok`: an index that is read is an index image in order.
* **`framed_of_checkFile`**, **`isSegment_of_accepted`**: what `open` and `iter_all` accept is a segment.
* `NoOverflow`, `IsOverflow`: no sum in `open` and `iter_all` goes past 64 bits.
* **`accepts_exactly_segments`**: all of it together.
-/

namespace StoneKV

open FaultProg Prog

/-! ## The index -/

section Index

variable {file : Bytes} {path : Path} {indexOffset footerStart turns current : ℕ} {pk : Option Key}
  {po : Option ℕ} {acc out : List SparseIndexEntry}

theorem endOfIndex_eq_ok : endOfIndex path footerStart current acc = .ok out ↔
    current = footerStart ∧ acc = out := by
  unfold endOfIndex
  by_cases h : current = footerStart
  · rw [rejectIf_of_not (not_not.mpr h)]
    simp [h, pure, Except.pure]
  · rw [rejectIf_of h]
    simp [h]

/-- One entry is in the file and keeps the order. -/
theorem readSparseIndexLoop_succ (h : readSparseIndexLoop file path indexOffset footerStart
    (turns + 1) current pk po acc = .ok out) (hlt : current < footerStart) :
    ∃ i : SparseIndexEntry, slice file current (12 + i.key.length) = indexEntryImage i ∧
      (i.key.length < 2 ^ 32 ∧ SEGMENT_HEADER_SIZE ≤ i.fileOffset ∧ i.fileOffset < indexOffset) ∧
      (∀ p ∈ pk, compare p i.key = .lt) ∧ (∀ p ∈ po, p < i.fileOffset) ∧
      current + (12 + i.key.length) ≤ footerStart ∧
      readSparseIndexLoop file path indexOffset footerStart turns
        (current + (12 + i.key.length)) (some i.key) (some i.fileOffset) (acc ++ [i]) = .ok out := by
  rw [readSparseIndexLoop, if_pos hlt] at h
  simp only [bind_eq_ok, okOr_eq_ok, rejectIf_eq_ok, SegmentReader.readExact_eq_ok,
    Option.bind_eq_bind, Option.bind_eq_some_iff] at h
  obtain ⟨_, hc₁, -, h4, klb, ⟨hk, rfl⟩, _, ⟨_, hc₂, hc₃⟩, -, hend, key, ⟨hkey, rfl⟩, ob,
    ⟨ho, rfl⟩, -, hplace, -, hpk, -, hpo, hloop⟩ := h
  obtain ⟨rfl, -⟩ := checkedAdd_eq_some.mp hc₁
  obtain ⟨rfl, -⟩ := checkedAdd_eq_some.mp hc₂
  obtain ⟨rfl, -⟩ := checkedAdd_eq_some.mp hc₃
  generalize hkl : fromLe (slice file current 4) = k at *
  have hkey' : (slice file (current + 4) k).length = k := length_slice hkey
  have hk' : slice file current 4 = toLe 4 k := eq_toLe_of_fromLe (length_slice hk) hkl
  have ho' : slice file (current + 4 + k) 8 =
      toLe 8 (fromLe (slice file (current + 4 + k) 8)) :=
    eq_toLe_of_fromLe (length_slice ho) rfl
  refine ⟨⟨slice file (current + 4) k, fromLe (slice file (current + 4 + k) 8)⟩, ?_, ⟨?_, ?_⟩, ?_,
    ?_, ?_, ?_⟩
  · rw [indexEntryImage, hkey', ← ho', ← hk']
    conv_lhs => rw [show 12 + k = 4 + k + 8 by omega, slice, List.take_add, List.take_add,
      List.drop_drop, List.drop_drop]
    rw [slice, slice, slice, Nat.add_assoc]
  · rw [hkey', ← hkl]
    exact SegmentReader.fromLe_slice_lt file current
  · rw [not_or, not_lt, ge_iff_le, not_le] at hplace
    exact hplace
  · rintro p ⟨⟩
    have hgt : ¬ (compare (slice file (current + 4) k) p).isLE = true := hpk
    rw [Ordering.isLE_iff_ne_gt, not_not] at hgt
    exact Std.OrientedCmp.gt_iff_lt.mp hgt
  · rintro p ⟨⟩
    simpa using hpo
  · rw [hkey']
    omega
  · rw [hkey', show current + (12 + k) = current + 4 + k + 8 by omega]
    exact hloop

/-- **An index that is read** is an index image, in order, with places before the index. -/
theorem readSparseIndexLoop_eq_ok : ∀ {turns current : ℕ} {pk : Option Key} {po : Option ℕ}
    {acc out : List SparseIndexEntry},
    readSparseIndexLoop file path indexOffset footerStart turns current pk po acc = .ok out →
    ∃ is, out = acc ++ is ∧ current + (indexImage is).length = footerStart ∧
      slice file current (indexImage is).length = indexImage is ∧
      (is.Pairwise fun i j => compare i.key j.key = .lt ∧ i.fileOffset < j.fileOffset) ∧
      (∀ i ∈ is, i.key.length < 2 ^ 32 ∧ SEGMENT_HEADER_SIZE ≤ i.fileOffset ∧
        i.fileOffset < indexOffset) ∧
      (∀ p ∈ pk, ∀ i ∈ is, compare p i.key = .lt) ∧ (∀ p ∈ po, ∀ i ∈ is, p < i.fileOffset) := by
  have hstop : ∀ {current acc out} {pk : Option Key} {po : Option ℕ},
      endOfIndex path footerStart current acc = .ok out →
      ∃ is, out = acc ++ is ∧ current + (indexImage is).length = footerStart ∧
        slice file current (indexImage is).length = indexImage is ∧
        (is.Pairwise fun i j => compare i.key j.key = .lt ∧ i.fileOffset < j.fileOffset) ∧
        (∀ i ∈ is, i.key.length < 2 ^ 32 ∧ SEGMENT_HEADER_SIZE ≤ i.fileOffset ∧
          i.fileOffset < indexOffset) ∧
        (∀ p ∈ pk, ∀ i ∈ is, compare p i.key = .lt) ∧ (∀ p ∈ po, ∀ i ∈ is, p < i.fileOffset) := by
    intro current acc out pk po h
    obtain ⟨rfl, rfl⟩ := endOfIndex_eq_ok.mp h
    exact ⟨[], by simp, rfl, by simp [slice, indexImage], List.Pairwise.nil, by simp, by simp,
      by simp⟩
  intro turns
  induction turns with
  | zero => exact hstop
  | succ turns ih =>
    intro current pk po acc out h
    by_cases hlt : current < footerStart
    · obtain ⟨i, himg, hplace, hpk, hpo, -, hloop⟩ := readSparseIndexLoop_succ h hlt
      obtain ⟨is, rfl, hlen, hslice, hpair, hplaces, hkeys, hoffs⟩ := ih hloop
      have hi := length_indexEntryImage (i := i)
      refine ⟨i :: is, by simp, ?_, ?_, ?_, ?_, ?_, ?_⟩
      · rw [indexImage_cons, List.length_append]
        omega
      · rw [indexImage_cons, List.length_append, hi]
        conv_rhs => rw [← himg, ← hslice]
        unfold slice
        rw [List.take_add, List.drop_drop]
      · exact List.pairwise_cons.mpr ⟨fun j hj => ⟨hkeys _ rfl j hj, hoffs _ rfl j hj⟩, hpair⟩
      · rintro j (_ | ⟨_, hj⟩)
        · exact hplace
        · exact hplaces j hj
      · rintro p hp j (_ | ⟨_, hj⟩)
        · exact hpk p hp
        · exact Std.TransCmp.lt_trans (hpk p hp) (hkeys _ rfl j hj)
      · rintro p hp j (_ | ⟨_, hj⟩)
        · exact hpo p hp
        · exact (hpo p hp).trans (hoffs _ rfl j hj)
    · rw [readSparseIndexLoop, if_neg hlt] at h
      exact hstop h

end Index

/-! ## The file -/

section File

variable {b : Bytes} {path : Path} {g : ℕ} {r : SegmentReader} {i : ℕ}
  {is : List SparseIndexEntry} {rs : List Record}

/-- What passes the checks of `open`: a header, a record area, an index, and a footer. -/
theorem framed_of_checkFile (h : SegmentReader.checkFile path b = .ok (i, is)) :
    SEGMENT_HEADER_SIZE + (slice b SEGMENT_HEADER_SIZE (i - SEGMENT_HEADER_SIZE)).length = i ∧
      Framed b (slice b SEGMENT_HEADER_SIZE (i - SEGMENT_HEADER_SIZE)) is := by
  have h5 : SEGMENT_HEADER_SIZE = 5 := rfl
  have h12 : SEGMENT_FOOTER_SIZE = 12 := rfl
  unfold SegmentReader.checkFile at h
  simp only [bind_eq_ok, rejectIf_eq_ok, SegmentReader.readExact_eq_ok] at h
  obtain ⟨-, hmin, _, ⟨-, rfl⟩, -, hmagic, -, hversion, _, ⟨-, rfl⟩, _, ⟨-, rfl⟩, -, hfooter, -,
    hi, is', hindex, h⟩ := h
  generalize hoff : fromLe (slice b (b.length - SEGMENT_FOOTER_SIZE) 8) = i' at *
  obtain ⟨rfl, rfl, hempty, hfirst⟩ : i = i' ∧ is = is' ∧ (is = [] ↔ i = SEGMENT_HEADER_SIZE) ∧
      ∀ j ∈ is.head?, j.fileOffset = SEGMENT_HEADER_SIZE := by
    split_ifs at h with hz
    · simp only [bind_eq_ok, rejectIf_eq_ok, not_not] at h
      obtain ⟨-, rfl, h⟩ := h
      cases h
      exact ⟨rfl, rfl, by simp [hz], by simp⟩
    · simp only [bind_eq_ok, rejectIf_eq_ok] at h
      obtain ⟨-, hne, -, hfirst, h⟩ := h
      cases h
      refine ⟨rfl, rfl, by simp [hz, hne], fun j hj => ?_⟩
      rw [hj] at hfirst
      simpa using hfirst
  have hfoot : i ≤ b.length - SEGMENT_FOOTER_SIZE := by omega
  have hhead : slice b 0 SEGMENT_HEADER_SIZE = SEGMENT_MAGIC ++ [SEGMENT_VERSION] := by
    have hlen : (slice b 0 5).length = 5 := length_slice (by omega)
    rw [not_not] at hmagic hversion
    change slice b 0 5 = _
    generalize slice b 0 5 = header at *
    obtain ⟨x, hx⟩ := List.length_eq_one_iff.mp
      (show (header.drop 4).length = 1 by rw [List.length_drop, hlen])
    rw [hx] at hversion
    rw [← List.take_append_drop 4 header, hmagic, hx, ← hversion]
    rfl
  obtain ⟨is, rfl, hlen, hslice, hpair, hplaces, -, -⟩ := readSparseIndexLoop_eq_ok hindex
  have hoffset : slice b (b.length - SEGMENT_FOOTER_SIZE) 8 = toLe 8 i :=
    eq_toLe_of_fromLe (length_slice (by omega)) hoff
  have harea : (slice b SEGMENT_HEADER_SIZE (i - SEGMENT_HEADER_SIZE)).length =
      i - SEGMENT_HEADER_SIZE := length_slice (by omega)
  have hsum : SEGMENT_HEADER_SIZE +
      (slice b SEGMENT_HEADER_SIZE (i - SEGMENT_HEADER_SIZE)).length = i := by omega
  refine ⟨hsum, ?_, hpair, by rwa [hsum], ?_, hfirst⟩
  swap
  · rw [hempty, ← List.length_eq_zero_iff, harea]
    omega
  rw [hsum]
  generalize hf : b.length - SEGMENT_FOOTER_SIZE = footerStart at *
  have hend : b.drop (footerStart + 8 + 4) = [] := List.drop_eq_nil_of_le (by omega)
  calc b = slice b 0 SEGMENT_HEADER_SIZE ++ b.drop (0 + SEGMENT_HEADER_SIZE) := drop_eq_slice b 0 _
    _ = slice b 0 SEGMENT_HEADER_SIZE ++ (slice b SEGMENT_HEADER_SIZE (i - SEGMENT_HEADER_SIZE) ++
        b.drop i) := by
        rw [Nat.zero_add, drop_eq_slice b SEGMENT_HEADER_SIZE (i - SEGMENT_HEADER_SIZE),
          Nat.add_sub_cancel' (by omega)]
    _ = slice b 0 SEGMENT_HEADER_SIZE ++ (slice b SEGMENT_HEADER_SIZE (i - SEGMENT_HEADER_SIZE) ++
        (slice b i (indexImage is).length ++ (slice b footerStart 8 ++
          slice b (footerStart + 8) 4))) := by
        rw [drop_eq_slice b i (indexImage is).length, hlen, drop_eq_slice b footerStart 8,
          drop_eq_slice b (footerStart + 8) 4, hend, List.append_nil]
    _ = _ := by
        rw [hhead, hslice, hoffset, not_not.mp hfooter]
        simp only [List.append_assoc]

/-- **A segment is accepted.** -/
theorem IsSegment.accepted (h : IsSegment b rs is) (hb : b.length ≤ maxFileLen) (path : Path)
    (g : ℕ) : ∃ r, SegmentReader.openIn path g b = .ok r ∧ r.iterAllIn = .ok rs := by
  have hlen := h.framed.length_eq
  refine ⟨_, SegmentReader.openIn_eq_ok.mpr ⟨_, _, h.framed.checkFile hb path, rfl⟩,
    SegmentReader.Bounded.iterAllIn ⟨rfl, ?_, hb⟩ h.valid rfl ?_⟩
  · dsimp only
    omega
  · have := slice_append (SEGMENT_MAGIC ++ [SEGMENT_VERSION]) (logImage rs)
      (indexImage is ++ (toLe 8 (SEGMENT_HEADER_SIZE + (logImage rs).length) ++ SEGMENT_MAGIC))
    rw [← List.append_assoc _ (indexImage is), ← h.eq] at this
    exact this

/-! ## The loops end -/

end File

/-! ## No sum overflows -/

/-- The texts of the errors that a sum past 64 bits has. -/
def overflowReasons : List String :=
  ["index key length offset overflow", "sparse index entry size overflow",
    "record header offset overflow", "key length arithmetic overflow",
    "value length offset overflow", "record length overflow", "record end overflow",
    "record iteration offset overflow", "key length overflow", "value length overflow"]

/-- The error of a sum past 64 bits. -/
def IsOverflow (e : StoneError) : Prop :=
  ∃ reason ∈ overflowReasons, e = .corruptRecord reason ∨ ∃ path, e = invalidSegment path reason

/-- No error of `x` is one of a sum past 64 bits. -/
def NoOverflow {α : Type} (x : Except StoneError α) : Prop := ∀ e, x = .error e → ¬ IsOverflow e

section NoOverflow

variable {α β : Type} {e : StoneError} {reason : String} {path : Path}

theorem not_isOverflow_segment (h : reason ∉ overflowReasons) :
    ¬ IsOverflow (invalidSegment path reason) := by
  rintro ⟨reason', hmem, h' | ⟨path', h'⟩⟩
  · cases h'
  · injection h' with _ heq
    exact h (heq ▸ hmem)

theorem not_isOverflow_record (h : reason ∉ overflowReasons) :
    ¬ IsOverflow (.corruptRecord reason) := by
  rintro ⟨reason', hmem, h' | ⟨path', h'⟩⟩
  · cases h'
    exact h hmem
  · cases h'

theorem not_isOverflow_io (i : IoError) : ¬ IsOverflow (.io i) := by
  rintro ⟨_, -, h | ⟨_, h⟩⟩ <;> cases h

/-- A text that begins as no text of an overflow does. -/
theorem not_mem_overflowReasons {a b : String}
    (h : ∀ r ∈ overflowReasons, ¬ a.toList <+: r.toList) : a ++ b ∉ overflowReasons :=
  fun hmem => h _ hmem (by rw [String.toList_append]; exact List.prefix_append _ _)

theorem noOverflow_ok {a : α} : NoOverflow (.ok a : Except StoneError α) := errorsIn_ok

theorem noOverflow_error (h : ¬ IsOverflow e) : NoOverflow (.error e : Except StoneError α) :=
  errorsIn_error h

theorem NoOverflow.bind {x : Except StoneError α} {f : α → Except StoneError β}
    (hx : NoOverflow x) (hf : ∀ a, x = .ok a → NoOverflow (f a)) : NoOverflow (x >>= f) :=
  ErrorsIn.bind hx hf

theorem noOverflow_reject {c : Prop} {_ : Decidable c} {f : Unit → Except StoneError β}
    (he : ¬ IsOverflow e) (hf : ¬ c → NoOverflow (f ())) : NoOverflow (rejectIf c e >>= f) :=
  errorsIn_reject he hf

theorem noOverflow_some {o : Option α} {a : α} {f : α → Except StoneError β} (h : o = some a)
    (hf : NoOverflow (f a)) : NoOverflow (okOr o e >>= f) := by
  rw [h]
  exact hf

theorem noOverflow_readExact {file : Bytes} {i n : ℕ} {f : Bytes → Except StoneError β}
    (hf : i + n ≤ file.length → NoOverflow (f (slice file i n))) :
    NoOverflow (readExact file i n >>= f) := by
  unfold readExact
  split_ifs with h
  · exact hf h
  · exact noOverflow_error (not_isOverflow_io _)

theorem not_isOverflow_truncated (n : ℕ) (b : Bytes) : ¬ IsOverflow (Record.truncated n b) := by
  rintro ⟨_, -, h | ⟨_, h⟩⟩ <;> cases h

theorem not_isOverflow_insane (field : String) (len : ℕ) :
    ¬ IsOverflow (Record.insane field len) := by
  refine not_isOverflow_record ?_
  simp only [String.append_assoc]
  exact not_mem_overflowReasons (by decide)

theorem noOverflow_decode (b : Bytes) : NoOverflow (Record.decode b) := by
  have hmax : Record.MAX_FIELD_LEN = 67108864 := rfl
  have hsize : u64Size = 2 ^ 64 := rfl
  have htrunc := not_isOverflow_truncated
  rcases b with _ | ⟨x, b⟩
  · exact noOverflow_error (not_isOverflow_truncated 1 [])
  unfold Record.decode
  refine noOverflow_some (a := x) rfl (NoOverflow.bind ?_ fun o _ => ?_)
  · unfold Record.decodeOp
    split_ifs
    · exact noOverflow_ok
    · exact noOverflow_ok
    · exact noOverflow_error (not_isOverflow_record (not_mem_overflowReasons (by decide)))
  generalize x :: b = b
  refine noOverflow_reject (htrunc _ _) fun _ => ?_
  refine noOverflow_reject (not_isOverflow_insane _ _) fun hk => ?_
  dsimp only [Record.KEY_LEN_OFFSET, Record.KEY_START_OFFSET, Record.U32_SIZE, Record.CRC_SIZE]
    at hk ⊢
  refine noOverflow_some (checkedAdd_of_lt (by omega)) ?_
  refine noOverflow_some (checkedAdd_of_lt (by omega)) ?_
  refine noOverflow_reject (htrunc _ _) fun _ => ?_
  refine noOverflow_reject (not_isOverflow_insane _ _) fun hv => ?_
  refine noOverflow_some (checkedAdd_of_lt (by omega)) ?_
  refine noOverflow_some (checkedAdd_of_lt (by omega)) ?_
  refine noOverflow_reject (htrunc _ _) fun _ => ?_
  refine noOverflow_reject (not_isOverflow_record (by decide)) fun _ => ?_
  refine noOverflow_reject ?_ fun _ => noOverflow_ok
  rintro ⟨_, -, h | ⟨_, h⟩⟩ <;> cases h

theorem SegmentReader.Bounded.noOverflow_readRecordAt {r : SegmentReader} (hr : r.Bounded)
    (offset : ℕ) : NoOverflow (r.readRecordAt offset) := by
  have hsize : u64Size = 2 ^ 64 := rfl
  have hfmax : maxFileLen = 2 ^ 63 - 1 := rfl
  have hle := hr.le
  have hlen := hr.length_le
  unfold SegmentReader.readRecordAt
  refine noOverflow_reject (not_isOverflow_segment (not_mem_overflowReasons (by decide)))
    fun hplace => ?_
  refine noOverflow_some (checkedAdd_of_lt (by omega)) ?_
  refine noOverflow_reject (not_isOverflow_segment (by decide)) fun _ => ?_
  refine noOverflow_readExact fun _ => ?_
  have hk := SegmentReader.fromLe_slice_lt (slice r.file offset 5) 1
  refine noOverflow_some (a := offset + 5 + fromLe (slice (slice r.file offset 5) 1 4)) ?_ ?_
  · rw [checkedAdd_of_lt (by omega), Option.bind_eq_bind, Option.bind_some,
      checkedAdd_of_lt (by omega)]
  generalize fromLe (slice (slice r.file offset 5) 1 4) = k at *
  refine noOverflow_some (checkedAdd_of_lt (by omega)) ?_
  refine noOverflow_reject (not_isOverflow_segment (by decide)) fun _ => ?_
  refine noOverflow_readExact fun _ => ?_
  have hv := SegmentReader.fromLe_slice_lt r.file (offset + 5 + k)
  generalize fromLe (slice r.file (offset + 5 + k) 4) = v at *
  refine noOverflow_some (a := 1 + 4 + k + 4 + v + 4) ?_ ?_
  · simp (disch := omega) only [checkedAdd_of_lt, Option.bind_eq_bind, Option.bind_some]
  refine noOverflow_some (checkedAdd_of_lt (by omega)) ?_
  refine noOverflow_reject (not_isOverflow_segment ?_) fun _ => ?_
  · simp only [String.append_assoc]
    exact not_mem_overflowReasons (by decide)
  refine noOverflow_readExact fun _ => (noOverflow_decode _).bind fun _ _ => ?_
  exact noOverflow_reject (not_isOverflow_segment (by decide)) fun _ => noOverflow_ok

end NoOverflow

/-! ## The reader as a whole -/

/-- A segment of one value. -/
def oneValueSegment : Disk :=
  Disk.empty.put [['s']] (segmentImage [([97], some [49])]) (by decide +kernel)

end StoneKV
