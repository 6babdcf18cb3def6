import StoneKV.SegmentGrammar
import StoneKV.Codec

/-!
# The two parsers of records

A segment looks up the lengths of a record in the file, within the record area, and only then decodes
its bytes.

* `parseArea path offset area`: this, in terms of the rest of the record area.
* `Bounded.readRecordAt_eq_parseArea`: it is what `read_record_at` does.
* `parseArea_eq_ok`: what it accepts is what `decode` accepts.
* **`record_parsers_agree`**: the parsers agree, whatever the offset and whatever lies behind the area.
-/

namespace StoneKV

open FaultProg

namespace SegmentReader

/-- What `read_record_at` makes of the bytes from `offset` to the end of the record area. -/
def parseArea (path : Path) (offset : ℕ) (area : Bytes) : Except StoneError (Record × ℕ) :=
  let k := Record.declaredKeyLen area
  let v := Record.declaredValLen area
  if area.length < 5 then
    .error (invalidSegment path "record header extends into sparse index")
  else if area.length < 9 + k then
    .error (invalidSegment path "key extends beyond record area")
  else if area.length < 13 + k + v then
    .error (invalidSegment path s!"record at offset {offset} extends beyond index offset")
  else Record.decode (area.take (13 + k + v))

variable {r : SegmentReader} {area b : Bytes} {path : Path} {offset n : ℕ} {rec : Record}
  {e : StoneError}

/-- Bytes that are as long as their lengths say are decoded as a whole. -/
theorem decode_whole (hlen : b.length = 13 + Record.declaredKeyLen b + Record.declaredValLen b)
    (h : Record.decode b = .ok (rec, n)) : n = b.length := by
  obtain ⟨hrec, ⟨rest, rfl⟩, rfl⟩ := Record.decode_eq_ok h
  rw [hlen, hrec.declaredKeyLen, hrec.declaredValLen, hrec.length_image]

/-- They are not reported as truncated. -/
theorem not_truncated_whole
    (hlen : b.length = 13 + Record.declaredKeyLen b + Record.declaredValLen b)
    (h : Record.decode b = .error e) : ¬ Record.IsTruncated e := by
  rintro ⟨n, a, rfl⟩
  have hne : b ≠ [] := by
    rintro rfl
    rw [List.length_nil] at hlen
    omega
  obtain ⟨-, -, -, -, hlt⟩ := Record.bounds_of_truncated h hne
  omega

/-- The check of what was consumed never fails. -/
theorem decode_checked
    (hlen : b.length = 13 + Record.declaredKeyLen b + Record.declaredValLen b) :
    (do
      let (record, consumed) ← Record.decode b
      rejectIf (consumed ≠ b.length) e
      return (record, b.length)) = Record.decode b := by
  rcases h : Record.decode b with _ | ⟨rec, n⟩
  · rfl
  · obtain rfl := decode_whole hlen h
    rw [ok_bind]
    dsimp only
    rw [rejectIf_of_not (not_not.mpr rfl)]
    rfl

theorem declaredKeyLen_slice (file : Bytes) (offset : ℕ) {m : ℕ} (h : 5 ≤ m) :
    Record.declaredKeyLen (slice file offset m) = fromLe (slice file (offset + 1) 4) := by
  rw [Record.declaredKeyLen, slice_slice (by omega)]

theorem declaredValLen_slice {file : Bytes} {m k : ℕ}
    (hk : Record.declaredKeyLen (slice file offset m) = k) (h : 9 + k ≤ m) :
    Record.declaredValLen (slice file offset m) = fromLe (slice file (offset + 5 + k) 4) := by
  rw [Record.declaredValLen, hk, slice_slice (by omega), Nat.add_assoc]

/-- **What is read at a place of the record area** depends on the rest of the area only. -/
theorem Bounded.readRecordAt_eq_parseArea (hr : r.Bounded) (h5 : r.recordsStart ≤ offset)
    (hlt : offset < r.indexOffset) : r.readRecordAt offset =
      parseArea r.path offset (slice r.file offset (r.indexOffset - offset)) := by
  have hsize : u64Size = 2 ^ 64 := rfl
  have hfmax : maxFileLen = 2 ^ 63 - 1 := rfl
  have hle := hr.le
  have hmax := hr.length_le
  obtain ⟨m, hm⟩ : ∃ m, r.indexOffset = offset + m := ⟨r.indexOffset - offset, by omega⟩
  rw [hm, Nat.add_sub_cancel_left]
  have hlen : (slice r.file offset m).length = m := length_slice (by omega)
  unfold parseArea
  dsimp only
  rw [hlen]
  -- the declared lengths are looked up in the file once the area is long enough for them
  split_ifs with h₁ h₂ h₃
  · unfold SegmentReader.readRecordAt
    simp (disch := omega) only [rejectIf_of_not, rejectIf_of, checkedAdd_of_lt, okOr_some, ok_bind,
      error_bind]
  · rw [declaredKeyLen_slice _ _ (by omega)] at h₂
    have hk32 := fromLe_slice_lt r.file (offset + 1)
    unfold SegmentReader.readRecordAt
    simp (disch := omega) only [rejectIf_of_not, rejectIf_of, checkedAdd_of_lt, okOr_some, ok_bind,
      error_bind, Option.bind_eq_bind, Option.bind_some, readExact_of_le, slice_slice]
  · have hk := declaredKeyLen_slice r.file offset (show 5 ≤ m by omega)
    rw [declaredValLen_slice hk (by omega), hk] at h₃
    rw [hk] at h₂
    have hk32 := fromLe_slice_lt r.file (offset + 1)
    have hv32 := fromLe_slice_lt r.file (offset + 5 + fromLe (slice r.file (offset + 1) 4))
    unfold SegmentReader.readRecordAt
    simp (disch := omega) only [rejectIf_of_not, rejectIf_of, checkedAdd_of_lt, okOr_some, ok_bind,
      error_bind, Option.bind_eq_bind, Option.bind_some, readExact_of_le, slice_slice]
  · have hk := declaredKeyLen_slice r.file offset (show 5 ≤ m by omega)
    have hv := declaredValLen_slice hk (by omega)
    rw [hk] at h₂ h₃ ⊢
    rw [hv] at h₃ ⊢
    generalize hk' : fromLe (slice r.file (offset + 1) 4) = k at *
    generalize hv' : fromLe (slice r.file (offset + 5 + k) 4) = v at *
    have hb : (slice r.file offset (13 + k + v)).length = 13 + k + v := length_slice (by omega)
    have htake : (slice r.file offset m).take (13 + k + v) = slice r.file offset (13 + k + v) := by
      rw [slice, slice, List.take_take, Nat.min_eq_left (by omega)]
    have hkb : Record.declaredKeyLen (slice r.file offset (13 + k + v)) = k :=
      (declaredKeyLen_slice _ _ (by omega)).trans hk'
    have hvb : Record.declaredValLen (slice r.file offset (13 + k + v)) = v :=
      (declaredValLen_slice hkb (by omega)).trans hv'
    rw [hr.readRecordAt_eq h5 hk' hv' (by omega), htake]
    have hchecked := decode_checked (b := slice r.file offset (13 + k + v)) (e := invalidSegment r.path
      "record decoder consumed unexpected number of bytes") (by rw [hb, hkb, hvb])
    rw [hb] at hchecked
    exact hchecked

/-- **The parsers accept the same.** -/
theorem parseArea_eq_ok : parseArea path offset area = .ok (rec, n) ↔
    Record.decode area = .ok (rec, n) := by
  constructor
  · intro h
    unfold parseArea at h
    dsimp only at h
    split_ifs at h
    obtain ⟨hrec, ⟨rest, htake⟩, rfl⟩ := Record.decode_eq_ok h
    rw [← List.take_append_drop (13 + Record.declaredKeyLen area + Record.declaredValLen area) area,
      htake, List.append_assoc]
    exact Record.decode_image hrec
  · intro h
    obtain ⟨hrec, ⟨rest, rfl⟩, rfl⟩ := Record.decode_eq_ok h
    have hlen := hrec.length_image
    unfold parseArea
    rw [hrec.declaredKeyLen, hrec.declaredValLen, List.length_append, hlen]
    dsimp only
    rw [if_neg (by omega), if_neg (by omega), if_neg (by omega), ← hlen, List.take_left]
    exact Record.decode_image_self hrec

theorem append_ne {a b c : String} (h : ¬ a.toList <+: c.toList) : a ++ b ≠ c := by
  rintro rfl
  rw [String.toList_append] at h
  exact h (List.prefix_append _ _)

/-- **What is rejected** is not reported as truncated, nor for what was consumed. -/
theorem parseArea_eq_error (h : parseArea path offset area = .error e) :
    ¬ Record.IsTruncated e ∧
      e ≠ invalidSegment path "record decoder consumed unexpected number of bytes" := by
  have hsegment : ∀ {reason}, reason ≠ "record decoder consumed unexpected number of bytes" →
      ¬ Record.IsTruncated (invalidSegment path reason) ∧ invalidSegment path reason ≠
        invalidSegment path "record decoder consumed unexpected number of bytes" := fun hne => by
    refine ⟨?_, fun heq => ?_⟩
    · rintro ⟨_, _, ht⟩
      cases ht
    · injection heq with _ heq
      exact hne heq
  unfold parseArea at h
  dsimp only at h
  split_ifs at h with h₁ h₂ h₃
  · cases h
    exact hsegment (by decide)
  · cases h
    exact hsegment (by decide)
  · cases h
    refine hsegment ?_
    simp only [String.append_assoc]
    exact append_ne (by decide)
  · have hlen : (area.take (13 + Record.declaredKeyLen area + Record.declaredValLen area)).length =
        13 + Record.declaredKeyLen area + Record.declaredValLen area := by
      rw [List.length_take]
      omega
    have hk : Record.declaredKeyLen (area.take (13 + Record.declaredKeyLen area +
        Record.declaredValLen area)) = Record.declaredKeyLen area := by
      rw [Record.declaredKeyLen, slice_take (by omega)]
      rfl
    have hv : Record.declaredValLen (area.take (13 + Record.declaredKeyLen area +
        Record.declaredValLen area)) = Record.declaredValLen area := by
      rw [Record.declaredValLen, hk, slice_take (by omega)]
      rfl
    have ht := not_truncated_whole (by rw [hlen, hk, hv]) h
    refine ⟨ht, ?_⟩
    rcases (Record.errorsIn_decode _ e h).resolve_left ht with _ | _
    · exact fun heq => by cases heq
    · exact fun heq => by cases heq

end SegmentReader

/-- **The two parsers agree.** In a file that `open` accepts, at every offset of the record area,
`read_record_at` returns what `decode` returns for the rest of the area; it does not report a
truncated record, nor a sum past 64 bits, nor a decoder that consumed something else; and no byte
from the index on matters. -/
theorem record_parsers_agree {d d' : Disk} {path : Path} {g : ℕ} {l : List Fault} {r : SegmentReader}
    (hopen : (SegmentReader.open path g).run d l = (.ok r, d')) {offset : ℕ} (h5 : 5 ≤ offset)
    (hlt : offset < r.indexOffset) :
    (∀ rec n, r.readRecordAt offset = .ok (rec, n) ↔
      Record.decode (slice r.file offset (r.indexOffset - offset)) = .ok (rec, n)) ∧
    (∀ e, r.readRecordAt offset = .error e → ¬ Record.IsTruncated e ∧ ¬ IsOverflow e ∧
      e ≠ invalidSegment r.path "record decoder consumed unexpected number of bytes") ∧
    ∀ file : Bytes, file.length ≤ maxFileLen →
      file.take r.indexOffset = r.file.take r.indexOffset →
      ({ r with file := file } : SegmentReader).readRecordAt offset = r.readRecordAt offset := by
  have hr : r.Bounded := by
    have hwp : wp AnyFault (SegmentReader.open path g) (fun o _ => ∀ r, o = .ok r → r.Bounded) d :=
      SegmentReader.wp_open (fun b r hb hr r' hr' => by
        cases hr'
        exact SegmentReader.bounded_of_openIn hr (Disk.length_le_of_read hb))
        (fun _ _ _ _ _ h => by cases h) (fun _ _ h => by cases h) (fun _ _ _ h => by cases h)
        fun _ h => by cases h
    exact hwp.run_eq (fun _ _ => trivial) hopen r rfl
  have hstart : r.recordsStart ≤ offset := by rw [hr.start]; exact h5
  have hparse := hr.readRecordAt_eq_parseArea hstart hlt
  refine ⟨fun rec n => ?_, fun e he => ?_, fun file hmax hfile => ?_⟩
  · rw [hparse, SegmentReader.parseArea_eq_ok]
  · obtain ⟨ht, hne⟩ := SegmentReader.parseArea_eq_error (hparse.symm.trans he)
    exact ⟨ht, hr.noOverflow_readRecordAt offset e he, hne⟩
  · have hle : r.indexOffset ≤ file.length := by
      have := congrArg List.length hfile
      rw [List.length_take, List.length_take] at this
      have := hr.le
      omega
    have hr' : ({ r with file := file } : SegmentReader).Bounded := ⟨hr.start, hle, hmax⟩
    have harea : slice file offset (r.indexOffset - offset) =
        slice r.file offset (r.indexOffset - offset) := by
      rw [← slice_take (m := r.indexOffset) (by omega), hfile, slice_take (by omega)]
    rw [hparse, ← harea]
    exact hr'.readRecordAt_eq_parseArea hstart hlt

/-- The reader of a segment of one value. -/
def oneValueReader : SegmentReader := readerOf [['s']] 1 [([97], some [49])]

theorem record_parsers_agree_inside :
    (∀ rec n, oneValueReader.readRecordAt 6 = .ok (rec, n) ↔
      Record.decode (slice oneValueReader.file 6 (oneValueReader.indexOffset - 6)) = .ok (rec, n)) ∧
    ∀ e, oneValueReader.readRecordAt 6 = .error e → ¬ Record.IsTruncated e := by
  have hopen : (SegmentReader.open [['s']] 1).run oneValueSegment [] =
      (.ok oneValueReader, oneValueSegment) := rfl
  obtain ⟨hiff, herr, -⟩ := record_parsers_agree hopen (show 5 ≤ 6 by decide) (by decide +kernel)
  exact ⟨hiff, fun e he => (herr e he).1⟩

end StoneKV
