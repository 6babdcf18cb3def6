import StoneKV.Error

/-!
# File names

The files of a store are `wal.log`, and in the directory `segments` the segments, their temporary
files and the marker of a compaction.

* `segmentFilename`, `segmentTempFilename`, `parseSegmentGeneration`, `parseTempSegmentGeneration`;
* **`parseSegmentGeneration_filename`**, **`parseTempSegmentGeneration_filename`**: names are read
  back, and no name is of both kinds.
-/

namespace StoneKV

open FaultProg

def COMPACTION_MARKER_FILE : Name := "compaction.pending".toList

def COMPACTION_MARKER_TEMP_FILE : Name := "compaction.pending.tmp".toList

def COMPACTION_MARKER_MAGIC : List Char := "STONE_COMPACTION_V1".toList

/-- A number in decimal. -/
def decimal (n : ℕ) : List Char := Nat.toDigits 10 n

/-- A number in decimal, with zeros before it up to twenty digits. -/
def decimal20 (n : ℕ) : List Char := List.replicate (20 - (decimal n).length) '0' ++ decimal n

def SEGMENT_PREFIX : List Char := "segment_".toList
def SEGMENT_SUFFIX : List Char := ".seg".toList
def SEGMENT_TEMP_SUFFIX : List Char := ".seg.tmp".toList

def segmentFilename (generation : ℕ) : Name :=
  SEGMENT_PREFIX ++ decimal20 generation ++ SEGMENT_SUFFIX

def segmentTempFilename (generation : ℕ) : Name :=
  SEGMENT_PREFIX ++ decimal20 generation ++ SEGMENT_TEMP_SUFFIX

/-- What follows `p` in `s`, if `s` starts with it. -/
def stripPrefix (p s : List Char) : Option (List Char) :=
  if p.isPrefixOf s then some (s.drop p.length) else none

/-- What precedes `p` in `s`, if `s` ends with it. -/
def stripSuffix (p s : List Char) : Option (List Char) :=
  if p.isSuffixOf s then some (s.take (s.length - p.length)) else none

/-- A 64-bit number in decimal, after at most one plus sign. -/
def parseU64 (s : List Char) : Option ℕ :=
  let digits := (stripPrefix ['+'] s).getD s
  if digits ≠ [] ∧ digits.all Char.isDigit ∧ Nat.ofDigitChars 10 digits 0 < u64Size
  then some (Nat.ofDigitChars 10 digits 0) else none

def parseGenerationWithSuffix (fileName : Name) (suffix : List Char) : Option ℕ := do
  let generation ← stripSuffix suffix (← stripPrefix SEGMENT_PREFIX fileName)
  if generation.isEmpty || !generation.all Char.isDigit then none
  parseU64 generation

def parseSegmentGeneration (fileName : Name) : Option ℕ :=
  parseGenerationWithSuffix fileName SEGMENT_SUFFIX

def parseTempSegmentGeneration (fileName : Name) : Option ℕ :=
  parseGenerationWithSuffix fileName SEGMENT_TEMP_SUFFIX

/-! ## Decimal numbers -/

section Decimal

variable {n : ℕ}

theorem isDigit_decimal {c : Char} (hc : c ∈ decimal n) : c.isDigit :=
  Nat.isDigit_of_mem_toDigits (by decide) (by decide) hc

theorem decimal_ne_nil : decimal n ≠ [] := Nat.toDigits_ne_nil

theorem decimal20_ne_nil : decimal20 n ≠ [] := by
  unfold decimal20
  exact List.append_ne_nil_of_right_ne_nil _ decimal_ne_nil

theorem isDigit_decimal20 {c : Char} (hc : c ∈ decimal20 n) : c.isDigit := by
  unfold decimal20 at hc
  rcases List.mem_append.mp hc with h | h
  · rw [List.eq_of_mem_replicate h]
    decide
  · exact isDigit_decimal h

theorem all_isDigit_decimal20 : (decimal20 n).all Char.isDigit = true := by
  rw [List.all_eq_true]
  exact fun c hc => isDigit_decimal20 hc

theorem ofDigitChars_decimal : Nat.ofDigitChars 10 (decimal n) 0 = n :=
  Nat.ofDigitChars_ten_toDigits

theorem ofDigitChars_decimal20 : Nat.ofDigitChars 10 (decimal20 n) 0 = n := by
  unfold decimal20
  rw [Nat.ofDigitChars_append, Nat.ofDigitChars_replicate_zero, Nat.mul_zero, ofDigitChars_decimal]

/-- Digits are read as the number they are. -/
theorem parseU64_of_digits {s : List Char} (hs : s ≠ []) (hd : ∀ c ∈ s, c.isDigit)
    (hn : Nat.ofDigitChars 10 s 0 < u64Size) : parseU64 s = some (Nat.ofDigitChars 10 s 0) := by
  have hplus : stripPrefix ['+'] s = none := by
    unfold stripPrefix
    rw [if_neg]
    cases s with
    | nil => simp
    | cons c s =>
      have hc := hd c List.mem_cons_self
      simp only [List.isPrefixOf, Bool.and_true, beq_iff_eq]
      rintro rfl
      exact absurd hc (by decide)
  unfold parseU64
  rw [hplus, Option.getD_none, if_pos ⟨hs, List.all_eq_true.mpr hd, hn⟩]

theorem parseU64_decimal (hn : n < u64Size) : parseU64 (decimal n) = some n := by
  have h := parseU64_of_digits decimal_ne_nil (fun _ => isDigit_decimal)
    (by rw [ofDigitChars_decimal]; exact hn)
  rwa [ofDigitChars_decimal] at h

theorem parseU64_decimal20 (hn : n < u64Size) : parseU64 (decimal20 n) = some n := by
  have h := parseU64_of_digits decimal20_ne_nil (fun _ => isDigit_decimal20)
    (by rw [ofDigitChars_decimal20]; exact hn)
  rwa [ofDigitChars_decimal20] at h

theorem parseU64_lt {s : List Char} (h : parseU64 s = some n) : n < u64Size := by
  unfold parseU64 at h
  dsimp only at h
  split_ifs at h with hc
  cases h
  exact hc.2.2

end Decimal

/-! ## Names -/

section Names

variable {p s t : List Char} {g g' : ℕ} {name : Name}

theorem stripPrefix_append : stripPrefix p (p ++ s) = some s := by
  unfold stripPrefix
  rw [if_pos (List.isPrefixOf_iff_prefix.mpr (List.prefix_append p s)), List.drop_left]

theorem stripSuffix_append : stripSuffix p (s ++ p) = some s := by
  unfold stripSuffix
  rw [if_pos (List.isSuffixOf_iff_suffix.mpr (List.suffix_append s p)), List.length_append,
    Nat.add_sub_cancel, List.take_left]

theorem stripPrefix_eq_some : stripPrefix p s = some t ↔ s = p ++ t := by
  constructor
  · intro h
    unfold stripPrefix at h
    split_ifs at h with hp
    obtain ⟨u, rfl⟩ := List.isPrefixOf_iff_prefix.mp hp
    rw [List.drop_left] at h
    cases h
    rfl
  · rintro rfl
    exact stripPrefix_append

theorem stripSuffix_eq_some : stripSuffix p s = some t ↔ s = t ++ p := by
  constructor
  · intro h
    unfold stripSuffix at h
    split_ifs at h with hp
    obtain ⟨u, rfl⟩ := List.isSuffixOf_iff_suffix.mp hp
    rw [List.length_append, Nat.add_sub_cancel, List.take_left] at h
    cases h
    rfl
  · rintro rfl
    exact stripSuffix_append

theorem parse_filename (hg : g < u64Size) :
    parseGenerationWithSuffix (SEGMENT_PREFIX ++ decimal20 g ++ p) p = some g := by
  unfold parseGenerationWithSuffix
  rw [List.append_assoc, stripPrefix_append]
  simp only [Option.bind_eq_bind, Option.bind_some, stripSuffix_append]
  rw [if_neg (by simp [decimal20_ne_nil, all_isDigit_decimal20])]
  exact parseU64_decimal20 hg

/-- A name with a generation is digits between the prefix and the suffix. -/
theorem parse_eq_some (h : parseGenerationWithSuffix name p = some g) :
    ∃ ds : List Char, ds.all Char.isDigit ∧ name = SEGMENT_PREFIX ++ ds ++ p ∧ g < u64Size := by
  unfold parseGenerationWithSuffix at h
  simp only [Option.bind_eq_bind, Option.bind_eq_some_iff, stripPrefix_eq_some,
    stripSuffix_eq_some] at h
  obtain ⟨t, rfl, ds, rfl, h⟩ := h
  split_ifs at h with hd
  · cases h
  · refine ⟨ds, ?_, by rw [List.append_assoc], parseU64_lt h⟩
    simp only [Bool.or_eq_true, Bool.not_eq_true', not_or, Bool.not_eq_false] at hd
    exact hd.2

/-- **Segments.** -/
theorem parseSegmentGeneration_filename (hg : g < u64Size) :
    parseSegmentGeneration (segmentFilename g) = some g := parse_filename hg

/-- **Temporary files.** -/
theorem parseTempSegmentGeneration_filename (hg : g < u64Size) :
    parseTempSegmentGeneration (segmentTempFilename g) = some g := parse_filename hg

theorem segmentFilename_injective (h : segmentFilename g = segmentFilename g') : g = g' := by
  unfold segmentFilename at h
  rw [List.append_assoc, List.append_assoc, List.append_cancel_left_eq,
    List.append_cancel_right_eq] at h
  rw [← ofDigitChars_decimal20 (n := g), h, ofDigitChars_decimal20]

theorem getLast?_segmentFilename : (segmentFilename g).getLast? = some 'g' := by
  unfold segmentFilename
  rw [List.getLast?_append_of_ne_nil _ (by decide)]
  rfl

theorem getLast?_of_parseTemp (h : (parseTempSegmentGeneration name).isSome) :
    name.getLast? = some 'p' := by
  obtain ⟨g, hg⟩ := Option.isSome_iff_exists.mp h
  obtain ⟨ds, -, rfl, -⟩ := parse_eq_some hg
  rw [List.getLast?_append_of_ne_nil _ (by decide)]
  rfl

theorem parseTemp_segmentFilename : ¬ (parseTempSegmentGeneration (segmentFilename g)).isSome := by
  intro h
  have := getLast?_of_parseTemp h
  rw [getLast?_segmentFilename] at this
  exact absurd this (by decide)

theorem head?_segmentFilename : (segmentFilename g).head? = some 's' := rfl

theorem head?_of_parseTemp (h : (parseTempSegmentGeneration name).isSome) :
    name.head? = some 's' := by
  obtain ⟨g, hg⟩ := Option.isSome_iff_exists.mp h
  obtain ⟨ds, -, rfl, -⟩ := parse_eq_some hg
  rfl

/-- The files that are removed or written anew before they are read. -/
def IsScratchName (name : Name) : Prop :=
  (parseTempSegmentGeneration name).isSome ∨ name = COMPACTION_MARKER_TEMP_FILE

instance : DecidablePred IsScratchName := fun _ => inferInstanceAs (Decidable (_ ∨ _))

theorem isScratchName_temp (hg : g < u64Size) : IsScratchName (segmentTempFilename g) :=
  .inl (by rw [parseTempSegmentGeneration_filename hg]; rfl)

theorem isScratchName_markerTemp : IsScratchName COMPACTION_MARKER_TEMP_FILE := .inr rfl

theorem not_isScratchName_segment : ¬ IsScratchName (segmentFilename g) := by
  rintro (h | h)
  · exact parseTemp_segmentFilename h
  · have := congrArg List.head? h
    rw [head?_segmentFilename] at this
    exact absurd this (by decide)

theorem not_isScratchName_marker : ¬ IsScratchName COMPACTION_MARKER_FILE := by
  rintro (h | h)
  · exact absurd (head?_of_parseTemp h) (by decide)
  · exact absurd h (by decide)

theorem segmentFilename_ne_marker : segmentFilename g ≠ COMPACTION_MARKER_FILE := by
  intro h
  have := congrArg List.head? h
  rw [head?_segmentFilename] at this
  exact absurd this (by decide)

theorem segmentTempFilename_ne_marker : segmentTempFilename g ≠ COMPACTION_MARKER_FILE := by
  intro h
  have hhead : (segmentTempFilename g).head? = some 's' := rfl
  rw [h] at hhead
  exact absurd hhead (by decide)

theorem segmentTempFilename_ne_markerTemp :
    segmentTempFilename g ≠ COMPACTION_MARKER_TEMP_FILE := by
  intro h
  have hhead : (segmentTempFilename g).head? = some 's' := rfl
  rw [h] at hhead
  exact absurd hhead (by decide)

theorem segmentFilename_ne_temp : segmentFilename g ≠ segmentTempFilename g' := by
  intro h
  have hlast : (segmentTempFilename g').getLast? = some 'p' := by
    unfold segmentTempFilename
    rw [List.getLast?_append_of_ne_nil _ (by decide)]
    rfl
  rw [← h, getLast?_segmentFilename] at hlast
  exact absurd hlast (by decide)

end Names

end StoneKV
