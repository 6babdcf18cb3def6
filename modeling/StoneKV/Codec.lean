import StoneKV.Record

/-!
# The codec as a whole

* **`codec_prefix_free`**: the encoding of a record is read back whatever follows it, and nothing but
  encodings is read.
* `Record.exists_frame`: what a truncated record looks like; the checksum is not looked at.
-/

namespace StoneKV

open FaultProg

namespace Record

variable {b c : Bytes} {r r' : Record} {n a : ℕ}

/-- **The codec is a prefix-free bijection onto its image.** -/
theorem codec_prefix_free :
    (∀ (r : Record) (s : Bytes), r.key.length ≤ MAX_FIELD_LEN → r.val.length ≤ MAX_FIELD_LEN →
      (r.op = .delete → r.val = []) → ∃ b, r.encode = .ok b ∧ decode (b ++ s) = .ok (r, b.length)) ∧
    (∀ (b : Bytes) (r : Record) (n : ℕ), decode b = .ok (r, n) →
      n ≤ b.length ∧ r.encode = .ok (b.take n)) ∧
    ∀ (r r' : Record) (b b' : Bytes), r.encode = .ok b → r'.encode = .ok b' → b <+: b' → b = b' := by
  refine ⟨fun r s hk hv hd => ?_, fun b r n h => ?_, fun r r' b b' h h' hpre => ?_⟩
  · have hr : r.Valid := ⟨hk, hv, hd⟩
    exact ⟨r.image, hr.encode_eq, decode_image hr⟩
  · obtain ⟨hr, ⟨rest, rfl⟩, rfl⟩ := decode_eq_ok h
    rw [List.take_left, List.length_append]
    exact ⟨Nat.le_add_right _ _, hr.encode_eq⟩
  · obtain ⟨rest, rfl⟩ := hpre
    have hdec : decode (b ++ rest) = .ok (r.stored, b.length) := by
      rw [(encode_eq_ok h).2.2, ← image_stored]
      exact decode_image (valid_stored h)
    have hdec' : decode (b ++ rest) = .ok (r'.stored, (b ++ rest).length) := by
      have := decode_image_self (valid_stored h')
      rwa [image_stored, ← (encode_eq_ok h').2.2] at this
    have hlen : b.length = (b ++ rest).length := by
      rw [hdec] at hdec'
      injection hdec' with hpair
      exact congrArg Prod.snd hpair
    rw [List.length_append] at hlen
    rw [List.eq_nil_of_length_eq_zero (show rest.length = 0 by omega), List.append_nil]

/-! ## Truncated records -/

theorem fromLe_slice_zeros (b : Bytes) (i n m : ℕ) :
    fromLe (slice (b ++ List.replicate m 0) i n) = fromLe (slice b i n) := by
  rw [slice, List.drop_append, List.take_append, List.drop_replicate, List.take_replicate,
    fromLe_append, fromLe_zeros, Nat.mul_zero, Nat.add_zero, slice]

/-- A field that is cut is below its bound. -/
theorem fromLe_slice_cut {i : ℕ} (h : b.length < i + 4) : fromLe (slice b i 4) < MAX_FIELD_LEN := by
  have hlen : (slice b i 4).length ≤ 3 := by
    rw [slice, List.length_take, List.length_drop]
    omega
  calc fromLe (slice b i 4) < 256 ^ (slice b i 4).length := fromLe_lt _
    _ ≤ 256 ^ 3 := Nat.pow_le_pow_right (by omega) hlen
    _ < MAX_FIELD_LEN := by decide

/-- The declared length of the key. -/
def declaredKeyLen (b : Bytes) : ℕ := fromLe (slice b 1 4)

/-- The declared length of the value. -/
def declaredValLen (b : Bytes) : ℕ := fromLe (slice b (5 + declaredKeyLen b) 4)

theorem Valid.declaredKeyLen (h : r.Valid) {rest : Bytes} :
    declaredKeyLen (r.image ++ rest) = r.key.length := by
  rw [Record.declaredKeyLen, h.image_eq, List.append_assoc, slice_keyLen, fromLe_length h.key_le]

theorem Valid.declaredValLen (h : r.Valid) {rest : Bytes} :
    declaredValLen (r.image ++ rest) = r.val.length := by
  rw [Record.declaredValLen, h.declaredKeyLen, h.image_eq, List.append_assoc, slice_valLen,
    fromLe_length h.val_le]

/-- Every error of `decode` reports a truncated or a damaged record. -/
theorem errorsIn_decode (b : Bytes) :
    ErrorsIn (fun e => IsTruncated e ∨ IsCorrupt e) (decode b) := by
  unfold decode
  refine errorsIn_okOr (.inl ⟨_, _, rfl⟩) fun first => ErrorsIn.bind ?_ fun op _ => ?_
  · unfold decodeOp
    split_ifs
    · exact errorsIn_ok
    · exact errorsIn_ok
    · exact errorsIn_error (.inr (.record _))
  refine errorsIn_reject (.inl ⟨_, _, rfl⟩) fun _ => ?_
  refine errorsIn_reject (.inr (.record _)) fun _ => ?_
  refine errorsIn_okOr (.inr (.record _)) fun _ => errorsIn_okOr (.inr (.record _)) fun _ => ?_
  refine errorsIn_reject (.inl ⟨_, _, rfl⟩) fun _ => ?_
  refine errorsIn_reject (.inr (.record _)) fun _ => ?_
  refine errorsIn_okOr (.inr (.record _)) fun _ => errorsIn_okOr (.inr (.record _)) fun _ => ?_
  refine errorsIn_reject (.inl ⟨_, _, rfl⟩) fun _ => ?_
  refine errorsIn_reject (.inr (.record _)) fun _ => ?_
  exact errorsIn_reject (.inr (.checksum _ _)) fun _ => errorsIn_ok

/-- A truncated record has an operation and lengths within the bounds, and ends before they say. -/
theorem bounds_of_truncated (h : decode b = .error (.truncatedRecord n a)) (hb : b ≠ []) :
    ∃ o, b.head? = some (opByte o) ∧ declaredKeyLen b ≤ MAX_FIELD_LEN ∧
      declaredValLen b ≤ MAX_FIELD_LEN ∧ b.length < 13 + declaredKeyLen b + declaredValLen b := by
  have hmax : MAX_FIELD_LEN = 67108864 := rfl
  have hsize : u64Size = 2 ^ 64 := rfl
  obtain ⟨x, t, rfl⟩ := List.exists_cons_of_ne_nil hb
  unfold decode at h
  rw [List.head?_cons, okOr_some, ok_bind] at h
  cases ho : decodeOp x with
  | error e =>
    rw [ho, error_bind] at h
    cases h
    unfold decodeOp at ho
    split_ifs at ho
    cases ho
  | ok o =>
    refine ⟨o, congrArg some (decodeOp_eq_ok ho), ?_⟩
    rw [ho, ok_bind] at h
    generalize x :: t = b at *
    by_cases h5 : b.length < KEY_START_OFFSET
    · have h5' : b.length < 5 := h5
      have hk : declaredKeyLen b < MAX_FIELD_LEN := fromLe_slice_cut h5'
      have hv : declaredValLen b = 0 := by
        rw [declaredValLen, slice, List.drop_eq_nil_of_le (by omega)]
        rfl
      exact ⟨hk.le, by omega, by omega⟩
    rw [rejectIf_of_not h5, ok_bind] at h
    dsimp only [KEY_LEN_OFFSET, KEY_START_OFFSET, U32_SIZE, CRC_SIZE] at h
    by_cases hk : declaredKeyLen b ≤ MAX_FIELD_LEN
    · rw [← declaredKeyLen, rejectIf_of_not (by omega), ok_bind, checkedAdd_of_lt (by omega),
        okOr_some, ok_bind, checkedAdd_of_lt (by omega), okOr_some, ok_bind] at h
      by_cases h9 : b.length < 5 + declaredKeyLen b + 4
      · have hv := fromLe_slice_cut h9
        exact ⟨hk, hv.le, by omega⟩
      rw [rejectIf_of_not h9, ok_bind] at h
      by_cases hv : declaredValLen b ≤ MAX_FIELD_LEN
      · rw [← declaredValLen, rejectIf_of_not (by omega), ok_bind, checkedAdd_of_lt (by omega),
          okOr_some, ok_bind, checkedAdd_of_lt (by omega), okOr_some, ok_bind] at h
        refine ⟨hk, hv, ?_⟩
        by_contra hlen
        rw [rejectIf_of_not (by omega), ok_bind] at h
        unfold rejectIf at h
        split_ifs at h <;> cases h
      · rw [← declaredValLen, rejectIf_of (by omega)] at h
        cases h
    · rw [← declaredKeyLen, rejectIf_of (by omega)] at h
      cases h

/-- **A truncated record** is cut from an operation byte, a key and a value of the declared lengths,
and some checksum. -/
theorem exists_frame (h : decode b = .error (.truncatedRecord n a)) :
    ∃ o key val c, (b ≠ [] → b.head? = some (opByte o)) ∧ key.length = declaredKeyLen b ∧
      key.length ≤ MAX_FIELD_LEN ∧ val.length = declaredValLen b ∧ val.length ≤ MAX_FIELD_LEN ∧
      c.length = 4 ∧ b.length < 13 + key.length + val.length ∧
      b <+: body (opByte o) key val ++ c := by
  rcases eq_or_ne b [] with rfl | hb
  · exact ⟨.set, [], [], toLe 4 0, fun h => absurd rfl h, rfl, Nat.zero_le _, rfl, Nat.zero_le _,
      rfl, by decide, List.nil_prefix⟩
  obtain ⟨o, hop, hk, hv, hlen⟩ := bounds_of_truncated h hb
  -- the bytes that are missing are set to zero: no declared length changes
  obtain ⟨op, key, val, c, rest, hkey, hval, hc, heq⟩ := exists_body
    (k := declaredKeyLen b) (v := declaredValLen b)
    (b := b ++ List.replicate (13 + declaredKeyLen b + declaredValLen b) 0)
    (by rw [List.length_append, List.length_replicate]; omega) (fromLe_slice_zeros b _ _ _)
    (fromLe_slice_zeros b _ _ _)
  obtain rfl : op = opByte o := by
    have hhead := congrArg List.head? heq
    rw [List.head?_append_of_ne_nil _ hb, hop] at hhead
    injection hhead with hhead
    exact hhead.symm
  have hkey' : key.length = declaredKeyLen b := hkey
  have hval' : val.length = declaredValLen b := hval
  refine ⟨o, key, val, c, fun _ => hop, hkey', hkey' ▸ hk, hval', hval' ▸ hv, hc, by omega, ?_⟩
  have hpre : b <+: body (opByte o) key val ++ c ++ rest := heq ▸ List.prefix_append _ _
  refine List.prefix_of_prefix_length_le hpre (List.prefix_append _ rest) ?_
  rw [List.length_append, length_body]
  omega

/-- What a cut append can have left, up to the checksum: a strict prefix of the encoding of a record
with any four bytes in the place of its checksum. -/
def CrashTail (b : Bytes) : Prop :=
  ∃ r e c, encode r = .ok e ∧ c.length = CRC_SIZE ∧
    b <+: e.take (e.length - CRC_SIZE) ++ c ∧ b ≠ e.take (e.length - CRC_SIZE) ++ c

/-- `b` begins a deletion and declares a value, or a part of its length. -/
def DeleteWithValue (b : Bytes) : Prop := b.head? = some OP_DELETE ∧ declaredValLen b ≠ 0

theorem Valid.take_image (h : r.Valid) :
    r.image.take (r.image.length - CRC_SIZE) = body (opByte r.op) r.key r.val := by
  rw [h.length_image, h.image_eq]
  exact List.take_left' (by rw [length_body, CRC_SIZE]; omega)

/-- **Truncated records.** Deletions that declare a value apart, exactly the strict prefixes of
records are reported as truncated. -/
theorem truncated_iff (hb : ¬ DeleteWithValue b) :
    (∃ n a, decode b = .error (.truncatedRecord n a)) ↔ CrashTail b := by
  constructor
  · rintro ⟨n, a, h⟩
    obtain ⟨o, key, val, c, hop, -, hk, hv, hv', hc, hlen, hpre⟩ := exists_frame h
    have hr : Valid ⟨o, key, val⟩ := by
      refine ⟨hk, hv', fun ho => List.eq_nil_of_length_eq_zero ?_⟩
      change o = .delete at ho
      subst ho
      rcases eq_or_ne b [] with rfl | hnil
      · exact hv
      · by_contra h0
        exact hb ⟨hop hnil, fun hz => h0 (hv.trans hz)⟩
    have htake := hr.take_image
    refine ⟨_, _, c, hr.encode_eq, hc, by rwa [htake], fun heq => ?_⟩
    have := congrArg List.length heq
    rw [htake, List.length_append, length_body] at this
    change _ = 9 + key.length + val.length + _ at this
    omega
  · rintro ⟨r, e, c, he, hc, hpre, hne⟩
    have hr := valid_stored he
    have himg : e = r.stored.image := (encode_eq_ok he).2.2.trans r.image_stored.symm
    rw [himg, hr.take_image] at hpre hne
    have hlen : b.length < 13 + r.stored.key.length + r.stored.val.length := by
      have hlt : b.length ≠ (body (opByte r.stored.op) r.stored.key r.stored.val ++ c).length :=
        fun h => hne (hpre.eq_of_length h)
      have hle := hpre.length_le
      rw [List.length_append, length_body, hc, CRC_SIZE] at hlt hle
      omega
    obtain ⟨err, hdec, m, a, rfl⟩ := decode_frame_take hr.key_le hr.val_le hc hlen
    exact ⟨m, a, by rwa [← List.prefix_iff_eq_take.mp hpre] at hdec⟩

end Record

end StoneKV
