import StoneKV.Crc32

/-!
# Records

A record is an operation byte, a key and a value with their lengths before them, and a checksum.

* `Record.encode`, `Record.decode`: the codec of the log and of the segments.
-/

namespace StoneKV

open FaultProg

/-- A key. -/
abbrev Key : Type := Bytes

/-- A value. -/
abbrev Val : Type := Bytes

/-- The operation of a record. -/
inductive Op
  | set
  | delete
  deriving DecidableEq, Repr

/-- One logged operation. -/
structure Record where
  op : Op
  key : Key
  val : Val
  deriving DecidableEq, Repr

namespace Record

def OP_SET : UInt8 := 0
def OP_DELETE : UInt8 := 1
def U32_SIZE : ℕ := 4
def CRC_SIZE : ℕ := 4
def KEY_LEN_OFFSET : ℕ := 1
def KEY_START_OFFSET : ℕ := KEY_LEN_OFFSET + U32_SIZE

/-- The bound on one key or value. -/
def MAX_FIELD_LEN : ℕ := 64 * 1024 * 1024

def newSet (key : Key) (val : Val) : Record := ⟨.set, key, val⟩

def newDelete (key : Key) : Record := ⟨.delete, key, []⟩

/-- The value that is encoded. -/
def value (r : Record) : Val :=
  match r.op with
  | .set => r.val
  | .delete => []

/-- The byte of an operation. -/
def opByte : Op → UInt8
  | .set => OP_SET
  | .delete => OP_DELETE

/-- The bytes of a record. -/
def encode (r : Record) : Except StoneError Bytes := do
  rejectIf (r.key.length > MAX_FIELD_LEN) (.recordTooLarge "key" r.key.length)
  let keyLen ← okOr (tryU32 r.key.length) (.recordTooLarge "key" r.key.length)
  rejectIf (r.value.length > MAX_FIELD_LEN) (.recordTooLarge "value" r.value.length)
  let valLen ← okOr (tryU32 r.value.length) (.recordTooLarge "value" r.value.length)
  let _capacity ← okOr (checkedAdd 1 U32_SIZE >>= (checkedAdd · r.key.length)
    >>= (checkedAdd · U32_SIZE) >>= (checkedAdd · r.value.length) >>= (checkedAdd · CRC_SIZE))
    (.other "record size overflow")
  let bytes := opByte r.op :: toLe 4 keyLen ++ r.key ++ toLe 4 valLen ++ r.value
  return bytes ++ toLe 4 (Crc32.checksum bytes).toNat

/-- The operation of a byte. -/
def decodeOp (byte : UInt8) : Except StoneError Op :=
  if byte = OP_SET then .ok .set
  else if byte = OP_DELETE then .ok .delete
  else .error (.corruptRecord s!"unknown operation byte: {byte.toNat}")

/-- The error of a record that goes past the end of the bytes. -/
def truncated (needed : ℕ) (bytes : Bytes) : StoneError := .truncatedRecord needed bytes.length

/-- The error of a length that no record has. -/
def insane (field : String) (len : ℕ) : StoneError :=
  .corruptRecord (s!"declared {field} length {len} exceeds sanity bound {MAX_FIELD_LEN} — " ++
    "treating as corruption, not a crash tail")

/-- The first record of `bytes`, and its length. -/
def decode (bytes : Bytes) : Except StoneError (Record × ℕ) := do
  let first ← okOr bytes.head? (.truncatedRecord 1 0)
  let op ← decodeOp first
  rejectIf (bytes.length < KEY_START_OFFSET) (truncated KEY_START_OFFSET bytes)
  let keyLen := fromLe (slice bytes KEY_LEN_OFFSET 4)
  rejectIf (keyLen > MAX_FIELD_LEN) (insane "key" keyLen)
  let keyEnd ← okOr (checkedAdd KEY_START_OFFSET keyLen) (.corruptRecord "key length overflow")
  let valLenEnd ← okOr (checkedAdd keyEnd U32_SIZE) (.corruptRecord "value length offset overflow")
  rejectIf (bytes.length < valLenEnd) (truncated valLenEnd bytes)
  let valLen := fromLe (slice bytes keyEnd 4)
  rejectIf (valLen > MAX_FIELD_LEN) (insane "value" valLen)
  let valStart := valLenEnd
  let valEnd ← okOr (checkedAdd valStart valLen) (.corruptRecord "value length overflow")
  let recordEnd ← okOr (checkedAdd valEnd CRC_SIZE) (.corruptRecord "record length overflow")
  rejectIf (bytes.length < recordEnd) (truncated recordEnd bytes)
  rejectIf (op = .delete ∧ valLen ≠ 0)
    (.corruptRecord "DELETE record must have zero-length value")
  let expectedCrc := fromLe (slice bytes valEnd 4)
  let actualCrc := Crc32.checksum (bytes.take valEnd)
  rejectIf (expectedCrc ≠ actualCrc.toNat)
    (.checksumMismatch (BitVec.ofNat 32 expectedCrc) actualCrc)
  return (⟨op, slice bytes KEY_START_OFFSET keyLen, slice bytes valStart valLen⟩, recordEnd)

/-! ## The format -/

/-- The bytes under the checksum. -/
def body (op : UInt8) (key : Key) (val : Val) : Bytes :=
  op :: toLe 4 key.length ++ key ++ toLe 4 val.length ++ val

/-- The bytes of a record that fits. -/
def image (r : Record) : Bytes :=
  body (opByte r.op) r.key r.value ++
    toLe 4 (Crc32.checksum (body (opByte r.op) r.key r.value)).toNat

/-- The record has an encoding and is what the encoding says. -/
structure Valid (r : Record) : Prop where
  key_le : r.key.length ≤ MAX_FIELD_LEN
  val_le : r.val.length ≤ MAX_FIELD_LEN
  delete : r.op = .delete → r.val = []

variable {r : Record} {op : UInt8} {key : Key} {val : Val} {b c rest : Bytes} {n : ℕ}

theorem length_body : (body op key val).length = 9 + key.length + val.length := by
  simp only [body, List.length_append, List.length_cons, length_toLe]
  omega

theorem length_image : r.image.length = 13 + r.key.length + r.value.length := by
  rw [image, List.length_append, length_body, length_toLe]
  omega

theorem image_ne_nil : r.image ≠ [] := by
  intro h
  have := length_image (r := r)
  rw [h, List.length_nil] at this
  omega

theorem Valid.value_eq (h : r.Valid) : r.value = r.val := by
  unfold value
  split
  · rfl
  · exact (h.delete ‹_›).symm

theorem valid_newSet (hk : key.length ≤ MAX_FIELD_LEN) (hv : val.length ≤ MAX_FIELD_LEN) :
    (newSet key val).Valid := ⟨hk, hv, fun h => by cases h⟩

theorem valid_newDelete (hk : key.length ≤ MAX_FIELD_LEN) : (newDelete key).Valid :=
  ⟨hk, Nat.zero_le _, fun _ => rfl⟩

theorem encode_eq (hk : r.key.length ≤ MAX_FIELD_LEN) (hv : r.value.length ≤ MAX_FIELD_LEN) :
    r.encode = .ok r.image := by
  have hmax : MAX_FIELD_LEN = 67108864 := rfl
  have hsize : u64Size = 2 ^ 64 := rfl
  unfold encode
  rw [rejectIf_of_not (by omega), rejectIf_of_not (by omega), tryU32_of_lt (by omega),
    tryU32_of_lt (by omega)]
  simp only [U32_SIZE, CRC_SIZE, checkedAdd, hsize, ok_bind, okOr_some, Option.bind_eq_bind]
  rw [if_pos (by omega), Option.bind_some, if_pos (by omega), Option.bind_some,
    if_pos (by omega), Option.bind_some, if_pos (by omega), Option.bind_some, if_pos (by omega)]
  rfl

theorem Valid.encode_eq (h : r.Valid) : r.encode = .ok r.image :=
  Record.encode_eq h.key_le (h.value_eq ▸ h.val_le)

/-- A record that does not encode has a key or a value past the bound. -/
theorem encode_eq_error {e : StoneError} (h : r.encode = .error e) :
    (MAX_FIELD_LEN < r.key.length ∨ MAX_FIELD_LEN < r.value.length) ∧ ¬ e.IsIo := by
  by_cases hk : r.key.length ≤ MAX_FIELD_LEN
  · by_cases hv : r.value.length ≤ MAX_FIELD_LEN
    · rw [Record.encode_eq hk hv] at h
      cases h
    · have hmax : MAX_FIELD_LEN = 67108864 := rfl
      unfold encode at h
      rw [rejectIf_of_not (by omega), rejectIf_of (by omega), tryU32_of_lt (by omega)] at h
      cases h
      exact ⟨.inr (by omega), fun ⟨i, hi⟩ => by cases hi⟩
  · unfold encode at h
    rw [rejectIf_of (by omega)] at h
    cases h
    exact ⟨.inl (by omega), fun ⟨i, hi⟩ => by cases hi⟩

/-- A record that encodes is within the bounds. -/
theorem encode_eq_ok (h : r.encode = .ok b) :
    r.key.length ≤ MAX_FIELD_LEN ∧ r.value.length ≤ MAX_FIELD_LEN ∧ b = r.image := by
  have hmax : MAX_FIELD_LEN = 67108864 := rfl
  by_cases hk : r.key.length ≤ MAX_FIELD_LEN
  · by_cases hv : r.value.length ≤ MAX_FIELD_LEN
    · rw [Record.encode_eq hk hv] at h
      cases h
      exact ⟨hk, hv, rfl⟩
    · unfold encode at h
      rw [rejectIf_of_not (by omega), rejectIf_of (by omega), tryU32_of_lt (by omega)] at h
      cases h
  · unfold encode at h
    rw [rejectIf_of (by omega)] at h
    cases h

/-! ### The fields of a record -/

theorem slice_keyLen : slice (body op key val ++ rest) 1 4 = toLe 4 key.length := by
  have : body op key val ++ rest =
      [op] ++ toLe 4 key.length ++ (key ++ toLe 4 val.length ++ val ++ rest) := by simp [body]
  rw [this]
  simpa using slice_append [op] (toLe 4 key.length) _

theorem slice_key : slice (body op key val ++ rest) 5 key.length = key := by
  have : body op key val ++ rest =
      (op :: toLe 4 key.length) ++ key ++ (toLe 4 val.length ++ val ++ rest) := by simp [body]
  rw [this]
  simpa using slice_append (op :: toLe 4 key.length) key _

theorem slice_valLen :
    slice (body op key val ++ rest) (5 + key.length) 4 = toLe 4 val.length := by
  have : body op key val ++ rest =
      (op :: toLe 4 key.length ++ key) ++ toLe 4 val.length ++ (val ++ rest) := by simp [body]
  have hlen : (op :: toLe 4 key.length ++ key).length = 5 + key.length := by
    simp only [List.length_append, List.length_cons, length_toLe]
  rw [this, ← hlen]
  simpa using slice_append (op :: toLe 4 key.length ++ key) (toLe 4 val.length) (val ++ rest)

theorem slice_val : slice (body op key val ++ rest) (5 + key.length + 4) val.length = val := by
  have : body op key val ++ rest =
      (op :: toLe 4 key.length ++ key ++ toLe 4 val.length) ++ val ++ rest := by simp [body]
  have hlen : (op :: toLe 4 key.length ++ key ++ toLe 4 val.length).length =
      5 + key.length + 4 := by
    simp only [List.length_append, List.length_cons, length_toLe]
  rw [this, ← hlen]
  exact slice_append _ val rest

theorem fromLe_length (h : key.length ≤ MAX_FIELD_LEN) :
    fromLe (toLe 4 key.length) = key.length := by
  have hmax : MAX_FIELD_LEN = 67108864 := rfl
  exact fromLe_toLe (by omega)

/-- Bytes with the lengths of a record in the places of its lengths are laid out like it. -/
theorem exists_body {k v : ℕ} (hlen : 13 + k + v ≤ b.length) (hk : fromLe (slice b 1 4) = k)
    (hv : fromLe (slice b (5 + k) 4) = v) :
    ∃ op key val c rest, key.length = k ∧ val.length = v ∧ c.length = 4 ∧
      b = body op key val ++ c ++ rest := by
  have hkey : (slice b 5 k).length = k := length_slice (by omega)
  have hval : (slice b (5 + k + 4) v).length = v := length_slice (by omega)
  refine ⟨b.head (by rintro rfl; simp at hlen), slice b 5 k, slice b (5 + k + 4) v,
    slice b (5 + k + 4 + v) 4, b.drop (5 + k + 4 + v + 4), hkey, hval,
    length_slice (by omega), ?_⟩
  have h4 : slice b 1 4 = toLe 4 k := eq_toLe_of_fromLe (length_slice (by omega)) hk
  have h4' : slice b (5 + k) 4 = toLe 4 v := eq_toLe_of_fromLe (length_slice (by omega)) hv
  cases b with
  | nil => simp at hlen
  | cons op t =>
    calc op :: t = op :: (op :: t).drop 1 := rfl
      _ = _ := by
        rw [drop_eq_slice _ 1 4, drop_eq_slice _ 5 k, drop_eq_slice _ (5 + k) 4,
          drop_eq_slice _ (5 + k + 4) v, drop_eq_slice _ (5 + k + 4 + v) 4, h4, h4', body, hkey,
          hval]
        simp

/-- What `decode` does with an operation byte, a key, a value and four bytes of checksum. -/
theorem decode_frame (hk : key.length ≤ MAX_FIELD_LEN) (hv : val.length ≤ MAX_FIELD_LEN)
    (hc : c.length = 4) :
    decode (body op key val ++ c ++ rest) = (do
      let o ← decodeOp op
      rejectIf (o = .delete ∧ val.length ≠ 0)
        (.corruptRecord "DELETE record must have zero-length value")
      rejectIf (fromLe c ≠ (Crc32.checksum (body op key val)).toNat)
        (.checksumMismatch (BitVec.ofNat 32 (fromLe c)) (Crc32.checksum (body op key val)))
      return (⟨o, key, val⟩, 13 + key.length + val.length)) := by
  have hmax : MAX_FIELD_LEN = 67108864 := rfl
  have hsize : u64Size = 2 ^ 64 := rfl
  have hfk := fromLe_length hk
  have hfv := fromLe_length hv
  have hcrc : slice (body op key val ++ c ++ rest) (5 + key.length + 4 + val.length) 4 = c := by
    have := slice_append (body op key val) c rest
    rw [length_body, hc] at this
    rwa [show 5 + key.length + 4 + val.length = 9 + key.length + val.length by omega]
  have hlen : (body op key val ++ c ++ rest).length = 13 + key.length + val.length + rest.length := by
    rw [List.length_append, List.length_append, length_body, hc]
    omega
  have htake : (body op key val ++ c ++ rest).take (5 + key.length + 4 + val.length) =
      body op key val := by
    rw [List.append_assoc]
    exact List.take_left' (by rw [length_body]; omega)
  have hhead : (body op key val ++ c ++ rest).head? = some op := rfl
  have h5 : ¬ (body op key val ++ c ++ rest).length < KEY_START_OFFSET := by
    rw [KEY_START_OFFSET, KEY_LEN_OFFSET, U32_SIZE]
    omega
  unfold decode
  rw [rejectIf_of_not h5]
  simp only [KEY_START_OFFSET, KEY_LEN_OFFSET, U32_SIZE, CRC_SIZE, hhead, okOr_some, ok_bind]
  congr 1
  funext o
  simp only [List.append_assoc] at hcrc htake hlen ⊢
  simp (disch := omega) only [Nat.reduceAdd, slice_keyLen, slice_key, slice_valLen, slice_val, hfk,
    hfv, rejectIf_of_not, checkedAdd_of_lt, okOr_some, ok_bind, hcrc, htake,
    show 5 + key.length + 4 + val.length + 4 = 13 + key.length + val.length by omega]

@[simp] theorem decodeOp_opByte (o : Op) : decodeOp (opByte o) = .ok o := by
  cases o <;> rfl

/-- **Round trip.** A valid record is read back, whatever follows it. -/
theorem decode_image (h : r.Valid) : decode (r.image ++ rest) = .ok (r, r.image.length) := by
  have hlt := (Crc32.checksum (body (opByte r.op) r.key r.value)).isLt
  rw [length_image, image, h.value_eq] at *
  rw [decode_frame h.key_le h.val_le (length_toLe _ _), decodeOp_opByte, ok_bind,
    rejectIf_of_not (fun ⟨ho, hv⟩ => hv (by rw [h.delete ho]; rfl)), ok_bind,
    rejectIf_of_not (not_not.mpr (fromLe_toLe hlt)), ok_bind]
  rfl

theorem decode_image_self (h : r.Valid) : decode r.image = .ok (r, r.image.length) :=
  (congrArg decode (List.append_nil r.image).symm).trans (decode_image h)

theorem decodeOp_eq_ok {o : Op} (h : decodeOp op = .ok o) : op = opByte o := by
  unfold decodeOp at h
  split_ifs at h with h0 h1
  · cases h
    exact h0
  · cases h
    exact h1

/-- What is read is a valid record with its own encoding in front. -/
theorem decode_eq_ok (h : decode b = .ok (r, n)) :
    r.Valid ∧ (∃ rest, b = r.image ++ rest) ∧ n = r.image.length := by
  obtain ⟨op, key, val, c, rest, hk, hv, hc, rfl⟩ : ∃ op key val c rest,
      key.length ≤ MAX_FIELD_LEN ∧ val.length ≤ MAX_FIELD_LEN ∧ c.length = 4 ∧
        b = body op key val ++ c ++ rest := by
    unfold decode at h
    simp only [bind_eq_ok, okOr_eq_ok, rejectIf_eq_ok, checkedAdd_eq_some] at h
    simp only [KEY_START_OFFSET, KEY_LEN_OFFSET, U32_SIZE, CRC_SIZE, Nat.reduceAdd] at h
    obtain ⟨op, -, o, -, -, -, -, hk, _, ⟨rfl, -⟩, _, ⟨rfl, -⟩, -, -, -, hv, _, ⟨rfl, -⟩, _,
      ⟨rfl, -⟩, -, h13, -⟩ := h
    have hlen : 13 + fromLe (slice b 1 4) + fromLe (slice b (5 + fromLe (slice b 1 4)) 4) ≤
        b.length := by omega
    obtain ⟨op, key, val, c, rest, hk', hv', hc, hb⟩ := exists_body hlen rfl rfl
    exact ⟨op, key, val, c, rest, by omega, by omega, hc, hb⟩
  rw [decode_frame hk hv hc] at h
  simp only [bind_eq_ok, rejectIf_eq_ok, not_not] at h
  obtain ⟨o, ho, -, hdel, -, hcrc, hr⟩ := h
  cases hr
  have hvalid : Valid ⟨o, key, val⟩ := by
    refine ⟨hk, hv, fun he => ?_⟩
    by_contra h0
    exact hdel ⟨he, fun hl => h0 (List.eq_nil_of_length_eq_zero hl)⟩
  refine ⟨hvalid, ⟨rest, ?_⟩, ?_⟩
  · rw [image, hvalid.value_eq, ← decodeOp_eq_ok ho, ← eq_toLe_of_fromLe hc hcrc]
  · rw [length_image, hvalid.value_eq]

theorem Valid.image_eq (h : r.Valid) : r.image = body (opByte r.op) r.key r.val ++
    toLe 4 (Crc32.checksum (body (opByte r.op) r.key r.val)).toNat := by rw [image, h.value_eq]

theorem Valid.length_image (h : r.Valid) : r.image.length = 13 + r.key.length + r.val.length := by
  rw [Record.length_image, h.value_eq]

/-! ### What is read back -/

/-- The record that is read back: the value of a deletion is not stored. -/
def stored (r : Record) : Record := ⟨r.op, r.key, r.value⟩

theorem value_stored (r : Record) : r.stored.value = r.value := by
  obtain ⟨_ | _, k, v⟩ := r <;> rfl

theorem image_stored (r : Record) : r.stored.image = r.image := by
  rw [image, image, value_stored]
  rfl

theorem valid_stored {r : Record} {b : Bytes} (h : r.encode = .ok b) : r.stored.Valid := by
  obtain ⟨hk, hv, -⟩ := encode_eq_ok h
  refine ⟨hk, hv, fun ho => ?_⟩
  obtain ⟨_ | _, k, v⟩ := r
  · cases ho
  · rfl

/-- The error says that the bytes end before the record does. -/
def IsTruncated (e : StoneError) : Prop := ∃ n a, e = .truncatedRecord n a

/-- A proper prefix of an operation byte, a key, a value and any checksum is reported as truncated. -/
theorem decode_frame_take {o : Op} (hk : key.length ≤ MAX_FIELD_LEN)
    (hv : val.length ≤ MAX_FIELD_LEN) (hc : c.length = 4) (hn : n < 13 + key.length + val.length) :
    ∃ e, decode ((body (opByte o) key val ++ c).take n) = .error e ∧ IsTruncated e := by
  have hmax : MAX_FIELD_LEN = 67108864 := rfl
  have hsize : u64Size = 2 ^ 64 := rfl
  have hfk := fromLe_length hk
  have hfv := fromLe_length hv
  have hkl : slice (body (opByte o) key val ++ c) 1 4 = toLe 4 key.length := slice_keyLen
  have hvl : slice (body (opByte o) key val ++ c) (5 + key.length) 4 = toLe 4 val.length :=
    slice_valLen
  have hlen : ((body (opByte o) key val ++ c).take n).length = n := by
    rw [List.length_take, List.length_append, length_body]
    omega
  rcases Nat.eq_zero_or_pos n with rfl | h0
  · exact ⟨_, rfl, _, _, rfl⟩
  have hhead : ((body (opByte o) key val ++ c).take n).head? = some (opByte o) := by
    rw [List.head?_take, if_neg (by omega)]
    rfl
  generalize body (opByte o) key val ++ c = f at *
  unfold decode
  rw [hhead, okOr_some, ok_bind, decodeOp_opByte, ok_bind]
  by_cases h5 : n < 5
  · rw [rejectIf_of (by rw [hlen]; exact h5)]
    exact ⟨_, rfl, _, _, rfl⟩
  rw [rejectIf_of_not (by rw [hlen]; exact h5), ok_bind]
  dsimp only [KEY_LEN_OFFSET, KEY_START_OFFSET, U32_SIZE]
  simp (disch := omega) only [Nat.reduceAdd, slice_take, hkl, hfk, rejectIf_of_not,
    checkedAdd_of_lt, okOr_some, ok_bind]
  by_cases h9 : n < 5 + key.length + 4
  · rw [rejectIf_of (by rw [hlen]; exact h9)]
    exact ⟨_, rfl, _, _, rfl⟩
  simp (disch := omega) only [slice_take, hvl, hfv, rejectIf_of_not, CRC_SIZE, checkedAdd_of_lt,
    okOr_some, ok_bind]
  rw [rejectIf_of (by omega)]
  exact ⟨_, rfl, _, _, rfl⟩

/-- **Torn records.** A proper prefix of a record is reported as truncated. -/
theorem decode_take (h : r.Valid) (hn : n < r.image.length) :
    ∃ e, decode (r.image.take n) = .error e ∧ IsTruncated e := by
  rw [h.length_image] at hn
  rw [h.image_eq]
  exact decode_frame_take h.key_le h.val_le (length_toLe _ _) hn

/-- `e'` has the length of `e` and differs from it, but only within four consecutive bytes. -/
structure Burst (e e' : Bytes) : Prop where
  length_eq : e'.length = e.length
  ne : e' ≠ e
  window : ∃ i, e'.take i = e.take i ∧ e'.drop (i + 4) = e.drop (i + 4)

/-- The error reports a damaged record. -/
inductive IsCorrupt : StoneError → Prop
  | record (reason : String) : IsCorrupt (.corruptRecord reason)
  | checksum (expected actual : BitVec 32) : IsCorrupt (.checksumMismatch expected actual)

/-- **Damaged records.** A burst that leaves the two lengths alone is reported. -/
theorem decode_burst (h : r.Valid) {e : Bytes} (hb : Burst r.image e)
    (hk : slice e 1 4 = slice r.image 1 4)
    (hv : slice e (5 + r.key.length) 4 = slice r.image (5 + r.key.length) 4) :
    ∃ err, IsCorrupt err ∧ ∀ rest, decode (e ++ rest) = .error err := by
  rw [h.image_eq, slice_keyLen] at hk
  rw [h.image_eq, slice_valLen] at hv
  have hlen : e.length = 13 + r.key.length + r.val.length := by
    rw [hb.length_eq, h.length_image]
  obtain ⟨op, key, val, c, t, hkl, hvl, hc, rfl⟩ := exists_body hlen.ge
    (hk ▸ fromLe_length h.key_le) (hv ▸ fromLe_length h.val_le)
  have ht : t = [] := by
    rw [List.length_append, List.length_append, length_body] at hlen
    exact List.eq_nil_of_length_eq_zero (by omega)
  subst ht
  obtain ⟨hlen', hne, i, hi, hi'⟩ := hb
  rw [List.append_nil, h.image_eq] at *
  have hcrc : fromLe c ≠ (Crc32.checksum (body op key val)).toNat := by
    have hw := slice_split (body (opByte r.op) r.key r.val ++
      toLe 4 (Crc32.checksum (body (opByte r.op) r.key r.val)).toNat) i 4
    have hw' := slice_split (body op key val ++ c) i 4
    rw [hi, hi'] at hw'
    refine Crc32.checksum_window (length_toLe _ _) hc hw hw' ?_ (List.length_take_le _ _) ?_
      (fromLe_toLe (BitVec.isLt _))
    · simp only [slice, List.length_take, List.length_drop, hlen']
    · intro heq
      rw [← heq] at hw'
      exact hne (hw'.trans hw.symm)
  have hdec : ∀ rest, decode (body op key val ++ c ++ rest) = (do
      let o ← decodeOp op
      rejectIf (o = .delete ∧ val.length ≠ 0)
        (.corruptRecord "DELETE record must have zero-length value")
      throw (.checksumMismatch (BitVec.ofNat 32 (fromLe c))
        (Crc32.checksum (body op key val)))) := fun rest => by
    rw [decode_frame (hkl.trans_le h.key_le) (hvl.trans_le h.val_le) hc]
    simp only [rejectIf_of hcrc, error_bind]
    rfl
  simp only [hdec]
  unfold decodeOp
  split_ifs
  · exact ⟨_, .checksum _ _, fun _ => rfl⟩
  · by_cases hd : val.length = 0
    · refine ⟨.checksumMismatch (BitVec.ofNat 32 (fromLe c)) (Crc32.checksum (body op key val)),
        .checksum _ _, fun _ => ?_⟩
      rw [ok_bind, rejectIf_of_not fun hv => hv.2 hd]
      rfl
    · refine ⟨.corruptRecord "DELETE record must have zero-length value", .record _, fun _ => ?_⟩
      rw [ok_bind, rejectIf_of ⟨rfl, hd⟩]
      rfl
  · exact ⟨_, .record _, fun _ => rfl⟩

end Record

end StoneKV
