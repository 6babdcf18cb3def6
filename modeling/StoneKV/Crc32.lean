import StoneKV.Error
import StoneKV.Lib.ShiftRegister

/-!
# The checksum

`checksum` reads the register eight places at a time from `TABLE`. It is the shift register with
feedback `POLY`, started and ended with all ones added.

* `checksum_eq_feed`: the table computes the register.
* **`checksum_eq_iff`**: a stored checksum is right exactly when the register, fed the data and the
  stored bytes, ends in `residue`.
* **`checksum_window`**: a change within four consecutive bytes of data and checksum is seen.
* `crc32`: the checksum bit by bit; **`checksum_eq_crc32`**: it is the same.
-/

namespace StoneKV

open FaultProg ShiftRegister

namespace Crc32

/-- The reflected polynomial. -/
def POLY : BitVec 32 := 0xEDB88320

/-- One turn of the inner loop of `build_table`. -/
def tableStep (crc : BitVec 32) : BitVec 32 :=
  if crc &&& 1 ≠ 0 then (crc >>> 1) ^^^ POLY else crc >>> 1

/-- The entry of the table at `i`. -/
def buildTable (i : Fin 256) : BitVec 32 := tableStep^[8] (BitVec.ofNat 32 i)

/-- The place in the table for one more byte. -/
def index (crc : BitVec 32) (byte : UInt8) : Fin 256 :=
  Fin.ofNat 256 ((crc ^^^ byte.toBitVec.setWidth 32) &&& 0xFF).toNat

/-- One turn of the loop of `checksum`. -/
def update (crc : BitVec 32) (byte : UInt8) : BitVec 32 :=
  (crc >>> 8) ^^^ buildTable (index crc byte)

/-- The checksum of `data`. -/
def checksum (data : Bytes) : BitVec 32 := data.foldl update 0xFFFFFFFF ^^^ 0xFFFFFFFF

theorem tableStep_eq_shift : tableStep = shift POLY := by
  funext c
  unfold tableStep shift
  have h1 : ∀ i : ℕ, (1 : BitVec 32).getLsbD i = decide (i = 0) := fun i => by
    change (1#32).getLsbD i = decide (i = 0)
    rw [BitVec.getLsbD_one]
    simp
  have h : c &&& 1 ≠ 0 ↔ c.getLsbD 0 = true := by
    constructor
    · intro hne
      by_contra h0
      refine hne (BitVec.eq_of_getLsbD_eq fun i hi => ?_)
      rw [BitVec.getLsbD_and, h1]
      by_cases hi0 : i = 0
      · subst hi0
        rw [Bool.eq_false_iff.mpr h0]
        rfl
      · simp [hi0]
    · intro h0 hz
      have := congrArg (fun x => x.getLsbD 0) hz
      simp only [BitVec.getLsbD_and, h1, h0] at this
      exact absurd this (by decide)
  simp only [h]

theorem update_eq_feedByte (crc : BitVec 32) (byte : UInt8) :
    update crc byte = feedByte POLY crc byte := by
  have hlow : low 32 255 = 0xFF := by decide
  rw [feedByte_eq_table, update, buildTable, tableStep_eq_shift, hlow]
  congr 2
  have hlt : ((crc ^^^ byte.toBitVec.setWidth 32) &&& 0xFF).toNat < 256 := by
    rw [BitVec.toNat_and]
    exact Nat.lt_of_le_of_lt Nat.and_le_right (by decide)
  rw [index, Fin.val_ofNat, Nat.mod_eq_of_lt hlt, BitVec.ofNat_toNat, BitVec.setWidth_eq]
  rfl

theorem checksum_eq_feed (data : Bytes) :
    checksum data = feed POLY 0xFFFFFFFF data ^^^ 0xFFFFFFFF := by
  have h : update = feedByte POLY := by
    funext c b
    exact update_eq_feedByte c b
  rw [checksum, h, feed]

/-- The state of the register after data and its checksum. -/
def residue : BitVec 32 := (shift POLY)^[32] 0xFFFFFFFF

theorem msb_POLY : POLY.msb = true := by decide

theorem checksum_eq_iff (data stored : Bytes) (h : stored.length = 4) :
    fromLe stored = (checksum data).toNat ↔ feed POLY 0xFFFFFFFF (data ++ stored) = residue := by
  obtain ⟨c, hc⟩ : ∃ c : BitVec 32, stored = toLe 4 c.toNat := by
    have hlt : fromLe stored < 2 ^ 32 := by
      have := fromLe_lt stored
      rw [h] at this
      exact this
    exact ⟨BitVec.ofNat 32 (fromLe stored), by
      rw [BitVec.toNat_ofNat, Nat.mod_eq_of_lt hlt, ← h, toLe_fromLe]⟩
  rw [feed_append, hc, feed_toLe (n := 4) POLY _ rfl, fromLe_toLe c.isLt, checksum_eq_feed, residue]
  rw [(shift_injective msb_POLY).iterate 32 |>.eq_iff, BitVec.toNat_inj]
  generalize feed POLY 0xFFFFFFFF data = s
  generalize (0xFFFFFFFF : BitVec 32) = t
  constructor
  · rintro rfl
    rw [← BitVec.xor_assoc, BitVec.xor_self, BitVec.zero_xor]
  · rintro rfl
    rw [← BitVec.xor_assoc, BitVec.xor_self, BitVec.zero_xor]

/-- **Four bytes.** Data whose checksum is right does not have the right checksum after a change
within four consecutive bytes. -/
theorem checksum_window {data data' stored stored' a x y c : Bytes}
    (hs : stored.length = 4) (hs' : stored'.length = 4)
    (h : data ++ stored = a ++ x ++ c) (h' : data' ++ stored' = a ++ y ++ c)
    (hlen : x.length = y.length) (hx : x.length ≤ 4) (hxy : x ≠ y)
    (hok : fromLe stored = (checksum data).toNat) : fromLe stored' ≠ (checksum data').toNat := by
  intro hok'
  rw [checksum_eq_iff _ _ hs, h] at hok
  rw [checksum_eq_iff _ _ hs', h'] at hok'
  exact feed_window msb_POLY _ a c hlen (by omega) hxy (hok.trans hok'.symm)

/-! ## Without a table -/

/-- One turn of the inner loop of `crc32`. -/
def crc32Bit (crc : BitVec 32) : BitVec 32 :=
  if crc &&& 1 ≠ 0 then (crc >>> 1) ^^^ POLY else crc >>> 1

/-- One turn of the loop of `crc32`. -/
def crc32Byte (crc : BitVec 32) (byte : UInt8) : BitVec 32 :=
  crc32Bit^[8] (crc ^^^ byte.toBitVec.setWidth 32)

/-- The checksum as the tests of crash recovery compute it, bit by bit. -/
def crc32 (data : Bytes) : BitVec 32 := data.foldl crc32Byte 0xFFFFFFFF ^^^ 0xFFFFFFFF

theorem crc32Byte_eq_feedByte (crc : BitVec 32) (byte : UInt8) :
    crc32Byte crc byte = feedByte POLY crc byte := by
  have hbit : crc32Bit = shift POLY := tableStep_eq_shift
  rw [crc32Byte, hbit, feedByte, low]

/-- **One look into the table is eight places of the register.** -/
theorem update_eq_crc32Byte (crc : BitVec 32) (byte : UInt8) :
    update crc byte = crc32Byte crc byte := by
  rw [update_eq_feedByte, crc32Byte_eq_feedByte]

/-- **The table computes the bitwise checksum.** -/
theorem checksum_eq_crc32 (data : Bytes) : checksum data = crc32 data := by
  rw [checksum, crc32]
  generalize (0xFFFFFFFF : BitVec 32) = crc
  suffices h : ∀ crc : BitVec 32, data.foldl update crc = data.foldl crc32Byte crc by rw [h]
  induction data with
  | nil => exact fun _ => rfl
  | cons byte data ih =>
    intro crc
    rw [List.foldl_cons, List.foldl_cons, update_eq_crc32Byte]
    exact ih _

example : checksum [49, 50, 51, 52, 53, 54, 55, 56, 57] = 0xCBF43926 := by decide +kernel

end Crc32

end StoneKV
