import StoneKV.Lib.LeBytes

/-!
# Shift registers

A reflected shift register of width `w` with feedback `p` moves down one place at a time and adds
`p` when a one falls out. Fed bytes, it is the checksum register of a cyclic redundancy check.

* `shift_xor`, `shift_injective`: a place is linear, and injective when the top bit of `p` is set.
* `feed_eq`: `n` bytes that fit the register are fed at once, as a word added to the state.
* **`feed_window`**: two streams that differ only within `w` consecutive bits leave different states.
* **`feed_toLe`**: fed its own state, the register ends in a fixed state, and only then.
-/

namespace ShiftRegister

open FaultProg

variable {w : ℕ}

/-- One place of the register with feedback `p`. -/
def shift (p c : BitVec w) : BitVec w := if c.getLsbD 0 then (c >>> 1) ^^^ p else c >>> 1

theorem shift_xor (p a b : BitVec w) : shift p (a ^^^ b) = shift p a ^^^ shift p b := by
  unfold shift
  simp only [BitVec.getLsbD_xor, BitVec.ushiftRight_xor_distrib]
  have hp : ∀ x y : BitVec w, x ^^^ p ^^^ (y ^^^ p) = x ^^^ y := fun x y => by
    rw [BitVec.xor_assoc, BitVec.xor_comm y p, ← BitVec.xor_assoc p p y, BitVec.xor_self,
      BitVec.zero_xor]
  by_cases ha : a.getLsbD 0 = true <;> by_cases hb : b.getLsbD 0 = true
  · simp only [ha, hb, hp, Bool.xor_self, if_true, Bool.false_eq_true, if_false]
  · simp only [ha, hb, Bool.xor_false, if_true, Bool.false_eq_true, if_false]
    rw [BitVec.xor_assoc, BitVec.xor_comm _ p, ← BitVec.xor_assoc]
  · simp [ha, hb, BitVec.xor_assoc]
  · simp [ha, hb]

/-- A state that shifts to zero is zero: a feedback with its top bit set cannot be cancelled. -/
theorem eq_zero_of_shift {p c : BitVec w} (hp : p.msb = true) (h : shift p c = 0) : c = 0 := by
  have hw : 0 < w := by
    rcases Nat.eq_zero_or_pos w with rfl | hw
    · rw [BitVec.msb_eq_getLsbD_last, BitVec.getLsbD_of_ge p _ (Nat.zero_le _)] at hp
      exact absurd hp (by decide)
    · exact hw
  have htop : ∀ x : BitVec w, (x >>> 1).getLsbD (w - 1) = false := fun x => by
    rw [BitVec.getLsbD_ushiftRight]
    exact BitVec.getLsbD_of_ge x _ (by omega)
  unfold shift at h
  split_ifs at h with h0
  · have := congrArg (fun x => x.getLsbD (w - 1)) h
    simp only [BitVec.getLsbD_xor, htop, Bool.false_xor] at this
    rw [BitVec.msb_eq_getLsbD_last] at hp
    simp [hp] at this
  · apply BitVec.eq_of_getLsbD_eq
    intro i hi
    rcases i with _ | i
    · simpa using h0
    · have := congrArg (fun x => x.getLsbD i) h
      simp only [BitVec.getLsbD_ushiftRight] at this
      rw [Nat.add_comm] at this
      simpa using this

theorem shift_injective {p : BitVec w} (hp : p.msb = true) : Function.Injective (shift p) := by
  intro a b h
  have : shift p (a ^^^ b) = 0 := by rw [shift_xor, h, BitVec.xor_self]; rfl
  exact BitVec.xor_eq_zero_iff.mp (eq_zero_of_shift hp this)

theorem iterate_shift_xor (p : BitVec w) (n : ℕ) (a b : BitVec w) :
    (shift p)^[n] (a ^^^ b) = (shift p)^[n] a ^^^ (shift p)^[n] b := by
  induction n generalizing a b with
  | zero => rfl
  | succ n ih => rw [Function.iterate_succ_apply, shift_xor, ih]; rfl

/-- Clear low places fall out without feedback. -/
theorem iterate_shift_of_low (p : BitVec w) : ∀ (k : ℕ) (c : BitVec w),
    (∀ i < k, c.getLsbD i = false) → (shift p)^[k] c = c >>> k
  | 0, c, _ => by simp
  | k + 1, c, h => by
    have h0 : shift p c = c >>> 1 := by simp [shift, h 0 (by omega)]
    rw [Function.iterate_succ_apply, h0, iterate_shift_of_low p k]
    · rw [Nat.add_comm, BitVec.shiftRight_add]
    · intro i hi
      rw [BitVec.getLsbD_ushiftRight, Nat.add_comm]
      exact h (i + 1) (by omega)

/-! ## Feeding bytes -/

/-- A byte at the low end of the register. -/
def low (w : ℕ) (b : UInt8) : BitVec w := b.toBitVec.setWidth w

/-- Feed one byte. -/
def feedByte (p s : BitVec w) (b : UInt8) : BitVec w := (shift p)^[8] (s ^^^ low w b)

/-- Feed a stream of bytes. -/
def feed (p s : BitVec w) (l : Bytes) : BitVec w := l.foldl (feedByte p) s

/-- The bytes of `l` as one word, the first at the low end. -/
def word (w : ℕ) : Bytes → BitVec w
  | [] => 0
  | b :: l => low w b ^^^ (word w l <<< 8)

theorem feed_append (p s : BitVec w) (l r : Bytes) : feed p s (l ++ r) = feed p (feed p s l) r :=
  List.foldl_append

theorem feed_injective {p : BitVec w} (hp : p.msb = true) (l : Bytes) :
    Function.Injective fun s => feed p s l := by
  induction l with
  | nil => exact fun _ _ h => h
  | cons b l ih =>
    intro s t h
    have h' := (shift_injective hp).iterate 8 (ih h)
    exact (BitVec.xor_left_inj _).mp h'

theorem getLsbD_low (b : UInt8) (i : ℕ) :
    (low w b).getLsbD i = (decide (i < w) && b.toBitVec.getLsbD i) := BitVec.getLsbD_setWidth ..

theorem getLsbD_low_of_ge (b : UInt8) {i : ℕ} (hi : 8 ≤ i) : (low w b).getLsbD i = false := by
  rw [getLsbD_low, BitVec.getLsbD_of_ge _ _ hi, Bool.and_false]

theorem getLsbD_word_of_ge : ∀ (l : Bytes) {i : ℕ}, 8 * l.length ≤ i → (word w l).getLsbD i = false
  | [], i, _ => by simp [word]
  | b :: l, i, h => by
    rw [List.length_cons] at h
    rw [word, BitVec.getLsbD_xor, getLsbD_low_of_ge b (by omega), BitVec.getLsbD_shiftLeft,
      getLsbD_word_of_ge l (i := i - 8) (by omega), Bool.and_false, Bool.xor_false]

/-- A word with room for one more byte comes back from the high end. -/
theorem iterate_shift_word (p : BitVec w) {l : Bytes} (h : 8 * l.length + 8 ≤ w) :
    (shift p)^[8] (word w l <<< 8) = word w l := by
  rw [iterate_shift_of_low p 8 _ fun i hi => by simp [BitVec.getLsbD_shiftLeft, hi]]
  apply BitVec.eq_of_getLsbD_eq
  intro i hi
  rw [BitVec.getLsbD_ushiftRight, BitVec.getLsbD_shiftLeft]
  by_cases h8 : 8 + i < w
  · simp [h8]
  · simp [h8, getLsbD_word_of_ge l (show 8 * l.length ≤ i by omega)]

/-- **A word at a time.** -/
theorem feed_eq (p : BitVec w) : ∀ (l : Bytes) (s : BitVec w), 8 * l.length ≤ w →
    feed p s l = (shift p)^[8 * l.length] (s ^^^ word w l)
  | [], s, _ => by simp [feed, word]
  | b :: l, s, h => by
    rw [List.length_cons] at h
    have ih := feed_eq p l (feedByte p s b) (by omega)
    rw [feed, List.foldl_cons, ← feed, ih, List.length_cons, Nat.mul_succ,
      Function.iterate_add_apply]
    congr 1
    rw [word, ← BitVec.xor_assoc, iterate_shift_xor, iterate_shift_word p (by omega)]
    rfl

theorem word_injective : ∀ {l r : Bytes}, l.length = r.length → 8 * l.length ≤ w →
    word w l = word w r → l = r
  | [], [], _, _, _ => rfl
  | b :: l, c :: r, hlen, hw, h => by
    simp only [List.length_cons] at hlen hw
    have hbit : ∀ i, (word w (b :: l)).getLsbD i = (word w (c :: r)).getLsbD i := fun i => by rw [h]
    simp only [word, BitVec.getLsbD_xor, BitVec.getLsbD_shiftLeft] at hbit
    have hb : b = c := by
      apply UInt8.toBitVec_inj.mp
      apply BitVec.eq_of_getLsbD_eq
      intro i hi
      have := hbit i
      simp only [getLsbD_low, hi, show i < w by omega, decide_true, Bool.not_true, Bool.and_false,
        Bool.true_and, Bool.false_and, Bool.xor_false] at this
      exact this
    have hl : word w l = word w r := by
      apply BitVec.eq_of_getLsbD_eq
      intro i hi
      by_cases h8 : i + 8 < w
      · have := hbit (i + 8)
        rw [getLsbD_low_of_ge b (by omega), getLsbD_low_of_ge c (by omega)] at this
        simpa [h8] using this
      · rw [getLsbD_word_of_ge l (by omega), getLsbD_word_of_ge r (by omega)]
    rw [hb, word_injective (by omega) (by omega) hl]

/-- **Bursts are seen.** Two streams that differ only in a window that fits the register leave it in
different states. -/
theorem feed_window {p : BitVec w} (hp : p.msb = true) (s : BitVec w) (a c : Bytes) {x y : Bytes}
    (hlen : x.length = y.length) (hw : 8 * x.length ≤ w) (hxy : x ≠ y) :
    feed p s (a ++ x ++ c) ≠ feed p s (a ++ y ++ c) := by
  intro h
  rw [feed_append, feed_append, feed_append p s (a ++ y), feed_append p s a y] at h
  have h := feed_injective hp c h
  rw [feed_eq p x _ hw, feed_eq p y _ (by omega), hlen] at h
  have h := (shift_injective hp).iterate _ h
  exact hxy (word_injective hlen hw ((BitVec.xor_right_inj _).mp h))

theorem xor_eq_add {a b : BitVec w} (h : a &&& b = 0) : a ^^^ b = a + b := by
  rw [BitVec.add_eq_or_of_and_eq_zero a b h]
  apply BitVec.eq_of_getLsbD_eq
  intro i hi
  have hbit := congrArg (fun x => x.getLsbD i) h
  simp only [BitVec.getLsbD_and, BitVec.getLsbD_zero, BitVec.ofNat_eq_ofNat] at hbit
  rw [BitVec.getLsbD_xor, BitVec.getLsbD_or]
  cases ha : a.getLsbD i <;> cases hb : b.getLsbD i <;> simp_all

theorem word_toLe : ∀ (n k : ℕ), word w (toLe n k) = BitVec.ofNat w (k % 256 ^ n)
  | 0, k => by simp [toLe, word, Nat.mod_one]
  | n + 1, k => by
    have hdis : low w (UInt8.ofNat k) &&& (word w (toLe n (k / 256)) <<< 8) = 0 := by
      apply BitVec.eq_of_getLsbD_eq
      intro i hi
      rw [BitVec.getLsbD_and]
      by_cases h8 : i < 8
      · simp [BitVec.getLsbD_shiftLeft, h8]
      · rw [getLsbD_low_of_ge _ (by omega)]
        simp
    rw [toLe, word, xor_eq_add hdis, word_toLe n]
    apply BitVec.eq_of_toNat_eq
    have hmod : k % 256 ^ (n + 1) = k % 256 + 256 * (k / 256 % 256 ^ n) := by
      rw [pow_succ, Nat.mul_comm (256 ^ n), Nat.mod_mul]
    simp only [low, BitVec.toNat_add, BitVec.toNat_setWidth, UInt8.toNat_toBitVec,
      UInt8.toNat_ofNat', BitVec.toNat_shiftLeft, BitVec.toNat_ofNat, hmod, Nat.shiftLeft_eq]
    rw [Nat.mod_mul_mod, ← Nat.add_mod, Nat.mul_comm _ (2 ^ 8)]

/-- **The state fed after the stream.** Fed the bytes of a word `c`, the register ends where it
would end from `s + c` by shifting alone. -/
theorem feed_toLe (p s : BitVec w) {n : ℕ} (hw : w = 8 * n) (c : BitVec w) :
    feed p s (toLe n c.toNat) = (shift p)^[w] (s ^^^ c) := by
  have hc : c.toNat % 256 ^ n = c.toNat := by
    apply Nat.mod_eq_of_lt
    have h256 : 2 ^ w = 256 ^ n := by rw [hw, pow_mul]; rfl
    exact h256 ▸ c.isLt
  rw [feed_eq p _ s (by rw [length_toLe, hw]), length_toLe, ← hw, word_toLe, hc,
    BitVec.ofNat_toNat, BitVec.setWidth_eq]

theorem getLsbD_low_max (i : ℕ) : (low w 255).getLsbD i = (decide (i < w) && decide (i < 8)) := by
  have h255 : (255 : UInt8).toBitVec = BitVec.allOnes 8 := by decide
  rw [getLsbD_low, h255, BitVec.getLsbD_allOnes]

theorem iterate_shift_high (p x : BitVec w) : (shift p)^[8] ((x >>> 8) <<< 8) = x >>> 8 := by
  rw [iterate_shift_of_low p 8 _ fun i hi => by simp [BitVec.getLsbD_shiftLeft, hi]]
  apply BitVec.eq_of_getLsbD_eq
  intro i hi
  rw [BitVec.getLsbD_ushiftRight, BitVec.getLsbD_shiftLeft, BitVec.getLsbD_ushiftRight]
  by_cases h8 : 8 + i < w
  · rw [show 8 + (8 + i - 8) = 8 + i by omega]
    simp [h8]
  · simp [h8, BitVec.getLsbD_of_ge x (8 + i) (by omega)]

/-- Eight places: the high part moves down, the low byte decides what is added. -/
theorem iterate_shift_eight (p x : BitVec w) :
    (shift p)^[8] x = (x >>> 8) ^^^ (shift p)^[8] (x &&& low w 255) := by
  have hsplit : ((x >>> 8) <<< 8) ^^^ (x &&& low w 255) = x := by
    apply BitVec.eq_of_getLsbD_eq
    intro i hi
    rw [BitVec.getLsbD_xor, BitVec.getLsbD_and, BitVec.getLsbD_shiftLeft,
      BitVec.getLsbD_ushiftRight, getLsbD_low_max]
    by_cases h8 : i < 8
    · simp [h8, hi]
    · rw [show 8 + (i - 8) = i by omega]
      simp [h8, hi]
  calc (shift p)^[8] x = (shift p)^[8] (((x >>> 8) <<< 8) ^^^ (x &&& low w 255)) := by rw [hsplit]
    _ = (x >>> 8) ^^^ (shift p)^[8] (x &&& low w 255) := by
        rw [iterate_shift_xor, iterate_shift_high]

/-- **A table of 256 words.** A byte is fed by moving the state eight places down and adding what
the low byte of the sum becomes. -/
theorem feedByte_eq_table (p s : BitVec w) (b : UInt8) :
    feedByte p s b = (s >>> 8) ^^^ (shift p)^[8] ((s ^^^ low w b) &&& low w 255) := by
  have hlow : (s ^^^ low w b) >>> 8 = s >>> 8 := by
    apply BitVec.eq_of_getLsbD_eq
    intro i hi
    rw [BitVec.getLsbD_ushiftRight, BitVec.getLsbD_xor, getLsbD_low_of_ge b (by omega),
      Bool.xor_false, BitVec.getLsbD_ushiftRight]
  rw [feedByte, iterate_shift_eight, hlow]

end ShiftRegister
