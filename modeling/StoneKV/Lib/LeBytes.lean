import StoneKV.Lib.Disk

/-!
# Little-endian numbers

`toLe n k` are the `n` low bytes of `k`, least significant first, and `fromLe` reads them back.
-/

namespace FaultProg

/-- The `n` little-endian bytes of `k`. -/
def toLe : ℕ → ℕ → Bytes
  | 0, _ => []
  | n + 1, k => UInt8.ofNat k :: toLe n (k / 256)

/-- The number with the little-endian bytes `b`. -/
def fromLe : Bytes → ℕ
  | [] => 0
  | x :: b => x.toNat + 256 * fromLe b

@[simp] theorem length_toLe : ∀ n k, (toLe n k).length = n
  | 0, _ => rfl
  | n + 1, k => by rw [toLe, List.length_cons, length_toLe n]

theorem fromLe_toLe : ∀ {n k : ℕ}, k < 256 ^ n → fromLe (toLe n k) = k
  | 0, k, h => by simp at h; simp [toLe, fromLe, h]
  | n + 1, k, h => by
    have hk : k / 256 < 256 ^ n := by rw [pow_succ] at h; omega
    have hb : (UInt8.ofNat k).toNat = k % 256 := by simp
    rw [toLe, fromLe, fromLe_toLe hk, hb]
    omega

theorem toLe_fromLe : ∀ b : Bytes, toLe b.length (fromLe b) = b
  | [] => rfl
  | x :: b => by
    have hx := x.toNat_lt
    have h₁ : (x.toNat + 256 * fromLe b) / 256 = fromLe b := by omega
    have h₂ : UInt8.ofNat (x.toNat + 256 * fromLe b) = x := by
      apply UInt8.toNat_inj.mp
      simp only [UInt8.toNat_ofNat']
      omega
    rw [List.length_cons, fromLe, toLe, h₁, h₂, toLe_fromLe b]

theorem fromLe_lt : ∀ b : Bytes, fromLe b < 256 ^ b.length
  | [] => by simp [fromLe]
  | x :: b => by
    have hx := x.toNat_lt
    have ih := fromLe_lt b
    rw [fromLe, List.length_cons, pow_succ]
    omega

theorem fromLe_append : ∀ b c : Bytes, fromLe (b ++ c) = fromLe b + 256 ^ b.length * fromLe c
  | [], c => by simp [fromLe]
  | x :: b, c => by
    rw [List.cons_append, fromLe, fromLe, fromLe_append b c, List.length_cons, pow_succ']
    ring

theorem fromLe_zeros (n : ℕ) : fromLe (List.replicate n 0) = 0 := by
  induction n with
  | zero => rfl
  | succ n ih => rw [List.replicate_succ, fromLe, ih]; rfl

theorem eq_toLe_of_fromLe {n k : ℕ} {b : Bytes} (hn : b.length = n) (h : fromLe b = k) :
    b = toLe n k := by
  rw [← hn, ← h, toLe_fromLe]

end FaultProg
