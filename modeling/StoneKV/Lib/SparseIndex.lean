import Mathlib.Data.List.TakeWhile
import Mathlib.Tactic

/-!
# Blocks of a sorted list

A sorted list of entries has every `n`-th of them in an index. A key is looked up from the last entry
of the index that is not after it, up to the first entry that is not before it.

* `below k es`, `upTo k es`: how many entries are before the key, and how many are not after it.
* `firstRead n k es`: where a lookup starts; `block n k es`: the entries that it reads.
* **`length_block_le`**, **`lookup_block`**: these are few, and enough.
-/

namespace SparseIndex

variable {κ ν : Type} [Ord κ]

/-- The keys are strictly increasing. -/
def Sorted (es : List (κ × ν)) : Prop := es.Pairwise fun a b => compare a.1 b.1 = .lt

/-- How many entries are before `k`. -/
def below (k : κ) (es : List (κ × ν)) : ℕ := (es.takeWhile fun e => compare e.1 k = .lt).length

/-- How many entries are not after `k`. -/
def upTo (k : κ) (es : List (κ × ν)) : ℕ := (es.takeWhile fun e => (compare e.1 k).isLE).length

/-- The number of the last entry of the index that is not after `k`. -/
def firstRead (n : ℕ) (k : κ) (es : List (κ × ν)) : ℕ := (upTo k es - 1) / n * n

/-- The entries from there to the first one that is not before `k`. -/
def block (n : ℕ) (k : κ) (es : List (κ × ν)) : List (κ × ν) :=
  (es.take (below k es + 1)).drop (firstRead n k es)

variable {k : κ} {es : List (κ × ν)} {e : κ × ν} {n : ℕ}

theorem block_sublist : (block n k es).Sublist es :=
  (List.drop_sublist _ _).trans (List.take_sublist _ _)

@[simp] theorem below_nil : below k ([] : List (κ × ν)) = 0 := rfl

@[simp] theorem upTo_nil : upTo k ([] : List (κ × ν)) = 0 := rfl

theorem below_cons : below k (e :: es) = if compare e.1 k = .lt then below k es + 1 else 0 := by
  unfold below
  rw [List.takeWhile_cons]
  by_cases h : compare e.1 k = .lt <;> simp [h]

theorem upTo_cons : upTo k (e :: es) = if (compare e.1 k).isLE then upTo k es + 1 else 0 := by
  unfold upTo
  rw [List.takeWhile_cons]
  split_ifs <;> simp

/-- The entries that are counted are before the key. -/
theorem lt_of_mem_take (h : e ∈ es.take (below k es)) : compare e.1 k = .lt := by
  rw [below, ← (List.prefix_iff_eq_take.mp (List.takeWhile_prefix _))] at h
  simpa using List.mem_takeWhile_imp h

/-- The next entry is not before the key. -/
theorem not_lt_getElem (h : below k es < es.length) : compare es[below k es].1 k ≠ .lt := by
  induction es with
  | nil => cases h
  | cons e es ih =>
    by_cases hc : compare e.1 k = .lt
    · have hbelow : below k (e :: es) = below k es + 1 := by rw [below_cons, if_pos hc]
      have := ih (by rw [hbelow, List.length_cons] at h; omega)
      simpa [hbelow] using this
    · have hbelow : below k (e :: es) = 0 := by rw [below_cons, if_neg hc]
      simpa [hbelow] using hc

section Order

variable [Std.TransOrd κ]

/-- Nothing after an entry that is not before the key is up to the key. -/
theorem upTo_eq_zero (h : ∀ x ∈ es, compare k x.1 = .lt) : upTo k es = 0 := by
  rcases es with _ | ⟨e, es⟩
  · rfl
  · have hgt : compare e.1 k = .gt := Std.OrientedCmp.gt_iff_lt.mpr (h e List.mem_cons_self)
    rw [upTo_cons, hgt]
    rfl

variable [Std.LawfulEqOrd κ]

theorem lt_of_not_lt {x : κ × ν} (h : Sorted (e :: es)) (he : compare e.1 k ≠ .lt)
    (hx : x ∈ es) : compare k x.1 = .lt := by
  have hlt := (List.pairwise_cons.mp h).1 x hx
  rcases hc : compare e.1 k with _ | _ | _
  · exact absurd hc he
  · rw [← Std.LawfulEqCmp.eq_of_compare hc]
    exact hlt
  · exact Std.TransCmp.lt_trans (Std.OrientedCmp.gt_iff_lt.mp hc) hlt

/-- The key itself is one entry at most. -/
theorem below_le_upTo (h : Sorted es) : below k es ≤ upTo k es ∧ upTo k es ≤ below k es + 1 := by
  induction es with
  | nil => simp
  | cons e es ih =>
    have hrest := ih h.tail
    by_cases hc : compare e.1 k = .lt
    · have hle : (compare e.1 k).isLE := by rw [hc]; rfl
      rw [below_cons, if_pos hc, upTo_cons, if_pos hle]
      omega
    · have hzero : upTo k es = 0 := upTo_eq_zero fun x hx => lt_of_not_lt h hc hx
      rw [below_cons, if_neg hc, upTo_cons]
      split_ifs <;> omega

theorem firstRead_le (h : Sorted es) : firstRead n k es ≤ below k es := by
  have hmul : firstRead n k es ≤ upTo k es - 1 := Nat.div_mul_le_self _ _
  have := below_le_upTo (k := k) h
  omega

/-- **A lookup reads one block and the entry after it**, at most. -/
theorem length_block_le (h : Sorted es) (hn : 0 < n) : (block n k es).length ≤ n + 1 := by
  have hmod : firstRead n k es = upTo k es - 1 - (upTo k es - 1) % n := by
    have := Nat.div_add_mod (upTo k es - 1) n
    rw [Nat.mul_comm] at this
    unfold firstRead
    omega
  have hlt := Nat.mod_lt (upTo k es - 1) hn
  have := below_le_upTo (k := k) h
  have hlen : (block n k es).length ≤ below k es + 1 - firstRead n k es := by
    rw [block, List.length_drop, List.length_take]
    omega
  omega

/-- What is before the block, the block, and what is after it. -/
theorem append_block (h : Sorted es) : es.take (firstRead n k es) ++ block n k es ++
    es.drop (below k es + 1) = es := by
  have hle := firstRead_le (n := n) (k := k) h
  have htake : es.take (firstRead n k es) = (es.take (below k es + 1)).take (firstRead n k es) := by
    rw [List.take_take, Nat.min_eq_left (by omega)]
  rw [htake, block, List.take_append_drop, List.take_append_drop]

/-- The block reaches the key, or the end. -/
theorem block_stops (h : Sorted es) : (∃ e ∈ block n k es, compare e.1 k ≠ .lt) ∨
    es.drop (below k es + 1) = [] := by
  by_cases hlen : below k es < es.length
  · have hle := firstRead_le (n := n) (k := k) h
    refine .inl ⟨es[below k es], ?_, not_lt_getElem hlen⟩
    rw [block, List.mem_drop_iff_getElem]
    refine ⟨below k es - firstRead n k es, by rw [List.length_take]; omega, ?_⟩
    rw [List.getElem_take]
    congr 1
    omega
  · exact .inr (List.drop_eq_nil_of_le (by omega))

variable [BEq κ] [LawfulBEq κ]

/-- **The block is enough.** -/
theorem lookup_block (h : Sorted es) : (block n k es).lookup k = es.lookup k := by
  have hne : ∀ {x : κ × ν}, compare x.1 k = .lt ∨ compare k x.1 = .lt → (k == x.1) = false := by
    intro x hx
    rw [beq_eq_false_iff_ne]
    rintro rfl
    have hrefl : compare x.1 x.1 = .eq := Std.ReflCmp.compare_self
    rw [hrefl, or_self] at hx
    cases hx
  have hnone : ∀ {xs : List (κ × ν)}, (∀ x ∈ xs, (k == x.1) = false) → xs.lookup k = none := by
    intro xs hxs
    rw [List.lookup_eq_none_iff]
    simpa using hxs
  have hbefore : (es.take (firstRead n k es)).lookup k = none := by
    refine hnone fun x hx => ?_
    have hmem : x ∈ es.take (below k es) := List.take_subset_take_left es (firstRead_le h) hx
    exact hne (.inl (lt_of_mem_take hmem))
  have hafter : (es.drop (below k es + 1)).lookup k = none := by
    refine hnone fun x hx => hne (.inr ?_)
    by_cases hlen : below k es < es.length
    · have hsorted : Sorted (es.drop (below k es)) := h.sublist (List.drop_sublist _ _)
      rw [List.drop_eq_getElem_cons hlen] at hsorted
      exact lt_of_not_lt hsorted (not_lt_getElem hlen) hx
    · rw [List.drop_eq_nil_of_le (by omega)] at hx
      cases hx
  conv_rhs => rw [← append_block (n := n) (k := k) h]
  rw [List.lookup_append, List.lookup_append, hbefore, hafter, Option.none_or, Option.or_none]

end Order

end SparseIndex
