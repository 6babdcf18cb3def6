import StoneKV.Record

/-!
# The memtable

* `Memtable`: a sorted map from keys to values and tombstones, with an estimate of its size.
* `Ascending`: lists of entries in the strict order of their keys; `Memtable.iter` is one.
* `applyRecord`: a logged operation on a memtable.
-/

namespace StoneKV

open FaultProg

/-- An entry: a value, or a tombstone. -/
abbrev Entry : Type := Key × Option Val

/-- The keys are strictly increasing. -/
def Ascending (es : List Entry) : Prop := es.Pairwise fun a b => compare a.1 b.1 = .lt

instance : DecidablePred Ascending := fun es =>
  inferInstanceAs (Decidable (es.Pairwise fun a b => compare a.1 b.1 = .lt))

def ENTRY_OVERHEAD_BYTES : ℕ := 16

def entrySize (keyLen : ℕ) (valueLen : Option ℕ) : ℕ :=
  saturatingAdd (saturatingAdd keyLen (valueLen.getD 0)) ENTRY_OVERHEAD_BYTES

/-- The newest entries and an estimate of their size. -/
structure Memtable where
  map : Std.ExtTreeMap Key (Option Val) compare
  approxSizeBytes : ℕ

namespace Memtable

def new : Memtable := ⟨∅, 0⟩

/-- The common body of `set` and `delete`. -/
def put (m : Memtable) (key : Key) (val : Option Val) : Memtable where
  map := m.map.insert key val
  approxSizeBytes :=
    let newSize := entrySize key.length (val.map List.length)
    let size := match m.map[key]? with
      | some old => m.approxSizeBytes - entrySize key.length (old.map List.length)
      | none => m.approxSizeBytes
    saturatingAdd size newSize

def set (m : Memtable) (key : Key) (val : Val) : Memtable := m.put key (some val)

def delete (m : Memtable) (key : Key) : Memtable := m.put key none

def get (m : Memtable) (key : Key) : Option (Option Val) := m.map[key]?

def isOverThreshold (m : Memtable) (threshold : ℕ) : Bool := m.approxSizeBytes ≥ threshold

def iter (m : Memtable) : List Entry := m.map.toList

def isEmpty (m : Memtable) : Bool := m.map.isEmpty

def len (m : Memtable) : ℕ := m.map.size

end Memtable

def applyRecord (m : Memtable) (r : Record) : Memtable :=
  match r.op with
  | .set => m.set r.key r.val
  | .delete => m.delete r.key

/-! ## Ascending entries -/

section Ascending

variable {es : List Entry} {e : Entry} {k : Key} {v : Option Val}

theorem compare_ne_lt_self : compare k k ≠ .lt := fun h => by
  have : compare k k = .eq := Std.ReflCmp.compare_self
  rw [this] at h
  cases h

theorem Ascending.tail (h : Ascending (e :: es)) : Ascending es := (List.pairwise_cons.mp h).2

theorem Ascending.nodup (h : Ascending es) : (es.map Prod.fst).Nodup := by
  rw [List.Nodup, List.pairwise_map]
  refine h.imp fun hlt heq => ?_
  rw [heq] at hlt
  exact compare_ne_lt_self hlt

theorem lookup_eq_some (h : Ascending es) : es.lookup k = some v ↔ (k, v) ∈ es := by
  induction es with
  | nil => simp
  | cons e es ih =>
    rw [List.lookup_cons, List.mem_cons]
    by_cases hk : k = e.1
    · subst hk
      have hnot : (e.1, v) ∉ es := fun hm =>
        compare_ne_lt_self ((List.pairwise_cons.mp h).1 (e.1, v) hm)
      simp [hnot, Prod.ext_iff, eq_comm]
    · have hb : (k == e.1) = false := beq_eq_false_iff_ne.mpr hk
      rw [hb, ih h.tail]
      simp [Prod.ext_iff, hk]

theorem lookup_eq_none : es.lookup k = none ↔ ∀ e ∈ es, e.1 ≠ k := by
  induction es with
  | nil => simp
  | cons e es ih =>
    rw [List.lookup_cons]
    by_cases hk : k = e.1
    · simp [hk]
    · have hb : (k == e.1) = false := beq_eq_false_iff_ne.mpr hk
      rw [hb, ih]
      simp [Ne.symm hk]

end Ascending

/-! ## The memtable as a map -/

namespace Memtable

variable {m : Memtable} {k key : Key} {v val : Option Val}

@[simp] theorem get_new : new.get k = none := by simp [get, new]

theorem get_put : (m.put key val).get k = if k = key then some val else m.get k := by
  unfold get put
  rw [Std.ExtTreeMap.getElem?_insert]
  by_cases hk : k = key
  · simp [hk]
  · have hne : compare key k ≠ .eq := fun e => hk (Std.LawfulEqCmp.eq_of_compare e).symm
    simp [hk, hne]

theorem ascending_iter : Ascending m.iter := Std.ExtTreeMap.ordered_keys_toList

theorem mem_iter : (k, v) ∈ m.iter ↔ m.get k = some v :=
  Std.ExtTreeMap.mem_toList_iff_getElem?_eq_some

theorem lookup_iter : m.iter.lookup k = m.get k := by
  rcases h : m.get k with _ | v
  · rw [lookup_eq_none]
    rintro ⟨k', v⟩ he rfl
    rw [mem_iter.mp he] at h
    cases h
  · exact (lookup_eq_some ascending_iter).mpr (mem_iter.mpr h)

theorem isEmpty_iff : m.isEmpty = true ↔ ∀ k, m.get k = none := by
  unfold isEmpty get
  rw [Std.ExtTreeMap.isEmpty_iff]
  constructor
  · intro h k
    simp [h]
  · intro h
    exact Std.ExtTreeMap.ext_getElem? fun k => by simp [h k]

theorem applyRecord_eq (r : Record) : applyRecord m r = m.put r.key
    (match r.op with | .set => some r.val | .delete => none) := by
  unfold applyRecord
  split <;> rfl

end Memtable

end StoneKV
