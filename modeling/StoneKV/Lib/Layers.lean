import Mathlib.Tactic

/-!
# Layers of a map, the newest first

A layer has for each key nothing, a value, or a tombstone. A key is looked up in the first layer
that has something for it.

* `find`, `value`: the entry and the value of a key in a list of layers.
* `live l`: the layer `l` without its tombstones.
* **`value_live_find`**: all layers may be replaced by one without tombstones.
* **`value_cons_of_le`**: a layer on top that the rest already shows changes nothing.
-/

namespace Layers

variable {κ ν : Type}

/-- For each key nothing, a value, or a tombstone. -/
abbrev Layer (κ ν : Type) : Type := κ → Option (Option ν)

/-- The entry of `k` in the first layer that has one. -/
def find (ls : List (Layer κ ν)) (k : κ) : Option (Option ν) := ls.findSome? fun l => l k

/-- The value of `k`. -/
def value (ls : List (Layer κ ν)) (k : κ) : Option ν := (find ls k).join

/-- The layer without its tombstones. -/
def live (l : Layer κ ν) : Layer κ ν := fun k => (l k).filter Option.isSome

variable {ls ls' : List (Layer κ ν)} {l l' : Layer κ ν} {k : κ}

@[simp] theorem find_nil : find ([] : List (Layer κ ν)) k = none := rfl

theorem find_cons : find (l :: ls) k = (l k).or (find ls k) := by
  unfold find
  rw [List.findSome?_cons]
  cases l k <;> rfl

@[simp] theorem find_singleton : find [l] k = l k := by
  rw [find_cons, find_nil, Option.or_none]

theorem find_append : find (ls ++ ls') k = (find ls k).or (find ls' k) := by
  induction ls with
  | nil => simp
  | cons l ls ih => rw [List.cons_append, find_cons, find_cons, ih, Option.or_assoc]

theorem value_cons : value (l :: ls) k = ((l k).or (find ls k)).join := by
  rw [value, find_cons]

theorem value_cons_of_none (h : l k = none) : value (l :: ls) k = value ls k := by
  rw [value_cons, h, Option.none_or, value]

theorem value_cons_of_some {v : Option ν} (h : l k = some v) : value (l :: ls) k = v := by
  rw [value_cons, h, Option.some_or, Option.join_some]

theorem join_live : (live l k).join = (l k).join := by
  unfold live
  rcases l k with _ | _ | v <;> rfl

theorem live_find (ls : List (Layer κ ν)) (k : κ) : live (find ls) k = (value ls k).map some := by
  rw [live, value]
  rcases find ls k with _ | _ | v <;> rfl

/-- **Merging.** One layer with the live entries of all layers has their values. -/
theorem value_live_find (h : l = live (find ls)) : value [l] k = value ls k := by
  rw [value, find_singleton, h, join_live, value]

/-- The values below a layer decide the values with it. -/
theorem value_cons_congr (h : value ls k = value ls' k) : value (l :: ls) k = value (l :: ls') k := by
  rcases hl : l k with _ | v
  · rw [value_cons_of_none hl, value_cons_of_none hl, h]
  · rw [value_cons_of_some hl, value_cons_of_some hl]

/-- **Covered layers.** A layer on top whose entries are the ones already seen changes nothing. -/
theorem value_cons_of_le (h : ∀ v, l k = some v → value ls k = v) :
    value (l :: ls) k = value ls k := by
  rcases hl : l k with _ | v
  · exact value_cons_of_none hl
  · rw [value_cons_of_some hl, h v hl]

end Layers
