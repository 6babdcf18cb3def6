import StoneKV.Lib.Layers

/-!
# Log-structured merge trees

A tree keeps its newest writes in a log, whose replay is a buffer, and older ones in runs that do not
change. A full buffer is frozen into a run; all runs can be merged into one.

* `Parts β ρ ω`: the buffers, runs and writes that a tree is made of; `Tree ρ ω`: a tree.
* `Parts.write`, `Parts.flush`, `Parts.compact`, and `Parts.step` and `Parts.run` over actions.
* `Lawful`: what buffers and runs have for a key; **`view_run`**: then a tree is a map.
* **`layer_compact`**: a merge leaves the values of this map and nothing else.
* **`runs_mul_le`**: how many runs writes can make of a given size.
-/

namespace LsmTree

open Layers

/-- What a tree is made of: buffers that writes are applied to, which become runs. -/
structure Parts (β ρ ω : Type) where
  empty : β
  isEmpty : β → Bool
  apply : β → ω → β
  full : β → Bool
  freeze : β → ρ
  merge : List ρ → ρ

/-- The writes that are not in a run yet, the oldest first, and the runs with their numbers, the
newest first. -/
structure Tree (ρ ω : Type) where
  log : List ω
  runs : List (ℕ × ρ)

/-- What can be done with a tree. -/
inductive Action (ω : Type)
  | write (w : ω)
  | compact
  | skip

/-- The number of the next run. -/
def Tree.next {ρ ω : Type} (T : Tree ρ ω) : ℕ :=
  match T.runs with
  | [] => 1
  | (g, _) :: _ => g + 1

namespace Parts

variable {β ρ ω : Type} (P : Parts β ρ ω)

/-- The buffer that the log gives. -/
def buffer (T : Tree ρ ω) : β := T.log.foldl P.apply P.empty

/-- The buffer becomes a run, if there is something in it. -/
def flush (T : Tree ρ ω) : Tree ρ ω :=
  if P.isEmpty (P.buffer T) then T else ⟨[], (T.next, P.freeze (P.buffer T)) :: T.runs⟩

/-- One write, and a flush if the buffer is full then. -/
def write (T : Tree ρ ω) (w : ω) : Tree ρ ω :=
  let T' : Tree ρ ω := ⟨T.log ++ [w], T.runs⟩
  if P.full (P.buffer T') then P.flush T' else T'

/-- Two runs or more are merged into one. -/
def merged (T : Tree ρ ω) : Tree ρ ω :=
  if T.runs.length < 2 then T else ⟨T.log, [(T.next, P.merge (T.runs.map Prod.snd))]⟩

/-- A flush and a merge. -/
def compact (T : Tree ρ ω) : Tree ρ ω := P.merged (P.flush T)

def step (T : Tree ρ ω) : Action ω → Tree ρ ω
  | .write w => P.write T w
  | .compact => P.compact T
  | .skip => T

def run (T : Tree ρ ω) (as : List (Action ω)) : Tree ρ ω := as.foldl P.step T

variable {P} {T : Tree ρ ω} {w : ω} {as : List (Action ω)} {a : Action ω}

theorem run_concat : P.run T (as ++ [a]) = P.step (P.run T as) a := by
  rw [run, List.foldl_append]
  rfl

@[simp] theorem buffer_nil {rs : List (ℕ × ρ)} : P.buffer (⟨[], rs⟩ : Tree ρ ω) = P.empty := rfl

theorem buffer_concat {rs : List (ℕ × ρ)} :
    P.buffer ⟨T.log ++ [w], rs⟩ = P.apply (P.buffer T) w := by
  rw [buffer, List.foldl_append]
  rfl

theorem flush_of_isEmpty (h : P.isEmpty (P.buffer T)) : P.flush T = T := if_pos h

theorem flush_of_not_isEmpty (h : ¬ P.isEmpty (P.buffer T)) :
    P.flush T = ⟨[], (T.next, P.freeze (P.buffer T)) :: T.runs⟩ := if_neg h

theorem write_of_full (h : P.full (P.buffer ⟨T.log ++ [w], T.runs⟩)) :
    P.write T w = P.flush ⟨T.log ++ [w], T.runs⟩ := if_pos h

theorem write_of_not_full (h : ¬ P.full (P.buffer ⟨T.log ++ [w], T.runs⟩)) :
    P.write T w = ⟨T.log ++ [w], T.runs⟩ := if_neg h

theorem merged_of_lt (h : T.runs.length < 2) : P.merged T = T := if_pos h

theorem merged_of_le (h : 2 ≤ T.runs.length) :
    P.merged T = ⟨T.log, [(T.next, P.merge (T.runs.map Prod.snd))]⟩ := if_neg (Nat.not_lt.mpr h)

theorem log_merged : (P.merged T).log = T.log := by
  rcases Nat.lt_or_ge T.runs.length 2 with h | h
  · rw [merged_of_lt h]
  · rw [merged_of_le h]

theorem length_compact_lt : (P.compact T).runs.length < 2 := by
  rcases Nat.lt_or_ge (P.flush T).runs.length 2 with h | h
  · rwa [compact, merged_of_lt h]
  · rw [compact, merged_of_le h]
    exact Nat.one_lt_two

end Parts

/-! ## Trees as maps -/

section View

variable {β ρ ω κ ν : Type}

/-- What buffers and runs have for a key, and what they make of it: a write sets its key to a value,
or to a tombstone. The merge is right for runs that are `Good`. -/
structure Lawful [DecidableEq κ] (P : Parts β ρ ω) (ofBuffer : β → Layer κ ν) (ofRun : ρ → Layer κ ν)
    (key : ω → κ) (val : ω → Option ν) (Good : ρ → Prop) : Prop where
  empty : ∀ k, ofBuffer P.empty k = none
  isEmpty : ∀ b, P.isEmpty b → ∀ k, ofBuffer b k = none
  apply : ∀ b w, ofBuffer (P.apply b w) = Function.update (ofBuffer b) (key w) (some (val w))
  freeze : ∀ b, ofRun (P.freeze b) = ofBuffer b
  merge : ∀ rs, (∀ r ∈ rs, Good r) → ofRun (P.merge rs) = live (find (rs.map ofRun))
  good_freeze : ∀ b, Good (P.freeze b)
  good_merge : ∀ rs, Good (P.merge rs)

/-- The runs of the tree are good. -/
def Tree.Good (Good : ρ → Prop) (T : Tree ρ ω) : Prop := ∀ r ∈ T.runs, Good r.2

/-- The value of a key in a tree. -/
def view (P : Parts β ρ ω) (ofBuffer : β → Layer κ ν) (ofRun : ρ → Layer κ ν) (T : Tree ρ ω) :
    κ → Option ν := value (ofBuffer (P.buffer T) :: T.runs.map fun r => ofRun r.2)

/-- What an action is to do to the map. -/
def effect [DecidableEq κ] (key : ω → κ) (val : ω → Option ν) (f : κ → Option ν) :
    Action ω → κ → Option ν
  | .write w => Function.update f (key w) (val w)
  | .compact => f
  | .skip => f

variable [DecidableEq κ] {P : Parts β ρ ω} {ofBuffer : β → Layer κ ν} {ofRun : ρ → Layer κ ν}
  {key : ω → κ} {val : ω → Option ν} {Good : ρ → Prop} {T : Tree ρ ω} {w : ω} {a : Action ω}
  {as : List (Action ω)}

section Lawful

variable (h : Lawful P ofBuffer ofRun key val Good)

include h

theorem view_flush : view P ofBuffer ofRun (P.flush T) = view P ofBuffer ofRun T := by
  by_cases hb : P.isEmpty (P.buffer T)
  · rw [Parts.flush_of_isEmpty hb]
  · funext k
    rw [Parts.flush_of_not_isEmpty hb, view, Parts.buffer_nil, List.map_cons,
      value_cons_of_none (h.empty k), h.freeze, view]

theorem good_flush (hT : T.Good Good) : (P.flush T).Good Good := by
  by_cases hb : P.isEmpty (P.buffer T)
  · rwa [Parts.flush_of_isEmpty hb]
  · rw [Parts.flush_of_not_isEmpty hb]
    exact List.forall_mem_cons.mpr ⟨h.good_freeze _, hT⟩

theorem buffer_flush (k : κ) : ofBuffer (P.buffer (P.flush T)) k = none := by
  by_cases hb : P.isEmpty (P.buffer T)
  · rw [Parts.flush_of_isEmpty hb]
    exact h.isEmpty _ hb k
  · rw [Parts.flush_of_not_isEmpty hb]
    exact h.empty k

theorem view_write :
    view P ofBuffer ofRun (P.write T w) =
      Function.update (view P ofBuffer ofRun T) (key w) (val w) := by
  have hput : view P ofBuffer ofRun ⟨T.log ++ [w], T.runs⟩ =
      Function.update (view P ofBuffer ofRun T) (key w) (val w) := by
    funext k
    rw [view, Parts.buffer_concat, h.apply, Function.update_apply, value_cons, Function.update_apply]
    split_ifs with hk
    · rfl
    · rw [← value_cons, view]
  by_cases hf : P.full (P.buffer ⟨T.log ++ [w], T.runs⟩)
  · rw [Parts.write_of_full hf, view_flush h, hput]
  · rw [Parts.write_of_not_full hf, hput]

theorem good_write (hT : T.Good Good) : (P.write T w).Good Good := by
  by_cases hf : P.full (P.buffer ⟨T.log ++ [w], T.runs⟩)
  · rw [Parts.write_of_full hf]
    exact good_flush h hT
  · rw [Parts.write_of_not_full hf]
    exact hT

theorem view_merged (hT : T.Good Good) :
    view P ofBuffer ofRun (P.merged T) = view P ofBuffer ofRun T := by
  rcases Nat.lt_or_ge T.runs.length 2 with hlen | hlen
  · rw [Parts.merged_of_lt hlen]
  · funext k
    have hgood : ∀ r ∈ T.runs.map Prod.snd, Good r := List.forall_mem_map.mpr hT
    rw [Parts.merged_of_le hlen, view, List.map_singleton, h.merge _ hgood, view, List.map_map]
    exact value_cons_congr (value_live_find rfl)

theorem good_merged (hT : T.Good Good) : (P.merged T).Good Good := by
  rcases Nat.lt_or_ge T.runs.length 2 with hlen | hlen
  · rwa [Parts.merged_of_lt hlen]
  · rw [Parts.merged_of_le hlen]
    exact List.forall_mem_singleton.mpr (h.good_merge _)

/-- **One action.** -/
theorem view_step (hT : T.Good Good) :
    view P ofBuffer ofRun (P.step T a) = effect key val (view P ofBuffer ofRun T) a := by
  cases a with
  | write w => exact view_write h
  | compact => exact (view_merged h (good_flush h hT)).trans (view_flush h)
  | skip => rfl

theorem good_step (hT : T.Good Good) : (P.step T a).Good Good := by
  cases a with
  | write w => exact good_write h hT
  | compact => exact good_merged h (good_flush h hT)
  | skip => exact hT

/-- **A tree is a map.** -/
theorem view_run (hT : T.Good Good) : (P.run T as).Good Good ∧
    view P ofBuffer ofRun (P.run T as) =
      as.foldl (effect key val) (view P ofBuffer ofRun T) := by
  induction as using List.reverseRecOn with
  | nil => exact ⟨hT, rfl⟩
  | append_singleton as a ih =>
    rw [Parts.run_concat, List.foldl_append]
    exact ⟨good_step h ih.1, (view_step h ih.1).trans (congrArg (effect key val · a) ih.2)⟩

/-- **What a merge leaves.** Its run has the values of the tree, and no tombstones. -/
theorem layer_compact (hT : T.Good Good) (hlen : 2 ≤ (P.flush T).runs.length) :
    ∃ r, P.compact T = ⟨(P.flush T).log, [((P.flush T).next, r)]⟩ ∧ Good r ∧
      ofRun r = fun k => (view P ofBuffer ofRun T k).map some := by
  refine ⟨_, Parts.merged_of_le hlen, h.good_merge _, funext fun k => ?_⟩
  have hgood : ∀ r ∈ (P.flush T).runs.map Prod.snd, Good r :=
    List.forall_mem_map.mpr (good_flush h hT)
  rw [h.merge _ hgood, live_find, ← view_flush h, view,
    value_cons_of_none (buffer_flush h k), List.map_map]
  rfl

end Lawful

end View

/-! ## How many runs there are -/

section Count

variable {β ρ ω : Type} {P : Parts β ρ ω} {size : β → ℕ} {weight : ω → ℕ} {t : ℕ} {T : Tree ρ ω}

/-- Each run takes `t` of what was written. -/
theorem runs_mul_le_step (hempty : size P.empty = 0)
    (happly : ∀ b w, size (P.apply b w) ≤ size b + weight w) (hfull : ∀ b, P.full b → t ≤ size b)
    (w : ω) : (P.write T w).runs.length * t + size (P.buffer (P.write T w)) ≤
      T.runs.length * t + size (P.buffer T) + weight w := by
  have hsize := happly (P.buffer T) w
  have hbuffer : P.buffer ⟨T.log ++ [w], T.runs⟩ = P.apply (P.buffer T) w := Parts.buffer_concat
  rw [← hbuffer] at hsize
  by_cases hf : P.full (P.buffer ⟨T.log ++ [w], T.runs⟩)
  · rw [Parts.write_of_full hf]
    have ht := hfull _ hf
    by_cases hb : P.isEmpty (P.buffer ⟨T.log ++ [w], T.runs⟩)
    · rw [Parts.flush_of_isEmpty hb]
      dsimp only
      omega
    · rw [Parts.flush_of_not_isEmpty hb]
      have hlen : (T.runs.length + 1) * t = T.runs.length * t + t := Nat.succ_mul _ _
      rw [Parts.buffer_nil, hempty, List.length_cons]
      dsimp only
      omega
  · rw [Parts.write_of_not_full hf]
    dsimp only
    omega

/-- What an action writes. -/
def Action.written (f : ω → ℕ) : Action ω → ℕ
  | .write w => f w
  | .compact => 0
  | .skip => 0

/-- **The runs that writes make.** Together they and the buffer take no more than what was written. -/
theorem runs_mul_le (hempty : size P.empty = 0)
    (happly : ∀ b w, size (P.apply b w) ≤ size b + weight w) (hfull : ∀ b, P.full b → t ≤ size b)
    {as : List (Action ω)} (h : ∀ a ∈ as, a ≠ .compact) :
    (P.run T as).runs.length * t + size (P.buffer (P.run T as)) ≤
      T.runs.length * t + size (P.buffer T) + (as.map (Action.written weight)).sum := by
  induction as using List.reverseRecOn with
  | nil => exact le_rfl
  | append_singleton as a ih =>
    have ih := ih fun b hb => h b (List.mem_append_left _ hb)
    rw [Parts.run_concat, List.map_append, List.sum_append, List.map_singleton, List.sum_singleton]
    cases a with
    | write w =>
      have hstep := runs_mul_le_step hempty happly hfull (T := P.run T as) w
      rw [Parts.step, Action.written]
      omega
    | compact => exact absurd rfl (h _ (by simp))
    | skip => exact ih

end Count

end LsmTree
