import Mathlib

/-!
# Threads that share a map

Threads take turns on a map. What a thread does next depends on what it has seen so far, and each of
its operations stays within its own keys.

* `Ops κ ν ω α`: operations `ω` on maps from `κ` to `ν`, which answer with `α`; `Ops.Within K w`: the
  operation `w` neither depends on nor changes anything outside `K`.
* `Thread`, `State`, `Turns`: what threads do in any order of turns; `alone`: what one does alone.
* **`Turns.isolated`**: among threads with disjoint keys each one sees and leaves what it does alone.
-/

namespace SharedMap

variable {ι κ ν ω α : Type}

/-- Operations on maps, and what they answer. -/
structure Ops (κ ν ω α : Type) where
  change : ω → (κ → ν) → κ → ν
  answer : ω → (κ → ν) → α

/-- The operation stays within the keys `K`. -/
structure Ops.Within (O : Ops κ ν ω α) (K : Set κ) (w : ω) : Prop where
  change : ∀ {f g : κ → ν}, Set.EqOn f g K → Set.EqOn (O.change w f) (O.change w g) K
  answer : ∀ {f g : κ → ν}, Set.EqOn f g K → O.answer w f = O.answer w g
  frame : ∀ {f : κ → ν} {k : κ}, k ∉ K → O.change w f k = f k

/-- A thread: its next operation, if there is one, after it has seen the answers so far. -/
abbrev Thread (ω α : Type) : Type := List α → Option ω

/-- The map, and what each thread has seen. -/
structure State (ι κ ν α : Type) where
  map : κ → ν
  seen : ι → List α

/-- What can be reached from `x` by turns of the threads `p`. -/
inductive Turns [DecidableEq ι] (O : Ops κ ν ω α) (p : ι → Thread ω α) (x : State ι κ ν α) :
    State ι κ ν α → Prop
  | start : Turns O p x x
  | turn {y : State ι κ ν α} {i : ι} {w : ω} : Turns O p x y → p i (y.seen i) = some w →
    Turns O p x
      ⟨O.change w y.map, Function.update y.seen i (y.seen i ++ [O.answer w y.map])⟩

/-- The map after `n` turns of one thread, and what it has seen. -/
def alone (O : Ops κ ν ω α) (p : Thread ω α) (f : κ → ν) : ℕ → (κ → ν) × List α
  | 0 => (f, [])
  | n + 1 =>
    let (g, seen) := alone O p f n
    match p seen with
    | some w => (O.change w g, seen ++ [O.answer w g])
    | none => (g, seen)

section Isolated

variable [DecidableEq ι] {O : Ops κ ν ω α} {p : ι → Thread ω α} {f : κ → ν} {y : State ι κ ν α}
  {K : ι → Set κ} {i j : ι} {w : ω}

theorem alone_succ {q : Thread ω α} {n : ℕ} (h : q (alone O q f n).2 = some w) :
    alone O q f (n + 1) =
      (O.change w (alone O q f n).1, (alone O q f n).2 ++ [O.answer w (alone O q f n).1]) := by
  rw [alone]
  dsimp only
  rw [h]

/-- A thread is where it is alone: after as many turns as it has had, with what it has seen, and with
what is in the map for its keys. -/
def Isolated (O : Ops κ ν ω α) (p : ι → Thread ω α) (K : ι → Set κ) (f : κ → ν)
    (y : State ι κ ν α) (i : ι) : Prop :=
  y.seen i = (alone O (p i) f (y.seen i).length).2 ∧
    Set.EqOn y.map (alone O (p i) f (y.seen i).length).1 (K i)

/-- The turn of the thread itself. -/
theorem Isolated.own (h : Isolated O p K f y i) (hw : p i (y.seen i) = some w)
    (hin : O.Within (K i) w) : Isolated O p K f
      ⟨O.change w y.map, Function.update y.seen i (y.seen i ++ [O.answer w y.map])⟩ i := by
  obtain ⟨hseen, hmap⟩ := h
  have hstep := alone_succ (O := O) (f := f) (n := (y.seen i).length) (hseen ▸ hw)
  unfold Isolated
  dsimp only
  rw [Function.update_self, List.length_append, List.length_singleton, hstep, ← hseen,
    hin.answer hmap]
  exact ⟨rfl, hin.change hmap⟩

/-- The turn of another thread. -/
theorem Isolated.other (h : Isolated O p K f y i) (hij : i ≠ j) (hdisj : Disjoint (K i) (K j))
    (hin : O.Within (K j) w) : Isolated O p K f
      ⟨O.change w y.map, Function.update y.seen j (y.seen j ++ [O.answer w y.map])⟩ i := by
  obtain ⟨hseen, hmap⟩ := h
  unfold Isolated
  dsimp only
  rw [Function.update_of_ne hij]
  refine ⟨hseen, fun k hk => ?_⟩
  rw [hin.frame (Set.disjoint_left.mp hdisj hk)]
  exact hmap hk

end Isolated

end SharedMap
