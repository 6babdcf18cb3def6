import StoneKV.Lib.LeBytes

/-!
# Errors and machine integers

* `StoneError`: the error type of every fallible operation; `StoneError.IsIo`: an I/O failure.
* `checkedAdd`, `saturatingAdd`: 64-bit sums; `okOr`: a missing value is an error.
* `ErrorsIn P x`: the error of `x`, if there is one, has the property `P`.
-/

namespace StoneKV

open FaultProg

/-- The errors of the store. -/
inductive StoneError
  | io (error : IoError)
  | truncatedRecord (needed available : ℕ)
  | corruptRecord (reason : String)
  | checksumMismatch (expected actual : BitVec 32)
  | recordTooLarge (field : String) (len : ℕ)
  | invalidSegmentFile (path reason : String)
  | invalidArgument (message : String)
  | other (message : String)
  deriving DecidableEq, Repr

instance : FromIo StoneError := ⟨StoneError.io⟩

/-- An I/O failure. -/
def StoneError.IsIo (e : StoneError) : Prop := ∃ i, e = .io i

@[simp] theorem isIo_io (i : IoError) : (StoneError.io i).IsIo := ⟨i, rfl⟩

@[simp] theorem isIo_ofIo (i : IoError) : (ofIo i : StoneError).IsIo := ⟨i, rfl⟩

/-- Calls over the disk. -/
abbrev Io (α : Type) : Type := Prog Disk StoneError α

/-- A path as text. -/
def display (p : Path) : String := String.ofList (List.intercalate ['/'] p)

/-- The least number too large for 64 bits. -/
def u64Size : ℕ := 2 ^ 64

/-- A 64-bit sum, if there is one. -/
def checkedAdd (a b : ℕ) : Option ℕ := if a + b < u64Size then some (a + b) else none

/-- A 64-bit sum, or the largest 64-bit number. -/
def saturatingAdd (a b : ℕ) : ℕ := min (a + b) (u64Size - 1)

/-- A 32-bit number, if `n` is one. -/
def tryU32 (n : ℕ) : Option ℕ := if n < 2 ^ 32 then some n else none

/-- The value of `o`, or the error `e`. -/
def okOr {α : Type} (o : Option α) (e : StoneError) : Except StoneError α :=
  match o with
  | some a => .ok a
  | none => .error e

/-- Return the error `e` if `c` holds. -/
def rejectIf (c : Prop) [Decidable c] (e : StoneError) : Except StoneError Unit :=
  if c then .error e else .ok ()

variable {α β : Type} {a b n : ℕ} {e : StoneError}

theorem checkedAdd_of_lt (h : a + b < u64Size) : checkedAdd a b = some (a + b) := if_pos h

theorem checkedAdd_eq_some {c : ℕ} : checkedAdd a b = some c ↔ c = a + b ∧ a + b < u64Size := by
  unfold checkedAdd
  split_ifs with h <;> simp [h, eq_comm]

theorem tryU32_of_lt (h : n < 2 ^ 32) : tryU32 n = some n := if_pos h

@[simp] theorem okOr_some (x : α) : okOr (some x) e = .ok x := rfl

@[simp] theorem okOr_none : okOr (none : Option α) e = .error e := rfl

theorem rejectIf_of_not {c : Prop} {_ : Decidable c} (h : ¬ c) : rejectIf c e = .ok () := if_neg h

theorem rejectIf_of {c : Prop} {_ : Decidable c} (h : c) : rejectIf c e = .error e := if_pos h

theorem rejectIf_eq_ok {c : Prop} {_ : Decidable c} {u : Unit} : rejectIf c e = .ok u ↔ ¬ c := by
  unfold rejectIf
  split_ifs with h <;> simp [h]

@[simp] theorem ok_bind (x : α) (f : α → Except StoneError β) : (Except.ok x >>= f) = f x := rfl

@[simp] theorem error_bind (f : α → Except StoneError β) :
    ((Except.error e : Except StoneError α) >>= f) = .error e := rfl

theorem bind_eq_ok {x : Except StoneError α} {f : α → Except StoneError β} {y : β} :
    (x >>= f) = .ok y ↔ ∃ a, x = .ok a ∧ f a = .ok y := by
  cases x <;> simp

theorem okOr_eq_ok {o : Option α} {x : α} : okOr o e = .ok x ↔ o = some x := by
  cases o <;> simp

/-- The errors of `x` satisfy `P`. -/
def ErrorsIn (P : StoneError → Prop) (x : Except StoneError α) : Prop := ∀ e, x = .error e → P e

section ErrorsIn

variable {P : StoneError → Prop}

theorem errorsIn_ok {a : α} : ErrorsIn P (.ok a : Except StoneError α) := nofun

theorem errorsIn_error (h : P e) : ErrorsIn P (.error e : Except StoneError α) := by
  rintro _ ⟨⟩
  exact h

theorem ErrorsIn.bind {x : Except StoneError α} {f : α → Except StoneError β} (hx : ErrorsIn P x)
    (hf : ∀ a, x = .ok a → ErrorsIn P (f a)) : ErrorsIn P (x >>= f) := by
  cases x with
  | error e => exact errorsIn_error (hx e rfl)
  | ok a => exact hf a rfl

theorem errorsIn_reject {c : Prop} {_ : Decidable c} {f : Unit → Except StoneError β} (he : P e)
    (hf : ¬ c → ErrorsIn P (f ())) : ErrorsIn P (rejectIf c e >>= f) := by
  by_cases hc : c
  · rw [rejectIf_of hc]
    exact errorsIn_error he
  · rw [rejectIf_of_not hc]
    exact hf hc

theorem errorsIn_okOr {o : Option α} {f : α → Except StoneError β} (he : P e)
    (hf : ∀ a, ErrorsIn P (f a)) : ErrorsIn P (okOr o e >>= f) := by
  cases o with
  | none => exact errorsIn_error he
  | some a => exact hf a

end ErrorsIn

/-- The `n` bytes of `b` from place `i`. -/
def slice (b : Bytes) (i n : ℕ) : Bytes := (b.drop i).take n

theorem length_slice {b : Bytes} {i n : ℕ} (h : i + n ≤ b.length) : (slice b i n).length = n := by
  simp only [slice, List.length_take, List.length_drop]
  omega

theorem slice_append (a b c : Bytes) : slice (a ++ b ++ c) a.length b.length = b := by
  rw [slice, List.append_assoc, List.drop_left, List.take_left]

theorem drop_eq_slice (b : Bytes) (i n : ℕ) : b.drop i = slice b i n ++ b.drop (i + n) := by
  rw [slice, ← List.drop_drop, List.take_append_drop]

theorem slice_split (b : Bytes) (i n : ℕ) : b = b.take i ++ slice b i n ++ b.drop (i + n) := by
  rw [List.append_assoc, ← drop_eq_slice, List.take_append_drop]

theorem slice_take {b : Bytes} {i n m : ℕ} (h : i + n ≤ m) : slice (b.take m) i n = slice b i n := by
  rw [slice, slice, List.drop_take, List.take_take, Nat.min_eq_left (by omega)]

theorem slice_slice {b : Bytes} {i n j m : ℕ} (h : j + m ≤ n) :
    slice (slice b i n) j m = slice b (i + j) m := by
  unfold slice
  rw [List.drop_take, List.drop_drop, List.take_take, Nat.min_eq_left (by omega)]

theorem slice_drop (b : Bytes) (i j n : ℕ) : slice (b.drop i) j n = slice b (i + j) n := by
  rw [slice, slice, List.drop_drop]

theorem slice_append_left {b c : Bytes} {i n : ℕ} (h : i + n ≤ b.length) :
    slice (b ++ c) i n = slice b i n := by
  rw [slice, slice, List.drop_append_of_le_length (by omega),
    List.take_append_of_le_length (by rw [List.length_drop]; omega)]

end StoneKV
