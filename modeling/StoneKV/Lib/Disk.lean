import StoneKV.Lib.Prog
import Std.Data.ExtTreeMap.Lemmas

/-!
# A disk of files and its calls

A disk maps paths to files and lists a directory in an order of its own. The calls are atomic, but
for `Fs.writeAll`, which a fault can cut after any number of bytes. A call on an open file names the
file by its path; when the path is gone the call has no visible effect.

* `Disk.read`, `Disk.put`, `Disk.erase`, `Disk.list` and their equations;
* `Fs.*`: the calls, each with a `wp` rule that lists what it can do.
-/

namespace FaultProg

/-- A byte string. -/
abbrev Bytes : Type := List UInt8

/-- A file name. -/
abbrev Name : Type := List Char

/-- A path, as the list of its components. -/
abbrev Path : Type := List Name

/-- The largest file offset (a signed 64-bit number). -/
def maxFileLen : ℕ := 2 ^ 63 - 1

/-- A file: its bytes, no more than offsets can count. -/
structure File where
  bytes : Bytes
  length_le : bytes.length ≤ maxFileLen

/-- The errors of the calls; `other` is the error of a call that a fault makes fail. -/
inductive IoError
  | notFound
  | fileTooLarge
  | unexpectedEof
  | invalidData
  | other
  deriving DecidableEq, Repr

/-- An error type that holds the errors of the calls. -/
class FromIo (ε : Type) where
  ofIo : IoError → ε

export FromIo (ofIo)

/-- The files of a disk and the order in which it lists a directory. -/
structure Disk where
  files : Std.ExtTreeMap Path File compare
  readOrder : List Name → List Name
  readOrder_perm : ∀ l, (readOrder l).Perm l

namespace Disk

/-- The empty disk. -/
def empty : Disk := ⟨∅, id, fun l => .refl l⟩

/-- The bytes of the file at `p`. -/
def read (d : Disk) (p : Path) : Option Bytes := d.files[p]?.map File.bytes

/-- Make `b` the contents of `p`. -/
def put (d : Disk) (p : Path) (b : Bytes) (h : b.length ≤ maxFileLen) : Disk :=
  { d with files := d.files.insert p ⟨b, h⟩ }

/-- Remove the file at `p`. -/
def erase (d : Disk) (p : Path) : Disk := { d with files := d.files.erase p }

/-- The same files, listed in another order. -/
def reorder (d : Disk) (f : List Name → List Name) (h : ∀ l, (f l).Perm l) : Disk :=
  ⟨d.files, f, h⟩

/-- The name of `p` in the directory `dir`. -/
def nameIn (dir p : Path) : Option Name := if p.dropLast = dir then p.getLast? else none

/-- The names in the directory `dir`. -/
def list (d : Disk) (dir : Path) : List Name := d.readOrder (d.files.keys.filterMap (nameIn dir))

/-- Append `b` to the file at `p`, if there is one and it stays within the largest offset. -/
def append (d : Disk) (p : Path) (b : Bytes) : Disk :=
  match d.read p with
  | none => d
  | some old => if h : (old ++ b).length ≤ maxFileLen then d.put p (old ++ b) h else d

variable {d : Disk} {p q dir : Path} {b : Bytes}

@[simp] theorem read_empty : empty.read p = none := by simp [read, empty]

@[simp] theorem read_put {h : b.length ≤ maxFileLen} :
    (d.put p b h).read q = if q = p then some b else d.read q := by
  unfold read put
  rw [Std.ExtTreeMap.getElem?_insert]
  by_cases hq : q = p
  · simp [hq]
  · have hne : compare p q ≠ .eq := fun e => hq (Std.LawfulEqCmp.eq_of_compare e).symm
    simp [hq, hne]

@[simp] theorem read_erase : (d.erase p).read q = if q = p then none else d.read q := by
  unfold read erase
  rw [Std.ExtTreeMap.getElem?_erase]
  by_cases hq : q = p
  · simp [hq]
  · have hne : compare p q ≠ .eq := fun e => hq (Std.LawfulEqCmp.eq_of_compare e).symm
    simp [hq, hne]

theorem length_le_of_read (h : d.read p = some b) : b.length ≤ maxFileLen := by
  unfold read at h
  obtain ⟨f, -, rfl⟩ := Option.map_eq_some_iff.mp h
  exact f.length_le

theorem read_append_self {old : Bytes} (h : d.read p = some old)
    (hl : (old ++ b).length ≤ maxFileLen) : (d.append p b).read p = some (old ++ b) := by
  simp only [append, h, dif_pos hl, read_put, if_true]

theorem append_of_lt {old : Bytes} (h : d.read p = some old)
    (hl : maxFileLen < (old ++ b).length) : d.append p b = d := by
  simp only [append, h, dif_neg (Nat.not_le.mpr hl)]

theorem read_append_of_ne (hq : q ≠ p) : (d.append p b).read q = d.read q := by
  unfold append
  split
  · rfl
  · split_ifs
    · rw [read_put, if_neg hq]
    · rfl

theorem put_read {h : b.length ≤ maxFileLen} (hp : d.read p = some b) : d.put p b h = d := by
  unfold read at hp
  obtain ⟨f, hf, rfl⟩ := Option.map_eq_some_iff.mp hp
  unfold put
  congr 1
  refine Std.ExtTreeMap.ext_getElem? fun q => ?_
  rw [Std.ExtTreeMap.getElem?_insert]
  split_ifs with hq
  · rw [← Std.LawfulEqCmp.eq_of_compare hq, hf]
  · rfl

@[simp] theorem append_nil : d.append p [] = d := by
  unfold append
  split
  · rfl
  · rename_i old hold
    split_ifs
    · simp only [List.append_nil]
      exact put_read hold
    · rfl

theorem put_put {b' : Bytes} {h : b.length ≤ maxFileLen} {h' : b'.length ≤ maxFileLen} :
    (d.put p b h).put p b' h' = d.put p b' h' := by
  unfold put
  congr 1
  refine Std.ExtTreeMap.ext_getElem? fun q => ?_
  rw [Std.ExtTreeMap.getElem?_insert, Std.ExtTreeMap.getElem?_insert,
    Std.ExtTreeMap.getElem?_insert]
  split_ifs <;> rfl

theorem append_eq_put {old : Bytes} (h : d.read p = some old) (hl : (old ++ b).length ≤ maxFileLen) :
    d.append p b = d.put p (old ++ b) hl := by
  simp only [append, h, dif_pos hl]

/-- `d'` is `d` but for the file at `p`. -/
def Touched (d : Disk) (p : Path) (d' : Disk) : Prop := ∀ q ≠ p, d'.read q = d.read q

theorem touched_self : Touched d p d := fun _ _ => rfl

theorem Touched.trans {d' d'' : Disk} (h : Touched d p d') (h' : Touched d' p d'') :
    Touched d p d'' := fun q hq => (h' q hq).trans (h q hq)

theorem touched_put {h : b.length ≤ maxFileLen} : Touched d p (d.put p b h) := fun q hq => by
  rw [read_put, if_neg hq]

theorem touched_erase : Touched d p (d.erase p) := fun q hq => by rw [read_erase, if_neg hq]

theorem touched_append : Touched d p (d.append p b) := fun _ hq => read_append_of_ne hq

theorem mem_list {n : Name} : n ∈ d.list dir ↔ (d.read (dir ++ [n])).isSome := by
  unfold list
  rw [(d.readOrder_perm _).mem_iff, List.mem_filterMap, read, Option.isSome_map]
  rw [Std.ExtTreeMap.isSome_getElem?_iff_mem]
  constructor
  · rintro ⟨p, hp, hn⟩
    unfold nameIn at hn
    split_ifs at hn with hd
    have : p = dir ++ [n] := by
      rw [← hd]
      exact (List.dropLast_append_getLast? n hn).symm
    rw [← this]
    exact Std.ExtTreeMap.mem_keys.mp hp
  · intro h
    exact ⟨dir ++ [n], Std.ExtTreeMap.mem_keys.mpr h, by simp [nameIn]⟩

theorem nodup_list : (d.list dir).Nodup := by
  unfold list
  rw [(d.readOrder_perm _).nodup_iff]
  have hk : d.files.keys.Nodup := Std.ExtTreeMap.nodup_keys
  refine List.Nodup.filterMap ?_ hk
  intro p q n hp hq
  unfold nameIn at hp hq
  simp only [Option.mem_def] at hp hq
  split_ifs at hp with h₁
  split_ifs at hq with h₂
  rw [← List.dropLast_append_getLast? n hp, ← List.dropLast_append_getLast? n hq, h₁, h₂]

/-- Two disks with the same files, listed in the same order. -/
theorem ext_read {d' : Disk} (hread : ∀ p, d'.read p = d.read p)
    (horder : d'.readOrder = d.readOrder) : d' = d := by
  obtain ⟨files, order, hperm⟩ := d
  obtain ⟨files', order', hperm'⟩ := d'
  cases horder
  congr 1
  refine Std.ExtTreeMap.ext_getElem? fun p => ?_
  have h := hread p
  simp only [read] at h
  rcases hf : files[p]? with _ | ⟨b, hb⟩ <;> rcases hf' : files'[p]? with _ | ⟨b', hb'⟩ <;>
    simp only [hf, hf', Option.map_none, Option.map_some] at h
  · rfl
  · cases h
  · cases h
  · cases h
    rfl

theorem erase_of_none (h : d.read p = none) : d.erase p = d := by
  refine ext_read (fun q => ?_) rfl
  rw [read_erase]
  split_ifs with hq
  · rw [hq, h]
  · rfl

/-! ### Removing several files -/

/-- Remove the files at the paths. -/
def eraseAll (d : Disk) (ps : List Path) : Disk := ps.foldl erase d

@[simp] theorem eraseAll_nil : d.eraseAll [] = d := rfl

theorem eraseAll_cons {ps : List Path} : d.eraseAll (p :: ps) = (d.erase p).eraseAll ps := rfl

theorem eraseAll_append {ps qs : List Path} : d.eraseAll (ps ++ qs) = (d.eraseAll ps).eraseAll qs :=
  List.foldl_append

@[simp] theorem readOrder_eraseAll : ∀ (ps : List Path) (d : Disk),
    (d.eraseAll ps).readOrder = d.readOrder
  | [], _ => rfl
  | p :: ps, d => readOrder_eraseAll ps (d.erase p)

@[simp] theorem read_eraseAll : ∀ (ps : List Path) (d : Disk),
    (d.eraseAll ps).read q = if q ∈ ps then none else d.read q
  | [], _ => by simp
  | p :: ps, d => by
    rw [eraseAll_cons, read_eraseAll ps, read_erase]
    by_cases hps : q ∈ ps <;> by_cases hp : q = p <;> simp [hps, hp]

/-- What is removed is what counts, in whatever order and of what is there. -/
theorem eraseAll_congr {ps qs : List Path} (h : ∀ p, (d.read p).isSome → (p ∈ ps ↔ p ∈ qs)) :
    d.eraseAll ps = d.eraseAll qs := by
  refine ext_read (fun p => ?_) (by rw [readOrder_eraseAll, readOrder_eraseAll])
  rw [read_eraseAll, read_eraseAll]
  rcases hp : d.read p with _ | b
  · simp
  · rw [if_congr (h p (by rw [hp]; rfl)) rfl rfl]

/-- Some of the files first. -/
theorem eraseAll_of_subset {ps qs : List Path} (h : ps ⊆ qs) :
    (d.eraseAll ps).eraseAll qs = d.eraseAll qs := by
  rw [← eraseAll_append]
  exact eraseAll_congr fun p _ => by
    rw [List.mem_append]
    exact ⟨fun hp => hp.elim (@h p) id, .inr⟩

end Disk

/-! ## The calls -/

namespace Fs

variable {ε : Type} [FromIo ε]

/-- A call that does not change the disk: a seek, a flush, a sync, the creation of a directory. -/
def touch : Prog Disk ε Unit := Prog.call (ofIo .other) fun d => .ok ((), d)

/-- Is there a file at `p`? -/
def pathExists (p : Path) : Prog Disk ε Bool := Prog.ask false fun d => (d.read p).isSome

/-- Remove the file at `p`. -/
def removeFile (p : Path) : Prog Disk ε Unit := Prog.call (ofIo .other) fun d =>
  match d.read p with
  | none => .error (ofIo .notFound)
  | some _ => .ok ((), d.erase p)

/-- Move the file at `p` to `q`, in place of what is there. -/
def rename (p q : Path) : Prog Disk ε Unit := Prog.call (ofIo .other) fun d =>
  match h : d.read p with
  | none => .error (ofIo .notFound)
  | some b => .ok ((), (d.erase p).put q b (Disk.length_le_of_read h))

/-- The bytes of the file at `p`: it is opened and read, or read whole. -/
def readFile (p : Path) : Prog Disk ε Bytes := Prog.call (ofIo .other) fun d =>
  match d.read p with
  | none => .error (ofIo .notFound)
  | some b => .ok (b, d)

/-- The length of the file at `p`. -/
def metadataLen (p : Path) : Prog Disk ε ℕ := Prog.call (ofIo .other) fun d =>
  match d.read p with
  | none => .error (ofIo .notFound)
  | some b => .ok (b.length, d)

/-- Open `p` for writing, empty. -/
def createTruncate (p : Path) : Prog Disk ε Unit := Prog.call (ofIo .other) fun d =>
  .ok ((), d.put p [] (Nat.zero_le _))

/-- Open `p` for writing, with the contents it has; create it if it is not there. -/
def openCreate (p : Path) : Prog Disk ε Unit := Prog.call (ofIo .other) fun d =>
  match d.read p with
  | none => .ok ((), d.put p [] (Nat.zero_le _))
  | some _ => .ok ((), d)

/-- Open `p` for writing, with the contents it has. -/
def openWrite (p : Path) : Prog Disk ε Unit := Prog.call (ofIo .other) fun d =>
  match d.read p with
  | none => .error (ofIo .notFound)
  | some _ => .ok ((), d)

/-- Append `b` to the open file `p`. A file that would grow past the largest offset is left as it
is. -/
def writeAll (p : Path) (b : Bytes) : Prog Disk ε Unit :=
  Prog.callPart (ofIo .other) (fun n d => d.append p (b.take n)) fun d =>
    match d.read p with
    | none => .ok ((), d)
    | some old =>
      if (old ++ b).length ≤ maxFileLen then .ok ((), d.append p b)
      else .error (ofIo .fileTooLarge)

/-- The first `n` bytes of `b`, filled up to `n` bytes with zeros. -/
def resize (b : Bytes) (n : ℕ) : Bytes := b.take n ++ List.replicate (n - b.length) 0

/-- Cut the open file `p` to its first `n` bytes, or fill it up to `n` bytes with zeros. -/
def setLen (p : Path) (n : ℕ) : Prog Disk ε Unit := Prog.call (ofIo .other) fun d =>
  match d.read p with
  | none => .ok ((), d)
  | some old =>
    if h : (resize old n).length ≤ maxFileLen then .ok ((), d.put p (resize old n) h)
    else .error (ofIo .fileTooLarge)

/-- The names in a directory. -/
def readDir (dir : Path) : Prog Disk ε (List Name) := Prog.call (ofIo .other) fun d =>
  .ok (d.list dir, d)

/-- Reads of an open file that together compute `x`. They leave the disk as it is, so they count as
one call: they complete, or one of them fails, or the process dies in one of them. -/
def reads {α : Type} (x : Except ε α) : Prog Disk ε α := Prog.call (ofIo .other) fun d =>
  x.map fun a => (a, d)

/-- The errors of calls on files that are there: a file would grow too large, which takes `big`, or
a fault. -/
def MayFail (A : Fault → Prop) (big : Prop) (i : IoError) : Prop :=
  (i = .fileTooLarge ∧ big) ∨ ∃ n, A (.fail n)

section Rules

variable {α : Type} {A : Fault → Prop} {d : Disk} {p q dir : Path} {b : Bytes}

theorem mayFail_of {big : Prop} {n : ℕ} {i : IoError} (h : A (.fail n)) : MayFail A big i :=
  .inr ⟨n, h⟩

theorem mayFail_tooLarge {big : Prop} (h : big) : MayFail A big .fileTooLarge := .inl ⟨rfl, h⟩

theorem MayFail.mono {big big' : Prop} {i : IoError} (h : MayFail A big i) (hb : big → big') :
    MayFail A big' i := h.imp_left fun ⟨hi, h⟩ => ⟨hi, hb h⟩

theorem wp_touch {Q : Outcome ε Unit → Disk → Prop} (hok : Q (.ok ()) d)
    (hfail : ∀ n, A (.fail n) → Q (.err (ofIo .other)) d) (hcr : ∀ n, A (.crash n) → Q .crash d) :
    wp A touch Q d :=
  wp_call (fun _ _ e => by cases e; exact hok) (fun _ e => by cases e) hfail hcr

omit [FromIo ε] in
theorem wp_pathExists {Q : Outcome ε Bool → Disk → Prop} (hok : Q (.ok (d.read p).isSome) d)
    (hdeny : A .deny → Q (.ok false) d) (hcr : ∀ n, A (.crash n) → Q .crash d) :
    wp A (pathExists p) Q d := wp_ask hok hdeny hcr

theorem wp_removeFile {Q : Outcome ε Unit → Disk → Prop}
    (hok : (d.read p).isSome → Q (.ok ()) (d.erase p))
    (hnone : d.read p = none → Q (.err (ofIo .notFound)) d)
    (hfail : ∀ n, A (.fail n) → Q (.err (ofIo .other)) d) (hcr : ∀ n, A (.crash n) → Q .crash d) :
    wp A (removeFile p) Q d := by
  refine wp_call (fun a s' e => ?_) (fun e he => ?_) hfail hcr
  · split at e
    · cases e
    · rename_i hb
      cases e
      exact hok (by simp [hb])
  · split at he
    · cases he
      exact hnone ‹_›
    · cases he

theorem wp_rename {Q : Outcome ε Unit → Disk → Prop}
    (hok : ∀ b (h : d.read p = some b),
      Q (.ok ()) ((d.erase p).put q b (Disk.length_le_of_read h)))
    (hnone : d.read p = none → Q (.err (ofIo .notFound)) d)
    (hfail : ∀ n, A (.fail n) → Q (.err (ofIo .other)) d) (hcr : ∀ n, A (.crash n) → Q .crash d) :
    wp A (rename p q) Q d := by
  refine wp_call (fun a s' e => ?_) (fun e he => ?_) hfail hcr
  · split at e
    · cases e
    · cases e
      exact hok _ ‹_›
  · split at he
    · cases he
      exact hnone ‹_›
    · cases he

theorem wp_readFile {Q : Outcome ε Bytes → Disk → Prop} (hok : ∀ b, d.read p = some b → Q (.ok b) d)
    (hnone : d.read p = none → Q (.err (ofIo .notFound)) d)
    (hfail : ∀ n, A (.fail n) → Q (.err (ofIo .other)) d) (hcr : ∀ n, A (.crash n) → Q .crash d) :
    wp A (readFile p) Q d := by
  refine wp_call (fun a s' e => ?_) (fun e he => ?_) hfail hcr
  · split at e
    · cases e
    · cases e
      exact hok _ ‹_›
  · split at he
    · cases he
      exact hnone ‹_›
    · cases he

theorem wp_metadataLen {Q : Outcome ε ℕ → Disk → Prop}
    (hok : ∀ b, d.read p = some b → Q (.ok b.length) d)
    (hnone : d.read p = none → Q (.err (ofIo .notFound)) d)
    (hfail : ∀ n, A (.fail n) → Q (.err (ofIo .other)) d) (hcr : ∀ n, A (.crash n) → Q .crash d) :
    wp A (metadataLen p) Q d := by
  refine wp_call (fun a s' e => ?_) (fun e he => ?_) hfail hcr
  · split at e
    · cases e
    · cases e
      exact hok _ ‹_›
  · split at he
    · cases he
      exact hnone ‹_›
    · cases he

theorem wp_createTruncate {Q : Outcome ε Unit → Disk → Prop}
    (hok : Q (.ok ()) (d.put p [] (Nat.zero_le _)))
    (hfail : ∀ n, A (.fail n) → Q (.err (ofIo .other)) d) (hcr : ∀ n, A (.crash n) → Q .crash d) :
    wp A (createTruncate p) Q d :=
  wp_call (fun _ _ e => by cases e; exact hok) (fun _ e => by cases e) hfail hcr

theorem wp_openCreate {Q : Outcome ε Unit → Disk → Prop}
    (hnew : d.read p = none → Q (.ok ()) (d.put p [] (Nat.zero_le _)))
    (hold : (d.read p).isSome → Q (.ok ()) d)
    (hfail : ∀ n, A (.fail n) → Q (.err (ofIo .other)) d) (hcr : ∀ n, A (.crash n) → Q .crash d) :
    wp A (openCreate p) Q d := by
  refine wp_call (fun a s' e => ?_) (fun e he => ?_) hfail hcr
  · split at e
    · cases e
      exact hnew ‹_›
    · rename_i hb
      cases e
      exact hold (by simp [hb])
  · split at he <;> cases he

theorem wp_openWrite {Q : Outcome ε Unit → Disk → Prop} (hok : (d.read p).isSome → Q (.ok ()) d)
    (hnone : d.read p = none → Q (.err (ofIo .notFound)) d)
    (hfail : ∀ n, A (.fail n) → Q (.err (ofIo .other)) d) (hcr : ∀ n, A (.crash n) → Q .crash d) :
    wp A (openWrite p) Q d := by
  refine wp_call (fun a s' e => ?_) (fun e he => ?_) hfail hcr
  · split at e
    · cases e
    · rename_i hb
      cases e
      exact hok (by simp [hb])
  · split at he
    · cases he
      exact hnone ‹_›
    · cases he

theorem wp_writeAll {Q : Outcome ε Unit → Disk → Prop} {old : Bytes} (hp : d.read p = some old)
    (hok : (old ++ b).length ≤ maxFileLen → Q (.ok ()) (d.append p b))
    (hbig : maxFileLen < (old ++ b).length → Q (.err (ofIo .fileTooLarge)) d)
    (hfail : ∀ n, A (.fail n) → Q (.err (ofIo .other)) (d.append p (b.take n)))
    (hcr : ∀ n, A (.crash n) → Q .crash (d.append p (b.take n))) : wp A (writeAll p b) Q d := by
  refine wp_callPart (fun a s' e => ?_) (fun e he => ?_) hfail hcr
  · rw [hp] at e
    dsimp only at e
    split_ifs at e with hl
    cases e
    exact hok hl
  · rw [hp] at he
    dsimp only at he
    split_ifs at he with hl
    cases he
    exact hbig (by omega)

/-- A write to a file with known contents. -/
theorem wp_writeAll_put {Q : Outcome ε Unit → Disk → Prop} {a : Bytes} {h : a.length ≤ maxFileLen}
    (hok : ∀ h', Q (.ok ()) (d.put p (a ++ b) h'))
    (herr : ∀ i, MayFail A (maxFileLen < (a ++ b).length) i → ∀ d', d.Touched p d' →
      Q (.err (ofIo i)) d')
    (hcr : ∀ d', d.Touched p d' → Q .crash d') : wp A (writeAll p b) Q (d.put p a h) := by
  have hp : (d.put p a h).read p = some a := by rw [Disk.read_put, if_pos rfl]
  refine wp_writeAll hp (fun hl => ?_) (fun hb => herr _ (mayFail_tooLarge hb) _ Disk.touched_put)
    (fun _ hf => herr _ (mayFail_of hf) _ (Disk.touched_put.trans Disk.touched_append))
    fun _ _ => hcr _ (Disk.touched_put.trans Disk.touched_append)
  rw [Disk.append_eq_put hp hl, Disk.put_put]
  exact hok hl

theorem run_touch (d : Disk) (l : List Fault) : ((touch : Prog Disk ε Unit).run d l).2 = d := by
  rcases l with _ | ⟨_ | _ | _ | _, l⟩ <;> rfl

/-- A write without a fault, when the file does not get too long. -/
theorem run_writeAll_bind {β : Type} {k : Unit → Prog Disk ε β} {d : Disk} {p : Path} {old b : Bytes}
    {l : List Fault} (hl : Prog.firstFault l = .none) (hd : d.read p = some old)
    (hs : (old ++ b).length ≤ maxFileLen) :
    (writeAll p b >>= k).run d l = (k ()).run (d.append p b) l.tail :=
  Prog.run_callPart_of_none hl (by simp only [hd, if_pos hs])

theorem run_readFile {d : Disk} {p : Path} {b : Bytes} (h : d.read p = some b) :
    (readFile p : Prog Disk ε Bytes).run d [] = (.ok b, d) := by
  refine wp.run_nil_eq (wp_readFile (fun b' hb _ => ?_) (fun hn => ?_)
    (fun n hn => absurd hn (not_noFault_fail n)) fun _ _ hc => absurd rfl hc)
  · rw [h] at hb
    cases hb
    rfl
  · rw [h] at hn
    cases hn

theorem run_reads {α : Type} {x : Except ε α} {a : α} {d : Disk} (h : x = .ok a) :
    (reads x).run d [] = (.ok a, d) := by
  subst h
  rfl

theorem run_reads_error {α : Type} {x : Except ε α} {e : ε} {d : Disk} (h : x = .error e) :
    (reads x).run d [] = (.err e, d) := by
  subst h
  rfl

theorem eq_of_run_reads {α : Type} {x : Except ε α} {a : α} {d d' : Disk}
    (h : (reads x).run d [] = (.ok a, d')) : x = .ok a ∧ d' = d := by
  cases hx : x with
  | ok b =>
    rw [run_reads hx] at h
    cases h
    exact ⟨rfl, rfl⟩
  | error e =>
    rw [run_reads_error hx] at h
    cases h

theorem resize_of_le {old : Bytes} {n : ℕ} (hn : n ≤ old.length) : resize old n = old.take n := by
  rw [resize, Nat.sub_eq_zero_of_le hn, List.replicate_zero, List.append_nil]

theorem wp_setLen {Q : Outcome ε Unit → Disk → Prop} {n : ℕ} {old : Bytes} (hp : d.read p = some old)
    (hn : n ≤ old.length)
    (hok : ∀ h : (old.take n).length ≤ maxFileLen, Q (.ok ()) (d.put p (old.take n) h))
    (hfail : ∀ n, A (.fail n) → Q (.err (ofIo .other)) d) (hcr : ∀ n, A (.crash n) → Q .crash d) :
    wp A (setLen p n) Q d := by
  have hl : (old.take n).length ≤ maxFileLen :=
    (List.length_take_le' n old).trans (Disk.length_le_of_read hp)
  refine wp_call (fun a s' e => ?_) (fun e he => ?_) hfail hcr
  · rw [hp] at e
    simp only [resize_of_le hn, dif_pos hl] at e
    cases e
    exact hok hl
  · rw [hp] at he
    simp only [resize_of_le hn, dif_pos hl] at he
    cases he

theorem wp_readDir {Q : Outcome ε (List Name) → Disk → Prop} (hok : Q (.ok (d.list dir)) d)
    (hfail : ∀ n, A (.fail n) → Q (.err (ofIo .other)) d) (hcr : ∀ n, A (.crash n) → Q .crash d) :
    wp A (readDir dir) Q d :=
  wp_call (fun _ _ e => by cases e; exact hok) (fun _ e => by cases e) hfail hcr

theorem wp_reads {Q : Outcome ε α → Disk → Prop} {x : Except ε α}
    (hok : ∀ a, x = .ok a → Q (.ok a) d) (herr : ∀ e, x = .error e → Q (.err e) d)
    (hfail : ∀ n, A (.fail n) → Q (.err (ofIo .other)) d) (hcr : ∀ n, A (.crash n) → Q .crash d) :
    wp A (reads x) Q d := by
  refine wp_call (fun a s' e => ?_) (fun e he => ?_) hfail hcr
  · cases hx : x with
    | ok a => rw [hx] at e; cases e; exact hok a hx
    | error f => rw [hx] at e; cases e
  · cases hx : x with
    | ok a => rw [hx] at he; cases he
    | error f => rw [hx] at he; cases he; exact herr _ hx

end Rules

end Fs

end FaultProg
