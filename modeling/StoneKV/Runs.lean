import StoneKV.Opening

/-!
# Runs

* `Reachable A B dir`: what can be reached from an empty directory by opening the store, with the
  faults `A`, and by calls, with the faults `B`; **`Reachable.served`**.
* `FaultyRun`: calls of which any part can fail.
* **`faultyRun_answers`**: after each call of such a run the store answers as if exactly the calls
  whose append succeeded had been made, and its segments are in order and on disk.
-/

namespace StoneKV

open FaultProg

/-- There is nothing in the directory. -/
def Fresh (dir : Path) (d : Disk) : Prop := ∀ p, dir <+: p → d.read p = none

/-- The store that `open` leaves. -/
def openedStore : Outcome StoneError Store → Option Store
  | .ok s => some s
  | .err _ | .crash => none

/-- The store that a call leaves. -/
def leftStore (s : Store) : Outcome StoneError Unit → Option Store
  | .ok _ | .err _ => some s
  | .crash => none

theorem leftStore_of_ne_crash {s : Store} {o : Outcome StoneError Unit} (ho : o ≠ .crash) :
    leftStore s o = some s := by
  rcases o with _ | _ | _
  · rfl
  · rfl
  · exact absurd rfl ho

/-- What can be reached from an empty directory: the open store, if there is one, and the disk. A
store is opened under faults that `A` allows, with the files listed in any order, and a call made
under faults that `B` allows; an I/O error takes a fault; no segment has the last generation. -/
inductive Reachable (A : Fault → Prop) (B : Call → Fault → Prop) (dir : Path) :
    Option Store → Disk → Prop
  | fresh {d : Disk} : Fresh dir d → Reachable A B dir none d
  | opened {x : Option Store} {d d' : Disk} {t : ℕ} {f : List Name → List Name}
    {h : ∀ l, (f l).Perm l} {l : List Fault} {o : Outcome StoneError Store} :
    Reachable A B dir x d → (∀ e ∈ l, A e) →
    (Store.openWithThreshold dir t).run (d.reorder f h) l = (o, d') →
    Reachable A B dir (openedStore o) d'
  | called {s s' : Store} {d d' : Disk} {c : Call} {l : List Fault} {o : Outcome StoneError Unit} :
    Reachable A B dir (some s) d → (∀ e ∈ l, B c e) → c.method.run (s, d) l = (o, (s', d')) →
    (∀ i, o = .err (.io i) → CanFail (B c)) → (dirOf dir d').Below →
    Reachable A B dir (leftStore s' o) d'

/-- `get` answers what `f` holds, and changes nothing. -/
def Answers (x : Store × Disk) (f : Contents) : Prop :=
  ∀ k, (Store.get k).run x [] = (.ok (f k), x)

section Reachable

variable {A : Fault → Prop} {B : Call → Fault → Prop} {dir : Path} {x : Option Store} {d : Disk}
  {s : Store} {L : List (List Entry)}

theorem Fresh.files (h : Fresh dir d) (n : Name) : (dirOf dir d).files n = none := by
  by_cases hn : IsScratchName n
  · exact dirOf_files_of_scratch hn
  · rw [dirOf_files hn]
    exact h _ ((List.prefix_append _ _).trans (List.prefix_append _ _))

theorem Fresh.wal (h : Fresh dir d) : (dirOf dir d).wal = none := h _ (List.prefix_append _ _)

theorem Fresh.usable (h : Fresh dir d) : (dirOf dir d).Usable := by
  refine ⟨fun n b hb => ?_, h.files _⟩
  rw [h.files] at hb
  cases hb

/-- **What is reachable.** The directory is sane, and an open store serves segments in it. -/
theorem Reachable.served (h : Reachable A B dir x d) : (dirOf dir d).Usable ∧
    ∀ s, x = some s → ∃ L, Served dir s (dirOf dir d) L := by
  induction h with
  | fresh hd => exact ⟨hd.usable, nofun⟩
  | @opened _ d _ _ f h _ o _ hl hrun ih =>
    have hlisted : (dirOf dir (d.reorder f h)).Usable := ih.1
    obtain ⟨husable, hserved⟩ := (wp_openWithThreshold_sane hlisted).run_eq hl hrun
    refine ⟨husable, fun s hs => hserved s ?_⟩
    rcases o with s' | _ | _ <;> cases hs
    rfl
  | @called s s' _ d' c l o _ hl hrun _ hbelow ih =>
    obtain ⟨L, hL⟩ := ih.2 s rfl
    have hstep := (wp_call hL c).run_eq hl hrun
    obtain ⟨L', hL', -⟩ := hL.call_run (x := (s', d')) (l := l) (c := c) (by rw [hrun]) hbelow
    refine ⟨⟨hstep.sane hL bounded_dirOf ih.1.sane, hbelow⟩, fun s'' hs => ?_⟩
    rcases o with _ | _ | _ <;> cases hs <;> exact ⟨L', hL'⟩

theorem Served.answers (h : Served dir s (dirOf dir d) L) : Answers (s, d) (view s.memtable L) :=
  h.get_run

end Reachable

/-! ## Calls that fail -/

/-- A run of calls from `x`, under any faults that do not kill the process: `cs` are the calls whose
append succeeded. -/
inductive FaultyRun (dir : Path) (x : Store × Disk) : List Call → Store × Disk → Prop
  | start : FaultyRun dir x [] x
  | logged {cs : List Call} {y : Store × Disk} (c : Call) (l : List Fault) : FaultyRun dir x cs y →
    (∀ f ∈ l, NoCrash f) → c.Logged y l → (dirOf dir (c.method.run y l).2.2).Below →
    FaultyRun dir x (cs ++ [c]) (c.method.run y l).2
  | unlogged {cs : List Call} {y : Store × Disk} (c : Call) (l : List Fault) : FaultyRun dir x cs y →
    (∀ f ∈ l, NoCrash f) → ¬ c.Logged y l → (dirOf dir (c.method.run y l).2.2).Below →
    FaultyRun dir x cs (c.method.run y l).2

/-- What the calls are to do to the contents, one after another. -/
def changes (cs : List Call) (f : Contents) : Contents := cs.foldl (fun f c => c.change f) f

theorem changes_concat {cs : List Call} {c : Call} {f : Contents} :
    changes (cs ++ [c]) f = c.change (changes cs f) := by
  rw [changes, List.foldl_append]
  rfl

/-- **The store serves the logged calls.** -/
theorem FaultyRun.served {dir : Path} {s : Store} {d : Disk} {L : List (List Entry)} {cs : List Call}
    {y : Store × Disk} (h : Served dir s (dirOf dir d) L) (hrun : FaultyRun dir (s, d) cs y) :
    ∃ L', Served dir y.1 (dirOf dir y.2) L' ∧
      view y.1.memtable L' = changes cs (view s.memtable L) := by
  induction hrun with
  | start => exact ⟨L, h, rfl⟩
  | logged c l _ _ hlog hbelow ih =>
    obtain ⟨L₁, h₁, hview₁⟩ := ih
    obtain ⟨L₂, h₂, hview₂, -⟩ := h₁.call_run rfl hbelow
    refine ⟨L₂, h₂, ?_⟩
    rw [hview₂ hlog, hview₁, changes_concat]
  | unlogged c l _ _ hlog hbelow ih =>
    obtain ⟨L₁, h₁, hview₁⟩ := ih
    obtain ⟨L₂, h₂, -, hview₂⟩ := h₁.call_run rfl hbelow
    exact ⟨L₂, h₂, (hview₂ hlog).trans hview₁⟩

/-- **Failing calls leave the view intact.** Take an open store, reached in any way, and a run of
calls of which any part can fail. After each call `get` answers as if exactly the calls whose append
succeeded had been made, the segments are strictly decreasing in generation and below the next
generation, and the file of each is there with the contents it was opened with. -/
theorem faultyRun_answers {dir : Path} {s : Store} {d : Disk}
    (h : Reachable AnyFault (fun _ => AnyFault) dir (some s) d) :
    ∃ f, Answers (s, d) f ∧ ∀ cs y, FaultyRun dir (s, d) cs y →
      Answers y (changes cs f) ∧
      (y.1.segments.Pairwise fun a b => b.generation < a.generation) ∧
      (∀ r ∈ y.1.segments, r.generation < y.1.nextSegmentGeneration) ∧
      ∀ r ∈ y.1.segments, y.2.read r.path = some r.file := by
  obtain ⟨L, hL⟩ := h.served.2 s rfl
  refine ⟨view s.memtable L, hL.answers, fun cs y hrun => ?_⟩
  obtain ⟨L', hL', hview⟩ := hrun.served hL
  refine ⟨hview ▸ hL'.answers, hL'.decreasing, hL'.below, fun r hr => ?_⟩
  obtain ⟨es, -, hl⟩ := hL'.exists_lists hr
  rw [hl.path, ← dirOf_files (not_isScratchName_of_parse hl.parse), hl.file]

/-- A disk after a store has been opened in an empty directory. -/
def openedDisk : Disk := Disk.empty.put (walPathOf [['d']]) [] (Nat.zero_le _)

/-- The store that was opened, with flushes at every write. -/
def newStore : Store := ⟨[['d']], ⟨walPathOf [['d']]⟩, .new, [], 1, 0⟩

theorem fresh_empty (dir : Path) : Fresh dir Disk.empty := fun _ _ => Disk.read_empty

theorem open_empty (t : ℕ) :
    (Store.openWithThreshold [['d']] t).run (Disk.empty.reorder id fun l => .refl l) [] =
      (.ok { newStore with flushThresholdBytes := t }, openedDisk) := rfl

/-- A store that was opened with any threshold. -/
theorem reachable_new {A : Fault → Prop} {B : Call → Fault → Prop} (t : ℕ) :
    Reachable A B [['d']] (some { newStore with flushThresholdBytes := t }) openedDisk :=
  .opened (.fresh (fresh_empty _)) (by simp) (open_empty t)

theorem faultyRun_answers_new : ∃ f, Answers (newStore, openedDisk) f ∧
    ∀ cs y, FaultyRun [['d']] (newStore, openedDisk) cs y →
      Answers y (changes cs f) ∧
      (y.1.segments.Pairwise fun a b => b.generation < a.generation) ∧
      (∀ r ∈ y.1.segments, r.generation < y.1.nextSegmentGeneration) ∧
      ∀ r ∈ y.1.segments, y.2.read r.path = some r.file :=
  faultyRun_answers (reachable_new 0)

end StoneKV
