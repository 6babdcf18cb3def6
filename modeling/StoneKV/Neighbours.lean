import StoneKV.Footprint
import StoneKV.Runs

/-!
# Stores beside each other

Stores in different directories of one disk, each in a process of its own. What is on the disk at
first is anything, and any call of any of them may fail or be the last of its process.

* `Query`, `Turn`: what is done with a store; `turnOf`: what it does to the store and the disk.
* **`other_files_untouched`**: whatever is done with a store, other files stay as they are.
* `DirsApart`: two directories, neither of them where the other store has files.
* **`stores_isolated`**: of stores in directories apart, each is as it would be without the others.
-/

namespace StoneKV

open FaultProg

/-- A method of an open store. -/
inductive Query
  | set (key : Key) (val : Val)
  | delete (key : Key)
  | get (key : Key)
  | compact
  | stats
  | verify

/-- What a method returns. -/
inductive Answer
  | done
  | value (v : Option Val)
  | compacted (stats : CompactionStats)
  | counted (stats : StoreStats)
  | verified (stats : VerifyStats)
  deriving DecidableEq

namespace Query

def method : Query → Method Answer
  | .set key val => do
    Store.set key val
    return .done
  | .delete key => do
    Store.delete key
    return .done
  | .get key => return .value (← Store.get key)
  | .compact => return .compacted (← Store.compact)
  | .stats => return .counted (← Store.stats)
  | .verify => return .verified (← Store.verify)

/-- The files that the method may change. -/
def changes (dir : Path) : Query → Set Path
  | .set _ _ | .delete _ | .compact => Owned dir
  | .verify => {walPathOf dir}
  | .get _ | .stats => ∅

theorem inside {dir : Path} (q : Query) : Inside (homeOf dir) q.method := by
  cases q with
  | set key val => exact inside_logged.seq fun _ => contained_pure trivial
  | delete key => exact inside_logged.seq fun _ => contained_pure trivial
  | get key => exact inside_get.seq fun _ => contained_pure trivial
  | compact => exact inside_compact.seq fun _ => contained_pure trivial
  | stats => exact (inside_stats fun _ => .inr).seq fun _ => contained_pure trivial
  | verify => exact (inside_verify wal_mem_owned).seq fun _ => contained_pure trivial

/-- **A method** changes no other files, whatever fails in it. -/
theorem read_eq {dir : Path} {s : Store} {d : Disk} {p : Path} (q : Query) (hs : Homed dir s)
    (l : List Fault) (hp : p ∉ q.changes dir) : (q.method.run (s, d) l).2.2.read p = d.read p := by
  cases q with
  | set key val => exact (inside (.set key val)).read_eq_withVar hs l hp
  | delete key => exact (inside (.delete key)).read_eq_withVar hs l hp
  | compact => exact (inside .compact).read_eq_withVar hs l hp
  | get key =>
    have hget : Inside ((Region.files ∅ ∅).withVar (Homed dir)) (method (.get key)) :=
      inside_get.seq fun _ => contained_pure trivial
    exact hget.read_eq_withVar hs l hp
  | stats =>
    have hstats : Inside ((Region.files (Owned dir) ∅).withVar (Homed dir)) (method .stats) :=
      (inside_stats fun _ => .inl).seq fun _ => contained_pure trivial
    exact hstats.read_eq_withVar hs l hp
  | verify =>
    have hverify : Inside ((Region.files ∅ {walPathOf dir}).withVar (Homed dir)) (method .verify) :=
      (inside_verify (Set.mem_singleton _)).seq fun _ => contained_pure trivial
    exact hverify.read_eq_withVar hs l hp

end Query

/-! ## Turns -/

/-- What is done with a store: it is opened, in a new process, or a method is called. -/
inductive Turn
  | opens (flushThresholdBytes : ℕ)
  | asks (q : Query)

/-- The files that the turn may change. -/
def Turn.changes (dir : Path) : Turn → Set Path
  | .opens _ => Owned dir
  | .asks q => q.changes dir

/-- What a turn with its faults does to the store at `dir`, if it is open, and to the disk, and what it
returns. A call that dies ends the process. -/
def turnOf (dir : Path) (w : Turn × List Fault) (x : Option Store × Disk) :
    Option (Outcome StoneError Answer) × Option Store × Disk :=
  match w.1, x.1 with
  | .opens t, _ =>
    let r := (Store.openWithThreshold dir t).run x.2 w.2
    (some (match r.1 with
      | .ok _ => .ok .done
      | .err e => .err e
      | .crash => .crash), openedStore r.1, r.2)
  | .asks q, some s =>
    let r := q.method.run (s, x.2) w.2
    (some r.1, leftStore r.2.1 r.1.void, r.2.2)
  | .asks _, none => (none, none, x.2)

/-- The store at `dir` and the disk after some turns. -/
def afterTurns (dir : Path) (ws : List (Turn × List Fault)) (d : Disk) : Option Store × Disk :=
  ws.foldl (fun x w => (turnOf dir w x).2) (none, d)

section Turns

variable {dir : Path} {w : Turn × List Fault} {x : Option Store × Disk} {d : Disk} {p : Path}

/-- A store that is open is at `dir`. -/
def HomedIf (dir : Path) (x : Option Store) : Prop := ∀ s, x = some s → Homed dir s

theorem homedIf_turnOf (h : HomedIf dir x.1) : HomedIf dir (turnOf dir w x).2.1 := by
  obtain ⟨w, l⟩ := w
  obtain ⟨x, d⟩ := x
  intro s hs
  rcases w with t | q
  · have hopen := (contained_openWithThreshold : Contained _ (Store.openWithThreshold dir t) _) d d l
      alike_self
    have hs : openedStore ((Store.openWithThreshold dir t).run d l).1 = some s := hs
    rcases ho : ((Store.openWithThreshold dir t).run d l).1 with s' | _ | _ <;> rw [ho] at hs <;>
      cases hs
    exact hopen.value _ ho
  · rcases x with _ | s₀
    · cases hs
    · have hcall := q.inside (s₀, d) (s₀, d) l ⟨rfl, h s₀ rfl, alike_self⟩
      have hs : leftStore (q.method.run (s₀, d) l).2.1 (q.method.run (s₀, d) l).1.void = some s := hs
      have hleft : s = (q.method.run (s₀, d) l).2.1 := by
        rcases ho : (q.method.run (s₀, d) l).1 with _ | _ | _ <;> rw [ho] at hs <;> cases hs <;> rfl
      rw [hleft]
      exact hcall.alike.2.1

/-- **One turn** changes no other files. -/
theorem turnOf_read_eq (h : HomedIf dir x.1) (hp : p ∉ w.1.changes dir) :
    (turnOf dir w x).2.2.read p = x.2.read p := by
  obtain ⟨w, l⟩ := w
  obtain ⟨x, d⟩ := x
  rcases w with t | q
  · exact contained_openWithThreshold.read_eq l hp
  · rcases x with _ | s₀
    · rfl
    · exact q.read_eq (h s₀ rfl) l hp

/-- **Other files are not touched.** On any disk, whatever is done with a store at `dir` (it is opened
again and again, and its methods are called), whatever fails and wherever its processes die: a file is
as it was unless one of the turns may change it. Opening, `set`, `delete` and `compact` may change the
log and files of the directory of segments with names of the store's own, `verify` the log, and `get`
and `stats` no file. -/
theorem other_files_untouched (dir : Path) (ws : List (Turn × List Fault)) (d : Disk) (p : Path)
    (hp : ∀ w ∈ ws, p ∉ w.1.changes dir) : (afterTurns dir ws d).2.read p = d.read p := by
  suffices h : HomedIf dir (afterTurns dir ws d).1 ∧ (afterTurns dir ws d).2.read p = d.read p from h.2
  induction ws using List.reverseRecOn with
  | nil => exact ⟨nofun, rfl⟩
  | append_singleton ws w ih =>
    obtain ⟨hhomed, hread⟩ := ih fun w hw => hp w (List.mem_append_left _ hw)
    have hlast := hp w (List.mem_append_right _ List.mem_cons_self)
    unfold afterTurns at hhomed hread ⊢
    rw [List.foldl_append]
    exact ⟨homedIf_turnOf hhomed, (turnOf_read_eq hhomed hlast).trans hread⟩

instance : DecidablePred IsStoreName := fun _ => inferInstanceAs (Decidable (_ ∨ _))

/-- A file that the user keeps among the segments. -/
def keptPath : Path := segmentsDirOf [['d']] ++ ["README".toList]

theorem keptPath_not_mem : keptPath ∉ Owned [['d']] := by
  rintro (h | ⟨n, hn, h⟩)
  · exact segmentsDir_ne_wal h
  · rw [append_singleton_inj.mp h.symm] at hn
    exact absurd hn (by decide)

/-- The store is opened, a write in it fails, and it dies in a compaction. -/
def failingTurns : List (Turn × List Fault) :=
  [(.opens 0, []), (.asks (.set [] []), [.none, .fail 1]), (.asks .compact, [.crash 0])]

theorem other_files_untouched_kept :
    (afterTurns [['d']] failingTurns (Disk.empty.put keptPath [7] (by decide))).2.read keptPath =
      (Disk.empty.put keptPath [7] (by decide)).read keptPath :=
  other_files_untouched _ _ _ _ (by
    simp only [failingTurns, List.forall_mem_cons]
    exact ⟨keptPath_not_mem, keptPath_not_mem, keptPath_not_mem, nofun⟩)

end Turns

/-! ## Stores in directories apart -/

/-- The components of the path are names, and no other ways to write a path. -/
def Normal (p : Path) : Prop := ∀ n ∈ p, n ≠ [] ∧ n ≠ ['.'] ∧ n ≠ ['.', '.'] ∧ '/' ∉ n

/-- The directory lies neither at nor under the log of the store at `dir'`, and neither at nor under
its directory of segments. -/
def Outside (dir dir' : Path) : Prop := ¬ walPathOf dir' <+: dir ∧ ¬ segmentsDirOf dir' <+: dir

/-- Two directories, neither of which lies where the other store has files. -/
structure DirsApart (dir dir' : Path) : Prop where
  normal : Normal dir ∧ Normal dir'
  ne : dir ≠ dir'
  outside : Outside dir dir' ∧ Outside dir' dir

instance {p : Path} : Decidable (Normal p) := inferInstanceAs (Decidable (∀ n ∈ p, _))

instance {dir dir' : Path} : Decidable (Outside dir dir') := inferInstanceAs (Decidable (_ ∧ _))

section Apart

variable {dir dir' p : Path}

/-- A store changes no file that a store apart may read. -/
theorem DirsApart.not_mem (h : DirsApart dir dir') (hp : p ∈ Beside dir ∨ p ∈ Owned dir) :
    p ∉ Owned dir' := by
  -- a path in two places: the names and the directories are the same
  have hsplit : ∀ {q q' : Path} {n n' : Name}, q ++ [n] = q' ++ [n'] → q = q' ∧ n = n' :=
    fun h => ⟨(List.append_inj' h rfl).1, List.singleton_injective (List.append_inj' h rfl).2⟩
  have hplaces : p = walPathOf dir ∨ ∃ n, p = segmentsDirOf dir ++ [n] := by
    rcases hp with hp | hp | ⟨n, -, hp⟩
    · exact .inr hp
    · exact .inl hp
    · exact .inr ⟨n, hp⟩
  rintro (hp' | ⟨n', -, hp'⟩)
  · rcases hplaces with hp | ⟨n, hp⟩
    · exact h.ne (hsplit (hp.symm.trans hp')).1
    · exact h.outside.2.2 ((hsplit (hp.symm.trans hp')).1 ▸ List.prefix_rfl)
  · rcases hplaces with hp | ⟨n, hp⟩
    · exact h.outside.1.2 ((hsplit (hp'.symm.trans hp)).1 ▸ List.prefix_rfl)
    · exact h.ne (hsplit (hsplit (hp.symm.trans hp')).1).1

end Apart

/-- The store at `dir` as one of several on a disk. -/
def storeAt (dir : Path) :
    Component Disk (Option Store) (Turn × List Fault) (Option (Outcome StoneError Answer)) where
  region := regionOf dir
  Inv := HomedIf dir
  turn := turnOf dir
  refl _ := alike_self
  outcome := by
    rintro ⟨w, l⟩ x d d' hx hd
    rcases w with t | q
    · obtain ⟨ho, -, ha, -, -⟩ :=
        (contained_openWithThreshold : Contained _ (Store.openWithThreshold dir t) _) d d' l hd
      have ho : ((Store.openWithThreshold dir t).run d l).1 =
        ((Store.openWithThreshold dir t).run d' l).1 := ho
      unfold turnOf
      dsimp only
      rw [ho]
      exact ⟨rfl, rfl, ha⟩
    · rcases x with _ | s
      · exact ⟨rfl, rfl, hd⟩
      · obtain ⟨ho, -, ⟨hs, -, ha⟩, -, -⟩ := q.inside (s, d) (s, d') l ⟨rfl, hx s rfl, hd⟩
        have ho : (q.method.run (s, d) l).1 = (q.method.run (s, d') l).1 := ho
        have hs : (q.method.run (s, d) l).2.1 = (q.method.run (s, d') l).2.1 := hs
        unfold turnOf
        dsimp only
        rw [ho, hs]
        exact ⟨rfl, rfl, ha⟩
  inv _ _ _ hx := homedIf_turnOf hx
  spared := by
    rintro ⟨w, l⟩ x d hx
    rcases w with t | q
    · exact (contained_openWithThreshold d d l alike_self).spared
    · rcases x with _ | s
      · exact Region.refl _ d
      · exact (q.inside (s, d) (s, d) l ⟨rfl, hx s rfl, alike_self⟩).spared

section Isolated

variable {ι : Type} [DecidableEq ι]

/-- The stores, none of which is open, on the disk `d`. -/
def closedStores (d : Disk) :
    Joint ι Disk (Option Store) (Option (Outcome StoneError Answer)) := ⟨fun _ => none, d, []⟩

/-- **Stores beside each other.** On any disk, take stores in directories apart. In any order of their
turns, whatever fails and wherever their processes die: each of them is answered what it is answered,
holds what it holds, and has in its files what it has after its own turns alone. -/
theorem stores_isolated (dirs : ι → Path) (hdirs : Pairwise fun i j => DirsApart (dirs i) (dirs j))
    (d : Disk) (ws : List (ι × Turn × List Fault)) (i : ι) :
    let x := (closedStores d).run (fun i => storeAt (dirs i)) ws
    let y := (closedStores d).run (fun i => storeAt (dirs i)) (ws.filter fun w => w.1 = i)
    x.answersOf i = y.answersOf i ∧ x.own i = y.own i ∧
      ∀ p ∈ Owned (dirs i), x.state.read p = y.state.read p := by
  have happly : Joint.Apart fun i => storeAt (dirs i) := by
    intro i j hij d d' d'' hspared halike
    refine ⟨fun p hp => ?_, hspared.2.trans halike.2⟩
    rw [hspared.1 p ((hdirs hij).not_mem hp)]
    exact halike.1 p hp
  have hsame := Joint.purge happly i ws (closedStores d) (closedStores d) (fun _ => nofun)
    ⟨rfl, nofun, alike_self, rfl⟩
  exact ⟨hsame.answers, hsame.own, fun p hp => hsame.state.1 p (.inr hp)⟩

/-- Two directories. -/
def twoDirs (b : Bool) : Path := if b then [['a']] else [['b']]

/-- A key is set in one of two stores and read in the other one. -/
def twoTurns : List (Bool × Turn × List Fault) :=
  [(true, .opens 0, []), (false, .opens 0, []), (true, .asks (.set [] []), []),
    (false, .asks (.get []), [])]

theorem stores_isolated_two :
    let x := (closedStores Disk.empty).run (fun b => storeAt (twoDirs b)) twoTurns
    let y := (closedStores Disk.empty).run (fun b => storeAt (twoDirs b))
      (twoTurns.filter fun w => w.1 = false)
    x.answersOf false = y.answersOf false ∧ x.own false = y.own false ∧
      ∀ p ∈ Owned (twoDirs false), x.state.read p = y.state.read p := by
  refine stores_isolated twoDirs ?_ Disk.empty twoTurns false
  rintro (_ | _) (_ | _) hne
  · exact absurd rfl hne
  · exact ⟨by decide, by decide, by decide⟩
  · exact ⟨by decide, by decide, by decide⟩
  · exact absurd rfl hne

end Isolated

end StoneKV
