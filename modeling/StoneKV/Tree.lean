import StoneKV.Lib.LsmTree
import StoneKV.MemtableSize
import StoneKV.Sessions

/-!
# The store as a log-structured merge tree

* `parts t`: the memtables, segments and records of a store with the threshold `t`, as the parts of a
  tree; `SegmentTree`: such a tree, without any files.
* `SegmentTree.store`, `SegmentTree.dir`: the open store and the directory that are a given tree.
* **`CallStep.tree`**: a call that returns is one operation on the tree.
* **`store_is_tree`**: without failures an open store and its directory are a tree, byte for byte.
-/

namespace StoneKV

open FaultProg LsmTree

/-- A tree of segments. -/
abbrev SegmentTree : Type := Tree (List Entry) Record

/-- What a store with the threshold `t` is made of. -/
def parts (t : ℕ) : Parts Memtable (List Entry) Record where
  empty := .new
  isEmpty := Memtable.isEmpty
  apply := applyRecord
  full m := m.isOverThreshold t
  freeze := Memtable.iter
  merge := merged

/-- What a call does with the tree. -/
def Call.action : Call → Action Record
  | .set key val => .write (.newSet key val)
  | .delete key => .write (.newDelete key)
  | .get _ => .skip
  | .compact => .compact

namespace SegmentTree

def generations (T : SegmentTree) : List ℕ := T.runs.map Prod.fst

def segments (T : SegmentTree) : List (List Entry) := T.runs.map Prod.snd

/-- The open store at `dir`. -/
def store (dir : Path) (t : ℕ) (T : SegmentTree) : Store := storeOf dir T.generations T.segments T.log t

/-- The files of the store. -/
def dir (T : SegmentTree) : Dir where
  files n := (T.runs.find? fun r => segmentFilename r.1 = n).map fun r => segmentImage r.2
  wal := some (logImage T.log)

/-- The tree after the calls. -/
def run (t : ℕ) (T : SegmentTree) (cs : List Call) : SegmentTree :=
  (parts t).run T (cs.map Call.action)

end SegmentTree

/-- The store and its directory are the tree. -/
def IsTree (dir : Path) (t : ℕ) (T : SegmentTree) (s : Store) (D : Dir) : Prop :=
  Live dir s D T.generations T.segments T.log t

section IsTree

variable {A : Fault → Prop} {dir : Path} {t : ℕ} {T : SegmentTree} {s s' : Store} {D D' : Dir}
  {gs : List ℕ} {L : List (List Entry)} {rs : List Record} {c : Call} {r : Record}
  {o : Outcome StoneError Unit}

theorem SegmentTree.run_concat {cs : List Call} :
    T.run t (cs ++ [c]) = (parts t).step (T.run t cs) c.action := by
  rw [run, List.map_append, List.map_singleton, Parts.run_concat]
  rfl

/-- What is live is a tree. -/
theorem Live.isTree (h : Live dir s D gs L rs t) : ∃ T, IsTree dir t T s D := by
  refine ⟨⟨rs, gs.zip L⟩, ?_⟩
  have hlen := h.settled.holds.length_eq
  have hgs : SegmentTree.generations ⟨rs, gs.zip L⟩ = gs := List.map_fst_zip hlen.le
  have hL : SegmentTree.segments ⟨rs, gs.zip L⟩ = L := List.map_snd_zip hlen.ge
  rwa [IsTree, hgs, hL]

theorem nextOf_generations (T : SegmentTree) : nextOf T.generations = T.next := by
  obtain ⟨log, _ | ⟨⟨g, es⟩, runs⟩⟩ := T <;> rfl

theorem IsTree.buffer_eq (h : IsTree dir t T s D) : (parts t).buffer T = s.memtable :=
  (Live.memtable_eq h).symm

theorem IsTree.next_eq (h : IsTree dir t T s D) : s.nextSegmentGeneration = T.next := by
  rw [Live.store h, ← nextOf_generations]
  rfl

theorem IsTree.threshold_eq (h : IsTree dir t T s D) : s.flushThresholdBytes = t := by
  rw [Live.store h]
  rfl

theorem IsTree.segments_length (h : IsTree dir t T s D) : s.segments.length = T.runs.length := by
  rw [(Live.backed h).served.lists.length_eq, SegmentTree.segments, List.length_map]

/-- **The files of a tree.** -/
theorem IsTree.eq (h : IsTree dir t T s D) : s = T.store dir t ∧ D = T.dir := by
  refine ⟨Live.store h, Dir.ext (funext fun n => ?_) (Live.log h)⟩
  have himages := (Live.settled h).holds.images
  rw [SegmentTree.generations, SegmentTree.segments, List.forall₂_map_left_iff,
    List.forall₂_map_right_iff, List.forall₂_same] at himages
  unfold SegmentTree.dir
  dsimp only
  rcases hf : T.runs.find? (fun r => segmentFilename r.1 = n) with _ | r
  · rw [hf, Option.map_none]
    by_contra hne
    have hmem := (Live.settled h).only n (Option.isSome_iff_ne_none.mpr hne)
    rw [SegmentTree.generations, List.map_map] at hmem
    obtain ⟨r, hr, hn⟩ := List.mem_map.mp hmem
    have hnot := List.find?_eq_none.mp hf r hr
    exact hnot (decide_eq_true hn)
  · have hn : segmentFilename r.1 = n := of_decide_eq_true (List.find?_some hf :)
    rw [hf, Option.map_some, ← hn]
    exact (himages r (List.mem_of_find?_eq_some hf)).2

/-! ### Operations -/

theorem FlushStep.tree (hs : FlushStep A s D (.ok ()) s' D') (h : IsTree dir t T s D)
    (hb : D'.Bounded) : IsTree dir t ((parts t).flush T) s' D' := by
  have hbuffer := h.buffer_eq
  cases hs with
  | empty hempty => rwa [Parts.flush_of_isEmpty (by rw [hbuffer]; exact hempty)]
  | aborted ho => exact absurd rfl ho.ne_ok
  | installed ho => exact absurd rfl ho.ne_ok
  | done hlt hne =>
    obtain ⟨gs', rs', h'⟩ := FlushStep.live (A := A) (.done hlt hne) h hb
    rw [Store.segmentsAfter, if_neg hne] at h'
    obtain rfl : rs' = [] := logImage_eq_nil.mp (Option.some_inj.mp h'.log).symm
    have hgens : gs' = T.next :: T.generations := by
      rw [← generations_readersOf h'.settled.holds.length_eq, ← h'.backed.segments, ← h.next_eq]
      change _ :: s.segments.map SegmentReader.generation = _
      rw [(Live.backed h).segments, generations_readersOf (Live.settled h).holds.length_eq]
      rfl
    rw [Parts.flush_of_not_isEmpty (by rw [hbuffer]; exact hne), hbuffer]
    rw [hgens] at h'
    exact h'

theorem MergeStep.tree (hs : MergeStep A s D (merged T.segments) (.ok ()) s' D')
    (h : IsTree dir t T s D) (hb : D'.Bounded) (hlen : 2 ≤ T.runs.length) :
    IsTree dir t ((parts t).merged T) s' D' := by
  have h' := hs.live h hb
  rw [h.next_eq] at h'
  rw [Parts.merged_of_le hlen]
  exact h'

theorem segmentsAfter_eq (h : IsTree dir t T s D) :
    s.segmentsAfter T.segments = SegmentTree.segments ((parts t).flush T) := by
  have hbuffer := h.buffer_eq
  unfold Store.segmentsAfter
  split_ifs with hempty
  · rw [Parts.flush_of_isEmpty (by rw [hbuffer]; exact hempty)]
  · rw [Parts.flush_of_not_isEmpty (by rw [hbuffer]; exact hempty), hbuffer]
    rfl

theorem CompactStep.tree (hs : CompactStep A s D T.segments (.ok ()) s' D')
    (h : IsTree dir t T s D) (hb : D'.Bounded) : IsTree dir t ((parts t).compact T) s' D' := by
  cases hs with
  | unflushed _ ho => exact absurd rfl ho
  | short hflush _ hlen =>
    have h₁ := hflush.tree h hb
    rw [h₁.segments_length] at hlen
    rwa [Parts.compact, Parts.merged_of_lt hlen]
  | merging hflush hb₁ hlen hmerge =>
    have h₁ := hflush.tree h hb₁
    rw [h₁.segments_length] at hlen
    rw [segmentsAfter_eq h] at hmerge
    exact hmerge.tree h₁ hb hlen

theorem LogStep.tree (hs : LogStep A s D r (.ok ()) s' D') (h : IsTree dir t T s D)
    (hb : D'.Bounded) : IsTree dir t ((parts t).write T r.stored) s' D' := by
  cases hs with
  | unlogged _ ho => exact absurd rfl ho
  | logged happend happlied =>
    have h₁ : IsTree dir t ⟨T.log ++ [r.stored], T.runs⟩ (s.applied r) _ := happend.live h
    have hbuffer := h₁.buffer_eq
    cases happlied with
    | kept hover =>
      rw [h₁.threshold_eq] at hover
      have hfull : ¬ (parts t).full ((parts t).buffer ⟨T.log ++ [r.stored], T.runs⟩) := by
        rw [hbuffer]
        exact (Bool.not_eq_true _).symm ▸ hover
      rwa [Parts.write_of_not_full hfull]
    | flushed hover hflush =>
      rw [h₁.threshold_eq] at hover
      have hfull : (parts t).full ((parts t).buffer ⟨T.log ++ [r.stored], T.runs⟩) := by
        rw [hbuffer]
        exact hover
      rw [Parts.write_of_full hfull]
      exact hflush.tree h₁ hb

/-- **A call that returns** is one operation. -/
theorem CallStep.tree (hs : CallStep A s D T.segments c (.ok ()) s' D') (h : IsTree dir t T s D)
    (hb : D'.Bounded) : IsTree dir t ((parts t).step T c.action) s' D' := by
  cases c with
  | set key val => exact LogStep.tree hs h hb
  | delete key => exact LogStep.tree hs h hb
  | get key =>
    obtain ⟨rfl, rfl⟩ : s' = s ∧ D' = D := hs
    exact h
  | compact => exact CompactStep.tree hs h hb

end IsTree

/-! ## Runs -/

section Runs

variable {dir : Path} {t : ℕ} {T : SegmentTree} {s : Store} {d : Disk} {x y : Store × Disk}
  {cs : List Call} {c : Call}

/-- A call without failures whose key and value are not too large returns. -/
theorem IsTree.call (h : IsTree dir t T s (dirOf dir d)) (hfits : c.Fits)
    (hio : (c.method.run (s, d) []).1 ≠ .err (.io .fileTooLarge))
    (hbelow : (dirOf dir (c.method.run (s, d) []).2.2).Below) :
    (c.method.run (s, d) []).1 = .ok () ∧
      IsTree dir t ((parts t).step T c.action) (c.method.run (s, d) []).2.1
        (dirOf dir (c.method.run (s, d) []).2.2) := by
  have hne : (c.method.run (s, d) []).1 ≠ .crash := run_nil_ne_crash
  have hstep := (wp_call (A := NoFault) (Live.backed h).served c).run (l := []) (by simp)
  have hok : (c.method.run (s, d) []).1 = .ok () := by
    by_cases hget : ∃ k, c = .get k
    · obtain ⟨k, rfl⟩ := hget
      exact congrArg Prod.fst (Prog.run_bind_nil ((Live.backed h).served.get_run k))
    rcases hstep.crash_or_ok (fun k hk => hget ⟨k, hk⟩) h reliable_noFault hio hbelow with
      hcr | ⟨hok, -⟩ | ⟨-, hnot, -⟩
    · exact absurd hcr hne
    · exact hok
    · exact absurd hfits hnot
  rw [hok] at hstep
  exact ⟨hok, hstep.tree h bounded_dirOf⟩

/-- **A run** is a run of actions. -/
theorem CleanRun.tree (h : IsTree dir t T x.1 (dirOf dir x.2)) (hrun : CleanRun dir x cs y) :
    IsTree dir t (T.run t cs) y.1 (dirOf dir y.2) := by
  induction hrun with
  | start => exact h
  | called c _ hfits hio hbelow ih =>
    rw [SegmentTree.run_concat]
    exact (ih.call hfits hio hbelow).2

/-- What is reached without failures is a tree. -/
theorem Reachable.isTree (h : Reachable NoFail (fun _ => NoFail) dir (some s) d) :
    ∃ T, IsTree dir s.flushThresholdBytes T s (dirOf dir d) := by
  obtain ⟨gs, L, rs, t, hlive⟩ := h.live.2 s rfl
  obtain ⟨T, hT⟩ := hlive.isTree
  exact ⟨T, hT.threshold_eq ▸ hT⟩

/-- A run without failures reaches what is reachable. -/
theorem CleanRun.reachable (h : Reachable NoFail (fun _ => NoFail) dir (some x.1) x.2)
    (hrun : CleanRun dir x cs y) : Reachable NoFail (fun _ => NoFail) dir (some y.1) y.2 := by
  induction hrun with
  | start => exact h
  | @called cs y c _ hfits hio hbelow ih =>
    obtain ⟨T, hT⟩ := ih.isTree
    exact ih.returned (hT.call hfits hio hbelow).1 hbelow

/-- **The store is a tree.** Take a store reached without failures, also by crashes and recoveries.
It and its directory are those of a tree, and after any calls without failures those of the tree after
these calls: each field of the store, and each byte of the log and the segments. -/
theorem store_is_tree (h : Reachable NoFail (fun _ => NoFail) dir (some s) d) :
    ∃ T : SegmentTree, s = T.store dir s.flushThresholdBytes ∧ dirOf dir d = T.dir ∧
      ∀ cs y, CleanRun dir (s, d) cs y →
        y.1 = (T.run s.flushThresholdBytes cs).store dir s.flushThresholdBytes ∧
        dirOf dir y.2 = (T.run s.flushThresholdBytes cs).dir := by
  obtain ⟨T, hT⟩ := h.isTree
  exact ⟨T, hT.eq.1, hT.eq.2, fun cs y hrun => (hrun.tree hT).eq⟩

theorem store_is_tree_used : ∃ T : SegmentTree,
    used.1 = T.store [['d']] used.1.flushThresholdBytes ∧ dirOf [['d']] used.2 = T.dir ∧
      ∀ cs y, CleanRun [['d']] used cs y →
        y.1 = (T.run used.1.flushThresholdBytes cs).store [['d']] used.1.flushThresholdBytes ∧
        dirOf [['d']] y.2 = (T.run used.1.flushThresholdBytes cs).dir :=
  store_is_tree reachable_used

end Runs

end StoneKV
