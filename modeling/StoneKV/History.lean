import StoneKV.Tree
import StoneKV.Failures
import StoneKV.Lives
import StoneKV.MarkerRuns
import StoneKV.Checks

/-!
# What a store keeps of its history

* `lawful_parts`: the tree of a store is lawful, and so a map.
* **`compaction_forgets`**: after a merge the bytes on disk depend on what the store holds, and on
  nothing else.
* **`segments_mul_le`**: how many segments writes can make.
* **`rewrites_stay_in_log`**: a key that is set again and again fills the log and never the memtable.
-/

namespace StoneKV

open FaultProg LsmTree

section Lawful

variable {es es' : List Entry} {m : Memtable} {r : Record}

theorem get_applyRecord : (applyRecord m r).get =
    Function.update m.get r.key (some (toEntry r).2) := by
  funext k
  rw [applyRecord_eq_put, Memtable.get_put, Function.update_apply]

/-- **The parts of a store** make lawful trees. -/
theorem lawful_parts (t : ℕ) : Lawful (parts t) Memtable.get layer Record.key
    (fun r => (toEntry r).2) Ascending where
  empty _ := Memtable.get_new
  isEmpty _ hb k := Memtable.isEmpty_iff.mp hb k
  apply _ _ := get_applyRecord
  freeze _ := layer_iter
  merge rs h := by
    rw [show (parts t).merge rs = liveEntries rs.reverse from rfl,
      layer_liveEntries fun es hes => h es (List.mem_reverse.mp hes), List.reverse_reverse]
  good_freeze _ := Memtable.ascending_iter
  good_merge _ := ascending_liveEntries

/-- An action is to do to the map what its call is to do to the contents. -/
theorem effect_action (c : Call) (f : Contents) :
    effect Record.key (fun r => (toEntry r).2) f c.action = c.change f := by
  cases c with
  | set key val => rfl
  | delete key => rfl
  | get key => rfl
  | compact => rfl

/-- The entries are what is found in them. -/
theorem ascending_ext (h : Ascending es) (h' : Ascending es') (hl : layer es = layer es') :
    es = es' := by
  have hmem : ∀ e, e ∈ es ↔ e ∈ es' := fun ⟨k, v⟩ => by
    rw [← lookup_eq_some h, ← lookup_eq_some h']
    exact iff_of_eq (congrArg (· = some v) (congrFun hl k))
  have hasymm : Std.Asymm fun a b : Entry => compare a.1 b.1 = .lt := ⟨fun a b hab hba => by
    rw [Std.OrientedCmp.gt_of_lt hab] at hba
    cases hba⟩
  exact h.eq_of_mem_iff h' fun {e} => hmem e

end Lawful

/-! ## Merging -/

section Forget

variable {dir dir' : Path} {t : ℕ} {T : SegmentTree} {s : Store} {d : Disk} {D : Dir}
  {x x' y y' : Store × Disk}

theorem IsTree.view_eq (h : IsTree dir t T s D) :
    LsmTree.view (parts t) Memtable.get layer T = StoneKV.view s.memtable T.segments := by
  rw [LsmTree.view, StoneKV.view, SegmentTree.segments, List.map_map, h.buffer_eq]
  rfl

theorem IsTree.good (h : IsTree dir t T s D) : T.Good Ascending := fun _ hr =>
  (Live.backed h).served.ascending _ (List.mem_map_of_mem hr)

theorem IsTree.answersOf_eq (h : IsTree dir t T s (dirOf dir d)) :
    answersOf (s, d) = LsmTree.view (parts t) Memtable.get layer T := by
  rw [Live.answersOf_eq h, h.view_eq]

/-- A log that replays to nothing is empty. -/
theorem log_eq_nil_of_isEmpty (h : (memtableOf T.log).isEmpty) : T.log = [] := by
  rcases List.eq_nil_or_concat' T.log with hnil | ⟨rs, r, heq⟩
  · exact hnil
  · rw [heq, memtableOf_append] at h
    exact absurd h not_isEmpty_applyRecord

theorem log_flush : ((parts t).flush T).log = [] := by
  by_cases hb : (parts t).isEmpty ((parts t).buffer T)
  · rw [Parts.flush_of_isEmpty hb]
    exact log_eq_nil_of_isEmpty hb
  · rw [Parts.flush_of_not_isEmpty hb]

theorem IsTree.length_flush (h : IsTree dir t T s D) :
    ((parts t).flush T).runs.length = s.segments.length + s.flushes := by
  rw [h.segments_length, Store.flushes, ← h.buffer_eq]
  split_ifs with hb
  · rw [Parts.flush_of_isEmpty hb, Nat.add_zero]
  · rw [Parts.flush_of_not_isEmpty hb, List.length_cons]

/-- A call of `compact` that returns, with two segments or more once the memtable is flushed. -/
structure Merges (dir : Path) (x y : Store × Disk) : Prop where
  run : Call.compact.method.run x [] = (.ok (), y)
  two : 2 ≤ x.1.segments.length + x.1.flushes
  below : (dirOf dir y.2).Below

/-- The store lists one segment, a file with the bytes `b`; there is no other file, and nothing in the
log or the memtable. -/
structure OneSegment (dir : Path) (y : Store × Disk) (b : Bytes) : Prop where
  segment : ∃ r, y.1.segments = [r] ∧ y.2.read r.path = some b ∧
    ∀ n, n ≠ fileName r → (dirOf dir y.2).files n = none
  log : y.2.read (walPathOf dir) = some []
  memtable : y.1.memtable.isEmpty

/-- The live entries of what is held, as a layer. -/
theorem Merges.oneSegment (h : Merges dir x y) (hT : IsTree dir t T x.1 (dirOf dir x.2)) :
    ∃ es, Ascending es ∧ (layer es = fun k => (answersOf x k).map some) ∧
      OneSegment dir y (segmentImage es) := by
  obtain ⟨s, d⟩ := x
  have hrun := h.run
  have hy := (hT.call (c := .compact) nofun (by rw [hrun]; nofun) (by rw [hrun]; exact h.below)).2
  rw [hrun] at hy
  have htwo : 2 ≤ ((parts t).flush T).runs.length := hT.length_flush ▸ h.two
  obtain ⟨es, hcompact, hasc, hlayer⟩ := layer_compact (lawful_parts t) hT.good htwo
  have hlog := log_flush (t := t) (T := T)
  rw [show (parts t).step T Call.compact.action = (parts t).compact T from rfl, hcompact, hlog] at hy
  rw [← hT.answersOf_eq] at hlayer
  refine ⟨es, hasc, hlayer, ⟨_, (Live.backed hy).segments, ?_, fun n hn => ?_⟩, Live.log hy, ?_⟩
  · obtain ⟨-, hfile⟩ := (List.forall₂_cons.mp (Live.settled hy).holds.images).1
    rw [dirOf_files not_isScratchName_segment] at hfile
    exact hfile
  · by_contra hne
    have hmem := (Live.settled hy).only n (Option.isSome_iff_ne_none.mpr hne)
    refine hn ((List.mem_singleton.mp hmem).trans ?_)
    exact Eq.symm (@fileName_readerOf dir _ es)
  · rw [Live.memtable_eq hy]
    rfl

/-- **Merging forgets.** Take two stores that were reached without failures, in any ways, in any
directories and with any thresholds, and that answer alike. When both are compacted, from two segments
or more, each has one segment, nothing in its log, and no other file; and the two segments are the
same, byte for byte. -/
theorem compaction_forgets (hx : Reachable NoFail (fun _ => NoFail) dir (some x.1) x.2)
    (hx' : Reachable NoFail (fun _ => NoFail) dir' (some x'.1) x'.2)
    (heq : answersOf x = answersOf x') (h : Merges dir x y) (h' : Merges dir' x' y') :
    ∃ b, OneSegment dir y b ∧ OneSegment dir' y' b := by
  obtain ⟨T, hT⟩ := hx.isTree
  obtain ⟨T', hT'⟩ := hx'.isTree
  obtain ⟨es, hasc, hlayer, hone⟩ := h.oneSegment hT
  obtain ⟨es', hasc', hlayer', hone'⟩ := h'.oneSegment hT'
  have hes : es = es' := ascending_ext hasc hasc' (by rw [hlayer, hlayer', heq])
  exact ⟨_, hone, hes ▸ hone'⟩

/-- What a run leaves is answered. -/
theorem CleanRun.answersOf_eq {cs : List Call}
    (h : Reachable NoFail (fun _ => NoFail) dir (some x.1) x.2) (hrun : CleanRun dir x cs y) :
    answersOf y = changes cs (answersOf x) := by
  obtain ⟨T, hT⟩ := h.isTree
  calc answersOf y
      = LsmTree.view (parts _) Memtable.get layer (T.run _ cs) := (hrun.tree hT).answersOf_eq
    _ = (cs.map Call.action).foldl (effect Record.key fun r => (toEntry r).2)
          (LsmTree.view (parts _) Memtable.get layer T) := (view_run (lawful_parts _) hT.good).2
    _ = changes cs (LsmTree.view (parts _) Memtable.get layer T) := by
        rw [List.foldl_map]
        simp only [effect_action, changes]
    _ = changes cs (answersOf x) := congrArg (changes cs) hT.answersOf_eq.symm

theorem reachable_eagerStore : Reachable NoFail (fun _ => NoFail) [['d']] (some eagerStore) openedDisk :=
  reachable_new 1

/-- The segments of `twoSegments`, in the other order. -/
def otherSegments : Store × Disk :=
  ((Call.set [97] [49]).method.run ((Call.set [98] [50]).method.run (eagerStore, openedDisk) []).2 []).2

instance {c : Call} : Decidable c.Fits :=
  decidable_of_iff (∀ r ∈ c.record, r.key.length ≤ Record.MAX_FIELD_LEN ∧
    r.value.length ≤ Record.MAX_FIELD_LEN) Iff.rfl

theorem cleanRun_twoSegments :
    CleanRun [['d']] (eagerStore, openedDisk) [.set [97] [49], .set [98] [50]] twoSegments :=
  .called _ (.called _ .start (by decide +kernel) (by decide +kernel) (by decide +kernel))
    (by decide +kernel) (by decide +kernel) (by decide +kernel)

theorem cleanRun_otherSegments :
    CleanRun [['d']] (eagerStore, openedDisk) [.set [98] [50], .set [97] [49]] otherSegments :=
  .called _ (.called _ .start (by decide +kernel) (by decide +kernel) (by decide +kernel))
    (by decide +kernel) (by decide +kernel) (by decide +kernel)

/-- Two keys, set in either order. -/
theorem compaction_forgets_order : ∃ b,
    OneSegment [['d']] (Call.compact.method.run twoSegments []).2 b ∧
      OneSegment [['d']] (Call.compact.method.run otherSegments []).2 b := by
  have heq : answersOf twoSegments = answersOf otherSegments := by
    rw [cleanRun_twoSegments.answersOf_eq reachable_eagerStore,
      cleanRun_otherSegments.answersOf_eq reachable_eagerStore]
    exact Function.update_comm (by decide) _ _ _
  exact compaction_forgets (cleanRun_twoSegments.reachable reachable_eagerStore)
    (cleanRun_otherSegments.reachable reachable_eagerStore) heq
    ⟨Prod.fst_eq_iff.mp (by decide +kernel), by decide +kernel, by decide +kernel⟩
    ⟨Prod.fst_eq_iff.mp (by decide +kernel), by decide +kernel, by decide +kernel⟩

end Forget

/-! ## Writing -/

section Write

variable {dir : Path} {t : ℕ} {T : SegmentTree} {s : Store} {d : Disk} {y : Store × Disk}
  {cs : List Call} {c : Call} {r : Record} {b : Bytes} {m : Memtable} {k : Key} {v : Option Val}
  {vs : List Val}

/-- What a call adds to the memtable at most. -/
def Call.bytes (c : Call) : ℕ :=
  match c.record with
  | some r => entrySize r.key.length ((toEntry r).2.map List.length)
  | none => 0

theorem approxSizeBytes_put_le : (m.put k v).approxSizeBytes ≤
    m.approxSizeBytes + entrySize k.length (v.map List.length) := by
  unfold Memtable.put saturatingAdd
  dsimp only
  rcases m.map[k]? with _ | old
  · exact min_le_left _ _
  · have := Nat.sub_le m.approxSizeBytes (entrySize k.length (old.map List.length))
    exact (min_le_left _ _).trans (Nat.add_le_add_right this _)

/-- **How many segments writes make.** Take a store reached without failures, and calls without
failures other than `compact`. Each segment that they make takes the threshold of what they write,
together with what was in the memtable; what is in it afterwards is left. -/
theorem segments_mul_le (h : Reachable NoFail (fun _ => NoFail) dir (some s) d)
    (hrun : CleanRun dir (s, d) cs y) (hcs : .compact ∉ cs) :
    y.1.segments.length * s.flushThresholdBytes + y.1.memtable.approxSizeBytes ≤
      s.segments.length * s.flushThresholdBytes + s.memtable.approxSizeBytes +
        (cs.map Call.bytes).sum := by
  obtain ⟨T, hT⟩ := h.isTree
  have hy := hrun.tree hT
  have hbytes : ∀ c : Call, c.bytes = c.action.written fun r =>
      entrySize r.key.length ((toEntry r).2.map List.length) := fun c => by cases c <;> rfl
  have hact : ∀ a ∈ cs.map Call.action, a ≠ .compact := by
    rintro a ha rfl
    obtain ⟨c, hc, heq⟩ := List.mem_map.mp ha
    cases c <;> cases heq
    exact hcs hc
  have hempty : Memtable.approxSizeBytes (parts s.flushThresholdBytes).empty = 0 := rfl
  have happly : ∀ m r, ((parts s.flushThresholdBytes).apply m r).approxSizeBytes ≤
      m.approxSizeBytes + entrySize r.key.length ((toEntry r).2.map List.length) := fun m r => by
    rw [show (parts _).apply m r = applyRecord m r from rfl, applyRecord_eq_put]
    exact approxSizeBytes_put_le
  have hfull : ∀ m, (parts s.flushThresholdBytes).full m →
      s.flushThresholdBytes ≤ m.approxSizeBytes := fun m hm => of_decide_eq_true hm
  have hle := runs_mul_le (T := T) hempty happly hfull hact
  rw [hy.segments_length, hT.segments_length, ← hy.buffer_eq, ← hT.buffer_eq]
  simp only [List.map_map, Function.comp_def, ← hbytes] at hle
  exact hle

theorem segments_mul_le_two :
    twoSegments.1.segments.length * eagerStore.flushThresholdBytes +
        twoSegments.1.memtable.approxSizeBytes ≤
      eagerStore.segments.length * eagerStore.flushThresholdBytes +
        eagerStore.memtable.approxSizeBytes +
        ([Call.set [97] [49], Call.set [98] [50]].map Call.bytes).sum :=
  segments_mul_le reachable_eagerStore cleanRun_twoSegments (by decide)

/-- A write without faults of a record that fits into the log, and leaves the memtable below the
threshold. -/
theorem IsTree.run_of_not_full (h : IsTree dir t T s (dirOf dir d)) (hc : c.record = some r)
    (hb : r.encode = .ok b) (hlog : (logImage T.log ++ b).length ≤ maxFileLen)
    (hfull : ¬ (parts t).full ((parts t).buffer ⟨T.log ++ [r.stored], T.runs⟩)) :
    ∃ s' d', c.method.run (s, d) [] = (.ok (), (s', d')) ∧
      IsTree dir t ⟨T.log ++ [r.stored], T.runs⟩ s' (dirOf dir d') := by
  have hne : (c.method.run (s, d) []).1 ≠ .crash := run_nil_ne_crash
  have hstep : LogStep NoFault s (dirOf dir d) r (c.method.run (s, d) []).1
      (c.method.run (s, d) []).2.1 (dirOf dir (c.method.run (s, d) []).2.2) := by
    have := (wp_call (A := NoFault) (Live.backed h).served c).run (l := []) (by simp)
    cases c <;> cases hc <;> exact this
  rcases hrun : c.method.run (s, d) [] with ⟨o, s', d'⟩
  rw [hrun] at hstep hne
  refine ⟨s', d', ?_⟩
  generalize dirOf dir d' = D' at hstep ⊢
  cases hstep with
  | unlogged happend ho =>
    cases happend with
    | rejected he =>
      rw [hb] at he
      cases he
    | cut hold henc hf =>
      rw [Live.log h] at hold
      rw [hb] at henc
      cases hold
      cases henc
      exact absurd (hf.crash_or_big.resolve_left hne) (Nat.not_lt.mpr hlog)
    | done _ _ => exact absurd rfl ho
  | logged happend happlied =>
    have h₁ : IsTree dir t ⟨T.log ++ [r.stored], T.runs⟩ (s.applied r) _ := happend.live h
    cases happlied with
    | kept _ => exact ⟨rfl, h₁⟩
    | flushed hover _ =>
      rw [h₁.threshold_eq, ← h₁.buffer_eq] at hover
      exact absurd hover hfull

/-- The records that set a key to the values. -/
def setsOf (k : Key) (vs : List Val) : List Record := vs.map (Record.newSet k)

theorem setsOf_append {v : Val} : setsOf k (vs ++ [v]) = setsOf k vs ++ [.newSet k v] := by
  rw [setsOf, List.map_append]
  rfl

/-- Setting one key leaves one entry, and counts it once. -/
theorem memtableOf_sets (k : Key) (vs : List Val) :
    (memtableOf (setsOf k vs)).get = layer (vs.getLast?.map fun v => (k, some v)).toList ∧
      (memtableOf (setsOf k vs)).approxSizeBytes =
        (vs.getLast?.map fun v => entrySize k.length (some v.length)).getD 0 := by
  induction vs using List.reverseRecOn with
  | nil => exact ⟨funext fun _ => Memtable.get_new, rfl⟩
  | append_singleton vs v ih =>
    obtain ⟨hget, hsize⟩ := ih
    have hlast : layer (((vs ++ [v]).getLast?.map fun v => (k, some v)).toList) =
        layer [(k, some v)] := by rw [List.getLast?_concat]; rfl
    have hother : ∀ k', k' ≠ k → (memtableOf (setsOf k vs)).get k' = none := fun k' hk' => by
      rw [hget, layer]
      rcases vs.getLast? with _ | w
      · rfl
      · exact lookup_eq_none.mpr (by simpa using hk'.symm)
    rw [hlast, setsOf_append, memtableOf_append]
    refine ⟨?_, ?_⟩
    · rw [get_applyRecord]
      funext k'
      rw [Function.update_apply, layer, List.lookup_cons]
      split_ifs with hk
      · have hk : k' = k := hk
        simp [hk, Record.newSet, toEntry]
      · have hk : k' ≠ k := hk
        rw [beq_eq_false_iff_ne.mpr hk, hother k' hk]
        rfl
    · have hmap : (memtableOf (setsOf k vs)).map[k]? = vs.getLast?.map some := by
        refine (congrFun hget k).trans ?_
        rcases vs.getLast? with _ | w
        · rfl
        · simp [layer]
      have hsat : saturatingAdd 0 (entrySize k.length (some v.length)) =
          entrySize k.length (some v.length) := by
        unfold entrySize saturatingAdd
        omega
      rw [List.getLast?_concat, applyRecord_eq_put]
      unfold Memtable.put
      dsimp only [Record.newSet]
      rw [hmap, hsize]
      rcases vs.getLast? with _ | w
      · exact hsat
      · dsimp only [Option.map_some, Option.getD_some]
        rw [Nat.sub_self]
        exact hsat

theorem image_newSet_encode {v : Val} (hk : k.length ≤ Record.MAX_FIELD_LEN)
    (hv : v.length ≤ Record.MAX_FIELD_LEN) :
    (Record.newSet k v).encode = .ok (Record.newSet k v).image := Record.encode_eq hk hv

/-- **A key that is set again and again.** Take a store reached without failures with an empty
memtable, and values that do not fill it each on its own. As long as the log fits into a file, the key
can be set to one after the other: no segment is written, the memtable has the last value only, and
the log has all of them. -/
theorem rewrites_stay_in_log (h : Reachable NoFail (fun _ => NoFail) dir (some s) d)
    (hempty : s.memtable.isEmpty) (hk : k.length ≤ Record.MAX_FIELD_LEN)
    (hvs : ∀ v ∈ vs, v.length ≤ Record.MAX_FIELD_LEN ∧
      entrySize k.length (some v.length) < s.flushThresholdBytes)
    (hlog : (logImage (setsOf k vs)).length ≤ maxFileLen) :
    ∃ y, CleanRun dir (s, d) (vs.map (Call.set k)) y ∧ y.1.segments = s.segments ∧
      y.2.read (walPathOf dir) = some (logImage (setsOf k vs)) ∧
      y.1.memtable.iter = (vs.getLast?.map fun v => (k, some v)).toList := by
  obtain ⟨T, hT⟩ := h.isTree
  have hnil : T.log = [] := log_eq_nil_of_isEmpty (by
    rw [← Live.memtable_eq hT]
    exact hempty)
  have hrun : ∃ y, CleanRun dir (s, d) (vs.map (Call.set k)) y ∧
      IsTree dir s.flushThresholdBytes ⟨setsOf k vs, T.runs⟩ y.1 (dirOf dir y.2) := by
    induction vs using List.reverseRecOn with
    | nil =>
      refine ⟨(s, d), .start, ?_⟩
      have hT' : (⟨[], T.runs⟩ : SegmentTree) = T := by rw [← hnil]
      rw [setsOf, List.map_nil, hT']
      exact hT
    | append_singleton vs v ih =>
      have hpre : (logImage (setsOf k (vs ++ [v]))).length =
          (logImage (setsOf k vs) ++ (Record.newSet k v).image).length := by
        rw [setsOf_append, logImage_append, logImage_cons, logImage_nil, List.append_nil]
      rw [hpre] at hlog
      obtain ⟨⟨s₁, d₁⟩, hrun, hT₁⟩ := ih (fun w hw => hvs w (List.mem_append_left _ hw)) (by
        rw [List.length_append] at hlog
        omega)
      obtain ⟨hv, hsmall⟩ := hvs v (by simp)
      have hstored : (Record.newSet k v).stored = Record.newSet k v := rfl
      have hfull : ¬ (parts s.flushThresholdBytes).full ((parts s.flushThresholdBytes).buffer
          (⟨setsOf k vs ++ [(Record.newSet k v).stored], T.runs⟩ : SegmentTree)) := by
        rw [hstored, ← setsOf_append]
        change ¬ (memtableOf (setsOf k (vs ++ [v]))).isOverThreshold _ = true
        rw [Memtable.isOverThreshold, (memtableOf_sets k (vs ++ [v])).2, List.getLast?_concat,
          decide_eq_true_eq]
        exact Nat.not_le.mpr hsmall
      obtain ⟨s₂, d₂, hcall, hT₂⟩ := hT₁.run_of_not_full (c := .set k v) rfl
        (image_newSet_encode hk hv) hlog hfull
      rw [hstored, ← setsOf_append] at hT₂
      refine ⟨(s₂, d₂), ?_, hT₂⟩
      have hstep := hrun.called (.set k v) (by rintro r ⟨⟩; exact ⟨hk, hv⟩) (by rw [hcall]; rintro ⟨⟩)
        (by rw [hcall]; exact (Live.settled hT₂).below)
      rw [hcall] at hstep
      rw [List.map_append]
      exact hstep
  obtain ⟨y, hrun, hy⟩ := hrun
  refine ⟨y, hrun, ?_, Live.log hy, ?_⟩
  · rw [(Live.backed hy).segments, (Live.backed hT).segments]
    rfl
  · rw [Live.memtable_eq hy]
    refine ascending_ext Memtable.ascending_iter ?_ ?_
    · rcases vs.getLast? with _ | v
      · exact .nil
      · exact List.pairwise_singleton _ _
    · rw [layer_iter]
      exact (memtableOf_sets k vs).1

/-- The empty key set twice to the empty value. -/
theorem rewrites_stay_in_log_twice : ∃ y,
    CleanRun [['d']] (pairStore, openedDisk) ([[], []].map (Call.set [])) y ∧
      y.1.segments = pairStore.segments ∧
      y.2.read (walPathOf [['d']]) = some (logImage (setsOf [] [[], []])) ∧
      y.1.memtable.iter = ([[], []].getLast?.map fun v : Val => (([], some v) : Entry)).toList := by
  have hreach : Reachable NoFail (fun _ => NoFail) [['d']] (some pairStore) openedDisk :=
    reachable_new 33
  exact rewrites_stay_in_log hreach rfl (Nat.zero_le _) (by decide +kernel) (by decide +kernel)

end Write

end StoneKV
