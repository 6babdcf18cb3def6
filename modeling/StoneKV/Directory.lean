import StoneKV.Store

/-!
# The directory of a store

* `Dir`: the files of a store by name, without those that are only scratch, and the log.
* `dirOf`: the directory at a path of the disk. A change of one file is a `put` or a `setWal`.
* `Lists`, `Served`: the segments that an open store lists are files of its directory.
* `view`: the value of a key in a memtable and segments; **`Served.get_run`**: `get` finds it.
-/

namespace StoneKV

open FaultProg Layers

/-- What the directory of a store holds: the files of its directory of segments that are not scratch
files, and the log. -/
@[ext]
structure Dir where
  files : Name → Option Bytes
  wal : Option Bytes

namespace Dir

/-- The directory with `v` as the file `n`. -/
def put (D : Dir) (n : Name) (v : Option Bytes) : Dir :=
  { D with files := Function.update D.files n v }

/-- The directory with `w` as the log. -/
def setWal (D : Dir) (w : Option Bytes) : Dir := { D with wal := w }

/-- The directory without the files `ns`. -/
def drop (D : Dir) (ns : List Name) : Dir :=
  { D with files := fun n => if n ∈ ns then none else D.files n }

/-- The directory with the segments of the generations `gs` only. -/
def only (D : Dir) (gs : List ℕ) : Dir :=
  { D with files := fun n => if n ∈ gs.map segmentFilename then D.files n else none }

/-- The marker of a compaction. -/
def marker (D : Dir) : Option Bytes := D.files COMPACTION_MARKER_FILE

variable {D : Dir} {m n : Name} {ns ns' : List Name} {gs : List ℕ} {v v' w : Option Bytes}

@[simp] theorem files_put : (D.put n v).files m = if m = n then v else D.files m :=
  Function.update_apply _ _ _ _

theorem files_put_self (n : Name) : (D.put n v).files n = v := Function.update_self _ _ _

@[simp] theorem wal_put : (D.put n v).wal = D.wal := rfl

@[simp] theorem files_setWal : (D.setWal w).files = D.files := rfl

@[simp] theorem wal_setWal : (D.setWal w).wal = w := rfl

@[simp] theorem files_drop : (D.drop ns).files m = if m ∈ ns then none else D.files m := rfl

@[simp] theorem files_only : (D.only gs).files n =
    if n ∈ gs.map segmentFilename then D.files n else none := rfl

@[simp] theorem put_files : D.put n (D.files n) = D := by
  rw [put, Function.update_eq_self]

@[simp] theorem put_put : (D.put n v).put n v' = D.put n v' := by
  rw [put, put, Function.update_idem]
  rfl

@[simp] theorem setWal_wal : D.setWal D.wal = D := rfl

@[simp] theorem setWal_setWal {w' : Option Bytes} : (D.setWal w).setWal w' = D.setWal w' := rfl

@[simp] theorem drop_nil : D.drop [] = D := by simp [drop]

theorem put_comm (h : m ≠ n) : (D.put n v).put m v' = (D.put m v').put n v := by
  rw [put, put, put, put, Function.update_comm h.symm]

theorem drop_put_none : (D.drop ns).put n none = D.drop (ns ++ [n]) := by
  unfold put drop
  congr 1
  funext m
  simp only [Function.update_apply, List.mem_append, List.mem_singleton]
  by_cases hm : m = n <;> simp [hm]

theorem put_none_eq_drop : D.put n none = D.drop [n] := by
  rw [← drop_nil (D := D), drop_put_none, List.nil_append, drop_nil]

theorem drop_drop : (D.drop ns).drop ns' = D.drop (ns ++ ns') := by
  ext m : 2
  · simp only [files_drop, List.mem_append]
    by_cases h : m ∈ ns' <;> simp [h]
  · rfl

theorem drop_of_none (h : ∀ n ∈ ns, D.files n = none) : D.drop ns = D := by
  ext m : 2
  · rw [files_drop]
    split_ifs with hm
    · exact (h m hm).symm
    · rfl
  · rfl

end Dir

/-- The directory of a store at `dir`. -/
def dirOf (dir : Path) (d : Disk) : Dir :=
  ⟨fun n => if IsScratchName n then none else d.read (segmentsDirOf dir ++ [n]),
    d.read (walPathOf dir)⟩

section DirOf

variable {dir : Path} {d d' : Disk} {n : Name} {b : Bytes}

theorem append_singleton_inj {p : Path} {m n : Name} : p ++ [m] = p ++ [n] ↔ m = n := by
  rw [List.append_cancel_left_eq, List.cons.injEq]
  simp

theorem segmentsDir_ne_wal : segmentsDirOf dir ++ [n] ≠ walPathOf dir := by
  intro h
  have := congrArg List.length h
  simp [segmentsDirOf, walPathOf] at this

theorem dirOf_files (h : ¬ IsScratchName n) :
    (dirOf dir d).files n = d.read (segmentsDirOf dir ++ [n]) := if_neg h

theorem dirOf_files_of_scratch (h : IsScratchName n) : (dirOf dir d).files n = none := if_pos h

theorem dirOf_wal : (dirOf dir d).wal = d.read (walPathOf dir) := rfl

theorem dirOf_marker : (dirOf dir d).marker = d.read (markerPath (segmentsDirOf dir)) :=
  dirOf_files not_isScratchName_marker

theorem length_le_of_dirOf (h : (dirOf dir d).files n = some b) : b.length ≤ maxFileLen := by
  unfold dirOf at h
  dsimp only at h
  split_ifs at h
  exact Disk.length_le_of_read h

/-- Files that are not changed. -/
theorem files_congr (h : d'.read (segmentsDirOf dir ++ [n]) = d.read (segmentsDirOf dir ++ [n])) :
    (dirOf dir d').files n = (dirOf dir d).files n := by
  simp only [dirOf, h]

/-- A change of a scratch file is not seen. -/
theorem dirOf_scratch (hn : IsScratchName n) (h : d.Touched (segmentsDirOf dir ++ [n]) d') :
    dirOf dir d' = dirOf dir d := by
  refine Dir.ext (funext fun m => ?_) (h _ segmentsDir_ne_wal.symm)
  by_cases hm : m = n
  · rw [hm, dirOf_files_of_scratch hn, dirOf_files_of_scratch hn]
  · exact files_congr (h _ fun e => hm (append_singleton_inj.mp e))

/-- A change of another file. -/
theorem dirOf_file (hn : ¬ IsScratchName n) (h : d.Touched (segmentsDirOf dir ++ [n]) d') :
    dirOf dir d' = (dirOf dir d).put n (d'.read (segmentsDirOf dir ++ [n])) := by
  refine Dir.ext (funext fun m => ?_) (h _ segmentsDir_ne_wal.symm)
  rw [Dir.files_put]
  split_ifs with hm
  · rw [hm, dirOf_files hn]
  · exact files_congr (h _ fun e => hm (append_singleton_inj.mp e))

/-- A change of the log. -/
theorem dirOf_setWal (h : d.Touched (walPathOf dir) d') :
    dirOf dir d' = (dirOf dir d).setWal (d'.read (walPathOf dir)) :=
  Dir.ext (funext fun _ => files_congr (h _ segmentsDir_ne_wal)) rfl

theorem dirOf_erase (hn : ¬ IsScratchName n) :
    dirOf dir (d.erase (segmentsDirOf dir ++ [n])) = (dirOf dir d).put n none := by
  rw [dirOf_file hn Disk.touched_erase, Disk.read_erase, if_pos rfl]

theorem dirOf_erase_scratch (hn : IsScratchName n) :
    dirOf dir (d.erase (segmentsDirOf dir ++ [n])) = dirOf dir d :=
  dirOf_scratch hn Disk.touched_erase

/-- A scratch file is moved into place. -/
theorem dirOf_rename {m : Name} {p q : Path} (hp : p = segmentsDirOf dir ++ [m])
    (hq : q = segmentsDirOf dir ++ [n]) (hm : IsScratchName m) (hn : ¬ IsScratchName n)
    {h : b.length ≤ maxFileLen} :
    dirOf dir ((d.erase p).put q b h) = (dirOf dir d).put n (some b) := by
  subst hp hq
  rw [dirOf_file hn Disk.touched_put, Disk.read_put, if_pos rfl, dirOf_erase_scratch hm]

/-- The marker is moved into place. -/
theorem dirOf_marked {temp marker : Path} {m : CompactionMarker}
    (ht : temp = segmentsDirOf dir ++ [COMPACTION_MARKER_TEMP_FILE])
    (hm : marker = segmentsDirOf dir ++ [COMPACTION_MARKER_FILE]) (h : Marked d temp marker m d') :
    dirOf dir d' = (dirOf dir d).put COMPACTION_MARKER_FILE (some (utf8 (markerText m))) := by
  subst ht hm
  refine Dir.ext (funext fun n => ?_) ?_
  · rw [Dir.files_put]
    split_ifs with hn
    · rw [hn, dirOf_files not_isScratchName_marker, h _ ?_, if_pos rfl]
      rw [Ne, append_singleton_inj]
      decide
    · by_cases hs : IsScratchName n
      · rw [dirOf_files_of_scratch hs, dirOf_files_of_scratch hs]
      · refine files_congr ?_
        rw [h _ ?_, if_neg ?_]
        · rwa [append_singleton_inj]
        · rw [Ne, append_singleton_inj]
          exact fun e => hs (e ▸ isScratchName_markerTemp)
  · rw [dirOf_wal, h _ segmentsDir_ne_wal.symm, if_neg segmentsDir_ne_wal.symm]
    rfl

@[simp] theorem dirOf_reorder {f : List Name → List Name} {h : ∀ l, (f l).Perm l} :
    dirOf dir (d.reorder f h) = dirOf dir d := rfl

end DirOf

/-! ## Names of segments -/

section Names

variable {n : Name} {g : ℕ}

theorem not_isScratchName_of_parse (h : parseSegmentGeneration n = some g) : ¬ IsScratchName n := by
  obtain ⟨ds, -, rfl, -⟩ := parse_eq_some h
  have hlast : (SEGMENT_PREFIX ++ ds ++ SEGMENT_SUFFIX).getLast? = some 'g' := by
    rw [List.getLast?_append_of_ne_nil _ (by decide)]
    rfl
  rintro (ht | ht)
  · have := getLast?_of_parseTemp ht
    rw [hlast] at this
    exact absurd this (by decide)
  · rw [ht] at hlast
    exact absurd hlast (by decide)

theorem ne_marker_of_parse (h : parseSegmentGeneration n = some g) : n ≠ COMPACTION_MARKER_FILE := by
  obtain ⟨ds, -, rfl, -⟩ := parse_eq_some h
  intro ht
  have hhead : (SEGMENT_PREFIX ++ ds ++ SEGMENT_SUFFIX).head? = some 's' := rfl
  rw [ht] at hhead
  exact absurd hhead (by decide)

end Names

/-! ## Open stores -/

theorem exists_of_forall₂ {α β : Type} {R : α → β → Prop} {as : List α} {bs : List β} {a : α}
    (h : List.Forall₂ R as bs) (ha : a ∈ as) : ∃ b ∈ bs, R a b := by
  induction h with
  | nil => cases ha
  | cons hab _ ih =>
    rcases List.mem_cons.mp ha with rfl | ha
    · exact ⟨_, List.mem_cons_self, hab⟩
    · obtain ⟨b, hb, hab⟩ := ih ha
      exact ⟨b, List.mem_cons_of_mem _ hb, hab⟩

/-- The name of the file of an open segment. -/
def fileName (r : SegmentReader) : Name := r.path.getLastD []

/-- The open segment `r` with the entries `es` is a file of the directory. -/
structure Lists (dir : Path) (D : Dir) (r : SegmentReader) (es : List Entry) : Prop where
  path : r.path = segmentsDirOf dir ++ [fileName r]
  parse : parseSegmentGeneration (fileName r) = some r.generation
  file : D.files (fileName r) = some r.file
  opened : SegmentReader.openIn r.path r.generation r.file = .ok r
  sound : r.Sound es

/-- The store at `dir` lists the segments with the entries `L`, the newest first, and these are files
of its directory `D`. -/
structure Served (dir : Path) (s : Store) (D : Dir) (L : List (List Entry)) : Prop where
  dir_eq : s.dir = dir
  wal : s.wal.path = walPathOf dir
  log : D.wal.isSome
  valid : ∀ e ∈ s.memtable.iter, (toRecord e).Valid
  lists : List.Forall₂ (Lists dir D) s.segments L
  decreasing : s.segments.Pairwise fun a b => b.generation < a.generation
  below : ∀ r ∈ s.segments, r.generation < s.nextSegmentGeneration
  next_lt : s.nextSegmentGeneration < u64Size

/-- The value of a key in a memtable and, below it, segments with the entries `L`. -/
def view (m : Memtable) (L : List (List Entry)) : Key → Option Val :=
  value (m.get :: L.map layer)

/-- Listing depends on the files of the segments only. -/
theorem Lists.congr {dir : Path} {D D' : Dir} {r : SegmentReader} {es : List Entry}
    (h : Lists dir D r es) (hD : D'.files (fileName r) = D.files (fileName r)) : Lists dir D' r es :=
  ⟨h.path, h.parse, hD.trans h.file, h.opened, h.sound⟩

theorem Served.exists_lists {dir : Path} {s : Store} {D : Dir} {L : List (List Entry)}
    (h : Served dir s D L) {r : SegmentReader} (hr : r ∈ s.segments) : ∃ es ∈ L, Lists dir D r es := by
  exact exists_of_forall₂ h.lists hr

theorem Served.setWal {dir : Path} {s : Store} {D : Dir} {L : List (List Entry)}
    (h : Served dir s D L) (w : Bytes) : Served dir s (D.setWal (some w)) L :=
  ⟨h.dir_eq, h.wal, rfl, h.valid, h.lists.imp fun _ _ hl => hl.congr rfl, h.decreasing, h.below,
    h.next_lt⟩

/-- The reader of a file with the image of `es`. -/
theorem lists_readerOf {dir : Path} {D : Dir} {g : ℕ} {es : List Entry} (hg : g < u64Size)
    (h : Storable es) (hD : D.files (segmentFilename g) = some (segmentImage es)) :
    Lists dir D (readerOf (segmentPath (segmentsDirOf dir) g) g es) es := by
  have hname : fileName (readerOf (segmentPath (segmentsDirOf dir) g) g es) = segmentFilename g :=
    List.getLastD_concat
  refine ⟨?_, ?_, ?_, h.openIn _ _, h.sound _ _⟩
  · rw [hname]
    rfl
  · rw [hname]
    exact parseSegmentGeneration_filename hg
  · rw [hname]
    exact hD

/-! ### Views -/

section View

variable {m m' : Memtable} {L : List (List Entry)} {k : Key}

theorem layer_iter : layer m.iter = m.get := funext fun _ => Memtable.lookup_iter

/-- A memtable that is also the newest segment. -/
theorem view_iter : view m (m.iter :: L) k = view m L k := by
  rw [view, view, List.map_cons, layer_iter]
  rcases hk : m.get k with _ | v
  · rw [value_cons_of_none hk, value_cons_of_none hk]
  · rw [value_cons_of_some hk, value_cons_of_some hk]

theorem view_new : view .new L k = value (L.map layer) k := value_cons_of_none Memtable.get_new

/-- A memtable that has become the newest segment. -/
theorem view_new_iter : view .new (m.iter :: L) k = view m L k := by
  rw [view_new, List.map_cons, layer_iter]
  rfl

/-- The view depends on what the segments show. -/
theorem view_congr {L' : List (List Entry)} (h : value (L.map layer) k = value (L'.map layer) k) :
    view m L k = view m L' k := value_cons_congr h

end View

section Get

variable {dir : Path} {D : Dir} {s : Store} {L : List (List Entry)} {d : Disk} {k : Key}
  {rs : List SegmentReader}

theorem wp_searchSegments {A : Fault → Prop} {Q : Outcome StoneError (Option Val) → Disk → Prop}
    (h : List.Forall₂ (fun r es => r.Sound es) rs L) (hA : ∀ n, ¬ A (.fail n))
    (hok : Q (.ok (value (L.map layer) k)) d) (hcr : Q .crash d) :
    wp A (Store.searchSegments k rs) Q d := by
  induction h with
  | nil => exact wp_pure hok
  | @cons r es rs L hr _ ih =>
    refine wp_bind (Fs.wp_reads (fun a ha => ?_) (fun e he => ?_)
      (fun n hn => absurd hn (hA n)) fun _ _ => hcr)
    · rw [hr.getIn] at ha
      cases ha
      have hl : layer es k = es.lookup k := rfl
      rw [List.map_cons] at hok
      rcases hk : es.lookup k with _ | _ | v <;> rw [hk] at hl
      · rw [value_cons_of_none hl] at hok
        exact ih hok
      · rw [value_cons_of_some hl] at hok
        exact wp_pure hok
      · rw [value_cons_of_some hl] at hok
        exact wp_pure hok
    · rw [hr.getIn] at he
      cases he

/-- Reading a key in sound segments. -/
theorem get_run_of_sound (h : List.Forall₂ (fun r es => r.Sound es) s.segments L) (k : Key) :
    (Store.get k).run (s, d) [] = (.ok (view s.memtable L k), (s, d)) := by
  refine wp.run_nil_eq (wp_bind (wp_bind (wp_get (wp_pure ?_))))
  dsimp only [Outcome.andThen]
  rcases hk : s.memtable.get k with _ | _ | v
  · have hv : view s.memtable L k = value (L.map layer) k := value_cons_of_none hk
    rw [hv]
    exact wp_onSnd (wp_searchSegments h not_noFault_fail (fun _ => rfl) fun hc => absurd rfl hc)
  · have hv : view s.memtable L k = none := value_cons_of_some hk
    rw [hv]
    exact wp_pure fun _ => rfl
  · have hv : view s.memtable L k = some v := value_cons_of_some hk
    rw [hv]
    exact wp_pure fun _ => rfl

theorem Served.sounds (h : Served dir s D L) :
    List.Forall₂ (fun r es => r.Sound es) s.segments L := h.lists.imp fun _ _ hl => hl.sound

/-- **Reading a key.** -/
theorem Served.get_run (h : Served dir s D L) (k : Key) :
    (Store.get k).run (s, d) [] = (.ok (view s.memtable L k), (s, d)) :=
  get_run_of_sound h.sounds k

end Get

end StoneKV
