import StoneKV.Interrupted
import StoneKV.Appends
import StoneKV.Lives

/-!
# Running out of generations

A flush and a merge look for the next generation when their segment is already in place.

* `OpensAgain dir y`: the directory of the open store opens again, with what the store holds.
* `Call.HasRoom y`: the segments that the call writes are not of the last generation.
* `Loaded dir t s D`: the store is the one that its directory opens as.
* `FlushStep.leaves`, `MergeStep.leaves`, `CompactStep.leaves`: without failing calls this stays so
  if there is room; and otherwise there is a segment of the last generation.
* **`calls_open_again_iff`**: the directory opens again after every call of a run exactly if there is
  room for each.
* **`last_generation_refused`**: otherwise a write fails and takes the directory with it.
-/

namespace StoneKV

open FaultProg

/-- The segments in the directory were written by `SegmentWriter`, under the names that are rendered
from their generations. -/
def Canonical (dir : Path) (d : Disk) : Prop :=
  ∀ n b, d.read (segmentsDirOf dir ++ [n]) = some b → LooksLikeSegment n →
    ∃ g es, g < u64Size ∧ n = segmentFilename g ∧ WrittenBy es b

/-- The segments of the open store are strictly decreasing in generation, and its directory opens
again, with the files listed in any order, and with what the store holds. -/
structure OpensAgain (dir : Path) (y : Store × Disk) : Prop where
  decreasing : y.1.segments.Pairwise fun a b => b.generation < a.generation
  opens : ∀ t f hf, ∃ s d' g, (Store.openWithThreshold dir t).run (y.2.reorder f hf) [] =
    (.ok s, d') ∧ Answers y g ∧ Answers (s, d') g

/-- What calls leave in which nothing fails. -/
def afterCalls (y : Store × Disk) (cs : List Call) : Store × Disk :=
  cs.foldl (fun y c => (c.method.run y []).2) y

/-! ## Room for a segment -/

namespace Store

/-- The record fits into the log. -/
def Admits (y : Store × Disk) (r : Record) : Prop :=
  ∃ old b, y.2.read y.1.wal.path = some old ∧ r.encode = .ok b ∧ (old ++ b).length ≤ maxFileLen

/-- The segment that a flush writes, if it fits into a file, is not of the last generation. -/
def FlushRoom (s : Store) : Prop :=
  s.Flushable → s.afterFlush.nextSegmentGeneration < u64Size

/-- The segment that is merged after a flush, if it is written, is not of the last generation. -/
def MergeRoom (s : Store) : Prop :=
  ∀ L, List.Forall₂ (fun r es => r.Sound es) s.segments L → s.Flushable →
    s.afterFlush.Mergeable (s.segmentsAfter L) → s.afterFlush.nextSegmentGeneration + 1 < u64Size

/-- If the record is logged and the memtable is then flushed, there is room for the segment. -/
def LogRoom (y : Store × Disk) (r : Record) : Prop :=
  Admits y r → (y.1.applied r).memtable.isOverThreshold y.1.flushThresholdBytes = true →
    (y.1.applied r).FlushRoom

end Store

/-- The segments that the call writes are not of the last generation. -/
def Call.HasRoom (y : Store × Disk) : Call → Prop
  | .set key val => Store.LogRoom y (.newSet key val)
  | .delete key => Store.LogRoom y (.newDelete key)
  | .get _ => True
  | .compact => y.1.FlushRoom ∧ y.1.MergeRoom

/-- Each call has room, in the state that those before it leave. -/
def RoomFor : Store × Disk → List Call → Prop
  | _, [] => True
  | y, c :: cs => c.HasRoom y ∧ RoomFor (c.method.run y []).2 cs

section Entries

variable {r : SegmentReader} {readers : List SegmentReader} {es es' : List Entry}
  {L L' : List (List Entry)} {s : Store}

theorem toEntry_toRecord (e : Entry) : toEntry (toRecord e) = e := by
  obtain ⟨k, _ | v⟩ := e <;> rfl

/-- A segment holds one list of entries. -/
theorem SegmentReader.Sound.unique (h : r.Sound es) (h' : r.Sound es') : es = es' := by
  have hrecords := h.iterAllIn.symm.trans h'.iterAllIn
  exact List.map_injective_iff.mpr (Function.LeftInverse.injective toEntry_toRecord)
    (Except.ok.inj hrecords)

theorem sounds_unique (h : List.Forall₂ (fun r es => r.Sound es) readers L)
    (h' : List.Forall₂ (fun r es => r.Sound es) readers L') : L = L' := by
  induction h generalizing L' with
  | nil =>
    cases h'
    rfl
  | cons hr _ ih =>
    cases h' with
    | cons hr' hrest => rw [hr.unique hr', ih hrest]

theorem Store.mergeRoom_iff (hL : List.Forall₂ (fun r es => r.Sound es) s.segments L)
    (hflush : s.Flushable) : s.MergeRoom ↔ (s.afterFlush.Mergeable (s.segmentsAfter L) →
      s.afterFlush.nextSegmentGeneration + 1 < u64Size) := by
  refine ⟨fun h => h L hL hflush, fun h L' hL' _ hmerge => h ?_⟩
  rwa [sounds_unique hL hL']

end Entries

/-! ## Stores as they are opened -/

/-- The store is the one that its directory opens as. -/
def Loaded (dir : Path) (t : ℕ) (s : Store) (D : Dir) : Prop :=
  ∃ readers rs L, s = loadedStore dir readers rs t ∧ Opened dir D readers rs ∧
    List.Forall₂ (fun r es => r.Sound es) readers L

/-- With room the store is still the one that its directory opens as; without, there is a segment of
the last generation. -/
def Leaves (dir : Path) (t : ℕ) (room : Prop) (s : Store) (D : Dir) : Prop :=
  room ∧ Loaded dir t s D ∨ ¬ room ∧ ¬ D.Below

section Loaded

variable {dir : Path} {t : ℕ} {s s' : Store} {D D' : Dir} {d : Disk} {L : List (List Entry)}
  {o : Outcome StoneError Unit} {readers : List SegmentReader} {rs : List Record} {es : List Entry}

theorem Loaded.opensAgain (h : Loaded dir t s (dirOf dir d)) : OpensAgain dir (s, d) := by
  obtain ⟨readers, rs, L, rfl, hopened, hL⟩ := h
  refine ⟨hopened.loads.decreasing, fun t' f hf => ?_⟩
  have hlisted : Opened dir (dirOf dir (d.reorder f hf)) readers rs := hopened
  obtain ⟨d', hrun, -⟩ := hlisted.run_open t'
  exact ⟨_, d', _, hrun, get_run_of_sound hL,
    get_run_of_sound (s := loadedStore dir readers rs t') hL⟩

theorem Loaded.served (h : Loaded dir t s D) : ∃ L,
    List.Forall₂ (fun r es => r.Sound es) s.segments L ∧ Served dir s D L := by
  obtain ⟨readers, rs, L, rfl, hopened, hL⟩ := h
  exact ⟨L, hL, hopened.served hL t⟩

theorem Loaded.writable (h : Loaded dir t s D) : Writable dir s D := by
  obtain ⟨L, -, hserved⟩ := h.served
  exact hserved.writable

theorem not_opensAgain_of_last (h : ¬ (dirOf dir d).Below) : ¬ OpensAgain dir (s, d) := by
  rintro ⟨-, hopens⟩
  obtain ⟨s', d', _, hrun, -⟩ := hopens 0 id fun l => .refl l
  have hlisted : ¬ (dirOf dir (d.reorder id fun l => .refl l)).Below := h
  exact not_opens_of_last hlisted s' d' hrun

/-- **A flush that returns `Ok`.** -/
theorem FlushStep.loaded (hs : FlushStep NoFault s D (.ok ()) s' D') (h : Loaded dir t s D)
    (hb : D'.Bounded) : Loaded dir t s' D' ∧ s' = s.afterFlush := by
  obtain ⟨readers, rs, L, rfl, hopened, hL⟩ := h
  have hserved := (hs.served_of_ok (hopened.served hL t) hb).1
  obtain ⟨hafter, readers', rs', rfl, hopened'⟩ := hs.opened hopened hb
  exact ⟨⟨readers', rs', _, rfl, hopened', hserved.sounds⟩, hafter⟩

/-- **A flush.** -/
theorem FlushStep.leaves (hs : FlushStep NoFault s D o s' D') (h : Loaded dir t s D)
    (hb : D'.Bounded) (ho : o ≠ .crash) : Leaves dir t s.FlushRoom s' D' := by
  by_cases hok : o = .ok ()
  · subst hok
    obtain ⟨h', hafter⟩ := hs.loaded h hb
    exact .inl ⟨fun _ => hafter ▸ h'.writable.next_lt, h'⟩
  cases hs with
  | empty _ => exact absurd rfl hok
  | @aborted _ v hf hv hne =>
    have hbig := hf.crash_or_big.resolve_left ho
    have hroom : s.FlushRoom := fun hflush =>
      absurd (hflush.resolve_left hne) (Nat.not_le.mpr hbig)
    refine .inl ⟨hroom, ?_⟩
    obtain ⟨readers, rs, L, rfl, hopened, hL⟩ := h
    have hnone : v = none := by
      rcases hv with hv | hv | rfl
      · exact hv.trans hopened.next_none
      · exact hv
      · exact absurd hb.put_next (Nat.not_le.mpr hbig)
    rw [hnone, hopened.put_next_none]
    exact ⟨readers, rs, L, rfl, hopened, hL⟩
  | exhausted hlast hne =>
    refine .inr ⟨fun hroom => ?_, not_below_of_next hlast (Dir.files_put_self s.nextName)⟩
    have hlt := hroom (.inr hb.put_next)
    rw [Store.afterFlush, if_neg hne] at hlt
    exact absurd hlast (Nat.ne_of_lt hlt)
  | installed hf _ _ _ => exact absurd (hf.crash_or_big.resolve_left ho) id
  | done _ _ => exact absurd rfl hok

/-- **A merge.** -/
theorem MergeStep.leaves (hs : MergeStep NoFault (loadedStore dir readers rs t) D (merged L) o s' D')
    (h : Opened dir D readers rs) (hL : List.Forall₂ (fun r es => r.Sound es) readers L)
    (hlen : 2 ≤ readers.length) (hb : D'.Bounded) (ho : o ≠ .crash) :
    Leaves dir t ((loadedStore dir readers rs t).Mergeable L → nextAfter readers + 1 < u64Size)
      s' D' := by
  have hserved := h.served hL t
  cases hs with
  | refused hsome _ =>
    rw [h.marker] at hsome
    cases hsome
  | failed hf =>
    have hbig := hf.crash_or_big.resolve_left ho
    refine .inl ⟨fun hmerge => ?_, readers, rs, L, rfl, h, hL⟩
    have hsegment := hmerge.segment_le
    have hmarker := hmerge.marker_le
    omega
  | aborted hf _ _ _ => exact absurd (hf.crash_or_big.resolve_left ho) id
  | exhausted hlast _ =>
    have hfile : (D.replacing (loadedStore dir readers rs t) (merged L)).files
        (loadedStore dir readers rs t).nextName = some (segmentImage (merged L)) :=
      Dir.files_replacing_next
    refine .inr ⟨fun hroom => ?_, not_below_of_next hlast hfile⟩
    exact absurd hlast (Nat.ne_of_lt (hroom ⟨hlen, hb _ _ hfile, hb _ _ Dir.marker_replacing⟩))
  | installed hf _ _ _ => exact absurd (hf.crash_or_big.resolve_left ho) id
  | done _ hlt =>
    have hstor : Storable (merged L) :=
      hserved.storable_merged (hb _ _ (hserved.files_done _))
    have hopened := h.replaced (t := t) hlt hstor (List.nil_subset _)
    rw [Dir.drop_nil, ← Dir.drop_put_none] at hopened
    exact .inl ⟨fun _ => hlt, _, rs, _, rfl, hopened, .cons (hstor.sound _ _) .nil⟩

/-- **A compaction.** -/
theorem CompactStep.leaves (hs : CompactStep NoFault s D L o s' D') (h : Loaded dir t s D)
    (hL : List.Forall₂ (fun r es => r.Sound es) s.segments L) (hb : D'.Bounded) (ho : o ≠ .crash) :
    Leaves dir t (s.FlushRoom ∧ s.MergeRoom) s' D' := by
  cases hs with
  | unflushed hflush hne =>
    rcases hflush.leaves h hb ho with ⟨hroom, h'⟩ | ⟨hfull, hlast⟩
    · refine .inl ⟨⟨hroom, fun L' _ hflushable _ => ?_⟩, h'⟩
      exact absurd ((hflush.eq_ok hflushable (hroom hflushable)).resolve_left ho).1 hne
    · exact .inr ⟨fun hroom => hfull hroom.1, hlast⟩
  | short hflush hb₁ hlen =>
    obtain ⟨h', rfl⟩ := hflush.loaded h hb₁
    refine .inl ⟨⟨fun _ => h'.writable.next_lt, fun L' _ _ hmerge => ?_⟩, h'⟩
    exact absurd hmerge.two_le (Nat.not_le.mpr hlen)
  | merging hflush hb₁ hlen hmerge =>
    have hflushable := hflush.flushable hb₁
    have hlt := (hflush.loaded h hb₁).1.writable.next_lt
    obtain ⟨readers, rs, L₀, rfl, hopened, -⟩ := h
    have hsounds := (hflush.served_of_ok (hopened.served hL t) hb₁).1.sounds
    obtain ⟨hafter, readers₁, rs₁, rfl, hopened₁⟩ := hflush.opened hopened hb₁
    have hroom := Store.mergeRoom_iff hL hflushable
    rw [← hafter] at hroom
    rcases hmerge.leaves hopened₁ hsounds hlen hb ho with ⟨hfits, h'⟩ | ⟨hfull, hlast⟩
    · exact .inl ⟨⟨fun _ => hafter ▸ hlt, hroom.mpr hfits⟩, h'⟩
    · exact .inr ⟨fun hall => hfull (hroom.mp hall.2), hlast⟩

/-! ## Calls without faults -/

theorem Opened.append {r : Record} {b : Bytes} (h : Opened dir (dirOf dir d) readers rs)
    (hb : r.encode = .ok b) (hfits : (logImage rs ++ b).length ≤ maxFileLen) :
    Opened dir (dirOf dir (d.append (walPathOf dir) b)) readers (rs ++ [r.stored]) := by
  have hdir : dirOf dir (d.append (walPathOf dir) b) =
      (dirOf dir d).setWal (some (logImage (rs ++ [r.stored]))) := by
    rw [dirOf_setWal Disk.touched_append, Disk.read_append_self h.log hfits, logImage_logged hb]
  rw [hdir]
  exact ⟨h.loads.setWal _, h.marker, valid_logged h.valid hb, rfl⟩

theorem applied_loadedStore {r : Record} : (loadedStore dir readers rs t).applied r =
    loadedStore dir readers (rs ++ [r.stored]) t := by
  unfold loadedStore
  rw [memtableOf_append, applyRecord_stored]
  rfl

theorem AppliedStep.leaves (hs : AppliedStep NoFault s D o s' D') (h : Loaded dir t s D)
    (hb : D'.Bounded) (ho : o ≠ .crash) :
    Leaves dir t (s.memtable.isOverThreshold s.flushThresholdBytes = true → s.FlushRoom) s' D' := by
  cases hs with
  | kept hover => exact .inl ⟨fun h => absurd (hover.symm.trans h) nofun, h⟩
  | flushed hover hflush =>
    rcases hflush.leaves h hb ho with ⟨hroom, h'⟩ | ⟨hfull, hlast⟩
    · exact .inl ⟨fun _ => hroom, h'⟩
    · exact .inr ⟨fun hroom => hfull (hroom hover), hlast⟩

/-- **A write.** -/
theorem Loaded.logged {r : Record} (h : Loaded dir t s (dirOf dir d)) {x : Store × Disk}
    (hx : ((Store.logged r fun m => applyRecord m r).run (s, d) []).2 = x) :
    Leaves dir t (Store.LogRoom (s, d) r) x.1 (dirOf dir x.2) := by
  obtain ⟨readers, rs, L, rfl, hopened, hL⟩ := id h
  have hlog : d.read (loadedStore dir readers rs t).wal.path = some (logImage rs) := hopened.log
  rcases append_run_noFault (r := r) hlog with ⟨b, hb, hfits, happend⟩ | ⟨hfull, e, happend⟩
  · obtain ⟨l', hl', hrest⟩ := logged_run_of_ok happend
    obtain rfl := List.suffix_nil.mp hl'
    have hloaded : Loaded dir t ((loadedStore dir readers rs t).applied r)
        (dirOf dir (d.append (loadedStore dir readers rs t).wal.path b)) :=
      ⟨readers, rs ++ [r.stored], L, applied_loadedStore, hopened.append hb hfits, hL⟩
    have hstep := (wp_applied (A := NoFault) hloaded.writable).run_nil
    rw [← hrest, hx] at hstep
    have hleaves := hstep.leaves hloaded bounded_dirOf run_nil_ne_crash
    exact hleaves.imp (fun h => ⟨fun _ => h.1, h.2⟩)
      fun h => ⟨fun hroom => h.1 (hroom ⟨_, b, hlog, hb, hfits⟩), h.2⟩
  · rw [logged_run_of_ne_ok (by rw [happend]; nofun), happend] at hx
    subst hx
    refine .inl ⟨fun hadmits => ?_, h⟩
    obtain ⟨old, b, hold, hb, hfits⟩ := hadmits
    obtain rfl : old = logImage rs := Option.some_inj.mp (hold.symm.trans hlog)
    exact absurd hfits (Nat.not_le.mpr (hfull b hb))

/-- **One call.** -/
theorem Loaded.call (h : Loaded dir t s (dirOf dir d)) (c : Call) {x : Store × Disk}
    (hx : (c.method.run (s, d) []).2 = x) :
    Leaves dir t (c.HasRoom (s, d)) x.1 (dirOf dir x.2) := by
  obtain ⟨L, hL, hserved⟩ := h.served
  have hstep := (wp_call (A := NoFault) hserved c).run_nil
  rw [hx] at hstep
  cases c with
  | set key val => exact h.logged hx
  | delete key => exact h.logged hx
  | get key =>
    obtain ⟨hs, hd⟩ : x.1 = s ∧ dirOf dir x.2 = dirOf dir d := hstep
    rw [hs, hd]
    exact .inl ⟨trivial, h⟩
  | compact => exact CompactStep.leaves hstep h hL bounded_dirOf run_nil_ne_crash

end Loaded

/-! ## Runs -/

section Runs

variable {dir : Path} {t : ℕ} {y : Store × Disk} {cs : List Call}

/-- **Runs of a store that was opened.** -/
theorem Loaded.calls_iff (h : Loaded dir t y.1 (dirOf dir y.2)) :
    (∀ cs₁, cs₁ <+: cs → OpensAgain dir (afterCalls y cs₁)) ↔ RoomFor y cs := by
  induction cs generalizing y with
  | nil =>
    refine ⟨fun _ => trivial, fun _ cs₁ hcs => ?_⟩
    rw [List.prefix_nil.mp hcs]
    exact h.opensAgain
  | cons c cs ih =>
    have hsplit : (∀ cs₁, cs₁ <+: c :: cs → OpensAgain dir (afterCalls y cs₁)) ↔
        ∀ cs₁, cs₁ <+: cs → OpensAgain dir (afterCalls (c.method.run y []).2 cs₁) := by
      refine ⟨fun hall cs₁ hcs => hall (c :: cs₁) (List.cons_prefix_cons.mpr ⟨rfl, hcs⟩), ?_⟩
      rintro hall (_ | ⟨c', cs₁⟩) hcs
      · exact h.opensAgain
      · obtain ⟨rfl, hrest⟩ := List.cons_prefix_cons.mp hcs
        exact hall cs₁ hrest
    rw [hsplit, RoomFor]
    rcases h.call c rfl with ⟨hroom, h'⟩ | ⟨hfull, hlast⟩
    · rw [ih h', and_iff_right hroom]
    · refine iff_of_false (fun hall => ?_) fun hroom => hfull hroom.1
      exact not_opensAgain_of_last hlast (hall [] List.nil_prefix)

/-- A store that was opened. -/
theorem Canonical.loaded {s : Store} {d₀ d : Disk} (h : Canonical dir d₀)
    (hopen : (Store.openWithThreshold dir t).run d₀ [] = (.ok s, d)) :
    Loaded dir t s (dirOf dir d) := by
  obtain ⟨readers, rs, d₂, hrec, -, hdir, rfl, hopened⟩ := open_run_eq_ok hopen
  have hsound : ∀ r ∈ readers, ∃ es, r.Sound es := fun r hr => by
    have hparse := hopened.loads.parse r hr
    have hfile := hopened.loads.file r hr
    rw [hdir, Dir.files_setWal, dirOf_files (not_isScratchName_of_parse hparse),
      (plan_of_run hrec).2, Disk.read_eraseAll] at hfile
    split_ifs at hfile
    obtain ⟨g, es, -, -, hby⟩ := h _ _ hfile (looksLikeSegment_of_parse hparse)
    exact ⟨es, hopened.loads.sound_of_written bounded_dirOf hr hby⟩
  obtain ⟨L, hL⟩ := exists_forall₂ hsound
  exact ⟨readers, rs, L, rfl, hopened, hL⟩

/-- **Running out of generations.** Take a directory whose segments were written by `SegmentWriter`
under their names, and a store that was opened on it; and calls without faults. After each of them,
whether it returns `Ok` or an error, the segments are in order and the directory opens again with what
the store holds, exactly if no call writes a segment of the last generation. -/
theorem calls_open_again_iff {d₀ d : Disk} {s : Store} (h : Canonical dir d₀)
    (hopen : (Store.openWithThreshold dir t).run d₀ [] = (.ok s, d)) (cs : List Call) :
    (∀ cs₁, cs₁ <+: cs → OpensAgain dir (afterCalls (s, d) cs₁)) ↔ RoomFor (s, d) cs :=
  (h.loaded hopen).calls_iff

end Runs

/-! ## The last generations -/

section Last

/-- A disk with one segment, of the generation `g`. -/
def lastDisk (g : ℕ) : Disk :=
  Disk.empty.put (segmentsDirOf [['d']] ++ [segmentFilename g]) (segmentImage [([97], some [49])])
    length_undeleted_le

/-- Its store, with flushes at every write, and with the disk once it is open. -/
def lastStore (g : ℕ) : Store × Disk :=
  (loadedStore [['d']] [readerOf (segmentsDirOf [['d']] ++ [segmentFilename g]) g
    [([97], some [49])]] [] 0, (lastDisk g).put (walPathOf [['d']]) [] (Nat.zero_le _))

theorem canonical_lastDisk {g : ℕ} (hg : g < u64Size) : Canonical [['d']] (lastDisk g) := by
  intro n b hread _
  rw [lastDisk, Disk.read_put] at hread
  split_ifs at hread with hn
  · cases hread
    exact ⟨g, _, hg, append_singleton_inj.mp hn, deletedEntries_written _ (.tail _ (.head _))⟩
  · rw [Disk.read_empty] at hread
    cases hread

/-- One more segment can be written. -/
theorem calls_open_again_last :
    OpensAgain [['d']] (afterCalls (lastStore (u64Size - 3)) [.set [98] [50]]) := by
  have hopen : (Store.openWithThreshold [['d']] 0).run (lastDisk (u64Size - 3)) [] =
      (.ok (lastStore (u64Size - 3)).1, (lastStore (u64Size - 3)).2) := rfl
  have hroom : RoomFor (lastStore (u64Size - 3)) [.set [98] [50]] :=
    ⟨fun _ _ _ => by decide +kernel, trivial⟩
  exact (calls_open_again_iff (canonical_lastDisk (by decide)) hopen _).mpr hroom _ (List.prefix_refl _)

/-- **The last generation.** A write whose segment takes it returns an error, and leaves the segment:
the directory does not open any more. -/
theorem last_generation_refused : ¬ ∀ (dir : Path) (t : ℕ) (d₀ d : Disk) (s : Store) (cs : List Call),
    Canonical dir d₀ → (Store.openWithThreshold dir t).run d₀ [] = (.ok s, d) →
    OpensAgain dir (afterCalls (s, d) cs) := by
  intro hall
  have hopen : (Store.openWithThreshold [['d']] 0).run (lastDisk (u64Size - 2)) [] =
      (.ok (lastStore (u64Size - 2)).1, (lastStore (u64Size - 2)).2) := rfl
  have hlast : ¬ (dirOf [['d']]
      (afterCalls (lastStore (u64Size - 2)) [.set [98] [50]]).2).Below := by
    unfold Dir.Below
    rw [dirOf_files not_isScratchName_segment]
    decide +kernel
  exact not_opensAgain_of_last hlast
    (hall _ _ _ _ _ [.set [98] [50]] (canonical_lastDisk (by decide)) hopen)

example : ((Store.set [98] [50]).run (lastStore (u64Size - 2)) []).1 = .err exhausted := by
  decide +kernel

end Last

end StoneKV
