import StoneKV.Checks
import StoneKV.Opened

/-!
# Verified stores

* `lastValue`, `reference`: a lookup that scans the lists of records.
* `SegmentReader.Orderly`: records with increasing keys, and an index of keys and places of these.
* `verify_run_eq_ok`: what `verify` has read.
* **`verified_store_answers`**: a verified store with orderly segments answers like the scan, before
  and after a compaction.
* **`unordered_segment_hides_key`**: in a segment with other records a key can be missed.
-/

namespace StoneKV

open FaultProg Prog Layers

/-- What a list of records has for a key: its last record with the key counts. -/
def lastValue (k : Key) (rs : List Record) : Option (Option Val) :=
  (rs.reverse.find? fun r => r.key == k).map fun r => (toEntry r).2

/-- The value of a key in a memtable and, below it, lists of records, the newest first. -/
def reference (m : Memtable) (lists : List (List Record)) (k : Key) : Option Val :=
  value (m.get :: lists.map fun rs k => lastValue k rs) k

/-- The keys of the records increase, and each entry of the index is the key and the place of one of
them. -/
structure SegmentReader.Orderly (r : SegmentReader) (rs : List Record) : Prop where
  increasing : rs.Pairwise fun a b => compare a.key b.key = .lt
  index : ∀ i ∈ r.sparseIndex, ∃ pre rec post, rs = pre ++ rec :: post ∧ i.key = rec.key ∧
    i.fileOffset = SEGMENT_HEADER_SIZE + (logImage pre).length

/-! ## Orderly segments -/

section Orderly

variable {r : SegmentReader} {rs : List Record} {path : Path} {g : ℕ} {b : Bytes} {k : Key}
  {lists : List (List Record)} {m : Memtable}

theorem recordsImage_toEntry (h : ∀ rec ∈ rs, rec.Valid) :
    recordsImage (rs.map toEntry) = logImage rs := by
  rw [recordsImage, List.map_map]
  congr 1
  conv_rhs => rw [← List.map_id rs]
  exact List.map_congr_left fun rec hrec => toRecord_toEntry (h rec hrec)

/-- **An orderly segment is sound.** -/
theorem SegmentReader.Orderly.sound (h : r.Orderly rs) (hr : r.Bounded)
    (hrs : r.iterAllIn = .ok rs) : r.Sound (rs.map toEntry) := by
  obtain ⟨rs', rfl, hvalid, harea, hslice⟩ := SegmentReader.iterLoop_eq_ok hrs
  have himage := recordsImage_toEntry hvalid
  refine ⟨hr, ?_, ?_, by rw [himage, harea], by rw [himage, hslice], fun i hi => ?_⟩
  · rw [Ascending, List.pairwise_map]
    exact h.increasing
  · intro e he
    obtain ⟨rec, hrec, rfl⟩ := List.mem_map.mp he
    rw [toRecord_toEntry (hvalid rec hrec)]
    exact hvalid rec hrec
  · obtain ⟨pre, rec, post, rfl, hk, ho⟩ := h.index i hi
    refine ⟨pre.map toEntry, toEntry rec, post.map toEntry, by simp, hk, ?_⟩
    rw [ho, hr.start, recordsImage_toEntry fun x hx => hvalid x (by simp [hx])]

/-- With increasing keys the last record with a key is the only one. -/
theorem lookup_toEntry (h : rs.Pairwise fun a b => compare a.key b.key = .lt) (k : Key) :
    (rs.map toEntry).lookup k = lastValue k rs := by
  unfold lastValue
  induction rs with
  | nil => rfl
  | cons rec rs ih =>
    obtain ⟨hhead, htail⟩ := List.pairwise_cons.mp h
    rw [List.map_cons, List.lookup_cons, List.reverse_cons, List.find?_append, ih htail]
    have hkey : (toEntry rec).1 = rec.key := rfl
    by_cases hk : k = rec.key
    · have hnone : rs.reverse.find? (fun r => r.key == k) = none := by
        rw [List.find?_eq_none]
        intro x hx heq
        have hlt := hhead x (List.mem_reverse.mp hx)
        rw [← hk, ← beq_iff_eq.mp heq] at hlt
        exact compare_ne_lt_self hlt
      rw [hnone, Option.none_or, hkey, hk]
      simp
    · have hne : (rec.key == k) = false := beq_eq_false_iff_ne.mpr fun h => hk h.symm
      have hne' : (k == (toEntry rec).1) = false := beq_eq_false_iff_ne.mpr hk
      rw [List.find?_singleton, hne, hne']
      simp

theorem reference_eq (h : ∀ rs ∈ lists, rs.Pairwise fun a b => compare a.key b.key = .lt) :
    reference m lists k = view m (lists.map fun rs => rs.map toEntry) k := by
  unfold reference view
  rw [List.map_map]
  congr 2
  refine List.map_congr_left fun rs hrs => funext fun k => ?_
  exact (lookup_toEntry (h rs hrs) k).symm

end Orderly

/-! ## What was loaded and read -/

section Loaded

variable {dir : Path} {t next : ℕ} {d d₁ d₂ : Disk} {s : Store} {recs : List Record} {n m : ℕ}
  {p : Option ℕ} {rs segments : List SegmentReader} {stats : VerifyStats} {y : Store × Disk}

/-- Segments that were verified list their records. -/
theorem verifySegments_run_eq_ok : ∀ {rs : List SegmentReader} {p : Option ℕ} {n m : ℕ} {d : Disk},
    (Store.verifySegments rs p n).run d [] = (.ok m, d₂) →
    d₂ = d ∧ ∃ lists, List.Forall₂ (fun r recs => r.iterAllIn = .ok recs) rs lists
  | [], _, _, _, _, h => by
    cases h
    exact ⟨rfl, [], .nil⟩
  | r :: rs, p, n, m, d, h => by
    rw [Store.verifySegments] at h
    obtain ⟨_, da, ha, h₁⟩ := exists_of_run_bind_nil h
    obtain ⟨recs, db, hb, h₂⟩ := exists_of_run_bind_nil h₁
    obtain ⟨count, dc, hc, h₃⟩ := exists_of_run_bind_nil h₂
    obtain ⟨-, rfl⟩ := eq_of_run_ofExcept ha
    obtain ⟨hlist, rfl⟩ := Fs.eq_of_run_reads hb
    obtain ⟨-, rfl⟩ := eq_of_run_ofExcept hc
    obtain ⟨hd, lists, hlists⟩ := verifySegments_run_eq_ok h₃
    exact ⟨hd, recs :: lists, .cons hlist hlists⟩

/-- **What was read.** Verifying a store whose log is whole changes nothing, and its segments list
their records. -/
theorem verify_run_eq_ok (hlog : d.read s.wal.path = some (logImage recs))
    (hrecs : ∀ r ∈ recs, r.Valid) (h : Store.verify.run (s, d) [] = (.ok stats, y)) :
    y = (s, d) ∧ ∃ lists, List.Forall₂ (fun r recs => r.iterAllIn = .ok recs) s.segments lists := by
  rw [verify_run_segments hlog hrecs] at h
  obtain ⟨n, y', hseg, hend⟩ := exists_of_run_bind_nil h
  have hend : (Outcome.ok _, y') = (Outcome.ok stats, y) := hend
  cases hend
  rcases hrun : (Store.verifySegments s.segments none 0).run d [] with ⟨o, d'⟩
  rw [io, run_onSnd_eq, hrun] at hseg
  cases hseg
  obtain ⟨rfl, hlists⟩ := verifySegments_run_eq_ok hrun
  exact ⟨rfl, hlists⟩

end Loaded

/-- **A verified store answers.** Open any directory, and verify the store without an error. Let the
records that its segments list have increasing keys, and each entry of their indexes be the key and
the place of one of these records. Then each key has the value that scanning finds: first the memtable,
which holds the records of the log, then the lists of the segments from the newest on. And it has this
value still after a compaction, whatever fails in it. -/
theorem verified_store_answers {dir : Path} {t : ℕ} {d d₁ : Disk} {s : Store} {stats : VerifyStats}
    {y : Store × Disk} (hopen : (Store.openWithThreshold dir t).run d [] = (.ok s, d₁))
    (hverify : Store.verify.run (s, d₁) [] = (.ok stats, y))
    (horder : ∀ r ∈ s.segments, ∀ rs, r.iterAllIn = .ok rs → r.Orderly rs) :
    ∃ recs lists, LogOf (dirOf dir d).wal recs ∧ s.memtable = memtableOf recs ∧
      List.Forall₂ (fun r rs => r.iterAllIn = .ok rs) s.segments lists ∧
      (∀ k, (Store.get k).run y [] = (.ok (reference (memtableOf recs) lists k), y)) ∧
      ∀ l k, (Store.get k).run (Store.compact.run y l).2 [] =
        (.ok (reference (memtableOf recs) lists k), (Store.compact.run y l).2) := by
  obtain ⟨readers, recs, -, -, hlog, -, rfl, hopened⟩ := open_run_eq_ok hopen
  have hd₁ : d₁.read (walPathOf dir) = some (logImage recs) := dirOf_wal.symm.trans hopened.log
  have hvalid := hopened.valid
  obtain ⟨rfl, lists, hlists⟩ := verify_run_eq_ok hd₁ hvalid hverify
  have horderly : List.Forall₂ (fun r rs => r.Orderly rs ∧ r.Bounded ∧ r.iterAllIn = .ok rs)
      readers lists := by
    rw [List.forall₂_iff_get] at hlists ⊢
    refine ⟨hlists.1, fun i hi hj => ?_⟩
    have hlist := hlists.2 i hi hj
    exact ⟨horder _ (List.get_mem _ _) _ hlist,
      hopened.loads.bounded bounded_dirOf (List.get_mem _ _), hlist⟩
  have hsounds : List.Forall₂ (fun r es => r.Sound es) readers
      (lists.map fun rs => rs.map toEntry) :=
    List.forall₂_map_right_iff.mpr (horderly.imp fun _ _ h => h.1.sound h.2.1 h.2.2)
  have href : ∀ k, reference (memtableOf recs) lists k =
      view (memtableOf recs) (lists.map fun rs => rs.map toEntry) k := fun k => by
    refine reference_eq fun rs hrs => ?_
    obtain ⟨r, -, hr⟩ := exists_of_forall₂ horderly.flip hrs
    exact hr.1.increasing
  refine ⟨recs, lists, hlog, rfl, hlists, fun k => ?_, fun l k => ?_⟩
  · rw [href]
    exact get_run_of_sound hsounds k
  · have hserved := hopened.served hsounds t
    have hstep := (wp_compact (A := AnyFault) hserved).run (l := l) fun _ _ => trivial
    obtain ⟨L', hL', hview⟩ := hstep.shows hserved bounded_dirOf
    rw [(href k).trans (hview k).symm]
    exact get_run_of_sound hL' k

/-! ## One segment -/

section One

/-- A segment with the records `rs` and the index `is`. -/
def segmentBytes (rs : List Record) (is : List SparseIndexEntry) : Bytes :=
  SEGMENT_MAGIC ++ [SEGMENT_VERSION] ++ logImage rs ++ indexImage is ++
    (toLe 8 (SEGMENT_HEADER_SIZE + (logImage rs).length) ++ SEGMENT_MAGIC)

/-- Records in the order of their keys. -/
def increasingRecords : List Record := [.newSet [97] [49], .newSet [98] [50]]

/-- The disk with a segment of the records `rs` and the index `is`. -/
def oneSegmentDisk (rs : List Record) (is : List SparseIndexEntry)
    (h : (segmentBytes rs is).length ≤ maxFileLen) : Disk :=
  Disk.empty.put (segmentPath (segmentsDirOf [['d']]) 1) (segmentBytes rs is) h

/-- Its reader, when the record area has 30 bytes. -/
def oneSegmentReader (rs : List Record) (is : List SparseIndexEntry) : SegmentReader :=
  ⟨segmentBytes rs is, segmentPath (segmentsDirOf [['d']]) 1, 1, is, 5, 35⟩

/-- Its store. -/
def oneSegmentStore (rs : List Record) (is : List SparseIndexEntry) : Store :=
  ⟨[['d']], ⟨walPathOf [['d']]⟩, .new, [oneSegmentReader rs is], 2, 0⟩

/-- The disk once the store is open. -/
def openedSegmentDisk (rs : List Record) (is : List SparseIndexEntry)
    (h : (segmentBytes rs is).length ≤ maxFileLen) : Disk :=
  (oneSegmentDisk rs is h).put (walPathOf [['d']]) [] (Nat.zero_le _)

/-- The disk of the records of `a` and `b`, with `a` in the index. -/
def orderlyDisk : Disk := oneSegmentDisk increasingRecords [⟨[97], 5⟩] (by decide +kernel)

/-- Its store, with the disk once it is open. -/
def orderlyStore : Store × Disk := (oneSegmentStore increasingRecords [⟨[97], 5⟩],
  openedSegmentDisk increasingRecords [⟨[97], 5⟩] (by decide +kernel))

theorem verified_store_answers_increasing : ∃ recs lists,
    LogOf (dirOf [['d']] orderlyDisk).wal recs ∧ orderlyStore.1.memtable = memtableOf recs ∧
      List.Forall₂ (fun r rs => r.iterAllIn = .ok rs) orderlyStore.1.segments lists ∧
      (∀ k, (Store.get k).run orderlyStore [] =
        (.ok (reference (memtableOf recs) lists k), orderlyStore)) ∧
      ∀ l k, (Store.get k).run (Store.compact.run orderlyStore l).2 [] =
        (.ok (reference (memtableOf recs) lists k), (Store.compact.run orderlyStore l).2) := by
  have hopen : (Store.openWithThreshold [['d']] 0).run orderlyDisk [] =
      (.ok orderlyStore.1, orderlyStore.2) := rfl
  have hverify : Store.verify.run orderlyStore [] = (.ok ⟨0, 1, 2⟩, orderlyStore) := rfl
  refine verified_store_answers hopen hverify fun r hr rs hrs => ?_
  obtain rfl := List.mem_singleton.mp hr
  have hlist : (oneSegmentReader increasingRecords [⟨[97], 5⟩]).iterAllIn =
      .ok increasingRecords := by decide +kernel
  rw [hlist] at hrs
  cases hrs
  refine ⟨by decide, fun i hi => ?_⟩
  obtain rfl := List.mem_singleton.mp hi
  exact ⟨[], _, _, rfl, rfl, rfl⟩

/-- The store of the records of `b` and `a`, in this order, with the disk once it is open. -/
def unorderedStore : Store × Disk := (oneSegmentStore increasingRecords.reverse [⟨[98], 5⟩],
  openedSegmentDisk increasingRecords.reverse [⟨[98], 5⟩] (by decide +kernel))

/-- **An unordered segment hides a key.** A segment with the records of `b` and `a`, in this order,
opens and is verified; but `a` is not found in it. -/
theorem unordered_segment_hides_key : ¬ ∀ (dir : Path) t d d₁ s stats y,
    (Store.openWithThreshold dir t).run d [] = (.ok s, d₁) →
    Store.verify.run (s, d₁) [] = (.ok stats, y) →
    ∃ lists, List.Forall₂ (fun r rs => r.iterAllIn = .ok rs) s.segments lists ∧
      ∀ k, (Store.get k).run y [] = (.ok (reference s.memtable lists k), y) := by
  intro hall
  obtain ⟨lists, hlists, hget⟩ := hall [['d']] 0
    (oneSegmentDisk increasingRecords.reverse [⟨[98], 5⟩] (by decide +kernel))
    unorderedStore.2 unorderedStore.1 ⟨0, 1, 2⟩ unorderedStore rfl rfl
  have hlist : (oneSegmentReader increasingRecords.reverse [⟨[98], 5⟩]).iterAllIn =
      .ok increasingRecords.reverse := by decide +kernel
  obtain ⟨rs, _, hrs, hnil, rfl⟩ := List.forall₂_cons_left_iff.mp hlists
  obtain rfl := List.forall₂_nil_left_iff.mp hnil
  rw [hlist] at hrs
  cases hrs
  have hmissed : (Outcome.ok none : Outcome StoneError (Option Val)) = .ok (some [49]) :=
    congrArg Prod.fst (hget [97])
  cases hmissed

/-- The store of the records of `a` and `b` with `a` at the place of `b` in the index. -/
def misindexedStore : Store × Disk := (oneSegmentStore increasingRecords [⟨[], 5⟩, ⟨[97], 20⟩],
  openedSegmentDisk increasingRecords [⟨[], 5⟩, ⟨[97], 20⟩] (by decide +kernel))

/-- **So does a wrong index**, also when the keys increase. -/
theorem wrong_index_hides_key :
    (Store.openWithThreshold [['d']] 0).run (oneSegmentDisk increasingRecords
      [⟨[], 5⟩, ⟨[97], 20⟩] (by decide +kernel)) [] = (.ok misindexedStore.1, misindexedStore.2) ∧
    Store.verify.run misindexedStore [] = (.ok ⟨0, 1, 2⟩, misindexedStore) ∧
    (Store.get [97]).run misindexedStore [] = (.ok none, misindexedStore) := ⟨rfl, rfl, rfl⟩

end One

end StoneKV
