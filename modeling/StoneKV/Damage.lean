import StoneKV.Exhaustion
import StoneKV.Salvage
import StoneKV.Validation
import StoneKV.Lib.SparseIndex

/-!
# Damaged segments

* `startOffset_sparseIndexOf`: `get` starts at the block of the key.
* `SegmentReader.blockOf`, `blockPlace`: the entries of a segment that `get` reads for a key, and where
  they are.
* `Worn s d d'`: any bytes of the record areas of the segments have changed.
* **`damage_contained`**: the directory opens again, and a key is found as before if its blocks are.
-/

namespace StoneKV

open FaultProg Prog SparseIndex

/-! ## Where a lookup starts -/

section Start

variable {k : Key} {es : List Entry} {e : Entry}

/-- An index of keys after `k` is left at once. -/
theorem startOffset_of_after {is : List SparseIndexEntry} {start : ℕ}
    (h : ∀ i ∈ is, ¬ (compare i.key k).isLE) : SegmentReader.startOffset k is start = start := by
  cases is with
  | nil => rfl
  | cons i is => rw [SegmentReader.startOffset, if_neg (h i List.mem_cons_self)]

/-- **Where a lookup starts**, in the index of entries from number `n` on: at the last entry whose
number is a multiple of the interval and that is not after the key. -/
theorem startOffset_sparseIndexOf : ∀ {es : List Entry}, Ascending es → ∀ n offset start,
    SegmentReader.startOffset k (sparseIndexOf n offset es) start =
      if upTo k es = 0 ∨ (n + upTo k es - 1) / 16 * 16 < n then start
      else offset + (recordsImage (es.take ((n + upTo k es - 1) / 16 * 16 - n))).length
  | [], _, n, offset, start => by
    rw [sparseIndexOf, SegmentReader.startOffset, if_pos (.inl upTo_nil)]
  | e :: es, hasc, n, offset, start => by
    have hinterval : SPARSE_INDEX_INTERVAL = 16 := rfl
    have ih := fun start => startOffset_sparseIndexOf hasc.tail (n + 1)
      (offset + (toRecord e).image.length) start
    by_cases hle : (compare e.1 k).isLE
    · have hup : upTo k (e :: es) = upTo k es + 1 := by rw [upTo_cons, if_pos hle]
      have hn : n + 1 + upTo k es - 1 = n + upTo k es := by omega
      rw [hup, sparseIndexOf, hinterval, show n + (upTo k es + 1) - 1 = n + upTo k es by omega]
      -- the numbers of the index that are reached from here on
      have hlater : ∀ {q}, n + 1 ≤ q → offset + (toRecord e).image.length +
          (recordsImage (es.take (q - (n + 1)))).length =
            offset + (recordsImage ((e :: es).take (q - n))).length := fun {q} hq => by
        rw [show q - n = q - (n + 1) + 1 by omega, List.take_succ_cons, recordsImage_cons,
          List.length_append, Nat.add_assoc]
      by_cases hmod : n % 16 = 0
      · rw [if_pos hmod, List.singleton_append, SegmentReader.startOffset, if_pos hle, ih, hn]
        by_cases hfirst : upTo k es = 0 ∨ (n + upTo k es) / 16 * 16 < n + 1
        · have hq : (n + upTo k es) / 16 * 16 = n := by omega
          rw [if_pos hfirst, if_neg (by omega), hq, Nat.sub_self]
          rfl
        · rw [if_neg hfirst, if_neg (by omega)]
          exact hlater (by omega)
      · rw [if_neg hmod, List.nil_append, ih, hn]
        by_cases hbefore : (n + upTo k es) / 16 * 16 < n
        · rw [if_pos (.inr (by omega)), if_pos (.inr hbefore)]
        · rw [if_neg (by omega), if_neg (by omega)]
          exact hlater (by omega)
    · have hup : upTo k (e :: es) = 0 := by rw [upTo_cons, if_neg hle]
      rw [hup, if_pos (.inl rfl)]
      refine startOffset_of_after fun i hi => ?_
      obtain ⟨pre, x, post, hes, hkey, -⟩ := mem_sparseIndexOf hi
      have hlt : compare e.1 k ≠ .lt := fun h => hle (by rw [h]; rfl)
      rw [hkey]
      rcases pre with _ | ⟨y, pre⟩
      · rw [← (List.cons.inj hes).1]
        exact hle
      · have hx : x ∈ es := by rw [(List.cons.inj hes).2]; simp
        have hsorted : Sorted (e :: es) := hasc
        have hgt : compare x.1 k = .gt :=
          Std.OrientedCmp.gt_iff_lt.mpr (lt_of_not_lt hsorted hlt hx)
        rw [hgt]
        exact Bool.false_ne_true

end Start

/-! ## What a lookup reads -/

namespace SegmentReader

/-- The entries of an open segment. -/
def entries (r : SegmentReader) : List Entry :=
  match r.iterAllIn with
  | .ok records => records.map toEntry
  | .error _ => []

/-- The entries that `get` reads for a key. -/
def blockOf (r : SegmentReader) (k : Key) : List Entry := block SPARSE_INDEX_INTERVAL k r.entries

/-- The place of the first of them. -/
def blockPlace (r : SegmentReader) (k : Key) : ℕ :=
  r.recordsStart + (recordsImage (r.entries.take (firstRead SPARSE_INDEX_INTERVAL k r.entries))).length

/-- The bytes `b` have the records of these entries, at their place. -/
def Spares (r : SegmentReader) (k : Key) (b : Bytes) : Prop :=
  slice b (r.blockPlace k) (recordsImage (r.blockOf k)).length = recordsImage (r.blockOf k)

/-- The bytes `b` differ from the file of the segment in its record area at most. -/
structure Worn (r : SegmentReader) (b : Bytes) : Prop where
  length : b.length = r.file.length
  head : b.take r.recordsStart = r.file.take r.recordsStart
  rest : b.drop r.indexOffset = r.file.drop r.indexOffset

/-- The open segment, with other bytes in its file. -/
def withFile (r : SegmentReader) (b : Bytes) : SegmentReader := { r with file := b }

section Worn

variable {p : Path} {g : ℕ} {es : List Entry} {r : SegmentReader} {b : Bytes} {k : Key}

theorem Sound.entries_eq (h : r.Sound es) : r.entries = es := by
  rw [entries, h.iterAllIn]
  dsimp only
  rw [List.map_map, Function.LeftInverse.comp_eq_id toEntry_toRecord, List.map_id]

/-- **A worn segment opens**, with the index that it had. -/
theorem Worn.openIn (hb : (readerOf p g es).Worn b) (h : Storable es) :
    openIn p g b = .ok ((readerOf p g es).withFile b) :=
  openIn_of_same_frame h.length_le (h.openIn p g) hb.length hb.head hb.rest

theorem Sound.blockOf_eq (h : r.Sound es) : r.blockOf k = block SPARSE_INDEX_INTERVAL k es := by
  rw [blockOf, h.entries_eq]

/-- The record area: what is before the block, the block, and what is behind it. -/
theorem Sound.area_block (h : r.Sound es) : r.blockPlace k + (recordsImage (r.blockOf k)).length +
    (recordsImage (es.drop (below k es + 1))).length = r.indexOffset := by
  have hasc : Sorted es := h.ascending
  have himage := congrArg (fun es => (recordsImage es).length)
    (append_block (n := SPARSE_INDEX_INTERVAL) (k := k) hasc)
  rw [recordsImage_append, recordsImage_append, List.length_append, List.length_append] at himage
  rw [← h.area, ← himage, h.blockOf_eq, blockPlace, h.entries_eq]
  omega

/-- The block reaches the key, or the end of the record area. -/
theorem Sound.block_stops (h : r.Sound es) : (∃ e ∈ r.blockOf k, compare e.1 k ≠ .lt) ∨
    r.blockPlace k + (recordsImage (r.blockOf k)).length = r.indexOffset := by
  have hasc : Sorted es := h.ascending
  have hstops := SparseIndex.block_stops (n := SPARSE_INDEX_INTERVAL) (k := k) hasc
  rw [← h.blockOf_eq] at hstops
  refine hstops.imp_right fun hnone => ?_
  have harea := h.area_block (k := k)
  rwa [hnone] at harea

/-- The index leads to the block. -/
theorem startOffset_readerOf (h : Storable es) :
    startOffset k (readerOf p g es).sparseIndex (readerOf p g es).recordsStart =
      (readerOf p g es).blockPlace k := by
  have hup : firstRead SPARSE_INDEX_INTERVAL k es = (upTo k es - 1) / 16 * 16 := rfl
  have hstart := startOffset_sparseIndexOf (k := k) h.ascending 0 SEGMENT_HEADER_SIZE
    SEGMENT_HEADER_SIZE
  rw [Nat.zero_add, Nat.sub_zero] at hstart
  rw [blockPlace, (h.sound p g).entries_eq, hup]
  refine Eq.trans hstart ?_
  split_ifs with hfirst
  · rw [show (upTo k es - 1) / 16 * 16 = 0 by omega]
    rfl
  · rfl

/-- **A worn segment is read** as before where the block of the key is spared. -/
theorem Worn.getIn (hb : (readerOf p g es).Worn b) (h : Storable es)
    (hk : (readerOf p g es).Spares k b) :
    ((readerOf p g es).withFile b).getIn k = (readerOf p g es).getIn k := by
  have hsound := h.sound p g
  have hbounded : ((readerOf p g es).withFile b).Bounded :=
    ⟨rfl, by rw [withFile, hb.length]; exact hsound.le,
      by rw [withFile, hb.length]; exact hsound.length_le⟩
  have hsublist : ((readerOf p g es).blockOf k).Sublist es := by
    rw [hsound.blockOf_eq]
    exact block_sublist
  have hfile := drop_eq_slice b ((readerOf p g es).blockPlace k)
    (recordsImage ((readerOf p g es).blockOf k)).length
  rw [hk] at hfile
  have harea := hsound.area_block (k := k)
  have hle : (readerOf p g es).blockPlace k + (recordsImage ((readerOf p g es).blockOf k)).length ≤
      ((readerOf p g es).withFile b).indexOffset := by
    rw [show ((readerOf p g es).withFile b).indexOffset = (readerOf p g es).indexOffset from rfl]
    omega
  have hread := hbounded.getLoop ((readerOf p g es).blockOf k) (readerOf p g es).indexOffset
    ((readerOf p g es).blockPlace k) (h.ascending.sublist hsublist)
    (fun e he => h.valid e (hsublist.subset he)) (Nat.le_add_right _ _) hle hfile (by omega)
    hsound.block_stops
  rw [hsound.getIn, ← lookup_block h.ascending, ← hsound.blockOf_eq]
  unfold SegmentReader.getIn
  exact (congrArg _ (startOffset_readerOf h)).trans hread

end Worn

end SegmentReader

/-! ## Worn stores -/

/-- The files of the segments of the store may have changed in their record areas; no others have. -/
structure Worn (s : Store) (d d' : Disk) : Prop where
  segments : ∀ r ∈ s.segments, ∃ b, d'.read r.path = some b ∧ r.Worn b
  others : ∀ p, (∀ r ∈ s.segments, r.path ≠ p) → d'.read p = d.read p

/-- The files of the segments have the blocks of the key, as far as it is looked for. -/
def SparedIn (k : Key) (d' : Disk) : List SegmentReader → Prop
  | [] => True
  | r :: rs => (∃ b, d'.read r.path = some b ∧ r.Spares k b) ∧
      (r.getIn k = .ok none → SparedIn k d' rs)

/-- What `get` reads for the key is there as it was. -/
def Store.Spares (s : Store) (k : Key) (d' : Disk) : Prop :=
  s.memtable.get k = none → SparedIn k d' s.segments

/-- The open segment of a worn file. -/
def wornReader (d' : Disk) (r : SegmentReader) : SegmentReader :=
  r.withFile ((d'.read r.path).getD [])

section Stores

variable {dir : Path} {s : Store} {d d' : Disk} {gs : List ℕ} {L : List (List Entry)} {rs : List Record}
  {t : ℕ} {k : Key} {r : SegmentReader} {es : List Entry}

/-- The open segment is that of a file that was written. -/
def Written (r : SegmentReader) : Prop := ∃ es, Storable es ∧ r = readerOf r.path r.generation es

theorem written_readersOf {R : ℕ → List Entry → Prop}
    (h : List.Forall₂ (fun g es => Storable es ∧ R g es) gs L) :
    ∀ r ∈ readersOf dir gs L, Written r := by
  induction h with
  | nil => exact fun _ hr => absurd hr List.not_mem_nil
  | cons hab _ ih =>
    intro r hr
    rw [readersOf, List.zipWith_cons_cons, List.mem_cons] at hr
    rcases hr with rfl | hr
    · exact ⟨_, hab.1, rfl⟩
    · exact ih r hr

theorem Live.written (h : Live dir s (dirOf dir d) gs L rs t) : ∀ r ∈ s.segments, Written r := by
  rw [h.store]
  exact written_readersOf h.settled.holds.images

theorem Written.length_blockOf (h : Written r) (k : Key) :
    (r.blockOf k).length ≤ SPARSE_INDEX_INTERVAL + 1 := by
  obtain ⟨es, hes, hr⟩ := h
  rw [hr, SegmentReader.blockOf, (hes.sound _ _).entries_eq]
  exact length_block_le hes.ascending (by decide)

/-- The search through worn segments. -/
theorem lookupIn_worn : ∀ {readers : List SegmentReader}, (∀ r ∈ readers, Written r) →
    (∀ r ∈ readers, ∃ b, d'.read r.path = some b ∧ r.Worn b) → SparedIn k d' readers →
    lookupIn k (readers.map (wornReader d')) = lookupIn k readers
  | [], _, _, _ => rfl
  | r :: readers, hwritten, hworn, hspared => by
    obtain ⟨⟨b, hb, hspares⟩, hlater⟩ := hspared
    obtain ⟨b', hb', hw⟩ := hworn r List.mem_cons_self
    obtain rfl : b' = b := Option.some_inj.mp (hb'.symm.trans hb)
    obtain ⟨es, hes, hr⟩ := hwritten r List.mem_cons_self
    have hget : (wornReader d' r).getIn k = r.getIn k := by
      rw [wornReader, hb, Option.getD_some]
      rw [hr] at hw hspares ⊢
      exact hw.getIn hes hspares
    rw [List.map_cons, lookupIn, lookupIn, hget]
    rcases hfound : r.getIn k with e | _ | v
    · rfl
    · exact lookupIn_worn (fun x hx => hwritten x (List.mem_cons_of_mem _ hx))
        (fun x hx => hworn x (List.mem_cons_of_mem _ hx)) (hlater hfound)
    · rfl

theorem Worn.read_eq (h : Worn s d d') (hr : r ∈ s.segments) :
    ∃ b, d'.read r.path = some b ∧ r.Worn b ∧ wornReader d' r = r.withFile b := by
  obtain ⟨b, hb, hw⟩ := h.segments r hr
  exact ⟨b, hb, hw, by rw [wornReader, hb, Option.getD_some]⟩

/-- **The worn segments load.** -/
theorem Worn.loads (h : Worn s d d') (hlive : Live dir s (dirOf dir d) gs L rs t) :
    Loads dir (dirOf dir d') (s.segments.map (wornReader d')) := by
  have hloads : Loads dir (dirOf dir d) s.segments := by
    rw [hlive.store]
    exact hlive.settled.loads
  have hread : ∀ r ∈ s.segments, (dirOf dir d').files (fileName r) = d'.read r.path := fun r hr => by
    rw [dirOf_files (not_isScratchName_of_parse (hloads.parse r hr)), ← hloads.path r hr]
  refine ⟨List.forall_mem_map.mpr hloads.path, List.forall_mem_map.mpr hloads.parse,
    List.forall_mem_map.mpr fun r hr => ?_, List.forall_mem_map.mpr fun r hr => ?_,
    List.pairwise_map.mpr hloads.decreasing, List.forall_mem_map.mpr hloads.below, fun n hn hl => ?_⟩
  · obtain ⟨b, hb, -, hreader⟩ := h.read_eq hr
    change (dirOf dir d').files (fileName r) = _
    rw [hread r hr, hb, hreader]
    rfl
  · obtain ⟨b, -, hw, hreader⟩ := h.read_eq hr
    obtain ⟨es, hes, hwritten⟩ := hlive.written r hr
    rw [hreader]
    rw [hwritten] at hw ⊢
    exact hw.openIn hes
  · obtain ⟨r, hr, hname⟩ : ∃ r ∈ s.segments, fileName r = n := by
      by_contra hnone
      refine hnone (hloads.complete n ?_ hl)
      rw [dirOf_files (not_isScratchName_of_looksLikeSegment hl)] at hn ⊢
      rwa [h.others] at hn
      intro r hr hpath
      refine hnone ⟨r, hr, ?_⟩
      rw [fileName, hpath]
      exact List.getLastD_concat
    exact ⟨_, List.mem_map_of_mem hr, hname⟩

/-- **Damage is contained.** Take a store reached without failures, and let any bytes in the record
areas of its segments change while it is closed. The directory opens again. For each key `get` reads
no more than the interval of the index and one record more in a segment; and if these are as they were,
in the segments up to the first one that has the key, it gives what it gave. -/
theorem damage_contained (h : Reachable NoFail (fun _ => NoFail) dir (some s) d) (hworn : Worn s d d')
    (t : ℕ) : ∃ s' d'', (Store.openWithThreshold dir t).run d' [] = (.ok s', d'') ∧ ∀ k,
      (∀ r ∈ s.segments, (r.blockOf k).length ≤ SPARSE_INDEX_INTERVAL + 1) ∧
      (s.Spares k d' → findings (s', d'') k = findings (s, d) k) := by
  obtain ⟨gs, L, rs, t₀, hlive⟩ := h.live.2 s rfl
  have hloads : Loads dir (dirOf dir d) s.segments := by
    rw [hlive.store]
    exact hlive.settled.loads
  have hmarker : (dirOf dir d').marker = none := by
    rw [dirOf_marker, hworn.others, ← dirOf_marker, hlive.marker_none]
    intro r hr hpath
    refine ne_marker_of_parse (hloads.parse r hr) ?_
    rw [fileName, hpath]
    exact List.getLastD_concat
  have hlog : LogHolds (dirOf dir d').wal rs := by
    rw [dirOf_wal, hworn.others, ← dirOf_wal, hlive.log]
    · exact logHolds_image hlive.records
    · intro r hr hpath
      rw [hloads.path r hr] at hpath
      exact segmentsDir_ne_wal hpath
  have hgives : Gives dir (dirOf dir d') (found (s.segments.map (wornReader d')) rs) :=
    ⟨_, rs, hworn.loads hlive, hmarker, hlog, rfl⟩
  obtain ⟨s', d'', hrun, hfound⟩ := hgives.opensWith t
  refine ⟨s', d'', hrun, fun k => ⟨fun r hr => (hlive.written r hr).length_blockOf k, fun hspares => ?_⟩⟩
  have hget : s.memtable.get k = (memtableOf rs).get k := by rw [hlive.memtable_eq]
  rw [Salvaged.findings_eq hfound, findings_eq]
  refine congrArg Outcome.ofExcept ?_
  rcases hk : (memtableOf rs).get k with _ | v
  · rw [Store.lookup_of_none (hget.trans hk)]
    have hfresh : (loadedStore [] (s.segments.map (wornReader d')) rs 0).lookup k =
        lookupIn k (s.segments.map (wornReader d')) := Store.lookup_of_none hk
    exact hfresh.trans (lookupIn_worn hlive.written hworn.segments (hspares (hget.trans hk)))
  · rw [Store.lookup_of_some (hget.trans hk)]
    exact Store.lookup_of_some hk

theorem worn_wornDisk : Worn twoSegments.1 twoSegments.2 wornDisk := by
  have hpath : ∃ r ∈ twoSegments.1.segments, r.path = segmentPath (segmentsDirOf [['d']]) 1 := by
    decide +kernel
  have hworn : ∀ r ∈ twoSegments.1.segments, (wornDisk.read r.path).isSome ∧
      ((wornDisk.read r.path).getD []).length = r.file.length ∧
      ((wornDisk.read r.path).getD []).take r.recordsStart = r.file.take r.recordsStart ∧
      ((wornDisk.read r.path).getD []).drop r.indexOffset = r.file.drop r.indexOffset := by
    decide +kernel
  refine ⟨fun r hr => ?_, fun p hp => ?_⟩
  · obtain ⟨hsome, hlength, hhead, hrest⟩ := hworn r hr
    obtain ⟨b, hb⟩ := Option.isSome_iff_exists.mp hsome
    rw [hb] at hlength hhead hrest
    exact ⟨b, hb, hlength, hhead, hrest⟩
  · obtain ⟨r, hr, hrp⟩ := hpath
    rw [wornDisk, Disk.read_put, if_neg fun h => hp r hr (hrp.trans h.symm)]

/-- The value of `a` is damaged; `b` is found. -/
theorem damage_contained_worn : ∃ s' d'',
    (Store.openWithThreshold [['d']] 1).run wornDisk [] = (.ok s', d'') ∧
      (∀ r ∈ twoSegments.1.segments, (r.blockOf [98]).length ≤ SPARSE_INDEX_INTERVAL + 1) ∧
      findings (s', d'') [98] = .ok (some [50]) := by
  have hreached : Reachable NoFail (fun _ => NoFail) [['d']] (some twoSegments.1) twoSegments.2 :=
    cleanRun_twoSegments.reachable reachable_eagerStore
  have hlen : twoSegments.1.segments.length = 2 := by decide +kernel
  have hfirst : ∀ r ∈ twoSegments.1.segments.take 1, wornDisk.read r.path = some r.file ∧
      slice r.file (r.blockPlace [98]) (recordsImage (r.blockOf [98])).length =
        recordsImage (r.blockOf [98]) ∧ (r.getIn [98]).toOption = some (some (some [50])) := by
    decide +kernel
  obtain ⟨a, b, hsegs⟩ := List.length_eq_two.mp hlen
  have hspares : twoSegments.1.Spares [98] wornDisk := fun _ => by
    rw [hsegs] at hfirst ⊢
    obtain ⟨hread, hblock, hget⟩ := hfirst a (List.mem_singleton_self a)
    refine ⟨⟨a.file, hread, hblock⟩, fun hnone => ?_⟩
    rw [hnone] at hget
    cases hget
  obtain ⟨s', d'', hrun, hfound⟩ := damage_contained hreached worn_wornDisk 1
  have hbefore : findings twoSegments [98] = .ok (some [50]) := by decide +kernel
  exact ⟨s', d'', hrun, (hfound [98]).1, ((hfound [98]).2 hspares).trans hbefore⟩

end Stores

end StoneKV
