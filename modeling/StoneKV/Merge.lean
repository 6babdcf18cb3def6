import StoneKV.Compaction

/-!
# What a merge answers

* `WrittenBy es b`: the writer, given the entries `es`, leaves the bytes `b`.
* `newestFirst ess k`: the first record or tombstone for `k`, from the newest of `ess` on.
* **`compactAll_newestFirst`**: the output of `compact_all` answers like the search.
-/

namespace StoneKV

open FaultProg Layers

/-- The writer, given the entries `es`, succeeds and leaves the bytes `b`. -/
def WrittenBy (es : List Entry) (b : Bytes) : Prop :=
  ∃ path d stats d', (SegmentWriter.write path es).run d [] = (.ok stats, d') ∧
    d'.read path = some b

/-- The first record or tombstone for `k` in lists of entries, searched from the last list on. -/
def newestFirst (ess : List (List Entry)) (k : Key) : Option (Option Val) :=
  find (ess.reverse.map layer) k

variable {es : List Entry} {ess : List (List Entry)} {b : Bytes} {k : Key} {A : Fault → Prop}

theorem WrittenBy.accepted (h : WrittenBy es b) :
    Ascending es ∧ ∀ e ∈ es, (toRecord e).Valid := by
  obtain ⟨path, d, stats, d', hrun, -⟩ := h
  have hwp : wp NoFault (SegmentWriter.write path es)
      (fun o _ => ∀ s, o = .ok s → Ascending es ∧ ∀ e ∈ es, (toRecord e).Valid) d := by
    refine FaultProg.wp.bind (wp_of_forall fun _ _ => trivial) (fun w d₁ _ => ?_)
      (fun _ _ _ _ h => by cases h) fun _ _ _ h => by cases h
    refine FaultProg.wp.bind (SegmentWriter.wp_writeAll_accepts es w d₁) (fun w' d₂ h => ?_)
      (fun _ _ _ _ h => by cases h) fun _ _ _ h => by cases h
    exact wp_of_forall fun _ _ _ _ => ⟨(h w' rfl).1, (h w' rfl).2.1⟩
  exact hwp.run_eq (by simp) hrun stats rfl

theorem WrittenBy.storable (h : WrittenBy es b) (hasc : Ascending es) (hb : b.length ≤ maxFileLen) :
    Storable es ∧ b = segmentImage es := by
  have hvalid := h.accepted.2
  obtain ⟨path, d, stats, d', hrun, hread⟩ := h
  have hwp : wp NoFault (SegmentWriter.write path es)
      (fun o d' => ∀ s, o = .ok s → d'.read path = some (segmentImage es)) d :=
    SegmentWriter.wp_write hasc hvalid (fun _ _ h _ _ => h) (fun _ _ _ _ _ h => by cases h)
      fun _ _ _ h => by cases h
  have himg := hwp.run_eq (by simp) hrun stats rfl
  rw [hread] at himg
  cases himg
  exact ⟨⟨hasc, hvalid, hb⟩, rfl⟩

theorem Storable.writtenBy (h : Storable es) : WrittenBy es (segmentImage es) := by
  have hwp : wp NoFault (SegmentWriter.write [] es) (fun o d' => o = .crash ∨
      (∃ stats, o = .ok stats) ∧ d'.read [] = some (segmentImage es)) Disk.empty := by
    refine SegmentWriter.wp_write h.ascending h.valid (fun _ _ hread => .inr ⟨⟨_, rfl⟩, hread⟩) ?_
      fun _ _ => .inl rfl
    rintro i (⟨-, hbig⟩ | ⟨n, hn⟩)
    · exact absurd h.length_le (Nat.not_le.mpr hbig)
    · exact absurd hn (not_noFault_fail n)
  obtain ⟨⟨stats, hok⟩, hread⟩ := run_nil_of_wp hwp
  exact ⟨[], Disk.empty, stats, _, Prod.ext hok rfl, hread⟩

/-- The number of keys with a live newest value. -/
theorem length_liveEntries (h : ∀ es ∈ ess, Ascending es) :
    (liveEntries ess).length = {k | ∃ v, newestFirst ess k = some (some v)}.ncard := by
  have hset : {k | ∃ v, newestFirst ess k = some (some v)} =
      ((liveEntries ess).map Prod.fst).toFinset := by
    ext k
    simp only [Set.mem_ofPred_eq, List.coe_toFinset, List.mem_map, Prod.exists, exists_and_right,
      exists_eq_right, mem_liveEntries h, newestFirst]
    constructor
    · rintro ⟨v, hv⟩
      exact ⟨some v, hv, rfl⟩
    · rintro ⟨_ | v, hv, hs⟩
      · cases hs
      · exact ⟨v, hv⟩
  rw [hset, Set.ncard_coe_finset, List.toFinset_card_of_nodup ascending_liveEntries.nodup,
    List.length_map]

theorem inputs_of_written {d : Disk} {inputs : List (Path × List Entry)}
    (hasc : ∀ x ∈ inputs, Ascending x.2)
    (hwritten : ∀ x ∈ inputs, ∃ b, d.read x.1 = some b ∧ WrittenBy x.2 b) :
    Inputs d (inputs.map Prod.fst) (inputs.map Prod.snd) := by
  refine List.forall₂_map_left_iff.mpr (List.forall₂_map_right_iff.mpr ?_)
  rw [List.forall₂_same]
  intro x hx
  obtain ⟨b, hb, hw⟩ := hwritten x hx
  obtain ⟨hs, rfl⟩ := hw.storable (hasc x hx) (Disk.length_le_of_read hb)
  exact ⟨_, hb, hs.faithful x.1⟩

/-- What the output answers: the live entries, in the order of their keys. -/
theorem answers_of_read {d : Disk} {out : Path} (h : Storable es)
    (hd : d.read out = some (segmentImage es)) (g : ℕ) :
    (SegmentReader.open out g).run d [] = (.ok (readerOf out g es), d) ∧
      (readerOf out g es).iterAll.run d [] = (.ok (es.map toRecord), d) ∧
      ∀ k, ((readerOf out g es).get k).run d [] = (.ok (layer es k), d) := by
  have hs := h.sound out g
  refine ⟨wp.run_nil_eq ?_, wp.run_nil_eq ?_, fun k => wp.run_nil_eq ?_⟩
  · refine SegmentReader.wp_open (fun b r hb hr _ => ?_) (fun b e hb he _ => ?_) (fun hn _ => ?_)
      (fun n hf => absurd hf (not_noFault_fail n)) fun hc => absurd rfl hc
    · rw [hd] at hb
      cases hb
      rw [h.openIn] at hr
      cases hr
      rfl
    · rw [hd] at hb
      cases hb
      rw [h.openIn] at he
      cases he
    · rw [hd] at hn
      cases hn
  · exact Fs.wp_reads (fun rs hrs _ => by rw [hs.iterAllIn] at hrs; cases hrs; rfl)
      (fun e he => by rw [hs.iterAllIn] at he; cases he)
      (fun n hf => absurd hf (not_noFault_fail n)) fun _ _ hc => absurd rfl hc
  · exact Fs.wp_reads (fun a ha _ => by rw [hs.getIn] at ha; cases ha; rfl)
      (fun e he => by rw [hs.getIn] at he; cases he)
      (fun n hf => absurd hf (not_noFault_fail n)) fun _ _ hc => absurd rfl hc

theorem layer_eq_newestFirst (h : ∀ es ∈ ess, Ascending es) :
    (layer (liveEntries ess) k = none ∨ ∃ v, layer (liveEntries ess) k = some (some v)) ∧
      ∀ v, layer (liveEntries ess) k = some (some v) ↔ newestFirst ess k = some (some v) := by
  rw [layer_liveEntries h, live, newestFirst]
  rcases find (ess.reverse.map layer) k with _ | _ | v <;> simp

/-- **The newest-wins merge.** The inputs are segments written from increasing entries, the oldest
first. Unless the output is longer than offsets can count, `compact_all` returns; then the output
opens, lists sets in the order of their keys, and answers as a search of the inputs from the newest
on that stops at the first record or tombstone; and the counts are those of the inputs and of the
keys with a live newest value. -/
theorem compactAll_newestFirst {d d' : Disk} {out : Path} {o : Outcome StoneError CompactionBuildStats}
    (inputs : List (Path × List Entry)) (hasc : ∀ x ∈ inputs, Ascending x.2)
    (hwritten : ∀ x ∈ inputs, ∃ b, d.read x.1 = some b ∧ WrittenBy x.2 b)
    (hrun : (compactAll (inputs.map Prod.fst) out).run d [] = (o, d')) :
    (maxFileLen < (segmentImage (liveEntries (inputs.map Prod.snd))).length ∧
      o = .err (.io .fileTooLarge)) ∨ ∃ stats, o = .ok stats ∧
      stats.recordsBefore = min (recordCount (inputs.map Prod.snd)) (u64Size - 1) ∧
      stats.liveRecordsAfter =
        {k | ∃ v, newestFirst (inputs.map Prod.snd) k = some (some v)}.ncard ∧
      ∀ g, ∃ r rs, (SegmentReader.open out g).run d' [] = (.ok r, d') ∧
        r.iterAll.run d' [] = (.ok rs, d') ∧
        rs.Pairwise (fun a b => compare a.key b.key = .lt) ∧ (∀ rec ∈ rs, rec.op = .set) ∧
        ∀ k, ∃ a, (r.get k).run d' [] = (.ok a, d') ∧ (a = none ∨ ∃ v, a = some (some v)) ∧
          ∀ v, a = some (some v) ↔ newestFirst (inputs.map Prod.snd) k = some (some v) := by
  have hin := inputs_of_written hasc hwritten
  have hess := hin.ascending
  have hwp : wp NoFault (compactAll (inputs.map Prod.fst) out) (fun o d' => o ≠ .crash →
      (maxFileLen < (segmentImage (liveEntries (inputs.map Prod.snd))).length ∧
        o = .err (.io .fileTooLarge)) ∨ (∃ k n, o = .ok ⟨(inputs.map Prod.fst).length,
        saturatingAdd 0 (recordCount (inputs.map Prod.snd)),
        (liveEntries (inputs.map Prod.snd)).length, k, n⟩) ∧
        d'.read out = some (segmentImage (liveEntries (inputs.map Prod.snd)))) d := by
    refine wp_compactAll hin (fun d' _ hread _ => .inr ⟨⟨_, _, rfl⟩, hread⟩) ?_
      fun _ _ hc => absurd rfl hc
    rintro i (⟨rfl, hbig⟩ | ⟨n, hn⟩) _ _ _
    · exact .inl ⟨hbig, rfl⟩
    · exact absurd hn (not_noFault_fail n)
  have hrunOf := hwp.noCrash (fun n hn => by cases hn)
  obtain htoo | ⟨⟨k, n, rfl⟩, hread⟩ := hrunOf.run_eq (by simp) hrun
  · exact .inl htoo
  refine .inr ⟨_, rfl, ?_, length_liveEntries hess, fun g => ?_⟩
  · unfold saturatingAdd
    dsimp only
    omega
  have hstor : Storable (liveEntries (inputs.map Prod.snd)) :=
    ⟨ascending_liveEntries, valid_liveEntries hess hin.valid, Disk.length_le_of_read hread⟩
  obtain ⟨hopen, hiter, hget⟩ := answers_of_read hstor hread g
  refine ⟨_, _, hopen, hiter, ?_, ?_, fun k => ⟨_, hget k, layer_eq_newestFirst hess⟩⟩
  · rw [List.pairwise_map]
    exact ascending_liveEntries.imp fun h => by simpa using h
  · intro rec hrec
    obtain ⟨⟨k, v⟩, he, rfl⟩ := List.mem_map.mp hrec
    obtain ⟨v, rfl⟩ := Option.isSome_iff_exists.mp ((mem_liveEntries hess).mp he).2
    rfl

/-- Two segments, the newer of which deletes a key of the older. -/
def deletedInNewer : List (Path × List Entry) :=
  [([['a']], [([1], some [2]), ([3], some [4])]), ([['b']], [([1], none)])]

/-- The disk with these segments. -/
def deletedInNewerDisk : Disk :=
  deletedInNewer.foldl (fun d x => ((SegmentWriter.write x.1 x.2).run d []).2) Disk.empty

/-- The merge of the two segments. -/
theorem compactAll_deletedInNewer :
    ∃ stats, ((compactAll [[['a']], [['b']]] [['c']]).run deletedInNewerDisk []).1 = .ok stats ∧
      stats.recordsBefore = 3 ∧ stats.liveRecordsAfter =
        {k | ∃ v, newestFirst (deletedInNewer.map Prod.snd) k = some (some v)}.ncard := by
  have hwritten : ∀ x ∈ deletedInNewer, (∃ b, deletedInNewerDisk.read x.1 = some b ∧
      WrittenBy x.2 b) := by
    intro x hx
    have hread : deletedInNewerDisk.read x.1 = some (segmentImage x.2) := by
      revert x
      decide +kernel
    have hmem : ((SegmentWriter.write x.1 x.2).run Disk.empty []).2.read x.1 =
        some (segmentImage x.2) := by
      revert x
      decide +kernel
    have hok : ∃ stats, ((SegmentWriter.write x.1 x.2).run Disk.empty []).1 = .ok stats := by
      obtain rfl | rfl := by simpa [deletedInNewer] using hx
      · exact ⟨⟨2, 60, 1⟩, by decide +kernel⟩
      · exact ⟨⟨1, 44, 1⟩, by decide +kernel⟩
    obtain ⟨stats, hok⟩ := hok
    exact ⟨_, hread, x.1, Disk.empty, stats, _, Prod.ext hok rfl, hmem⟩
  obtain ⟨-, herr⟩ | ⟨stats, hok, hbefore, hafter, -⟩ :=
    compactAll_newestFirst deletedInNewer (by decide +kernel) hwritten
      (show (compactAll _ [['c']]).run deletedInNewerDisk [] = (_, _) from rfl)
  · exact absurd herr (by decide +kernel)
  · exact ⟨stats, hok, hbefore, hafter⟩

end StoneKV
