import StoneKV.SegmentWrite

/-!
# Segments are read back

* `SegmentWriter.writeChunks`: a segment written by several calls of `write_all`.
* **`written_segment_lists`**: the reader accepts what was written, and lists the entries.
* **`written_segment_looks_up`**: `get` finds in it what the entries have for a key.
-/

namespace StoneKV

open FaultProg Prog

/-- Create a segment, write entries to it by several calls of `write_all`, and finish it. -/
def SegmentWriter.writeChunks (path : Path) (chunks : List (List Entry)) :
    Io SegmentWriteStats := do
  let w ← create path
  let w ← chunks.foldlM writeAll w
  w.finish

/-- The key and the value are within the bound. -/
def Entry.Fits (e : Entry) : Prop :=
  e.1.length ≤ Record.MAX_FIELD_LEN ∧ ∀ v ∈ e.2, v.length ≤ Record.MAX_FIELD_LEN

variable {e : Entry} {es : List Entry} {chunks : List (List Entry)} {path : Path} {d d' : Disk}

theorem Entry.Fits.valid (h : Entry.Fits e) : (toRecord e).Valid := by
  obtain ⟨k, _ | v⟩ := e
  · exact Record.valid_newDelete h.1
  · exact Record.valid_newSet h.1 (h.2 v rfl)

namespace SegmentWriter

variable {A : Fault → Prop}

/-- **Several calls.** They write what one call with all entries writes. -/
theorem wp_foldlM_writeAll {Q : Outcome StoneError SegmentWriter → Disk → Prop} :
    ∀ (chunks : List (List Entry)) (pre : List Entry) {h : (headImage pre).length ≤ maxFileLen},
    Ascending (pre ++ chunks.flatten) → (∀ e ∈ chunks.flatten, (toRecord e).Valid) →
    (∀ h, Q (.ok (writerAfter path (pre ++ chunks.flatten)))
      (d.put path (headImage (pre ++ chunks.flatten)) h)) →
    (∀ i, Fs.MayFail A (maxFileLen < (headImage (pre ++ chunks.flatten)).length) i →
      ∀ d', d.Touched path d' → Q (.err (.io i)) d') →
    (∀ d', d.Touched path d' → Q .crash d') →
    wp A (chunks.foldlM writeAll (writerAfter path pre)) Q (d.put path (headImage pre) h)
  | [], pre, h, _, _, hok, _, _ => by
    simp only [List.flatten_nil, List.append_nil] at hok
    exact wp_pure (hok h)
  | es :: chunks, pre, h, hasc, hes, hok, herr, hcr => by
    rw [List.flatten_cons, ← List.append_assoc] at hasc hok herr
    rw [List.flatten_cons] at hes
    rw [List.foldlM_cons]
    refine wp_bind (wp_writeAll es pre (List.pairwise_append.mp hasc).1
      (fun e he => hes e (List.mem_append_left _ he)) (fun h => ?_)
      (fun i hi => herr i (hi.mono fun hb => hb.trans_le length_headImage_le)) hcr)
    exact wp_foldlM_writeAll chunks (pre ++ es) hasc
      (fun e he => hes e (List.mem_append_right _ he)) hok herr hcr

/-- What was written is the segment of all entries. -/
theorem wp_writeChunks (hasc : Ascending chunks.flatten)
    (hes : ∀ e ∈ chunks.flatten, (toRecord e).Valid) :
    wp A (writeChunks path chunks) (fun o d' => d.Touched path d' ∧ match o with
      | .ok stats => d'.read path = some (segmentImage chunks.flatten) ∧
          stats.fileBytes = (segmentImage chunks.flatten).length
      | .err e => ∃ i, e = .io i ∧
          Fs.MayFail A (maxFileLen < (segmentImage chunks.flatten).length) i
      | .crash => True) d := by
  have hle : (headImage chunks.flatten).length ≤ (segmentImage chunks.flatten).length := by
    rw [segmentImage_eq, List.append_assoc, List.length_append]
    exact Nat.le_add_right _ _
  have hle₀ : (headImage []).length ≤ (headImage chunks.flatten).length := length_headImage_le
  refine wp_bind (wp_create (fun h => ?_)
    (fun i hi d' h => ⟨h, i, rfl, hi.mono fun hb => hb.trans_le (hle₀.trans hle)⟩)
    fun d' h => ⟨h, trivial⟩)
  refine wp_bind (wp_foldlM_writeAll chunks [] hasc hes (fun h => ?_)
    (fun i hi d' h => ⟨h, i, rfl, hi.mono fun hb => hb.trans_le hle⟩) fun d' h => ⟨h, trivial⟩)
  refine wp_finish hes (fun h => ⟨Disk.touched_put, ?_, rfl⟩)
    (fun i hi d' h => ⟨h, i, rfl, hi⟩) fun d' h => ⟨h, trivial⟩
  rw [Disk.read_put, if_pos rfl]

theorem wp_foldlM_valid : ∀ (chunks : List (List Entry)) (w : SegmentWriter) (d : Disk),
    wp A (chunks.foldlM writeAll w)
      (fun o _ => ∀ w', o = .ok w' → ∀ e ∈ chunks.flatten, (toRecord e).Valid) d
  | [], _, _ => wp_pure fun _ _ => by simp
  | es :: chunks, w, d => by
    rw [List.foldlM_cons]
    refine FaultProg.wp.bind (wp_writeAll_accepts es w d) (fun w' d' hes => ?_) (fun _ _ _ => nofun)
      fun _ _ => nofun
    have hvalid := (hes w' rfl).2.1
    refine (wp_foldlM_valid chunks w' d').mono fun o _ h w'' ho e he => ?_
    rw [List.flatten_cons, List.mem_append] at he
    exact he.elim (hvalid e) (h w'' ho e)

theorem wp_writeChunks_valid : wp A (writeChunks path chunks)
    (fun o _ => ∀ stats, o = .ok stats → ∀ e ∈ chunks.flatten, (toRecord e).Valid) d := by
  refine FaultProg.wp.bind (R := fun _ _ => True) (wp_of_forall fun _ _ => trivial)
    (fun w d' _ => ?_) (fun _ _ _ => nofun) fun _ _ => nofun
  refine FaultProg.wp.bind (wp_foldlM_valid chunks w d') (fun w' d' h => ?_) (fun _ _ _ => nofun)
    fun _ _ => nofun
  exact wp_of_forall fun _ _ _ _ => h w' rfl

end SegmentWriter

/-- What `open` does with a file that is there. -/
theorem SegmentReader.open_run_of_read {b : Bytes} (hd : d.read path = some b) (g : ℕ) :
    (∀ r, openIn path g b = .ok r → (SegmentReader.open path g).run d [] = (.ok r, d)) ∧
    ∀ e, openIn path g b = .error e → (SegmentReader.open path g).run d [] = (.err e, d) := by
  have hrun : (SegmentReader.open path g).run d [] =
      (Prog.ofExcept (openIn path g b) : Io SegmentReader).run d [] :=
    run_bind_nil (Fs.run_readFile hd)
  refine ⟨fun r hr => ?_, fun e he => ?_⟩
  · rw [hrun, hr]
    rfl
  · rw [hrun, he]
    rfl

/-- What was written, as a reader has it. -/
theorem Storable.open_run (h : Storable es) (hd : d.read path = some (segmentImage es)) (g : ℕ) :
    (SegmentReader.open path g).run d [] = (.ok (readerOf path g es), d) :=
  (SegmentReader.open_run_of_read hd g).1 _ (h.openIn path g)

/-- **Segment files round-trip.** Entries in the strict order of their keys, with keys and values
within the bound, are written by any calls of `write_all`: the length of the file is reported, the
reader accepts the file, and `iter_all` lists the entries in order. Only a file that is longer than
files can be is not written. -/
theorem written_segment_lists (d : Disk) (path : Path) (g : ℕ) (chunks : List (List Entry))
    (hasc : Ascending chunks.flatten) (hfits : ∀ e ∈ chunks.flatten, Entry.Fits e) :
    (∃ d', maxFileLen < (segmentImage chunks.flatten).length ∧
      (SegmentWriter.writeChunks path chunks).run d [] = (.err (.io .fileTooLarge), d')) ∨
    ∃ stats d' b r, (SegmentWriter.writeChunks path chunks).run d [] = (.ok stats, d') ∧
      d'.read path = some b ∧ stats.fileBytes = b.length ∧
      (SegmentReader.open path g).run d' [] = (.ok r, d') ∧
      r.iterAll.run d' [] = (.ok (chunks.flatten.map toRecord), d') := by
  have hvalid : ∀ e ∈ chunks.flatten, (toRecord e).Valid := fun e he => (hfits e he).valid
  have hwrite : wp NoFault (SegmentWriter.writeChunks path chunks) _ d :=
    SegmentWriter.wp_writeChunks hasc hvalid
  have hwp := hwrite.and
    (wp.noCrash (Q := fun o _ => o ≠ .crash) (by simp [NoFault]) (wp_of_forall nofun))
  obtain ⟨⟨-, hout⟩, hcr⟩ := hwp.run_nil
  rcases hrun : (SegmentWriter.writeChunks path chunks).run d [] with ⟨stats | e | _, d'⟩ <;>
    rw [hrun] at hout hcr
  · obtain ⟨hread, hlen⟩ := hout
    have hstor : Storable chunks.flatten := ⟨hasc, hvalid, Disk.length_le_of_read hread⟩
    refine .inr ⟨stats, d', _, readerOf path g chunks.flatten, rfl, hread, hlen,
      hstor.open_run hread g, ?_⟩
    exact Fs.run_reads (hstor.sound path g).iterAllIn
  · obtain ⟨i, rfl, ⟨rfl, hbig⟩ | ⟨n, hn⟩⟩ := hout
    · exact .inl ⟨d', hbig, rfl⟩
    · exact absurd hn (not_noFault_fail n)
  · exact absurd rfl hcr

/-- A value under the empty key, no entries, and a tombstone. -/
def threeChunks : List (List Entry) := [[([], some [49])], [], [([97], none)]]

theorem written_segment_lists_three : ∃ stats d' b r,
    (SegmentWriter.writeChunks [['s']] threeChunks).run Disk.empty [] = (.ok stats, d') ∧
      d'.read [['s']] = some b ∧ stats.fileBytes = b.length ∧
      (SegmentReader.open [['s']] 1).run d' [] = (.ok r, d') ∧
      r.iterAll.run d' [] = (.ok (threeChunks.flatten.map toRecord), d') :=
  (written_segment_lists Disk.empty [['s']] 1 threeChunks (by decide)
    (by simp [threeChunks, Entry.Fits, Record.MAX_FIELD_LEN])).resolve_left
    fun ⟨_, h, _⟩ => absurd h (by decide +kernel)

/-- **Lookup through the index is lookup.** In a segment that was written from entries in the strict
order of their keys, `get` finds what the entries have for the key: a value, a tombstone, or
nothing. -/
theorem written_segment_looks_up {d d' : Disk} {path : Path} {chunks : List (List Entry)}
    {l : List Fault} {stats : SegmentWriteStats} (g : ℕ) (hasc : Ascending chunks.flatten)
    (hwrite : (SegmentWriter.writeChunks path chunks).run d l = (.ok stats, d')) :
    ∃ r, (SegmentReader.open path g).run d' [] = (.ok r, d') ∧
      ∀ k, (r.get k).run d' [] = (.ok (chunks.flatten.lookup k), d') := by
  have hvalid := (SegmentWriter.wp_writeChunks_valid (A := AnyFault)).run_eq (fun _ _ => trivial)
    hwrite stats rfl
  obtain ⟨-, hread, -⟩ := (SegmentWriter.wp_writeChunks (A := AnyFault) hasc hvalid).run_eq
    (fun _ _ => trivial) hwrite
  have hstor : Storable chunks.flatten := ⟨hasc, hvalid, Disk.length_le_of_read hread⟩
  exact ⟨_, hstor.open_run hread g, fun k => Fs.run_reads ((hstor.sound path g).getIn k)⟩

theorem written_segment_looks_up_three :
    ∃ r, (SegmentReader.open [['s']] 1).run
        ((SegmentWriter.writeChunks [['s']] threeChunks).run Disk.empty []).2 [] =
          (.ok r, ((SegmentWriter.writeChunks [['s']] threeChunks).run Disk.empty []).2) ∧
      ∀ k, (r.get k).run ((SegmentWriter.writeChunks [['s']] threeChunks).run Disk.empty []).2 [] =
        (.ok (threeChunks.flatten.lookup k),
          ((SegmentWriter.writeChunks [['s']] threeChunks).run Disk.empty []).2) :=
  written_segment_looks_up 1 (by decide) (Prod.ext
    (show _ = Outcome.ok (⟨2, 57, 1⟩ : SegmentWriteStats) by decide +kernel) rfl)

end StoneKV
