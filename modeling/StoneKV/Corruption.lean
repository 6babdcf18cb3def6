import StoneKV.SegmentFormat

/-!
# Damaged records

A burst is a change within four consecutive bytes. A burst in a record that leaves the two lengths
alone is found by the reader of the log and by the reader of a segment.

* **`replay_damaged`**: the log is applied up to the damaged record, and kept.
* **`iterAll_damaged`**: a segment with a damaged record is not listed.
-/

namespace StoneKV

open FaultProg

/-- `e` is what a burst makes of the encoding of `r` that touches neither of its lengths. -/
structure Damaged (r : Record) (e : Bytes) : Prop where
  burst : Record.Burst r.image e
  keyLen : slice e 1 4 = slice r.image 1 4
  valLen : slice e (5 + r.key.length) 4 = slice r.image (5 + r.key.length) 4

variable {pre post rs : List Record} {r : Record} {e : Bytes}

theorem Damaged.stored (h : Damaged r e) : Damaged r.stored e :=
  ⟨r.image_stored ▸ h.burst, by rw [r.image_stored]; exact h.keyLen,
    by rw [r.image_stored]; exact h.valLen⟩

theorem valid_map_stored (h : ∀ r ∈ rs, ∃ b, r.encode = .ok b) :
    ∀ r ∈ rs.map Record.stored, r.Valid := by
  intro r hr
  obtain ⟨r', hr', rfl⟩ := List.mem_map.mp hr
  obtain ⟨b, hb⟩ := h r' hr'
  exact Record.valid_stored hb

theorem Damaged.decode {b : Bytes} (h : Damaged r e) (hr : r.encode = .ok b) :
    ∃ err, Record.IsCorrupt err ∧ ∀ rest, Record.decode (e ++ rest) = .error err :=
  Record.decode_burst (Record.valid_stored hr) h.stored.burst h.stored.keyLen h.stored.valLen

/-- **The log.** Replaying it returns an error, has applied exactly the records before the damage,
and leaves the disk as it is. -/
theorem replay_damaged {β : Type} (apply : β → Record → β) (b : β) {path : Path} {d : Disk}
    (hpre : ∀ r ∈ pre, ∃ b, r.encode = .ok b) (hr : ∃ b, r.encode = .ok b) (he : Damaged r e)
    (hd : d.read path = some (logImage pre ++ e ++ logImage post)) :
    ∃ err, Record.IsCorrupt err ∧ (Wal.replay apply path).run (b, d) [] =
      (.err err, (pre.map Record.stored).foldl apply b, d) := by
  obtain ⟨b', hb'⟩ := hr
  obtain ⟨err, herr, hdec⟩ := he.decode hb'
  have hne : e ++ logImage post ≠ [] := by
    intro h
    have hlen := he.burst.length_eq
    rw [(List.append_eq_nil_iff.mp h).1] at hlen
    exact Record.image_ne_nil (List.eq_nil_of_length_eq_zero hlen.symm)
  have hnot : ¬ Record.IsTruncated err := by
    rintro ⟨n, a, rfl⟩
    cases herr
  rw [List.append_assoc, ← logImage_stored pre] at hd
  refine ⟨err, herr, wp.run_nil_eq ?_⟩
  exact Wal.wp_replay_corrupt hd (valid_map_stored hpre) hne (hdec _) hnot reliable_noFault
    (fun _ => rfl) fun h => absurd rfl h

/-- **A segment.** Listing a segment with the damage in its record area returns an error. -/
theorem iterAllIn_damaged {s : SegmentReader} (hs : s.Bounded)
    (hpre : ∀ r ∈ pre, ∃ b, r.encode = .ok b) (hr : ∃ b, r.encode = .ok b) (he : Damaged r e)
    (harea : slice s.file s.recordsStart (s.indexOffset - s.recordsStart) =
      logImage pre ++ e ++ logImage post) :
    ∃ err, Record.IsCorrupt err ∧ s.iterAllIn = .error err := by
  obtain ⟨b', hb'⟩ := hr
  obtain ⟨err, herr, hdec⟩ := he.decode hb'
  have hvalid := Record.valid_stored hb'
  have hlen : e.length = 13 + r.stored.key.length + r.stored.val.length := by
    rw [he.stored.burst.length_eq, hvalid.length_image]
  have hle := hs.le
  have harea_len := congrArg List.length harea
  rw [← logImage_stored pre] at harea harea_len
  simp only [slice, List.length_take, List.length_drop, List.length_append] at harea_len
  have hfile : s.file.drop s.recordsStart = logImage (pre.map Record.stored) ++
      (e ++ (logImage post ++ s.file.drop (s.recordsStart + (s.indexOffset - s.recordsStart)))) := by
    rw [drop_eq_slice _ _ (s.indexOffset - s.recordsStart), harea]
    simp only [List.append_assoc]
  have hfile' : s.file.drop (s.recordsStart + (logImage (pre.map Record.stored)).length) =
      e ++ (logImage post ++ s.file.drop (s.recordsStart + (s.indexOffset - s.recordsStart))) := by
    rw [← List.drop_drop, hfile, List.drop_left]
  refine ⟨err, herr, hs.iterLoop (pre.map Record.stored) _ _ [] le_rfl (valid_map_stored hpre)
    (by omega) hfile (by omega) fun turns hturns => ?_⟩
  obtain ⟨turns, rfl⟩ : ∃ n, turns = n + 1 := ⟨turns - 1, by omega⟩
  have hk : fromLe (slice s.file (s.recordsStart + (logImage (pre.map Record.stored)).length + 1) 4) =
      r.stored.key.length := by
    rw [← slice_drop, hfile', slice_append_left (by omega), he.stored.keyLen, hvalid.image_eq,
      Record.slice_keyLen, Record.fromLe_length hvalid.key_le]
  have hv : fromLe (slice s.file (s.recordsStart + (logImage (pre.map Record.stored)).length + 5 +
      r.stored.key.length) 4) = r.stored.val.length := by
    rw [Nat.add_assoc, ← slice_drop, hfile', slice_append_left (by omega), he.stored.valLen,
      hvalid.image_eq, Record.slice_valLen, Record.fromLe_length hvalid.val_le]
  have hslice : slice s.file (s.recordsStart + (logImage (pre.map Record.stored)).length)
      (13 + r.stored.key.length + r.stored.val.length) = e := by
    rw [slice, hfile', ← hlen, List.take_left]
  have hdec' := hdec []
  rw [List.append_nil] at hdec'
  rw [SegmentReader.iterLoop, if_pos (by omega), hs.readRecordAt_eq (by omega) hk hv (by omega),
    hslice, hdec']
  rfl

theorem encodings_eq {bs : List Bytes} (h : List.Forall₂ (fun r b => r.encode = .ok b) rs bs) :
    bs = rs.map Record.image ∧ ∀ r ∈ rs, ∃ b, r.encode = .ok b := by
  induction h with
  | nil => simp
  | cons h _ ih =>
    obtain ⟨rfl, henc⟩ := ih
    refine ⟨by rw [List.map_cons, (Record.encode_eq_ok h).2.2], ?_⟩
    rintro r (_ | ⟨_, hr⟩)
    · exact ⟨_, h⟩
    · exact henc r hr

/-- **Damage is reported.** Take the encodings of a list of records, and change within four
consecutive bytes the encoding of record `j`, but neither of its lengths. Replaying the log of the
result returns an error after exactly the records before `j` and changes no file; listing a segment
with the result as its record area returns an error. -/
theorem damage_reported {β : Type} (apply : β → Record → β) (b : β) {rs : List Record}
    {bs : List Bytes} (hrs : List.Forall₂ (fun r b => r.encode = .ok b) rs bs) {j : ℕ}
    (hj : j < rs.length) (he : Damaged rs[j] e) :
    (∀ path d, d.read path = some (bs.set j e).flatten →
      ∃ err, (Wal.replay apply path).run (b, d) [] =
        (.err err, ((rs.take j).map Record.stored).foldl apply b, d)) ∧
    ∀ path g d s, (SegmentReader.open path g).run d [] = (.ok s, d) →
      slice s.file s.recordsStart (s.indexOffset - s.recordsStart) = (bs.set j e).flatten →
      ∃ err, s.iterAll.run d [] = (.err err, d) := by
  obtain ⟨himg, henc⟩ := encodings_eq hrs
  have hflat : (bs.set j e).flatten = logImage (rs.take j) ++ e ++ logImage (rs.drop (j + 1)) := by
    rw [List.set_eq_take_append_cons_drop, if_pos (by rw [himg, List.length_map]; exact hj), himg,
      ← List.map_take, ← List.map_drop, List.flatten_append, List.flatten_cons, ← List.append_assoc]
    rfl
  have hpre : ∀ r ∈ rs.take j, ∃ b, r.encode = .ok b := fun r hr => henc r (List.mem_of_mem_take hr)
  have hrec := henc rs[j] (List.getElem_mem hj)
  rw [hflat]
  constructor
  · intro path d hd
    obtain ⟨err, -, hrun⟩ := replay_damaged apply b hpre hrec he hd
    exact ⟨err, hrun⟩
  · intro path g d s hs harea
    have hopen : wp NoFault (SegmentReader.open path g) (fun o d' => ∀ s, o = .ok s → s.Bounded) d :=
      SegmentReader.wp_open (fun b r hb hr s hs => by
        cases hs
        exact SegmentReader.bounded_of_openIn hr (Disk.length_le_of_read hb))
        (fun _ _ _ _ _ h => by cases h) (fun _ _ h => by cases h) (fun _ _ _ h => by cases h)
        fun _ h => by cases h
    have hbounded := hopen.run_nil s (congrArg Prod.fst hs)
    obtain ⟨err, -, hiter⟩ := iterAllIn_damaged hbounded hpre hrec he harea
    refine ⟨err, wp.run_nil_eq ?_⟩
    refine Fs.wp_reads (fun rs hrs => ?_) (fun e he => ?_) (fun n h => absurd h (not_noFault_fail n))
      fun _ _ h => absurd rfl h
    · rw [hiter] at hrs
      cases hrs
    · rw [hiter] at he
      cases he
      exact fun _ => rfl

/-- The record between two others, with its value changed from `4` to `6`. -/
def damagedRecord : Bytes := (Record.newSet [3] [4]).image.set 10 6

theorem damage_reported_between :
    (∀ path d, d.read path =
        some ((Record.newSet [1] [2]).image ++ damagedRecord ++ (Record.newDelete [5]).image) →
      ∃ err, (Wal.replay (fun rs r => rs ++ [r]) path).run ([], d) [] =
        (.err err, [.newSet [1] [2]], d)) ∧
    ∀ path g d s, (SegmentReader.open path g).run d [] = (.ok s, d) →
      slice s.file s.recordsStart (s.indexOffset - s.recordsStart) =
        (Record.newSet [1] [2]).image ++ damagedRecord ++ (Record.newDelete [5]).image →
      ∃ err, s.iterAll.run d [] = (.err err, d) := by
  have hdamaged : Damaged [Record.newSet [1] [2], .newSet [3] [4], .newDelete [5]][1] damagedRecord :=
    ⟨⟨by decide +kernel, by decide +kernel, 10, by decide +kernel, by decide +kernel⟩,
      by decide +kernel, by decide +kernel⟩
  have hfirst : (Record.newSet [1] [2]).encode = .ok (Record.newSet [1] [2]).image :=
    (Record.valid_newSet (by decide) (by decide)).encode_eq
  have hsecond : (Record.newSet [3] [4]).encode = .ok (Record.newSet [3] [4]).image :=
    (Record.valid_newSet (by decide) (by decide)).encode_eq
  have hthird : (Record.newDelete [5]).encode = .ok (Record.newDelete [5]).image :=
    (Record.valid_newDelete (by decide)).encode_eq
  have hstored : (Record.newSet [1] [2]).stored = .newSet [1] [2] := rfl
  simpa [hstored] using damage_reported (fun rs r => rs ++ [r]) []
    (.cons hfirst (.cons hsecond (.cons hthird .nil))) (j := 1) (by decide) hdamaged

end StoneKV
