import StoneKV.Codec
import StoneKV.Appends

/-!
# Replaying any file

* `exists_logImage`: any bytes are records and a rest that does not decode.
* **`replay_exact`**: what `replay` does with any file, and after it.
* **`truncated_is_crashTail`**: what `replay` removes can have been left by a cut append.
* **`wrong_checksum_truncated`**: a cut checksum is not compared.
-/

namespace StoneKV

open FaultProg Prog

/-- The bytes `b` are the records `rs` and a tail `t` that is empty or reported as truncated. -/
structure IsLog (b : Bytes) (rs : List Record) (t : Bytes) : Prop where
  eq : b = logImage rs ++ t
  valid : ∀ r ∈ rs, r.Valid
  tail : t = [] ∨ ∃ n a, Record.decode t = .error (.truncatedRecord n a)

section Replay

variable {β : Type} {apply : β → Record → β} {x : β} {path : Path} {d : Disk} {b t : Bytes}
  {rs : List Record}

theorem IsLog.decode (h : IsLog b rs t) : ∃ n a, Record.decode t = .error (.truncatedRecord n a) :=
  h.tail.elim (fun ht => ht ▸ ⟨1, 0, rfl⟩) id

/-- Any bytes are records and a rest that does not decode. -/
theorem exists_logImage (b : Bytes) : ∃ rs t e, b = logImage rs ++ t ∧ (∀ r ∈ rs, r.Valid) ∧
    Record.decode t = .error e := by
  induction hn : b.length using Nat.strong_induction_on generalizing b with
  | _ n ih =>
    rcases hdec : Record.decode b with e | ⟨r, m⟩
    · exact ⟨[], b, e, rfl, by simp, hdec⟩
    · obtain ⟨hr, ⟨rest, rfl⟩, rfl⟩ := Record.decode_eq_ok hdec
      have hpos : 0 < r.image.length := List.length_pos_of_ne_nil Record.image_ne_nil
      rw [List.length_append] at hn
      obtain ⟨rs, t, e, rfl, hrs, ht⟩ := ih rest.length (by omega) rest rfl
      refine ⟨r :: rs, t, e, by rw [logImage_cons, List.append_assoc], ?_, ht⟩
      rintro x (_ | _)
      · exact hr
      · exact hrs _ ‹_›

/-- Replaying a log. -/
theorem replay_of_isLog (apply : β → Record → β) (hd : d.read path = some b)
    (h : IsLog b rs t) : ∃ d', d.Touched path d' ∧ d'.read path = some (logImage rs) ∧
      ∀ x, (Wal.replay apply path).run (x, d) [] =
        (.ok ⟨rs.length, (logImage rs).length, t.length⟩, (rs.foldl apply x, d')) := by
  have hlen : (logImage rs).length ≤ maxFileLen := by
    have := Disk.length_le_of_read hd
    rw [h.eq, List.length_append] at this
    omega
  refine ⟨d.put path (logImage rs) hlen, Disk.touched_put, by simp, fun x => wp.run_nil_eq ?_⟩
  exact Wal.wp_replay (h.eq ▸ hd) h.valid h.decode reliable_noFault (fun _ _ => rfl)
    (fun _ hc => absurd rfl hc) fun _ _ hc => absurd rfl hc

/-- Replaying whole records leaves everything as it is. -/
theorem replay_whole (apply : β → Record → β) (x : β) (hd : d.read path = some (logImage rs))
    (h : ∀ r ∈ rs, r.Valid) : (Wal.replay apply path).run (x, d) [] =
      (.ok ⟨rs.length, (logImage rs).length, 0⟩, (rs.foldl apply x, d)) := by
  have hd' : d.read path = some (logImage rs ++ []) := by rwa [List.append_nil]
  refine wp.run_nil_eq (Wal.wp_replay hd' h ⟨1, 0, rfl⟩ reliable_noFault (fun _ _ => ?_)
    (fun _ hc => absurd rfl hc) fun _ _ hc => absurd rfl hc)
  rw [Disk.put_read hd]
  rfl

/-- Replaying anything else fails and changes nothing. -/
theorem replay_of_not_isLog (apply : β → Record → β) (x : β) (hd : d.read path = some b)
    (h : ¬ ∃ rs t, IsLog b rs t) :
    ∃ e x', (Wal.replay apply path).run (x, d) [] = (.err e, (x', d)) := by
  obtain ⟨rs, t, e, rfl, hrs, hdec⟩ := exists_logImage b
  have hnot : ¬ Record.IsTruncated e := by
    rintro ⟨n, a, rfl⟩
    exact h ⟨rs, t, rfl, hrs, .inr ⟨n, a, hdec⟩⟩
  refine ⟨e, _, wp.run_nil_eq (Wal.wp_replay_corrupt hd hrs (fun ht => ?_) hdec hnot
    reliable_noFault (fun _ => rfl) fun hc => absurd rfl hc)⟩
  exact h ⟨rs, t, rfl, hrs, .inl ht⟩

theorem length_appends (wal : Wal) : ∀ (calls : List (Record × List Fault)) (d : Disk),
    (wal.appends calls d).1.length ≤ calls.length
  | [], d => le_rfl
  | (r, l) :: calls, d => by
    unfold Wal.appends
    split
    · exact Nat.succ_le_succ (length_appends wal calls _)
    · exact (length_appends wal calls _).trans (Nat.le_succ _)

/-- **The log after appends that return `Ok`.** -/
theorem appends_of_ok (wal : Wal) : ∀ (calls : List (Record × List Fault)) (d : Disk)
    (rs : List Record), d.read wal.path = some (logImage rs) → (∀ r ∈ rs, r.Valid) →
    (∀ c ∈ calls, ∀ f ∈ c.2, NoCrash f) → (wal.appends calls d).1 = calls.map Prod.fst →
    (wal.appends calls d).2.read wal.path =
      some (logImage (rs ++ calls.map fun c => c.1.stored)) ∧
        ∀ r ∈ rs ++ calls.map fun c => c.1.stored, r.Valid
  | [], d, rs, hd, hrs, _, _ => by simpa using ⟨hd, hrs⟩
  | (r, l) :: calls, d, rs, hd, hrs, hl, hok => by
    have hrun : ((wal.append r).run d l).1 = .ok () := by
      unfold Wal.appends at hok
      split at hok
      · rename_i h
        rw [h]
      · have hle := length_appends wal calls ‹Disk›
        rw [hok, List.map_cons, List.length_cons, List.length_map] at hle
        omega
    have henc : r.encode = .ok r.image := by
      rcases he : r.encode with e | e
      · rw [append_run_error he] at hrun
        cases hrun
      · rw [(Record.encode_eq_ok he).2.2]
    obtain ⟨hdisk, hwritten⟩ := append_run hd henc (hl _ List.mem_cons_self)
    obtain ⟨hall, hfits⟩ := hwritten hrun
    rw [hall, List.take_length] at hdisk
    have hd₁ : ((wal.append r).run d l).2.read wal.path = some (logImage (rs ++ [r.stored])) := by
      rw [hdisk, Disk.read_append_self hd hfits, logImage_logged henc]
    have hrs₁ : ∀ x ∈ rs ++ [r.stored], x.Valid := valid_logged hrs henc
    rcases ho : (wal.append r).run d l with ⟨o, d₁⟩
    rw [ho] at hrun hd₁
    obtain rfl : o = .ok () := hrun
    simp only [Wal.appends, ho, List.map_cons, List.cons.injEq, true_and] at hok ⊢
    obtain ⟨hread, hvalid⟩ := appends_of_ok wal calls d₁ _ hd₁ hrs₁
      (fun c hc => hl c (List.mem_cons_of_mem _ hc)) hok
    rw [List.append_assoc, List.singleton_append] at hread hvalid
    exact ⟨hread, hvalid⟩

end Replay

/-- **Replaying any file.** A log of records with a tail that is empty or truncated is replayed: its
records are applied in order and the tail is cut off; a second replay applies the same records and
cuts nothing; and after more appends that return `Ok`, their records come behind. Any other file is
refused and left as it is. -/
theorem replay_exact {β : Type} (apply : β → Record → β) {path : Path} {d : Disk} {b : Bytes}
    (hd : d.read path = some b) :
    (∀ rs t, IsLog b rs t → ∃ d', d.Touched path d' ∧ d'.read path = some (logImage rs) ∧
      (∀ x, (Wal.replay apply path).run (x, d) [] =
        (.ok ⟨rs.length, (logImage rs).length, t.length⟩, (rs.foldl apply x, d'))) ∧
      (∀ x, (Wal.replay apply path).run (x, d') [] =
        (.ok ⟨rs.length, (logImage rs).length, 0⟩, (rs.foldl apply x, d'))) ∧
      ∀ calls : List (Record × List Fault), (∀ c ∈ calls, ∀ f ∈ c.2, NoCrash f) →
        (Wal.appends ⟨path⟩ calls d').1 = calls.map Prod.fst →
        ∀ x, (Wal.replay apply path).run (x, (Wal.appends ⟨path⟩ calls d').2) [] =
          (.ok ⟨rs.length + calls.length, (logImage (rs ++ calls.map (·.1.stored))).length, 0⟩,
            ((rs ++ calls.map (·.1.stored)).foldl apply x, (Wal.appends ⟨path⟩ calls d').2))) ∧
    ((¬ ∃ rs t, IsLog b rs t) →
      ∀ x, ∃ e x', (Wal.replay apply path).run (x, d) [] = (.err e, (x', d))) := by
  refine ⟨fun rs t h => ?_, fun h x => replay_of_not_isLog apply x hd h⟩
  obtain ⟨d', htouch, hd', hrun⟩ := replay_of_isLog apply hd h
  refine ⟨d', htouch, hd', hrun, fun x => replay_whole apply x hd' h.valid,
    fun calls hl hok x => ?_⟩
  obtain ⟨hread, hvalid⟩ := appends_of_ok ⟨path⟩ calls d' rs hd' h.valid hl hok
  have := replay_whole apply x hread hvalid
  rwa [List.length_append, List.length_map] at this

/-- The log of one record and the first byte of another. -/
def recordAndByte : Disk :=
  Disk.empty.put [['w']] (logImage [.newSet [97] [49]] ++ [0]) (by decide)

theorem replay_exact_byte : ∃ d',
    d'.read [['w']] = some (logImage [.newSet [97] [49]]) ∧
      (Wal.replay applyRecord [['w']]).run (.new, recordAndByte) [] =
        (.ok ⟨1, 15, 1⟩, ([Record.newSet [97] [49]].foldl applyRecord .new, d')) := by
  obtain ⟨d', -, hd', hrun, -⟩ := (replay_exact applyRecord
    (show recordAndByte.read [['w']] = some _ by decide +kernel)).1 [.newSet [97] [49]] [0]
    ⟨rfl, by simpa using Record.valid_newSet (by decide) (by decide), .inr ⟨5, 1, rfl⟩⟩
  exact ⟨d', hd', hrun _⟩

/-! ## The tail that is removed -/

/-- **Truncated means cut.** Deletions that declare a value apart, `decode` reports as truncated
exactly what a cut append can have left, up to the checksum; and what `replay` removes is empty or
such a tail. -/
theorem truncated_is_crashTail :
    (∀ b, ¬ Record.DeleteWithValue b →
      ((∃ n a, Record.decode b = .error (.truncatedRecord n a)) ↔ Record.CrashTail b)) ∧
    ∀ {β : Type} (apply : β → Record → β) (path : Path) (d : Disk) (b : Bytes) (x : β) stats x' d',
      d.read path = some b → (Wal.replay apply path).run (x, d) [] = (.ok stats, (x', d')) →
      ∃ kept t, b = kept ++ t ∧ d'.read path = some kept ∧ t.length = stats.truncatedTailBytes ∧
        (¬ Record.DeleteWithValue t → t = [] ∨ Record.CrashTail t) := by
  refine ⟨fun b hb => Record.truncated_iff hb, fun apply path d b x stats x' d' hd hrun => ?_⟩
  by_cases h : ∃ rs t, IsLog b rs t
  · obtain ⟨rs, t, h⟩ := h
    obtain ⟨d₁, -, hread, hrun₁⟩ := replay_of_isLog apply hd h
    rw [hrun₁] at hrun
    cases hrun
    exact ⟨logImage rs, t, h.eq, hread, rfl, fun ht => .inr ((Record.truncated_iff ht).mp h.decode)⟩
  · obtain ⟨e, x₁, hrun₁⟩ := replay_of_not_isLog apply x hd h
    rw [hrun₁] at hrun
    cases hrun

/-- The record `set "" = ""` with a wrong first byte of its checksum, and no other. -/
def wrongChecksumByte : Bytes := (Record.newSet [] []).image.take 9 ++ [0]

/-- **A cut checksum is not compared.** The bytes are reported as truncated, and no record begins with
them. -/
theorem wrong_checksum_truncated :
    (∃ n a, Record.decode wrongChecksumByte = .error (.truncatedRecord n a)) ∧
      ¬ ∃ r e, Record.encode r = .ok e ∧ wrongChecksumByte <+: e ∧ wrongChecksumByte ≠ e := by
  refine ⟨⟨13, 10, by decide +kernel⟩, ?_⟩
  rintro ⟨r, e, he, ⟨rest, rfl⟩, -⟩
  have hdec : Record.decode (wrongChecksumByte ++ rest) =
      .ok (r.stored, (wrongChecksumByte ++ rest).length) := by
    have := Record.decode_image_self (Record.valid_stored he)
    rwa [Record.image_stored, ← (Record.encode_eq_ok he).2.2] at this
  have hlen : 3 ≤ rest.length := by
    have := congrArg List.length (Record.encode_eq_ok he).2.2
    rw [Record.length_image, List.length_append] at this
    change 10 + rest.length = _ at this
    omega
  have hframe : wrongChecksumByte ++ rest =
      Record.body Record.OP_SET [] [] ++ (0 :: rest.take 3) ++ rest.drop 3 := by
    rw [List.append_assoc, List.cons_append, List.take_append_drop]
    rfl
  have hcrc : fromLe (0 :: rest.take 3) ≠
      (Crc32.checksum (Record.body Record.OP_SET [] [])).toNat := by
    have hmod : (Crc32.checksum (Record.body Record.OP_SET [] [])).toNat % 256 ≠ 0 := by
      decide +kernel
    intro h
    rw [← h, fromLe, UInt8.toNat_zero, Nat.zero_add, Nat.mul_mod_right] at hmod
    exact hmod rfl
  rw [hframe, Record.decode_frame (Nat.zero_le _) (Nat.zero_le _) (by
    rw [List.length_cons, List.length_take]; omega), rejectIf_of hcrc] at hdec
  cases hdec

end StoneKV
