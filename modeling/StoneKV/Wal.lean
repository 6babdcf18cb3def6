import StoneKV.Memtable

/-!
# The write-ahead log

* `Wal.append`, `Wal.truncate`, `Wal.replay`: the operations of the log.
* `logImage`: the bytes of a list of records; `Torn`: what a cut append leaves behind.
* **`Wal.wp_append`**: an append writes a record, or leaves a prefix of it.
* **`Wal.wp_replay`**: a log with a torn tail is read up to the tail, and the tail is removed.
* `Wal.wp_replay_counted`, `Wal.wp_replay_any`: what replaying any bytes keeps.
* **`Wal.wp_replay_corrupt`**: a log with a damaged record is read up to the record, and kept.
-/

namespace StoneKV

open FaultProg

structure ReplayStats where
  recordsReplayed : ℕ
  bytesReplayed : ℕ
  truncatedTailBytes : ℕ
  deriving DecidableEq, Repr

def ReplayStats.default : ReplayStats := ⟨0, 0, 0⟩

/-- The log, open at `path`. -/
structure Wal where
  path : Path
  deriving DecidableEq, Repr

def Wal.open (path : Path) : Io Wal := do
  if path.dropLast ≠ [] then Fs.touch
  Fs.openCreate path
  return ⟨path⟩

namespace Wal

/-- Seek to the end, write the record, sync. -/
def append (wal : Wal) (record : Record) : Io Unit := do
  let encoded ← Prog.ofExcept record.encode
  Fs.touch
  Fs.writeAll wal.path encoded
  Fs.touch

/-- Cut the log to nothing, seek to the start, sync. -/
def truncate (wal : Wal) : Io Unit := do
  Fs.setLen wal.path 0
  Fs.touch
  Fs.touch

def truncateFileTo (path : Path) (len : ℕ) : Io Unit := do
  Fs.openWrite path
  Fs.setLen path len
  Fs.touch

section Replay

variable {β : Type} (apply : β → Record → β)

/-- The loop of `replay`. It has no more turns than there are bytes, since a turn that goes on has
read at least one. -/
def replayLoop (path : Path) (bytes : Bytes) :
    ℕ → (offset recordsReplayed bytesReplayed : ℕ) → Prog (β × Disk) StoneError ReplayStats
  | 0, _, recordsReplayed, bytesReplayed => return ⟨recordsReplayed, bytesReplayed, 0⟩
  | turns + 1, offset, recordsReplayed, bytesReplayed =>
    if offset < bytes.length then
      match Record.decode (bytes.drop offset) with
      | .ok (record, consumed) => do
        if consumed = 0 then
          Prog.throw (.corruptRecord "record decoder consumed zero bytes")
        Prog.modify fun s => (apply s.1 record, s.2)
        let offset ← Prog.ofExcept
          (okOr (checkedAdd offset consumed) (.corruptRecord "WAL replay offset overflow"))
        replayLoop path bytes turns offset (recordsReplayed + 1) offset
      | .error (.truncatedRecord _ _) => do
        Prog.onSnd (truncateFileTo path offset)
        return ⟨recordsReplayed, bytesReplayed, bytes.length - offset⟩
      | .error e => Prog.throw e
    else return ⟨recordsReplayed, bytesReplayed, 0⟩

/-- Apply the records of the log at `path` in order, and cut a torn tail off the file. -/
def replay (path : Path) : Prog (β × Disk) StoneError ReplayStats := do
  if ¬ (← Prog.onSnd (Fs.pathExists path)) then return .default
  let bytes ← Prog.onSnd (Fs.readFile path)
  if bytes.isEmpty then return .default
  replayLoop apply path bytes bytes.length 0 0 0

end Replay

end Wal

/-! ## Logs and their records -/

/-- The bytes of a list of records. -/
def logImage (rs : List Record) : Bytes := rs.flatMap Record.image

/-- What is left of an append that was cut: a proper prefix of a record. -/
def Torn (t : Bytes) : Prop := ∃ r : Record, r.Valid ∧ ∃ n < r.image.length, t = r.image.take n

variable {rs : List Record} {r : Record} {t : Bytes}

@[simp] theorem logImage_nil : logImage [] = [] := rfl

@[simp] theorem logImage_cons : logImage (r :: rs) = r.image ++ logImage rs := rfl

theorem logImage_eq_nil : logImage rs = [] ↔ rs = [] := by
  constructor
  · intro h
    rcases rs with _ | ⟨rec, rs⟩
    · rfl
    · exact absurd (List.append_eq_nil_iff.mp h).1 Record.image_ne_nil
  · rintro rfl
    rfl

theorem logImage_append (rs' : List Record) : logImage (rs ++ rs') = logImage rs ++ logImage rs' :=
  List.flatMap_append

theorem logImage_stored (rs : List Record) : logImage (rs.map Record.stored) = logImage rs := by
  induction rs with
  | nil => rfl
  | cons r rs ih => rw [List.map_cons, logImage_cons, logImage_cons, ih, Record.image_stored]

/-- The log with a record that was encoded. -/
theorem logImage_logged {b : Bytes} (hb : r.encode = .ok b) :
    logImage (rs ++ [r.stored]) = logImage rs ++ b := by
  rw [logImage_append, logImage_cons, logImage_nil, List.append_nil, r.image_stored,
    (Record.encode_eq_ok hb).2.2]

theorem valid_logged {b : Bytes} (hrs : ∀ r ∈ rs, r.Valid) (hb : r.encode = .ok b) :
    ∀ x ∈ rs ++ [r.stored], x.Valid := by
  intro x hx
  rcases List.mem_append.mp hx with hx | hx
  · exact hrs x hx
  · rw [List.mem_singleton.mp hx]
    exact Record.valid_stored hb

theorem torn_nil : Torn [] :=
  ⟨.newDelete [], Record.valid_newDelete (Nat.zero_le _), 0,
    List.length_pos_of_ne_nil Record.image_ne_nil, rfl⟩

/-- A prefix of a record is torn, or is the whole record. -/
theorem torn_or_image (h : r.Valid) (n : ℕ) : Torn (r.image.take n) ∨ r.image.take n = r.image := by
  by_cases hn : n < r.image.length
  · exact .inl ⟨r, h, n, hn, rfl⟩
  · exact .inr (List.take_of_length_le (by omega))

theorem Torn.decode (h : Torn t) : ∃ n a, Record.decode t = .error (.truncatedRecord n a) := by
  obtain ⟨r, hr, n, hn, rfl⟩ := h
  obtain ⟨e, he, m, a, rfl⟩ := Record.decode_take hr hn
  exact ⟨m, a, he⟩

/-- **A log reads in one way.** -/
theorem logImage_unique : ∀ {rs rs' : List Record} {t t' : Bytes}, (∀ r ∈ rs, r.Valid) →
    (∀ r ∈ rs', r.Valid) → Torn t → Torn t' → logImage rs ++ t = logImage rs' ++ t' →
    rs = rs' ∧ t = t' := by
  have hcut : ∀ {r rs t t'}, Record.Valid r → Torn t → t ≠ logImage (r :: rs) ++ t' := by
    intro r rs t t' hr ht heq
    obtain ⟨n, a, hdec⟩ := ht.decode
    rw [heq, logImage_cons, List.append_assoc, Record.decode_image hr] at hdec
    cases hdec
  intro rs
  induction rs with
  | nil =>
    rintro (_ | ⟨r, rs'⟩) t t' _ hrs' ht _ heq
    · exact ⟨rfl, heq⟩
    · exact absurd heq (hcut (hrs' r List.mem_cons_self) ht)
  | cons r rs ih =>
    rintro (_ | ⟨r', rs'⟩) t t' hrs hrs' ht ht' heq
    · exact absurd heq.symm (hcut (hrs r List.mem_cons_self) ht')
    · have hr := hrs r List.mem_cons_self
      have hr' := hrs' r' List.mem_cons_self
      rw [logImage_cons, logImage_cons, List.append_assoc, List.append_assoc] at heq
      have hdec : Record.decode (r.image ++ (logImage rs ++ t)) = .ok (r, r.image.length) :=
        Record.decode_image hr
      rw [heq, Record.decode_image hr'] at hdec
      cases hdec
      obtain ⟨rfl, rfl⟩ := ih (fun x hx => hrs x (List.mem_cons_of_mem _ hx))
        (fun x hx => hrs' x (List.mem_cons_of_mem _ hx)) ht ht' (List.append_cancel_left heq)
      exact ⟨rfl, rfl⟩

/-! ## Appending -/

namespace Wal

section Append

variable {A : Fault → Prop} {wal : Wal} {d : Disk} {old : Bytes}

/-- **Appending a record.** It does not encode and nothing happens; or it is written; or the call
fails or dies with a prefix written. -/
theorem wp_append {Q : Outcome StoneError Unit → Disk → Prop} (hd : d.read wal.path = some old)
    (hrej : ∀ e, r.encode = .error e → Q (.err e) d)
    (hok : ∀ b, r.encode = .ok b → (old ++ b).length ≤ maxFileLen →
      Q (.ok ()) (d.append wal.path b))
    (herr : ∀ b n i, r.encode = .ok b → Fs.MayFail A (maxFileLen < (old ++ b).length) i →
      Q (.err (.io i)) (d.append wal.path (b.take n)))
    (hcr : ∀ b n, r.encode = .ok b → Q .crash (d.append wal.path (b.take n))) :
    wp A (wal.append r) Q d := by
  refine wp_bind (wp_ofExcept (fun b hb => ?_) hrej)
  have herr' : ∀ i, Fs.MayFail A (maxFileLen < (old ++ b).length) i → Q (.err (.io i)) d := by
    intro i hi
    simpa using herr b 0 i hb hi
  have hcr' : Q .crash d := by simpa using hcr b 0 hb
  have hfull : d.append wal.path (b.take b.length) = d.append wal.path b := by
    rw [List.take_length]
  refine wp_bind (Fs.wp_touch ?_ (fun _ hf => herr' _ (Fs.mayFail_of hf)) fun _ _ => hcr')
  refine wp_bind (Fs.wp_writeAll hd (fun hl => ?_) (fun hbig => herr' _ (Fs.mayFail_tooLarge hbig))
    (fun n hf => herr b n _ hb (Fs.mayFail_of hf)) fun n _ => hcr b n hb)
  exact Fs.wp_touch (hok b hb hl) (fun _ hf => hfull ▸ herr b b.length _ hb (Fs.mayFail_of hf))
    fun _ _ => hfull ▸ hcr b b.length hb

end Append

/-! ## Replaying -/

section Replay

variable {β : Type} {apply : β → Record → β} {A : Fault → Prop} {path : Path} {d : Disk}
  {bytes : Bytes} {b : β}

/-- The loop reads valid records one after another; what it does at the end decides the rest. -/
theorem wp_replayLoop {Q : Outcome StoneError ReplayStats → β × Disk → Prop}
    (hmax : bytes.length ≤ maxFileLen) : ∀ (rs : List Record) (turns offset n : ℕ) (b : β),
    (∀ r ∈ rs, r.Valid) → bytes.drop offset = logImage rs ++ t → bytes.length ≤ offset + turns →
    (∀ turns, bytes.length ≤ offset + (logImage rs).length + turns →
      wp A (replayLoop apply path bytes turns (offset + (logImage rs).length) (n + rs.length)
        (offset + (logImage rs).length)) Q (rs.foldl apply b, d)) →
    wp A (replayLoop apply path bytes turns offset n offset) Q (b, d)
  | [], turns, offset, n, b, _, _, hturns, hend => by simpa using hend turns (by simpa using hturns)
  | r :: rs, turns, offset, n, b, hrs, hdrop, hturns, hend => by
    have hr := hrs r List.mem_cons_self
    have hpos : 0 < r.image.length := List.length_pos_of_ne_nil Record.image_ne_nil
    have hlen : bytes.length = offset + (r.image.length + (logImage rs).length + t.length) := by
      have := congrArg List.length hdrop
      simp only [logImage_cons, List.length_drop, List.length_append] at this
      omega
    obtain ⟨turns, rfl⟩ : ∃ k, turns = k + 1 := ⟨turns - 1, by omega⟩
    have hdec : Record.decode (bytes.drop offset) = .ok (r, r.image.length) := by
      rw [hdrop, logImage_cons, List.append_assoc]
      exact Record.decode_image hr
    have hadd : checkedAdd offset r.image.length = some (offset + r.image.length) :=
      checkedAdd_of_lt (by unfold maxFileLen at hmax; unfold u64Size; omega)
    have hdrop' : bytes.drop (offset + r.image.length) = logImage rs ++ t := by
      rw [← List.drop_drop, hdrop, logImage_cons, List.append_assoc, List.drop_left]
    rw [replayLoop, if_pos (by omega)]
    simp only [hdec, if_neg hpos.ne', hadd, okOr_some]
    refine wp_bind (wp_modify (wp_bind (wp_ret ?_)))
    refine wp_replayLoop hmax rs turns _ _ _ (fun x hx => hrs x (List.mem_cons_of_mem _ hx)) hdrop'
      (by omega) fun k hk => ?_
    have := hend k (by simp only [logImage_cons, List.length_append]; omega)
    simpa only [logImage_cons, List.length_append, List.length_cons, List.foldl_cons,
      Nat.add_assoc, Nat.add_comm 1] using this

variable {Q : Outcome StoneError ReplayStats → β × Disk → Prop}

theorem wp_truncateFileTo {n : ℕ} {Q : Outcome StoneError Unit → Disk → Prop}
    (hd : d.read path = some bytes) (hn : n ≤ bytes.length) (hA : Reliable A)
    (hok : ∀ h : (bytes.take n).length ≤ maxFileLen, Q (.ok ()) (d.put path (bytes.take n) h))
    (hcr : Q .crash d)
    (hcr' : ∀ h : (bytes.take n).length ≤ maxFileLen, Q .crash (d.put path (bytes.take n) h)) :
    wp A (truncateFileTo path n) Q d := by
  refine wp_bind (Fs.wp_openWrite (fun _ => ?_) (fun h => by rw [hd] at h; cases h)
    (fun _ h => absurd h (hA.fail _)) fun _ _ => hcr)
  refine wp_bind (Fs.wp_setLen hd hn (fun h => ?_) (fun _ h => absurd h (hA.fail _)) fun _ _ => hcr)
  exact Fs.wp_touch (hok h) (fun _ h => absurd h (hA.fail _)) fun _ _ => hcr' h

/-- A log that is not there is empty. -/
theorem wp_replay_none (hd : d.read path = none) (hA : Reliable A)
    (hok : Q (.ok .default) (b, d)) (hcr : Q .crash (b, d)) : wp A (replay apply path) Q (b, d) := by
  refine wp_bind (wp_onSnd (Fs.wp_pathExists ?_ (fun h => absurd h hA.deny) fun _ _ => hcr))
  rw [Outcome.andThen, if_pos (by simp [hd])]
  exact wp_ret hok

/-- A log is read from its start once it is seen to be there. -/
theorem wp_replay_some (hd : d.read path = some bytes) (hA : Reliable A)
    (hnil : bytes = [] → Q (.ok .default) (b, d))
    (hloop : bytes ≠ [] → wp A (replayLoop apply path bytes bytes.length 0 0 0) Q (b, d))
    (hcr : Q .crash (b, d)) : wp A (replay apply path) Q (b, d) := by
  refine wp_bind (wp_onSnd (Fs.wp_pathExists ?_ (fun h => absurd h hA.deny) fun _ _ => hcr))
  rw [Outcome.andThen, if_neg (by simp [hd])]
  refine wp_bind (wp_onSnd (Fs.wp_readFile (fun b' hb => ?_) (fun h => ?_)
    (fun _ h => absurd h (hA.fail _)) fun _ _ => hcr))
  · rw [hd] at hb
    cases hb
    by_cases h : bytes = []
    · subst h
      exact wp_ret (hnil rfl)
    · rw [Outcome.andThen, if_neg (by simpa using h)]
      exact hloop h
  · rw [hd] at h
    cases h

/-- **Replaying a log with a truncated tail.** The records are applied in order, and the tail is
gone. -/
theorem wp_replay (hd : d.read path = some (logImage rs ++ t)) (hrs : ∀ r ∈ rs, r.Valid)
    (ht : ∃ n a, Record.decode t = .error (.truncatedRecord n a)) (hA : Reliable A)
    (hok : ∀ h, Q (.ok ⟨rs.length, (logImage rs).length, t.length⟩)
      (rs.foldl apply b, d.put path (logImage rs) h))
    (hcr : ∀ b', Q .crash (b', d)) (hcr' : ∀ b' h, Q .crash (b', d.put path (logImage rs) h)) :
    wp A (replay apply path) Q (b, d) := by
  have hmax := Disk.length_le_of_read hd
  refine wp_replay_some hd hA (fun h => ?_) (fun h => ?_) (hcr b)
  · obtain ⟨h₁, h₂⟩ := List.append_eq_nil_iff.mp h
    have hnil : rs = [] := by
      rcases rs with _ | ⟨r, rs⟩
      · rfl
      · exact absurd (List.append_eq_nil_iff.mp h₁).1 Record.image_ne_nil
    subst hnil h₂
    have hlast := hok (Nat.zero_le _)
    have hsame : d.put path (logImage []) (Nat.zero_le _) = d := Disk.put_read hd
    rw [hsame] at hlast
    exact hlast
  · refine wp_replayLoop hmax rs _ 0 0 b hrs rfl (by omega) fun turns hturns => ?_
    rw [Nat.zero_add, Nat.zero_add]
    rcases hnil : t with _ | ⟨x, t'⟩
    · subst hnil
      rw [List.append_nil] at *
      have hlast := hok hmax
      rw [Disk.put_read hd] at hlast
      rcases turns with _ | turns
      · exact wp_ret hlast
      · rw [replayLoop, if_neg (by simp)]
        exact wp_ret hlast
    · rw [← hnil]
      have hpos : 0 < t.length := by rw [hnil]; exact Nat.succ_pos _
      rw [List.length_append] at hturns hmax
      obtain ⟨turns, rfl⟩ : ∃ k, turns = k + 1 := ⟨turns - 1, by omega⟩
      obtain ⟨m, a, hdec⟩ := ht
      rw [replayLoop, if_pos (by rw [List.length_append]; omega)]
      simp only [List.drop_left, hdec]
      have htake : (logImage rs ++ t).take (logImage rs).length = logImage rs := List.take_left
      refine wp_bind (wp_onSnd (wp_truncateFileTo hd (by simp) hA ?_ (hcr _) ?_))
      · simp only [htake]
        intro h
        refine wp_ret ?_
        have hlen : (logImage rs ++ t).length - (logImage rs).length = t.length := by simp
        rw [hlen]
        exact hok h
      · simp only [htake]
        exact hcr' _

/-- **Replaying a damaged log.** The records before the damage are applied, and the file is kept. -/
theorem wp_replay_corrupt {e : StoneError} (hd : d.read path = some (logImage rs ++ t))
    (hrs : ∀ r ∈ rs, r.Valid) (ht : t ≠ []) (hdec : Record.decode t = .error e)
    (he : ¬ Record.IsTruncated e) (hA : Reliable A)
    (herr : Q (.err e) (rs.foldl apply b, d)) (hcr : Q .crash (b, d)) :
    wp A (replay apply path) Q (b, d) := by
  have hmax := Disk.length_le_of_read hd
  have hpos : 0 < t.length := List.length_pos_of_ne_nil ht
  refine wp_replay_some hd hA (fun h => absurd (List.append_eq_nil_iff.mp h).2 ht) (fun _ => ?_) hcr
  refine wp_replayLoop hmax rs _ 0 0 b hrs rfl (by omega) fun turns hturns => ?_
  rw [List.length_append] at hturns
  obtain ⟨turns, rfl⟩ : ∃ k, turns = k + 1 := ⟨turns - 1, by omega⟩
  rw [Nat.zero_add, replayLoop, if_pos (by rw [List.length_append]; omega), List.drop_left, hdec]
  split
  · cases ‹_›
  · rename_i n a heq
    cases heq
    exact absurd ⟨n, a, rfl⟩ he
  · rename_i heq
    cases heq
    exact wp_throw herr

/-- Whatever the log holds, replaying it applies records, of no more bytes than a file can have, and
touches no other file. -/
theorem wp_replay_counted {I : ℕ → β → Prop}
    (hI : ∀ n b r, r.Valid → I n b → I (n + r.image.length) (apply b r)) (hb : I 0 b) :
    wp A (replay apply path) (fun _ s => (∃ n ≤ maxFileLen, I n s.1) ∧ d.Touched path s.2)
      (b, d) := by
  have hcut : ∀ (n : ℕ) (d' : Disk), d.Touched path d' →
      wp A (truncateFileTo path n) (fun _ d' => d.Touched path d') d' := by
    intro n d' hd
    refine wp_bind (Fs.wp_openWrite (fun _ => ?_) (fun _ => hd) (fun _ _ => hd) fun _ _ => hd)
    have hset : wp A (Fs.setLen path n : Io Unit) (fun _ d' => d.Touched path d') d' := by
      refine wp_call (fun a s' e => ?_) (fun _ _ => hd) (fun _ _ => hd) fun _ _ => hd
      split at e
      · cases e
        exact hd
      · split_ifs at e
        cases e
        exact hd.trans Disk.touched_put
    refine wp_bind (hset.mono ?_)
    rintro (_ | _ | _) d' h
    · exact Fs.wp_touch h (fun _ _ => h) fun _ _ => h
    · exact h
    · exact h
  have hloop : ∀ (bytes : Bytes), bytes.length ≤ maxFileLen → ∀ (turns offset n k : ℕ) (b : β),
      offset ≤ maxFileLen → I offset b → wp A (replayLoop apply path bytes turns offset n k)
        (fun _ s => (∃ n ≤ maxFileLen, I n s.1) ∧ d.Touched path s.2) (b, d) := by
    intro bytes hmax turns
    induction turns with
    | zero => exact fun offset _ _ _ hle hb => wp_ret ⟨⟨offset, hle, hb⟩, Disk.touched_self⟩
    | succ turns ih =>
      intro offset n k b hle hb
      have hsame : (∃ n ≤ maxFileLen, I n b) ∧ d.Touched path d :=
        ⟨⟨offset, hle, hb⟩, Disk.touched_self⟩
      rw [replayLoop]
      split_ifs with hlt
      · split
        · rename_i r m hdec
          obtain ⟨hr, ⟨rest, hrest⟩, rfl⟩ := Record.decode_eq_ok hdec
          have hnext := hI offset b r hr hb
          have hle' : offset + r.image.length ≤ maxFileLen := by
            have := congrArg List.length hrest
            rw [List.length_drop, List.length_append] at this
            omega
          split_ifs
          · exact wp_bind (wp_throw hsame)
          · refine wp_bind (wp_modify (wp_bind (wp_ofExcept (fun o ho => ?_) fun _ _ => ?_)))
            · rw [okOr_eq_ok, checkedAdd_eq_some] at ho
              obtain ⟨rfl, -⟩ := ho
              exact ih _ _ _ _ hle' hnext
            · exact ⟨⟨_, hle', hnext⟩, Disk.touched_self⟩
        · refine wp_bind (wp_onSnd ((hcut _ d Disk.touched_self).mono ?_))
          rintro (_ | _ | _) d' h
          · exact wp_ret ⟨hsame.1, h⟩
          · exact ⟨hsame.1, h⟩
          · exact ⟨hsame.1, h⟩
        · exact wp_throw hsame
      · exact wp_ret hsame
  have hsame : (∃ n ≤ maxFileLen, I n b) ∧ d.Touched path d :=
    ⟨⟨0, Nat.zero_le _, hb⟩, Disk.touched_self⟩
  refine wp_bind (wp_onSnd (Fs.wp_pathExists ?_ (fun _ => wp_ret hsame) fun _ _ => hsame))
  dsimp only [Outcome.andThen]
  split_ifs
  · refine wp_bind (wp_onSnd (Fs.wp_readFile (fun bytes hbytes => ?_) (fun _ => hsame)
      (fun _ _ => hsame) fun _ _ => hsame))
    dsimp only [Outcome.andThen]
    split_ifs
    · exact wp_ret hsame
    · exact hloop _ (Disk.length_le_of_read hbytes) _ _ _ _ _ (Nat.zero_le _) hb
  · exact wp_ret hsame

/-- Whatever the log holds, replaying it keeps what its records keep, and touches no other file. -/
theorem wp_replay_any {I : β → Prop} (hI : ∀ b r, r.Valid → I b → I (apply b r)) (hb : I b) :
    wp A (replay apply path) (fun _ s => I s.1 ∧ d.Touched path s.2) (b, d) :=
  (wp_replay_counted (I := fun _ => I) (fun _ => hI) hb).mono fun _ _ ⟨⟨_, _, h⟩, ht⟩ => ⟨h, ht⟩

end Replay

end Wal

end StoneKV
