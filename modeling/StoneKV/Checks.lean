import StoneKV.Lives
import StoneKV.Acknowledged

/-!
# Checks that never fire

* **`Store.verify_run`**: `verify` counts the records, unless there are too many to count.
* **`checks_never_fire`**: on what the store wrote itself no check fires, but that of the count.
* **`verify_count_overflows`**: that one can.
-/

namespace StoneKV

open FaultProg Prog

/-! ## Verifying -/

section Verify

variable {s : Store} {d : Disk} {rs : List SegmentReader} {L : List (List Entry)}

/-- The error of a count of records past 64 bits. -/
def countOverflow : StoneError := .other "verify record count overflow"

/-- What `verify` makes of `n` records in the segments. -/
def counted (n : ℕ) : Outcome StoneError ℕ := if n < u64Size then .ok n else .err countOverflow

/-- The number of records in the segments. -/
def Store.recordCount (s : Store) : ℕ := (s.segments.map fun r =>
  match r.iterAllIn with
  | .ok records => records.length
  | .error _ => 0).sum

/-- The number of entries. -/
def entryCount (L : List (List Entry)) : ℕ := (L.map List.length).sum

/-- **Verifying segments** in the order of their generations, each of which lists its records. -/
theorem verifySegments_run (h : List.Forall₂ (fun r es => r.iterAllIn = .ok (es.map toRecord)) rs L) :
    ∀ (p : Option ℕ) (n : ℕ), n < u64Size → rs.Pairwise (fun a b => b.generation < a.generation) →
    (∀ g ∈ p, ∀ r ∈ rs, r.generation < g) →
    (Store.verifySegments rs p n).run d [] = (counted (n + entryCount L), d) := by
  induction h with
  | nil =>
    intro p n hn _ _
    rw [entryCount, List.map_nil, List.sum_nil, Nat.add_zero, counted, if_pos hn]
    rfl
  | @cons r es rs L hlist _ ih =>
    intro p n hn hdec hp
    obtain ⟨hhead, htail⟩ := List.pairwise_cons.mp hdec
    have horder : ¬ (p.any fun previous => decide (r.generation ≥ previous)) = true := by
      rcases p with _ | g
      · simp
      · have := hp g rfl r List.mem_cons_self
        simpa using this
    have hsum : entryCount (es :: L) = es.length + entryCount L := List.sum_cons
    rw [Store.verifySegments, rejectIf_of_not horder]
    refine (run_bind_nil (show (Prog.ofExcept (.ok ()) : Io Unit).run d [] = (.ok (), d) from rfl)).trans
      ((run_bind_nil (Fs.run_reads hlist)).trans ?_)
    rw [List.length_map, hsum, ← Nat.add_assoc]
    by_cases hlt : n + es.length < u64Size
    · rw [checkedAdd_of_lt hlt]
      exact (run_bind_nil (show (Prog.ofExcept (.ok _) : Io ℕ).run d [] = (.ok _, d) from rfl)).trans
        (ih _ _ hlt htail (by rintro g ⟨⟩ r' hr'; exact hhead r' hr'))
    · rw [counted, if_neg (by omega), checkedAdd, if_neg hlt]
      rfl

/-- What `verify` is once it has read the log. -/
theorem verify_run_segments {recs : List Record} (hlog : d.read s.wal.path = some (logImage recs))
    (hrecs : ∀ r ∈ recs, r.Valid) : Store.verify.run (s, d) [] = ((do
      let recordsChecked ← io (Store.verifySegments s.segments none 0)
      return ⟨recs.length, s.segments.length, recordsChecked⟩) : Method VerifyStats).run (s, d) [] :=
  (run_bind_nil (show self.run (s, d) [] = (.ok s, (s, d)) from rfl)).trans
    (run_bind_nil (run_onSnd (run_withLocal (replay_whole (fun _ _ => ()) () hlog hrecs))))

theorem recordCount_eq
    (h : List.Forall₂ (fun r es => r.iterAllIn = .ok (es.map toRecord)) s.segments L) :
    s.recordCount = entryCount L := by
  unfold Store.recordCount
  generalize s.segments = rs at h
  induction h with
  | nil => rfl
  | cons hlist _ ih =>
    rw [List.map_cons, List.sum_cons, ih, hlist]
    dsimp only
    rw [List.length_map]
    rfl

/-- **Verifying** a store whose log is whole. -/
theorem Served.verify_run {dir : Path} {recs : List Record} (h : Served dir s (dirOf dir d) L)
    (hlog : (dirOf dir d).wal = some (logImage recs)) (hrecs : ∀ r ∈ recs, r.Valid) :
    (s.recordCount < u64Size → Store.verify.run (s, d) [] =
      (.ok ⟨recs.length, s.segments.length, s.recordCount⟩, (s, d))) ∧
    (u64Size ≤ s.recordCount → Store.verify.run (s, d) [] = (.err countOverflow, (s, d))) := by
  have hlists : List.Forall₂ (fun r es => r.iterAllIn = .ok (es.map toRecord)) s.segments L :=
    h.lists.imp fun _ _ hr => hr.sound.iterAllIn
  rw [recordCount_eq hlists]
  have hsegments := verifySegments_run (d := d) hlists none 0 (by decide) h.decreasing nofun
  rw [Nat.zero_add] at hsegments
  rw [dirOf_wal, ← h.wal] at hlog
  rw [verify_run_segments hlog hrecs]
  refine ⟨fun hlt => ?_, fun hge => ?_⟩
  · rw [counted, if_pos hlt] at hsegments
    exact run_bind_nil (run_onSnd hsegments)
  · rw [counted, if_neg (by omega)] at hsegments
    exact run_bind_of_err (run_onSnd hsegments)

end Verify

/-! ## What the store wrote itself -/

section Checks

variable {dir : Path} {s s' : Store} {d d' : Disk} {gs : List ℕ} {L : List (List Entry)}
  {rs : List Record} {t : ℕ} {c : Call} {o : Outcome StoneError Unit}

/-- A call whose record does not encode does nothing at all. -/
theorem Call.run_of_not_fits (h : ¬ c.Fits) (x : Store × Disk) (l : List Fault) :
    ∃ e, c.method.run x l = (.err e, x) := by
  obtain ⟨r, hr, hbig⟩ : ∃ r, c.record = some r ∧ ¬ (r.key.length ≤ Record.MAX_FIELD_LEN ∧
      r.value.length ≤ Record.MAX_FIELD_LEN) := by
    unfold Call.Fits at h
    simpa only [not_forall, exists_prop] using h
  rcases henc : r.encode with e | b
  · refine ⟨e, ?_⟩
    rw [Call.method_of_record hr, logged_run_of_ne_ok (by rw [append_run_error henc]; nofun),
      append_run_error henc]
  · obtain ⟨hk, hv, -⟩ := Record.encode_eq_ok henc
    exact absurd ⟨hk, hv⟩ hbig

/-- **No check fires.** Take what is reached without failures. Its directory opens, with any threshold
and the files listed in any order. And when a store is open, without failures: a `set` or `delete`
with a key or a value past the bound fails and changes nothing, and any other returns; `get` returns;
`compact` returns; and `verify` returns, unless there are too many records in the segments to count. -/
theorem checks_never_fire {x : Option Store} (h : Reachable NoFail (fun _ => NoFail) dir x d) :
    (∀ (t : ℕ) (f : List Name → List Name) (hf : ∀ l, (f l).Perm l), ∃ s d',
      (Store.openWithThreshold dir t).run (d.reorder f hf) [] = (.ok s, d')) ∧
    ∀ s, x = some s →
      (∀ c : Call, ¬ c.Fits → ∃ e, c.method.run (s, d) [] = (.err e, (s, d))) ∧
      (∀ (c : Call) o s' d', c.Fits → c.method.run (s, d) [] = (o, (s', d')) →
        o ≠ .err (.io .fileTooLarge) → (dirOf dir d').Below → o = .ok ()) ∧
      (∀ k, ∃ v, (Store.get k).run (s, d) [] = (.ok v, (s, d))) ∧
      (s.recordCount < u64Size → ∃ stats, Store.verify.run (s, d) [] = (.ok stats, (s, d))) := by
  obtain ⟨⟨f, hres⟩, hlive⟩ := h.live
  refine ⟨fun t f hf => ?_, fun s hs => ?_⟩
  · have hlisted : Resumes (dirOf dir (d.reorder f hf)) _ := hres
    obtain ⟨s, d', -, -, -, hopen, -⟩ := hlisted.opens_nil (t := t)
    exact ⟨s, d', hopen⟩
  obtain ⟨gs, L, rs, t, hl⟩ := hlive s hs
  have hserved := hl.backed.served
  refine ⟨fun c hc => Call.run_of_not_fits hc _ _, fun c o s' d' hfits hrun hio hbelow => ?_,
    fun k => ⟨_, hserved.get_run k⟩, fun hlt => ⟨_, (hserved.verify_run hl.log hl.records).1 hlt⟩⟩
  have hne : o ≠ .crash := by
    have hne := run_nil_ne_crash (m := c.method) (s := (s, d))
    rwa [hrun] at hne
  by_cases hget : ∃ k, c = .get k
  · obtain ⟨k, rfl⟩ := hget
    have hok : (Call.get k).method.run (s, d) [] = (.ok (), (s, d)) :=
      run_bind_nil (hserved.get_run k)
    rw [hok] at hrun
    cases hrun
    rfl
  · have hstep : CallStep NoFault s (dirOf dir d) L c o s' (dirOf dir d') :=
      (wp_call hserved c).run_eq (by simp) hrun
    rcases hstep.crash_or_ok (fun k hk => hget ⟨k, hk⟩) hl reliable_noFault hio hbelow with
      hcr | ⟨hok, -⟩ | ⟨-, hnot, -⟩
    · exact absurd hcr hne
    · exact hok
    · exact absurd hfits hnot

theorem checks_never_fire_used :
    (∀ (t : ℕ) (f : List Name → List Name) (hf : ∀ l, (f l).Perm l), ∃ s d',
      (Store.openWithThreshold [['d']] t).run (used.2.reorder f hf) [] = (.ok s, d')) ∧
    ∀ s, some used.1 = some s →
      (∀ c : Call, ¬ c.Fits → ∃ e, c.method.run (s, used.2) [] = (.err e, (s, used.2))) ∧
      (∀ (c : Call) o s' d', c.Fits → c.method.run (s, used.2) [] = (o, (s', d')) →
        o ≠ .err (.io .fileTooLarge) → (dirOf [['d']] d').Below → o = .ok ()) ∧
      (∀ k, ∃ v, (Store.get k).run (s, used.2) [] = (.ok v, (s, used.2))) ∧
      (s.recordCount < u64Size →
        ∃ stats, Store.verify.run (s, used.2) [] = (.ok stats, (s, used.2))) :=
  checks_never_fire reachable_used

end Checks

/-! ## The count that overflows -/

section Count

/-- A store that flushes once the empty key and a key of one byte have empty values. -/
def pairStore : Store := { newStore with flushThresholdBytes := 33 }

/-- The record under the key of one byte. -/
def byteRecord : Record := .newSet [0] []

theorem encode_byteRecord : byteRecord.encode = .ok byteRecord.image :=
  Record.encode_eq (by decide) (Nat.zero_le _)

/-- Any number of segments of two records each can be reached, while there are generations left. -/
theorem exists_reachable_of_count : ∀ n, n + 1 < u64Size → ∃ s d gs L,
    Reachable NoFail (fun _ => NoFail) [['d']] (some s) d ∧
      Live [['d']] s (dirOf [['d']] d) gs L [] 33 ∧ s.nextSegmentGeneration = n + 1 ∧
      entryCount L = 2 * n
  | 0, _ => by
    have hreach : Reachable NoFail (fun _ => NoFail) [['d']] (some pairStore) openedDisk :=
      reachable_new 33
    obtain ⟨s, d', gs, L, rs, hopen, hlive, -⟩ := (fresh_empty [['d']]).resumes.opens_nil (t := 33)
    have heq : (Outcome.ok pairStore, openedDisk) = (.ok s, d') := Eq.trans rfl hopen
    cases heq
    obtain rfl : rs = [] := logImage_eq_nil.mp (Option.some_inj.mp hlive.log).symm
    have hlists : List.Forall₂ _ [] L := hlive.backed.served.lists
    cases hlists
    exact ⟨_, _, gs, [], hreach, hlive, rfl, rfl⟩
  | n + 1, hn => by
    obtain ⟨s, d, gs, L, hreach, hlive, hnext, hcount⟩ := exists_reachable_of_count n (by omega)
    rcases hrun₁ : (Call.set [] []).method.run (s, d) [] with ⟨o₁, s₁, d₁⟩
    rcases hlive.logged (r := emptyRecord) rfl encode_emptyRecord (by decide +kernel)
      image_iter_emptyRecord hrun₁ with ⟨-, rfl, hnext₁, hlive₁⟩ | ⟨hover, -⟩
    · have hreach₁ : Reachable NoFail (fun _ => NoFail) [['d']] (some s₁) d₁ :=
        hreach.called (by simp) hrun₁ nofun hlive₁.settled.below
      rcases hrun₂ : (Call.set [0] []).method.run (s₁, d₁) [] with ⟨o₂, s₂, d₂⟩
      rcases hlive₁.logged (r := byteRecord) rfl encode_byteRecord (by decide +kernel)
        (by decide +kernel) hrun₂ with
        ⟨hover, -⟩ | ⟨-, ⟨hlt, rfl, hnext₂, gs', hlive₂⟩ | ⟨hlast, -⟩⟩
      · exact absurd hover (by decide +kernel)
      · refine ⟨s₂, d₂, gs', _, hreach₁.called (by simp) hrun₂ nofun hlive₂.settled.below, hlive₂,
          by omega, ?_⟩
        have hlen : (applyRecord (memtableOf ([] ++ [emptyRecord.stored])) byteRecord).iter.length =
            2 := by decide +kernel
        rw [entryCount, List.map_cons, List.sum_cons, hlen, ← entryCount, hcount]
        omega
      · omega
    · exact absurd hover (by decide +kernel)

/-- **A count that overflows.** Without failures a store is reached whose segments have 2^64 records;
`verify` does not return `Ok`. -/
theorem verify_count_overflows : ¬ ∀ (s : Store) (d : Disk),
    Reachable NoFail (fun _ => NoFail) [['d']] (some s) d →
      ∃ stats y, Store.verify.run (s, d) [] = (.ok stats, y) := by
  intro hall
  obtain ⟨s, d, gs, L, hreach, hlive, -, hcount⟩ := exists_reachable_of_count (2 ^ 63) (by decide)
  obtain ⟨stats, y, hrun⟩ := hall s d hreach
  have hcount' : s.recordCount = entryCount L :=
    recordCount_eq (hlive.backed.served.lists.imp fun _ _ hr => hr.sound.iterAllIn)
  rw [(hlive.backed.served.verify_run hlive.log hlive.records).2 (by rw [hcount', hcount]; decide)] at hrun
  cases hrun

end Count

end StoneKV
