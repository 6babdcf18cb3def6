import StoneKV.Replay
import StoneKV.Recovered

/-!
# What an acknowledged append is worth

* `Delivers dir d rs`: replaying the log in `dir`, opening the store and verifying it deliver `rs`.
* **`appends_delivered`**: the log of a run delivers the acknowledged records, as long as nothing is
  written behind a part of a record.
* **`part_then_whole_lost`**: otherwise an acknowledged record can be lost.
-/

namespace StoneKV

open FaultProg Prog

/-- The log in `dir` delivers `rs`, perhaps among other records: replaying it returns `Ok` and applies
them in order; `open`, once it has loaded the segments, returns a store with them in its memtable; and
`verify` counts them and goes on to the segments. -/
def Delivers (dir : Path) (d : Disk) (rs : List Record) : Prop :=
  ∃ all, rs.Sublist all ∧
    (∀ {β : Type} (apply : β → Record → β) (b : β), ∃ stats d', stats.recordsReplayed = all.length ∧
      (Wal.replay apply (walPathOf dir)).run (b, d) [] = (.ok stats, (all.foldl apply b, d'))) ∧
    (∀ t d₁ d₂ d₃ segments next,
      (recoverPendingCompaction (segmentsDirOf dir)).run d [] = (.ok (), d₁) →
      (removeStaleTempFiles (segmentsDirOf dir)).run d₁ [] = (.ok (), d₂) →
      (loadSegments (segmentsDirOf dir)).run d₂ [] = (.ok (segments, next), d₃) →
      ∃ d', (Store.openWithThreshold dir t).run d [] = (.ok ⟨dir, ⟨walPathOf dir⟩,
        all.foldl applyRecord .new, segments, next, t⟩, d')) ∧
    ∀ s, s.wal.path = walPathOf dir → ∃ d', Store.verify.run (s, d) [] = ((do
      let recordsChecked ← io (Store.verifySegments s.segments none 0)
      return ⟨all.length, s.segments.length, recordsChecked⟩) : Method VerifyStats).run (s, d') []

section Delivers

variable {dir : Path} {d : Disk} {rs all : List Record} {t : Bytes}

theorem replay_run {β : Type} (apply : β → Record → β) (b : β)
    (hd : d.read (walPathOf dir) = some (logImage all ++ t)) (hall : ∀ r ∈ all, r.Valid)
    (ht : Torn t) : ∃ d', d.Touched (walPathOf dir) d' ∧ d'.read (walPathOf dir) = some (logImage all) ∧
      (Wal.replay apply (walPathOf dir)).run (b, d) [] =
        (.ok ⟨all.length, (logImage all).length, t.length⟩, (all.foldl apply b, d')) := by
  obtain ⟨d', htouch, hd', hrun⟩ := replay_of_isLog apply hd ⟨rfl, hall, .inr ht.decode⟩
  exact ⟨d', htouch, hd', hrun b⟩

/-- Opening a log that is there. -/
theorem open_run {path : Path} {b : Bytes} (h : d.read path = some b) :
    (Wal.open path).run d [] = (.ok ⟨path⟩, d) := by
  have hrest : wp NoFault (do
      Fs.openCreate path
      return (⟨path⟩ : Wal) : Io Wal)
      (fun o d' => o ≠ .crash → (o, d') = (.ok ⟨path⟩, d)) d :=
    wp_bind (Fs.wp_openCreate (fun hn => by rw [h] at hn; cases hn) (fun _ => wp_pure fun _ => rfl)
      (fun n hn => absurd hn (not_noFault_fail n)) fun _ _ hc => absurd rfl hc)
  refine wp.run_nil_eq ?_
  unfold Wal.open
  split_ifs
  · exact wp_bind (Fs.wp_touch hrest (fun n hn => absurd hn (not_noFault_fail n))
      fun _ _ hc => absurd rfl hc)
  · exact hrest

theorem loadSegments_run {d' : Disk} {sd : Path} {x : List SegmentReader × ℕ}
    (h : (loadSegments sd).run d [] = (.ok x, d')) : d' = d := by
  have hwp : wp NoFault (loadSegments sd) (fun _ d' => d' = d) d :=
    wp_loadSegments (fun _ _ _ _ _ _ => rfl) (fun _ _ => rfl) rfl
  exact hwp.run_eq (by simp) h

/-- **A log of records with a torn tail delivers them.** -/
theorem delivers_of_log (hd : d.read (walPathOf dir) = some (logImage all ++ t))
    (hall : ∀ r ∈ all, r.Valid) (ht : Torn t) (hsub : rs.Sublist all) : Delivers dir d rs := by
  refine ⟨all, hsub, fun apply b => ?_, fun t' d₁ d₂ d₃ segments next h₁ h₂ h₃ => ?_, fun s hs => ?_⟩
  · obtain ⟨d', -, -, hrun⟩ := replay_run apply b hd hall ht
    exact ⟨_, d', rfl, hrun⟩
  · have hwal : d₃.read (walPathOf dir) = some (logImage all ++ t) := by
      have hw₁ := (wp_recoverPendingCompaction_within (A := NoFault) (.refl _)).run_eq (by simp) h₁
      have hw₂ := (wp_removeStaleTempFiles_within (A := NoFault) (.refl _)).run_eq (by simp) h₂
      rw [loadSegments_run h₃, ← dirOf_wal, hw₂.wal, hw₁.wal, dirOf_wal, hd]
    obtain ⟨d', -, hlog, hrun⟩ := replay_run applyRecord .new hwal hall ht
    refine ⟨d', (run_bind_nil (show (Fs.touch : Io Unit).run d [] = (.ok (), d) from rfl)).trans ?_⟩
    refine (run_bind_nil (show (Fs.touch : Io Unit).run d [] = (.ok (), d) from rfl)).trans ?_
    refine (run_bind_nil h₁).trans ((run_bind_nil h₂).trans ((run_bind_nil h₃).trans ?_))
    refine (run_bind_nil (run_withLocal hrun)).trans ((run_bind_nil (open_run hlog)).trans ?_)
    rfl
  · obtain ⟨d', -, -, hrun⟩ := replay_run (fun _ _ => ()) () hd hall ht
    refine ⟨d', (run_bind_nil (show self.run (s, d) [] = (.ok s, (s, d)) from rfl)).trans ?_⟩
    rw [← hs] at hrun
    exact run_bind_nil (run_onSnd (run_withLocal hrun))

end Delivers

/-- **Acknowledged records are delivered.** Take calls of `append` on a log of the records `pre`, some
of which fail with any part of their records written, such that once a call has left a part of its
record, no later call writes a byte. Then the log delivers the records of the calls that returned
`Ok`, in order and after `pre`. -/
theorem appends_delivered {dir : Path} {d : Disk} {pre : List Record}
    (calls : List (Record × List Fault)) (hd : d.read (walPathOf dir) = some (logImage pre))
    (hpre : ∀ r ∈ pre, r.Valid) (hcrash : ∀ c ∈ calls, ∀ f ∈ c.2, NoCrash f)
    (hparts : calls.Pairwise fun a b => LeavesPart a → written b = 0) :
    Delivers dir (Wal.appends ⟨walPathOf dir⟩ calls d).2
      (pre ++ (Wal.appends ⟨walPathOf dir⟩ calls d).1.map Record.stored) := by
  have hd' : d.read (Wal.mk (walPathOf dir)).path = some (logImage pre ++ []) := by
    rw [List.append_nil]
    exact hd
  obtain ⟨rs, t, hlog, hvalid, ht, hsub⟩ := appends_log calls d pre [] hd' hpre torn_nil
    (fun h => absurd rfl h) hparts hcrash
  exact delivers_of_log hlog hvalid ht (hsub.append_left _)

/-- A call that fails with the first byte of its record written. -/
def failedAfterOneByte : Record × List Fault := (.newSet [97] [49], [.none, .fail 1])

/-- A call that writes its record. -/
def completed : Record × List Fault := (.newSet [98] [50], [])

/-- An empty log. -/
def emptyLog : Disk := Disk.empty.put (walPathOf [['d']]) [] (Nat.zero_le _)

theorem appends_delivered_part_last :
    Delivers [['d']] (Wal.appends ⟨walPathOf [['d']]⟩ [completed, failedAfterOneByte] emptyLog).2
      ([] ++ (Wal.appends ⟨walPathOf [['d']]⟩ [completed, failedAfterOneByte] emptyLog).1.map
        Record.stored) :=
  appends_delivered [completed, failedAfterOneByte] (by decide +kernel) (by simp)
    (by simp [completed, failedAfterOneByte, NoCrash]) (by decide +kernel)

/-- **A part of a record swallows the next record.** The second call returns `Ok`, and replaying the
log applies no record. -/
theorem part_then_whole_lost :
    (Wal.appends ⟨walPathOf [['d']]⟩ [failedAfterOneByte, completed] emptyLog).1 = [completed.1] ∧
      ¬ Delivers [['d']]
        (Wal.appends ⟨walPathOf [['d']]⟩ [failedAfterOneByte, completed] emptyLog).2
        [completed.1] := by
  refine ⟨by decide +kernel, ?_⟩
  rintro ⟨all, hsub, hreplay, -⟩
  obtain ⟨stats, d', hcount, hrun⟩ := hreplay (fun n _ => n + 1) 0
  have hzero : ((Wal.replay (fun n _ => n + 1) (walPathOf [['d']])).run
      (0, (Wal.appends ⟨walPathOf [['d']]⟩ [failedAfterOneByte, completed] emptyLog).2) []).1 =
        .ok ⟨0, 0, 16⟩ := by decide +kernel
  rw [hrun] at hzero
  cases hzero
  rw [List.length_eq_zero_iff.mp hcount.symm] at hsub
  cases hsub

end StoneKV
