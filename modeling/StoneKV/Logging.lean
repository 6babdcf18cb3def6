import StoneKV.Flush

/-!
# What `set` and `delete` can do

* `AppendStep`: what an append can do to the directory of a store; **`wp_append`**.
* `AppliedStep`: what can follow it; **`wp_applied`**.
* `LogStep`: what the two can do together; **`wp_logged`**.
-/

namespace StoneKV

open FaultProg

/-- The store with a record applied to its memtable. -/
def Store.applied (s : Store) (r : Record) : Store := { s with memtable := applyRecord s.memtable r }

/-- What an append of the record `r` can do to the log in the directory `D`. -/
inductive AppendStep (A : Fault → Prop) (D : Dir) (r : Record) : Outcome StoneError Unit → Dir → Prop
  | rejected {e : StoneError} : r.encode = .error e → AppendStep A D r (.err e) D
  | cut {o : Outcome StoneError Unit} {old b : Bytes} {n : ℕ} : D.wal = some old →
    r.encode = .ok b → Failed A (maxFileLen < (old ++ b).length) o →
    AppendStep A D r o (D.setWal (some (old ++ b.take n)))
  | done {old b : Bytes} : D.wal = some old → r.encode = .ok b →
    AppendStep A D r (.ok ()) (D.setWal (some (old ++ b)))

/-- What can follow in the store `s` once a record is in its log and its memtable. -/
inductive AppliedStep (A : Fault → Prop) (s : Store) (D : Dir) :
    Outcome StoneError Unit → Store → Dir → Prop
  | kept : s.memtable.isOverThreshold s.flushThresholdBytes = false → AppliedStep A s D (.ok ()) s D
  | flushed {o : Outcome StoneError Unit} {s' : Store} {D' : Dir} :
    s.memtable.isOverThreshold s.flushThresholdBytes = true → FlushStep A s D o s' D' →
    AppliedStep A s D o s' D'

/-- What an operation with the record `r` can do to the store `s` in the directory `D`. -/
inductive LogStep (A : Fault → Prop) (s : Store) (D : Dir) (r : Record) :
    Outcome StoneError Unit → Store → Dir → Prop
  | unlogged {o : Outcome StoneError Unit} {D' : Dir} : AppendStep A D r o D' → o ≠ .ok () →
    LogStep A s D r o s D'
  | logged {o : Outcome StoneError Unit} {s' : Store} {D₁ D' : Dir} : AppendStep A D r (.ok ()) D₁ →
    AppliedStep A (s.applied r) D₁ o s' D' → LogStep A s D r o s' D'

section Log

variable {A : Fault → Prop} {s s' : Store} {D D' : Dir} {d : Disk} {r : Record} {b : Bytes}
  {dir : Path} {L : List (List Entry)} {o : Outcome StoneError Unit}

/-- **Appending.** -/
theorem wp_append (h : Writable dir s (dirOf dir d)) : wp A (s.wal.append r)
    (fun o d' => AppendStep A (dirOf dir d) r o (dirOf dir d')) d := by
  obtain ⟨old, hold⟩ := Option.isSome_iff_exists.mp h.log
  have hwal : s.wal.path = walPathOf dir := h.wal
  have hlog : d.read s.wal.path = some old := by rw [hwal, ← dirOf_wal, hold]
  have happ : ∀ b, (old ++ b).length ≤ maxFileLen →
      dirOf dir (d.append s.wal.path b) = (dirOf dir d).setWal (some (old ++ b)) := fun b hb => by
    rw [hwal] at hlog ⊢
    rw [dirOf_setWal Disk.touched_append, Disk.read_append_self hlog hb]
  have hcut : ∀ {o : Outcome StoneError Unit} (b n), r.encode = .ok b →
      Failed A (maxFileLen < (old ++ b).length) o →
      AppendStep A (dirOf dir d) r o (dirOf dir (d.append s.wal.path (b.take n))) := by
    intro o b n hb ho
    by_cases hl : (old ++ b.take n).length ≤ maxFileLen
    · rw [happ _ hl]
      exact .cut hold hb ho
    · rw [Disk.append_of_lt hlog (by omega)]
      have : AppendStep A (dirOf dir d) r o ((dirOf dir d).setWal (some (old ++ b.take 0))) :=
        .cut hold hb ho
      rwa [List.take_zero, List.append_nil, ← hold, Dir.setWal_wal] at this
  refine Wal.wp_append hlog (fun e he => .rejected he) (fun b hb hl => ?_)
    (fun b n i hb hi => hcut b n hb (failed_err hi)) fun b n hb => hcut b n hb failed_crash
  rw [happ b hl]
  exact .done hold hb

/-- **What follows an append.** -/
theorem wp_applied (h : Writable dir s (dirOf dir d)) : wp A (do
      let s ← self
      if s.memtable.isOverThreshold s.flushThresholdBytes then Store.flushMemtable : Method Unit)
    (fun o x => AppliedStep A s (dirOf dir d) o x.1 (dirOf dir x.2)) (s, d) := by
  refine wp_bind (wp_self ?_)
  dsimp only [Outcome.andThen]
  split_ifs with hover
  · exact (wp_flushMemtable h).mono fun o x hx => .flushed hover hx
  · exact wp_pure (.kept (Bool.not_eq_true _ ▸ hover))

/-! ### What an append keeps -/

theorem toRecord_toEntry_stored (r : Record) : toRecord (toEntry r) = r.stored := by
  obtain ⟨_ | _, k, v⟩ := r <;> rfl

theorem applyRecord_eq_put (m : Memtable) (r : Record) :
    applyRecord m r = m.put r.key (toEntry r).2 := Memtable.applyRecord_eq r

theorem valid_applyRecord {m : Memtable} (h : ∀ e ∈ m.iter, (toRecord e).Valid)
    (hr : r.stored.Valid) : ∀ e ∈ (applyRecord m r).iter, (toRecord e).Valid := by
  rintro ⟨k, v⟩ he
  rw [Memtable.mem_iter, applyRecord_eq_put, Memtable.get_put] at he
  split_ifs at he with hk
  · cases he
    subst hk
    rw [← toRecord_toEntry_stored] at hr
    exact hr
  · exact h _ (Memtable.mem_iter.mpr he)

theorem Served.applied (h : Served dir s D L) (hr : r.encode = .ok b) : Served dir (s.applied r) D L :=
  ⟨h.dir_eq, h.wal, h.log, valid_applyRecord h.valid (Record.valid_stored hr), h.lists,
    h.decreasing, h.below, h.next_lt⟩

theorem AppendStep.encode (hs : AppendStep A D r (.ok ()) D') : ∃ b, r.encode = .ok b := by
  cases hs with
  | cut _ _ ho => exact absurd rfl ho.ne_ok
  | done _ hb => exact ⟨_, hb⟩

theorem AppendStep.isSome_wal (hs : AppendStep A D r o D') (h : D.wal.isSome) : D'.wal.isSome := by
  cases hs with
  | rejected _ => exact h
  | cut _ _ _ => rfl
  | done _ _ => rfl

theorem AppendStep.writable (hs : AppendStep A D r o D') (h : Writable dir s D) :
    Writable dir s D' := ⟨h.dir_eq, h.wal, hs.isSome_wal h.log, h.valid, h.next_lt⟩

theorem AppendStep.writable_applied (hs : AppendStep A D r (.ok ()) D') (h : Writable dir s D) :
    Writable dir (s.applied r) D' := by
  obtain ⟨b, hb⟩ := hs.encode
  exact ⟨h.dir_eq, h.wal, hs.isSome_wal h.log, valid_applyRecord h.valid (Record.valid_stored hb),
    h.next_lt⟩

/-- An append changes the log only. -/
theorem AppendStep.served (hs : AppendStep A D r o D') (h : Served dir s D L) : Served dir s D' L := by
  cases hs with
  | rejected _ => exact h
  | cut _ _ _ => exact h.setWal _
  | done _ _ => exact h.setWal _

theorem AppendStep.served_applied (hs : AppendStep A D r (.ok ()) D') (h : Served dir s D L) :
    Served dir (s.applied r) D' L := by
  obtain ⟨b, hb⟩ := hs.encode
  exact (hs.served h).applied hb

/-- **Setting and deleting.** -/
theorem wp_logged (h : Writable dir s (dirOf dir d)) :
    wp A (Store.logged r fun m => applyRecord m r)
      (fun o x => LogStep A s (dirOf dir d) r o x.1 (dirOf dir x.2)) (s, d) := by
  have happend : wp A (io (s.wal.append r))
      (fun o x => x.1 = s ∧ AppendStep A (dirOf dir d) r o (dirOf dir x.2)) (s, d) :=
    wp_onSnd ((wp_append h).mono fun _ _ hx => ⟨rfl, hx⟩)
  refine wp_bind (wp_self (FaultProg.wp.bind happend ?_ ?_ ?_))
  · rintro ⟨⟩ ⟨_, d'⟩ ⟨rfl, hx⟩
    exact wp_bind (wp_update ((wp_applied (hx.writable_applied h)).mono fun _ _ hs => .logged hx hs))
  · rintro e ⟨_, d'⟩ ⟨rfl, hx⟩
    exact .unlogged hx nofun
  · rintro ⟨_, d'⟩ ⟨rfl, hx⟩
    exact .unlogged hx nofun

end Log

end StoneKV
