import StoneKV.Opening

/-!
# The size of the memtable

* `Memtable.totalSize`: what the entries add up to; `Memtable.Exact`: the estimate is this sum.
* **`Memtable.Exact.put`**: it stays exact when a key is set or deleted, whatever it had.
* `SizedRun`: what calls make of an open store as long as the sums fit into 64 bits.
* **`memtable_size_exact`**: the estimate is exact, and after a `set` or `delete` that returns `Ok`
  the memtable is empty or below the threshold.
-/

namespace StoneKV

open FaultProg

/-- What an entry counts for. -/
def entryBytes (e : Entry) : ℕ := e.1.length + (e.2.map List.length).getD 0 + ENTRY_OVERHEAD_BYTES

namespace Memtable

/-- What the entries count for together. -/
def totalSize (m : Memtable) : ℕ := (m.iter.map entryBytes).sum

def clear (m : Memtable) : Memtable := { m with map := ∅, approxSizeBytes := 0 }

/-- The estimate is the sum over the entries, which fits into 64 bits. -/
structure Exact (m : Memtable) : Prop where
  eq : m.approxSizeBytes = m.totalSize
  lt : m.totalSize < u64Size

/-- What the entries of the other keys count for. -/
def othersSize (m : Memtable) (key : Key) : ℕ := ((m.iter.filter (·.1 ≠ key)).map entryBytes).sum

section Size

variable {m : Memtable} {k key : Key} {v val : Option Val}

theorem entrySize_eq (h : entryBytes (key, val) < u64Size) :
    entrySize key.length (val.map List.length) = entryBytes (key, val) := by
  unfold entryBytes at h ⊢
  unfold entrySize saturatingAdd
  dsimp only at h ⊢
  omega

theorem nodup_iter : m.iter.Nodup := ascending_iter.nodup.of_map _

/-- The entries are the one of the key and those of the others. -/
theorem totalSize_of_some (h : m.get key = some val) :
    m.totalSize = entryBytes (key, val) + m.othersSize key := by
  have hperm : m.iter.Perm ((key, val) :: m.iter.filter (·.1 ≠ key)) := by
    refine (List.perm_ext_iff_of_nodup nodup_iter ?_).mpr ?_
    · exact List.nodup_cons.mpr ⟨by simp, nodup_iter.filter _⟩
    · rintro ⟨k, v⟩
      rw [List.mem_cons, List.mem_filter, mem_iter, Prod.mk.injEq]
      by_cases hk : k = key
      · subst hk
        simp [h, eq_comm]
      · simp [hk]
  rw [totalSize, (hperm.map entryBytes).sum_eq]
  rfl

theorem totalSize_of_none (h : m.get key = none) : m.totalSize = m.othersSize key := by
  have hall : m.iter.filter (·.1 ≠ key) = m.iter := by
    rw [List.filter_eq_self]
    rintro ⟨k, v⟩ he
    rw [decide_eq_true_eq]
    rintro rfl
    rw [mem_iter, h] at he
    cases he
  rw [othersSize, hall, totalSize]

/-- Setting or deleting a key leaves the others as they are. -/
theorem othersSize_put : (m.put key val).othersSize key = m.othersSize key := by
  have hperm : ((m.put key val).iter.filter (·.1 ≠ key)).Perm (m.iter.filter (·.1 ≠ key)) := by
    refine (List.perm_ext_iff_of_nodup (nodup_iter.filter _) (nodup_iter.filter _)).mpr ?_
    rintro ⟨k, v⟩
    rw [List.mem_filter, List.mem_filter, mem_iter, mem_iter, get_put]
    by_cases hk : k = key <;> simp [hk]
  exact (hperm.map entryBytes).sum_eq

theorem totalSize_put (m : Memtable) (key : Key) (val : Option Val) :
    (m.put key val).totalSize = entryBytes (key, val) + m.othersSize key := by
  rw [totalSize_of_some (get_put.trans (if_pos rfl)), othersSize_put]

theorem totalSize_put_le : (m.put key val).totalSize ≤ m.totalSize + entryBytes (key, val) := by
  rw [totalSize_put]
  rcases h : m.get key with _ | old
  · rw [totalSize_of_none h]
    omega
  · rw [totalSize_of_some h]
    omega

theorem totalSize_new : new.totalSize = 0 := by
  have : new.iter = [] := by simp [iter, new]
  rw [totalSize, this]
  rfl

theorem exact_new : new.Exact := ⟨totalSize_new.symm, by rw [totalSize_new]; decide⟩

/-- **Setting or deleting a key.** What the key had is taken off and what it gets is added, and
neither is cut off as long as the new sum fits into 64 bits. -/
theorem Exact.put (h : m.Exact) (hlt : (m.put key val).totalSize < u64Size) :
    (m.put key val).Exact := by
  refine ⟨?_, hlt⟩
  have hsum := totalSize_put m key val
  have hfits : entryBytes (key, val) < u64Size := by omega
  have hold := h.eq
  rw [hsum]
  unfold Memtable.put saturatingAdd
  dsimp only
  rw [entrySize_eq hfits]
  rcases hget : m.get key with _ | old
  · have hmap : m.map[key]? = none := hget
    rw [totalSize_of_none hget] at hold
    rw [hmap]
    dsimp only
    omega
  · have hmap : m.map[key]? = some old := hget
    have htotal := totalSize_of_some hget
    have hlt' := h.lt
    have hothers : m.approxSizeBytes - entryBytes (key, old) = m.othersSize key := by omega
    rw [hmap]
    dsimp only
    rw [entrySize_eq (by omega), hothers]
    omega

end Size

end Memtable

/-- An operation on a memtable. -/
inductive MemtableOp
  | set (key : Key) (val : Val)
  | delete (key : Key)
  | clear
  deriving DecidableEq

namespace MemtableOp

def apply : MemtableOp → Memtable → Memtable
  | .set key val, m => m.set key val
  | .delete key, m => m.delete key
  | .clear, m => m.clear

/-- The memtable after the operations. -/
def run (ops : List MemtableOp) : Memtable := ops.foldl (fun m op => op.apply m) .new

variable {m : Memtable} {op : MemtableOp} {ops : List MemtableOp}

theorem exact_apply (h : m.Exact) (hlt : (op.apply m).totalSize < u64Size) : (op.apply m).Exact := by
  cases op with
  | set key val => exact h.put hlt
  | delete key => exact h.put hlt
  | clear => exact Memtable.exact_new

/-- **After any operations** the estimate is exact, as long as every sum on the way fits. -/
theorem exact_run (h : ∀ p, p <+: ops → (run p).totalSize < u64Size) : (run ops).Exact := by
  induction ops using List.reverseRecOn with
  | nil => exact Memtable.exact_new
  | append_singleton ops op ih =>
    have hstep : run (ops ++ [op]) = op.apply (run ops) := by
      rw [run, List.foldl_append]
      rfl
    have hlt := h _ (List.prefix_refl _)
    rw [hstep] at hlt ⊢
    exact exact_apply (ih fun p hp => h p (hp.trans (List.prefix_append _ _))) hlt

end MemtableOp

/-! ## The memtable of a store -/

section Store

variable {A : Fault → Prop} {s : Store} {d : Disk} {dir : Path} {t : ℕ} {r : Record}

/-- The threshold is that of `s`, and the memtable too, or it is empty. -/
structure KeepsMemtable (s s' : Store) : Prop where
  threshold : s'.flushThresholdBytes = s.flushThresholdBytes
  memtable : s'.memtable = s.memtable ∨ s'.memtable = .new

theorem keepsMemtable_self : KeepsMemtable s s := ⟨rfl, .inl rfl⟩

theorem KeepsMemtable.trans {s' s'' : Store} (h : KeepsMemtable s s') (h' : KeepsMemtable s' s'') :
    KeepsMemtable s s'' := by
  refine ⟨h'.threshold.trans h.threshold, ?_⟩
  rcases h'.memtable with hm | hm
  · rw [hm]
    exact h.memtable
  · exact .inr hm

/-- What a flush leaves; when it returns, the memtable is empty. -/
def FlushLeaves (s : Store) (o : Outcome StoneError Unit) (s' : Store) : Prop :=
  KeepsMemtable s s' ∧ (o = .ok () → s'.memtable.isEmpty)

theorem flushLeaves_err {e : StoneError} {s' : Store} (h : KeepsMemtable s s') :
    FlushLeaves s (.err e) s' := ⟨h, nofun⟩

theorem flushLeaves_crash {s' : Store} (h : KeepsMemtable s s') : FlushLeaves s .crash s' :=
  ⟨h, nofun⟩

theorem wp_installFlushed_leaves {g : ℕ} {p : Path} :
    wp A (Store.installFlushed g p) (fun o x => FlushLeaves s o x.1) (s, d) := by
  refine wp_onSnd_bind_any (fun opened d' => ?_) (fun _ _ => flushLeaves_err keepsMemtable_self)
    fun _ => flushLeaves_crash keepsMemtable_self
  rcases opened with e | reader
  · exact wp_onSnd_bind_any (fun _ _ => wp_throw (flushLeaves_err keepsMemtable_self))
      (fun _ _ => flushLeaves_err keepsMemtable_self) fun _ => flushLeaves_crash keepsMemtable_self
  have hkept : ∀ segments next, KeepsMemtable s
      { s with segments := segments, nextSegmentGeneration := next } := fun _ _ => ⟨rfl, .inl rfl⟩
  refine wp_bind (wp_update (wp_bind (wp_ofExcept (fun next _ => ?_)
    fun _ _ => flushLeaves_err (hkept _ _))))
  refine wp_bind (wp_update (wp_bind (wp_self (wp_onSnd_bind_any (fun _ _ => ?_)
    (fun _ _ => flushLeaves_err (hkept _ _)) fun _ => flushLeaves_crash (hkept _ _)))))
  exact wp_update ⟨⟨rfl, .inr rfl⟩, fun _ => Memtable.isEmpty_iff.mpr fun k => Memtable.get_new⟩

/-- **A flush that returns leaves the memtable empty**, on any disk. -/
theorem wp_flushMemtable_leaves :
    wp A Store.flushMemtable (fun o x => FlushLeaves s o x.1) (s, d) := by
  have herr : ∀ e, FlushLeaves s (.err e) s := fun _ => flushLeaves_err keepsMemtable_self
  have hcr : FlushLeaves s .crash s := flushLeaves_crash keepsMemtable_self
  refine wp_bind (wp_self ?_)
  dsimp only [Outcome.andThen]
  split_ifs with hempty
  · exact wp_pure ⟨keepsMemtable_self, fun _ => hempty⟩
  refine wp_onSnd_bind_any (fun _ _ => ?_) (fun _ _ => herr _) fun _ => hcr
  refine wp_onSnd_bind_any (fun _ _ => ?_) (fun _ _ => herr _) fun _ => hcr
  exact wp_onSnd_bind_any (fun _ _ => wp_installFlushed_leaves) (fun _ _ => herr _) fun _ => hcr

/-- A compaction of segments leaves the memtable as it is. -/
theorem wp_compactSegments_keeps :
    wp A Store.compactSegments (fun _ x => KeepsMemtable s x.1) (s, d) := by
  have hself : KeepsMemtable s s := keepsMemtable_self
  refine wp_bind (wp_self ?_)
  refine wp_onSnd_bind_any (fun _ _ => ?_) (fun _ _ => hself) fun _ => hself
  refine wp_onSnd_bind_any (fun build _ => ?_) (fun _ _ => hself) fun _ => hself
  refine wp_onSnd_bind_any (fun written _ => ?_) (fun _ _ => hself) fun _ => hself
  rcases written with e | _
  · exact wp_onSnd_bind_any (fun _ _ => wp_throw hself) (fun _ _ => hself) fun _ => hself
  refine wp_onSnd_bind_any (fun renamed _ => ?_) (fun _ _ => hself) fun _ => hself
  rcases renamed with e | _
  · refine wp_onSnd_bind_any (fun _ _ => ?_) (fun _ _ => hself) fun _ => hself
    exact wp_onSnd_bind_any (fun _ _ => wp_throw hself) (fun _ _ => hself) fun _ => hself
  refine wp_bind (wp_self ?_)
  refine wp_onSnd_bind_any (fun opened _ => ?_) (fun _ _ => hself) fun _ => hself
  rcases opened with e | reader
  · refine wp_onSnd_bind_any (fun _ _ => ?_) (fun _ _ => hself) fun _ => hself
    exact wp_onSnd_bind_any (fun _ _ => wp_throw hself) (fun _ _ => hself) fun _ => hself
  have hkept : ∀ segments next, KeepsMemtable s
      { s with segments := segments, nextSegmentGeneration := next } := fun _ _ => ⟨rfl, .inl rfl⟩
  refine wp_bind (wp_ofExcept (fun next _ => ?_) fun _ _ => hself)
  refine wp_bind (wp_update (wp_bind (wp_update ?_)))
  refine wp_onSnd_bind_any (fun _ _ => ?_) (fun _ _ => hkept _ _) fun _ => hkept _ _
  exact wp_onSnd_bind_any (fun _ _ => wp_pure (hkept _ _)) (fun _ _ => hkept _ _) fun _ => hkept _ _

theorem wp_compact_keeps : wp A Store.compact (fun _ x => KeepsMemtable s x.1) (s, d) := by
  have hrest : ∀ s₁ d₁, KeepsMemtable s s₁ → wp A (do
      if (← self).segments.length < 2 then return .default
      Store.compactSegments : Method CompactionStats) (fun _ x => KeepsMemtable s x.1) (s₁, d₁) := by
    intro s₁ d₁ h
    refine wp_bind (wp_self ?_)
    dsimp only [Outcome.andThen]
    split_ifs
    · exact wp_pure h
    · exact wp_compactSegments_keeps.mono fun _ _ h' => h.trans h'
  refine wp_bind (wp_self ?_)
  dsimp only [Outcome.andThen]
  split_ifs
  · exact hrest s d keepsMemtable_self
  · exact FaultProg.wp.bind wp_flushMemtable_leaves (fun _ x h => hrest x.1 x.2 h.1)
      (fun _ _ h => h.1) fun _ h => h.1

/-- **A `set` or `delete`.** The memtable may have the record or not, or be empty; and if `Ok` is
returned, it is empty or below the threshold. -/
theorem wp_logged_leaves : wp A (Store.logged r fun m => applyRecord m r)
    (fun o x => (KeepsMemtable s x.1 ∨ KeepsMemtable (s.applied r) x.1) ∧
      (o = .ok () → x.1.memtable.isEmpty ∨
        x.1.memtable.isOverThreshold x.1.flushThresholdBytes = false)) (s, d) := by
  have hself : KeepsMemtable s s := keepsMemtable_self
  refine wp_bind (wp_self (wp_onSnd_bind_any (fun _ d' => ?_)
    (fun _ _ => ⟨.inl hself, nofun⟩) fun _ => ⟨.inl hself, nofun⟩))
  refine wp_bind (wp_update (wp_bind (wp_self ?_)))
  dsimp only [Outcome.andThen]
  split_ifs with hover
  · exact wp_flushMemtable_leaves.mono fun _ _ h => ⟨.inr h.1, fun hok => .inl (h.2 hok)⟩
  · exact wp_pure ⟨.inr keepsMemtable_self, fun _ => .inr (Bool.not_eq_true _ ▸ hover)⟩

/-- A record counts for less than twice its length in the log. -/
theorem entryBytes_toEntry_le : entryBytes (toEntry r) ≤ 2 * r.image.length := by
  rw [Record.length_image]
  obtain ⟨_ | _, k, v⟩ := r <;>
    simp only [entryBytes, toEntry, Option.map_some, Option.map_none, Option.getD_some,
      Option.getD_none, ENTRY_OVERHEAD_BYTES, Record.value] <;> omega

/-- The memtable is exact, and counts for less than twice the `n` bytes of the log that it is from. -/
def ExactWithin (n : ℕ) (m : Memtable) : Prop :=
  n ≤ maxFileLen → m.Exact ∧ m.totalSize ≤ 2 * n

theorem exactWithin_applyRecord {n : ℕ} {m : Memtable} (h : ExactWithin n m) :
    ExactWithin (n + r.image.length) (applyRecord m r) := by
  intro hle
  obtain ⟨hexact, hsum⟩ := h (by omega)
  have hput : (m.put r.key (toEntry r).2).totalSize ≤ m.totalSize + entryBytes (toEntry r) :=
    Memtable.totalSize_put_le
  have hentry := entryBytes_toEntry_le (r := r)
  rw [applyRecord_eq_put]
  refine ⟨hexact.put ?_, by omega⟩
  unfold maxFileLen at hle
  unfold u64Size
  omega

/-- **A store that is opened** has an exact memtable: the sum fits, since the log is a file. -/
theorem wp_openWithThreshold_exact : wp A (Store.openWithThreshold dir t)
    (fun o _ => ∀ s, o = .ok s → s.memtable.Exact) d := by
  have herr : ∀ (e : StoneError) (s : Store), .err e = Outcome.ok s → s.memtable.Exact :=
    fun _ _ h => by cases h
  have hcr : ∀ s : Store, (.crash : Outcome StoneError Store) = .ok s → s.memtable.Exact :=
    fun _ h => by cases h
  rw [Store.openWithThreshold_eq]
  refine wp_bind_any (fun _ d₁ => ?_) (fun _ _ => herr _) fun _ => hcr
  refine wp_bind_any (fun _ d₂ => ?_) (fun _ _ => herr _) fun _ => hcr
  refine wp_bind_any (fun _ d₃ => ?_) (fun _ _ => herr _) fun _ => hcr
  refine wp_bind_any (fun _ d₄ => ?_) (fun _ _ => herr _) fun _ => hcr
  refine wp_bind_any (fun loaded d₅ => ?_) (fun _ _ => herr _) fun _ => hcr
  have hreplay : wp A (Wal.replay applyRecord (walPathOf dir)) _ (Memtable.new, d₅) :=
    Wal.wp_replay_counted (I := ExactWithin) (fun _ _ _ _ h => exactWithin_applyRecord h)
      fun _ => ⟨Memtable.exact_new, Memtable.totalSize_new.le⟩
  refine wp_bind (wp_withLocal (hreplay.mono ?_))
  rintro (_ | _ | _) ⟨m, d₆⟩ ⟨⟨n, hn, hm⟩, -⟩
  · refine wp_bind_any (fun wal d₇ => wp_pure ?_) (fun _ _ => herr _) fun _ => hcr
    intro s hs
    cases hs
    exact (hm hn).1
  · exact herr _
  · exact hcr

end Store

/-- The record that the call logs, if any, leaves a sum that fits into 64 bits. -/
def Call.FitsMemtable (c : Call) (s : Store) : Prop :=
  ∀ r, c.record = some r → (s.applied r).memtable.totalSize < u64Size

/-- What calls make of an open store as long as the sums fit, on any disk and whatever fails. -/
inductive SizedRun : Store × Disk → Prop
  | opened {dir : Path} {t : ℕ} {s : Store} {d d' : Disk} {l : List Fault} :
    (Store.openWithThreshold dir t).run d l = (.ok s, d') → SizedRun (s, d')
  | called {x : Store × Disk} (c : Call) (l : List Fault) : SizedRun x → c.FitsMemtable x.1 →
    SizedRun (c.method.run x l).2

section Run

variable {s : Store} {d : Disk} {c : Call} {l : List Fault}

theorem KeepsMemtable.exact {s' : Store} (h : KeepsMemtable s s') (hs : s.memtable.Exact) :
    s'.memtable.Exact := by
  rcases h.memtable with hm | hm <;> rw [hm]
  · exact hs
  · exact Memtable.exact_new

theorem exact_applied {r : Record} (h : s.memtable.Exact)
    (hlt : (s.applied r).memtable.totalSize < u64Size) : (s.applied r).memtable.Exact := by
  rw [Store.applied, applyRecord_eq_put] at hlt ⊢
  exact h.put hlt

/-- **One call** keeps the memtable exact. -/
theorem exact_call (h : s.memtable.Exact) (hfits : c.FitsMemtable s) :
    (c.method.run (s, d) l).2.1.memtable.Exact := by
  have hl : ∀ f ∈ l, AnyFault f := fun _ _ => trivial
  have hlogged : ∀ r, c.record = some r → (c.method.run (s, d) l).2.1.memtable.Exact := by
    intro r hr
    rw [Call.method_of_record hr]
    rcases (wp_logged_leaves.run hl).1 with hkeep | hkeep
    · exact hkeep.exact h
    · exact hkeep.exact (exact_applied h (hfits r hr))
  cases c with
  | set key val => exact hlogged _ rfl
  | delete key => exact hlogged _ rfl
  | get key =>
    have hsame : ((Call.get key).method.run (s, d) l).2 = (s, d) :=
      (wp_void (Q := fun _ x => x = (s, d)) (wp_get_same (k := key))).run hl
    rw [hsame]
    exact h
  | compact =>
    have hkeep : KeepsMemtable s (Call.compact.method.run (s, d) l).2.1 :=
      (wp_void (Q := fun _ x => KeepsMemtable s x.1) wp_compact_keeps).run hl
    exact hkeep.exact h

theorem SizedRun.exact {x : Store × Disk} (h : SizedRun x) : x.1.memtable.Exact := by
  induction h with
  | opened hrun =>
    exact wp_openWithThreshold_exact.run_eq (A := AnyFault) (fun _ _ => trivial) hrun _ rfl
  | called c l _ hfits ih => exact exact_call ih hfits

end Run

/-- **The size of the memtable is exact.** After any operations on a memtable its estimate is the sum
over its entries, as long as the sums on the way fit into 64 bits. So it is in a store, whatever
calls were made and whatever failed; and after a `set` or `delete` that returns `Ok` the memtable is
empty or its entries count for less than the threshold, which is as it was. -/
theorem memtable_size_exact :
    (∀ ops : List MemtableOp, (∀ p, p <+: ops → (MemtableOp.run p).totalSize < u64Size) →
      (MemtableOp.run ops).approxSizeBytes = (MemtableOp.run ops).totalSize) ∧
    ∀ x, SizedRun x → x.1.memtable.approxSizeBytes = x.1.memtable.totalSize ∧
      ∀ (c : Call) (l : List Fault), c.record.isSome → c.FitsMemtable x.1 →
        (c.method.run x l).1 = .ok () →
        (c.method.run x l).2.1.flushThresholdBytes = x.1.flushThresholdBytes ∧
        ((c.method.run x l).2.1.memtable.isEmpty ∨
          (c.method.run x l).2.1.memtable.totalSize < x.1.flushThresholdBytes) := by
  refine ⟨fun ops h => (MemtableOp.exact_run h).eq, fun x hx => ⟨hx.exact.eq, ?_⟩⟩
  obtain ⟨s, d⟩ := x
  intro c l hc hfits hok
  have hexact := exact_call (d := d) (l := l) hx.exact hfits
  obtain ⟨r, hr⟩ := Option.isSome_iff_exists.mp hc
  rw [Call.method_of_record hr] at hok hexact ⊢
  obtain ⟨hkeep, hsize⟩ := (wp_logged_leaves (A := AnyFault) (s := s) (d := d) (r := r)).run
    (l := l) fun _ _ => trivial
  have hthreshold := hkeep.elim (fun h => h.threshold) fun h => h.threshold
  refine ⟨hthreshold, (hsize hok).imp_right fun hover => ?_⟩
  rw [Memtable.isOverThreshold, decide_eq_false_iff_not, hexact.eq, hthreshold] at hover
  exact Nat.lt_of_not_le hover

/-- A value, a tombstone in its place, and another key. -/
def overwrittenOps : List MemtableOp := [.set [97] [49, 50], .delete [97], .set [98] [49]]

theorem memtable_size_exact_overwritten : (MemtableOp.run overwrittenOps).approxSizeBytes = 35 := by
  have hfits : ∀ p ∈ overwrittenOps.inits, (MemtableOp.run p).totalSize < u64Size := by
    decide +kernel
  rw [memtable_size_exact.1 overwrittenOps fun p hp => hfits p ((List.mem_inits _ _).mpr hp)]
  decide +kernel

end StoneKV
