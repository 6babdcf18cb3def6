import StoneKV.FailStop
import StoneKV.Interrupted

/-!
# Stores on any disk

A directory may be opened that no store has written, or in which segments were damaged since: `open`
checks how a segment is framed, and not its records, so that `get` may then answer anything or complain.

* `findings x`: what `get` answers in an open store, whatever it is.
* `Gives dir D F`, `Salvaged dir s D F`: directories that open to `F`, and stores that find it.
* `FlushStep.salvaged`, `LogStep.salvaged`: what a write makes of them; **`Salvaged.ask`**.
* **`writes_hold_on_any_disk`**: what is written is found again, and the rest is as it was.
-/

namespace StoneKV

open FaultProg Prog

/-- What is found under each key, or what is complained about. -/
abbrev Findings : Type := Key → Outcome StoneError (Option Val)

/-- What `get` answers in an open store. -/
def findings (x : Store × Disk) : Findings := fun k => ((Store.get k).run x []).1

/-! ## Looking up -/

/-- What `get` finds in open segments. -/
def lookupIn (k : Key) : List SegmentReader → Except StoneError (Option Val)
  | [] => .ok none
  | r :: rs => do
    match ← r.getIn k with
    | some v => return v
    | none => lookupIn k rs

/-- What `get` finds. -/
def Store.lookup (s : Store) (k : Key) : Except StoneError (Option Val) :=
  match s.memtable.get k with
  | some v => .ok v
  | none => lookupIn k s.segments

section Lookup

variable {s : Store} {d : Disk} {k : Key} {r : SegmentReader} {readers : List SegmentReader}
  {rec : Record} {m : Memtable} {p : Path} {g : ℕ}

theorem Store.lookup_of_none (h : s.memtable.get k = none) : s.lookup k = lookupIn k s.segments := by
  rw [Store.lookup, h]

theorem Store.lookup_of_some {v : Option Val} (h : s.memtable.get k = some v) :
    s.lookup k = .ok v := by
  rw [Store.lookup, h]

theorem searchSegments_run : ∀ rs : List SegmentReader,
    (Store.searchSegments k rs).run d [] = (.ofExcept (lookupIn k rs), d)
  | [] => rfl
  | r :: rs => by
    have hrest := searchSegments_run rs
    rw [lookupIn]
    rcases hr : r.getIn k with e | _ | _ | v
    · exact run_bind_of_err (Fs.run_reads_error hr)
    · exact (run_bind_nil (Fs.run_reads hr)).trans hrest
    · exact run_bind_nil (Fs.run_reads hr)
    · exact run_bind_nil (Fs.run_reads hr)

/-- **Reading a key**, whatever the segments hold. -/
theorem get_run_lookup : (Store.get k).run (s, d) [] = (.ofExcept (s.lookup k), (s, d)) := by
  refine run_self_bind.trans ?_
  rw [Store.lookup]
  rcases s.memtable.get k with _ | _ | v
  · exact run_onSnd (searchSegments_run s.segments)
  · rfl
  · rfl

theorem findings_eq : findings (s, d) = fun k => .ofExcept (s.lookup k) :=
  funext fun _ => congrArg Prod.fst get_run_lookup

/-- A record in the memtable covers what the key had. -/
theorem lookup_applied (s : Store) (rec : Record) :
    (s.applied rec).lookup = Function.update s.lookup rec.key (.ok (toEntry rec).2) := by
  funext k
  have hget : (s.applied rec).memtable.get k = if k = rec.key then some (toEntry rec).2 else
      s.memtable.get k := by
    rw [Store.applied, applyRecord_eq_put, Memtable.get_put]
  rw [Function.update_apply, Store.lookup, hget]
  by_cases hk : k = rec.key
  · rw [if_pos hk, if_pos hk]
  · rw [if_neg hk, if_neg hk]
    rfl

/-- The segment of a memtable finds what the memtable has. -/
theorem lookupIn_readerOf (h : Storable m.iter) : lookupIn k (readerOf p g m.iter :: readers) =
    match m.get k with
    | some v => .ok v
    | none => lookupIn k readers := by
  rw [lookupIn, (h.sound p g).getIn, Memtable.lookup_iter, ok_bind]
  rcases m.get k with _ | v <;> rfl

end Lookup

/-! ## Directories and what is found in them -/

/-- What a store with these segments and log records finds. -/
def found (readers : List SegmentReader) (rs : List Record) : Findings := fun k =>
  .ofExcept ((loadedStore [] readers rs 0).lookup k)

/-- The directory has no marker, its segments can be opened, and its log is records and perhaps a torn
tail; and these give `F`. -/
def Gives (dir : Path) (D : Dir) (F : Findings) : Prop :=
  ∃ readers rs, Loads dir D readers ∧ D.marker = none ∧ LogHolds D.wal rs ∧ F = found readers rs

/-- The store is as `open` loads it from the directory, and finds `F`. -/
def Salvaged (dir : Path) (s : Store) (D : Dir) (F : Findings) : Prop :=
  ∃ readers rs t, s = loadedStore dir readers rs t ∧ Opened dir D readers rs ∧ F = found readers rs

/-- The open store finds `F`. -/
abbrev Finds (dir : Path) (F : Findings) (x : Store × Disk) : Prop :=
  Salvaged dir x.1 (dirOf dir x.2) F

section Found

variable {A : Fault → Prop} {dir : Path} {d d' : Disk} {s s' : Store} {D D' : Dir} {F : Findings}
  {readers : List SegmentReader} {rs rs' : List Record} {t : ℕ} {r : Record} {b : Bytes}
  {o : Outcome StoneError Unit} {big : Prop} {l : List Fault}

theorem findings_loadedStore : findings (loadedStore dir readers rs t, d) = found readers rs :=
  findings_eq

theorem Salvaged.findings_eq (h : Salvaged dir s D F) : findings (s, d) = F := by
  obtain ⟨readers, rs, t, rfl, -, rfl⟩ := h
  exact findings_loadedStore

theorem Salvaged.gives (h : Salvaged dir s D F) : Gives dir D F := by
  obtain ⟨readers, rs, t, -, h, rfl⟩ := h
  exact ⟨readers, rs, h.loads, h.marker, by rw [h.log]; exact logHolds_image h.valid, rfl⟩

/-- A log record more. -/
theorem found_concat : found readers (rs ++ [r.stored]) =
    Function.update (found readers rs) r.key (.ok (toEntry r).2) := by
  funext k
  have hstore : loadedStore [] readers (rs ++ [r.stored]) 0 =
      (loadedStore [] readers rs 0).applied r := by
    rw [loadedStore, memtableOf_append, applyRecord_stored]
    rfl
  rw [found, hstore, lookup_applied, Function.update_apply, Function.update_apply]
  by_cases hk : k = r.key
  · rw [if_pos hk, if_pos hk]
    rfl
  · rw [if_neg hk, if_neg hk]
    rfl

/-- The memtable as a segment, with its records in the log or not. -/
theorem found_flushed {p : Path} {g : ℕ} (h : Storable (memtableOf rs).iter)
    (hrs' : rs' = rs ∨ rs' = []) :
    found (readerOf p g (memtableOf rs).iter :: readers) rs' = found readers rs := by
  funext k
  have hnew : lookupIn k (readerOf p g (memtableOf rs).iter :: readers) = _ := lookupIn_readerOf h
  have hnone : (memtableOf []).get k = none := Memtable.get_new
  unfold found Store.lookup loadedStore
  dsimp only
  rw [hnew]
  rcases hrs' with rfl | rfl
  · rcases (memtableOf rs').get k with _ | v <;> rfl
  · rw [hnone]

/-- **Opening** what gives `F`. -/
theorem Gives.opensWith (h : Gives dir (dirOf dir d) F) : OpensWith dir (Finds dir F) d := fun t => by
  obtain ⟨readers, rs, hloads, hmarker, hlog, rfl⟩ := h
  obtain ⟨ho, hd⟩ := run_nil_of_wp (Q := fun o d' => o = .ok (loadedStore dir readers rs t) ∧
      dirOf dir d' = (dirOf dir d).setWal (some (logImage rs)))
    (wp_openRecovered (fun hok hcr => wp_recoverPendingCompaction_unmarked hmarker reliable_noFault hok
      (hcr _ (.inl rfl))) hloads hlog reliable_noFault (fun d' hd' => .inr ⟨rfl, hd'⟩) (.inl rfl)
      fun _ _ _ _ => .inl rfl)
  refine ⟨_, _, Prod.ext ho rfl, readers, rs, t, rfl, ?_, rfl⟩
  rw [hd]
  exact ⟨hloads.setWal _, hmarker, hlog.valid, rfl⟩

/-- What was opened finds what it finds. -/
theorem finds_of_open (h : (Store.openWithThreshold dir t).run d [] = (.ok s, d')) :
    Finds dir (findings (s, d')) (s, d') := by
  obtain ⟨readers, rs, -, -, -, -, rfl, hopened⟩ := open_run_eq_ok h
  exact ⟨readers, rs, t, rfl, hopened, findings_loadedStore⟩

/-- **A flush**, however it ends. -/
theorem FlushStep.salvaged (hs : FlushStep A s D o s' D') (h : Salvaged dir s D F) (hb : D'.Bounded)
    (hbelow : D'.Below) : (o = .ok () ∧ Salvaged dir s' D' F) ∨ CutShort o ∧ Gives dir D' F := by
  have hgiven := h.gives
  obtain ⟨readers, rs, t, rfl, h, rfl⟩ := h
  have hstor : ∀ {v}, D'.files (loadedStore dir readers rs t).nextName = some v →
      v = segmentImage (memtableOf rs).iter → Storable (memtableOf rs).iter := fun hv hv' =>
    ⟨Memtable.ascending_iter, valid_memtableOf h.valid, by rw [← hv']; exact hb _ _ hv⟩
  have hput : ∀ (rs' : List Record) {X}, X = (D.put (loadedStore dir readers rs t).nextName
      (some (segmentImage (memtableOf rs).iter))).setWal (some (logImage rs')) → D' = X →
      nextAfter readers + 1 < u64Size → rs' = rs ∨ rs' = [] →
      Salvaged dir (loadedStore dir ((loadedStore dir readers rs t).nextReader (memtableOf rs).iter ::
        readers) rs' t) D' (found readers rs) := fun rs' X hX hD' hlt hrs' => by
    have hstor := hstor (by rw [hD', hX, Dir.files_setWal, Dir.files_put_self]) rfl
    have hvalid : ∀ r ∈ rs', r.Valid := by
      rcases hrs' with rfl | rfl
      · exact h.valid
      · exact List.forall_mem_nil _
    exact ⟨_, rs', t, rfl, h.put_next hlt hstor hvalid (hD'.trans hX), (found_flushed hstor hrs').symm⟩
  cases hs with
  | empty _ => exact .inl ⟨rfl, readers, rs, t, rfl, h, rfl⟩
  | @aborted _ v ho hv hne =>
    refine .inr ⟨ho.cutShort, ?_⟩
    have hnone : v = none → Gives dir (D.put (loadedStore dir readers rs t).nextName v)
        (found readers rs) := fun hv => by
      rw [hv, h.put_next_none]
      exact hgiven
    rcases hv with hv | hv | rfl
    · exact hnone (hv.trans h.next_none)
    · exact hnone hv
    · have hlt : nextAfter readers + 1 < u64Size := by
        have hle := h.loads.nextAfter_lt
        by_contra hge
        have hlast : nextAfter readers + 1 = u64Size := by omega
        exact not_below_of_next (s := loadedStore dir readers rs t) hlast
          (Dir.files_put_self _) hbelow
      exact (hput rs rfl h.put_setWal hlt (.inl rfl)).gives
  | exhausted hlast _ =>
    exact absurd hbelow (not_below_of_next hlast (Dir.files_put_self _))
  | installed ho hw hlt hne =>
    refine .inr ⟨ho.cutShort, ?_⟩
    rcases hw with rfl | rfl
    · refine (hput rs rfl ?_ hlt (.inl rfl)).gives
      rw [h.log]
      rfl
    · exact (hput [] rfl rfl hlt (.inr rfl)).gives
  | done hlt hne => exact .inl ⟨rfl, hput [] rfl rfl hlt (.inr rfl)⟩

/-- A record in the log and in the memtable. -/
theorem Salvaged.logged {old : Bytes} (h : Salvaged dir s D F) (hold : D.wal = some old)
    (hb : r.encode = .ok b) : Salvaged dir (s.applied r) (D.setWal (some (old ++ b)))
      (Function.update F r.key (.ok (toEntry r).2)) := by
  obtain ⟨readers, rs, t, rfl, h, rfl⟩ := h
  obtain rfl : old = logImage rs := Option.some_inj.mp (hold.symm.trans h.log)
  refine ⟨readers, rs ++ [r.stored], t, ?_, ⟨h.loads.setWal _, h.marker, valid_logged h.valid hb, ?_⟩,
    found_concat.symm⟩
  · rw [loadedStore, loadedStore, memtableOf_append, applyRecord_stored]
    rfl
  · rw [logImage_logged hb]
    rfl

/-- A record that may be in the log, in part or whole. -/
theorem Salvaged.gives_cut {old : Bytes} (h : Salvaged dir s D F) (hold : D.wal = some old)
    (hb : r.encode = .ok b) (n : ℕ) : Gives dir (D.setWal (some (old ++ b.take n))) F ∨
      Gives dir (D.setWal (some (old ++ b.take n))) (Function.update F r.key (.ok (toEntry r).2)) := by
  have himg : b = r.stored.image := by rw [r.image_stored, (Record.encode_eq_ok hb).2.2]
  rcases torn_or_image (Record.valid_stored hb) n with ht | ht <;> rw [← himg] at ht
  · obtain ⟨readers, rs, t, rfl, h, rfl⟩ := h
    obtain rfl : old = logImage rs := Option.some_inj.mp (hold.symm.trans h.log)
    exact .inl ⟨readers, rs, h.loads.setWal _, h.marker, ⟨h.valid, .inr ⟨_, ht, rfl⟩⟩, rfl⟩
  · rw [ht]
    exact .inr (h.logged hold hb).gives

/-- **A write** whose record encodes, however it ends. -/
theorem LogStep.salvaged (hs : LogStep A s D r o s' D') (h : Salvaged dir s D F) (hb : r.encode = .ok b)
    (hbounded : D'.Bounded) (hbelow : D'.Below) :
    (o = .ok () ∧ Salvaged dir s' D' (Function.update F r.key (.ok (toEntry r).2))) ∨
      CutShort o ∧ (Gives dir D' F ∨
        Gives dir D' (Function.update F r.key (.ok (toEntry r).2))) := by
  cases hs with
  | unlogged happend ho =>
    cases happend with
    | rejected he =>
      rw [hb] at he
      cases he
    | cut hold hb' ho => exact .inr ⟨ho.cutShort, h.gives_cut hold hb' _⟩
    | done _ _ => exact absurd rfl ho
  | logged happend happlied =>
    cases happend with
    | cut _ _ ho => exact absurd rfl ho.ne_ok
    | done hold hb' =>
      have h₁ := h.logged hold hb'
      cases happlied with
      | kept _ => exact .inl ⟨rfl, h₁⟩
      | flushed _ hflush =>
        exact (hflush.salvaged h₁ hbounded hbelow).imp_right fun ⟨hcut, hgives⟩ => ⟨hcut, .inr hgives⟩

theorem Salvaged.writable (h : Salvaged dir s D F) : Writable dir s D := by
  obtain ⟨readers, rs, t, rfl, h, -⟩ := h
  exact ⟨rfl, rfl, by rw [h.log]; rfl, valid_memtableOf h.valid, h.loads.nextAfter_lt⟩

end Found

/-! ## Methods -/

namespace Query

/-- What is to become of what is found. -/
def update : Query → Findings → Findings
  | .set key val, F => Function.update F key (.ok (some val))
  | .delete key, F => Function.update F key (.ok none)
  | .get _, F | .compact, F | .stats, F | .verify, F => F

/-- The answer of a store that finds `F`. -/
def Found (q : Query) (F : Findings) (a : Answer) : Prop :=
  match q with
  | .set _ _ | .delete _ => a = .done
  | .get key => ∃ v, F key = .ok v ∧ a = .value v
  | .compact => False
  | .stats => ∃ stats, a = .counted stats
  | .verify => ∃ stats, a = .verified stats

/-- What a method may complain of: a key or a value that is too large, what is found under the key, and
anything that is found in checking it all. -/
def Complains (q : Query) (F : Findings) (e : StoneError) : Prop :=
  match q with
  | .set _ _ | .delete _ =>
    ¬ q.Fits ∧ ∃ field len, Record.MAX_FIELD_LEN < len ∧ e = .recordTooLarge field len
  | .get key => F key = .err e
  | .verify => True
  | .compact | .stats => False

/-- How a method of a store that finds `F` may end. -/
inductive Reports (F : Findings) (q : Query) : Outcome StoneError Answer → Findings → Prop
  | answered {a : Answer} : q.Found F a → Reports F q (.ok a) (q.update F)
  | complained {e : StoneError} : q.Complains F e → Reports F q (.err e) F

end Query

/-- The store as a map over what was there. -/
def salvageContract : Contract Findings := ⟨Query.update, Query.Reports⟩

section Asks

variable {dir : Path} {s : Store} {d : Disk} {x : Store × Disk} {F : Findings} {l : List Fault}
  {q : Query} {c : Call} {r : Record} {o : Outcome StoneError Answer}

/-- **A write under failures.** -/
theorem Salvaged.ask_write (h : Finds dir F (s, d)) (hl : .deny ∉ l) (hr : c.record = some r)
    (hfits : c.Fits) (hq : q.method = c.method >>= fun _ => pure .done)
    (hupdate : q.update F = Function.update F r.key (.ok (toEntry r).2)) (hdone : q.Found F .done)
    (hrun : q.method.run (s, d) l = (o, x)) (hbelow : (dirOf dir x.2).Below) :
    salvageContract.Asked dir (Finds dir) F q o x := by
  have hx : (c.method.run (s, d) l).2 = x := by
    rw [hq, run_bind_pure] at hrun
    exact congrArg Prod.snd hrun
  have hstep : LogStep (· ≠ .deny) s (dirOf dir d) r (c.method.run (s, d) l).1 x.1 (dirOf dir x.2) := by
    refine wp.run_eq (wp_logged h.writable) (fun e he (hd : e = .deny) => hl (hd ▸ he)) ?_
    rw [← Call.method_of_record hr, ← hx]
  have hend := hstep.salvaged h (Record.encode_eq (hfits r hr).1 (hfits r hr).2) bounded_dirOf hbelow
  rw [← hupdate] at hend
  refine Contract.asked_write hq hrun (fun _ => .answered hdone) ?_
  rw [show (c.method.run (s, d) l).1.void = (c.method.run (s, d) l).1 from
    (congrArg Prod.fst void_run_eq).symm]
  exact hend.imp_right fun ⟨hcut, hgives⟩ => ⟨hcut, hgives.imp Gives.opensWith Gives.opensWith⟩

/-- **A method under failures.** -/
theorem Salvaged.ask (h : Finds dir F (s, d)) (hnot : q ≠ .compact) (hl : .deny ∉ l)
    (hrun : q.method.run (s, d) l = (o, x)) (hbelow : (dirOf dir x.2).Below) :
    salvageContract.Asked dir (Finds dir) F q o x := by
  have hopens : OpensWith dir (Finds dir F) d := Gives.opensWith (Salvaged.gives h)
  cases q with
  | set key val =>
    by_cases hfits : (Call.set key val).Fits
    · exact h.ask_write (c := .set key val) hl rfl hfits rfl rfl rfl hrun hbelow
    · exact Contract.asked_tooLarge hfits rfl hrun h hopens fun field len hlen =>
        .complained ⟨fun h => hfits (Query.fits_set.mpr h), field, len, hlen, rfl⟩
  | delete key =>
    by_cases hfits : (Call.delete key).Fits
    · exact h.ask_write (c := .delete key) hl rfl hfits rfl rfl rfl hrun hbelow
    · exact Contract.asked_tooLarge hfits rfl hrun h hopens fun field len hlen =>
        .complained ⟨fun h => hfits (Query.fits_delete.mpr h), field, len, hlen, rfl⟩
  | get key =>
    have hsame : wp AnyFault (Store.get key) (fun _ x => x = (s, d)) (s, d) := wp_get_same
    refine Contract.asked_read rfl hrun (hsame.run fun _ _ => trivial) h hopens ?_
    refine (cut_or_nil steady_storeGet hl).imp_right fun hnil => ?_
    have hfound : F key = ((Store.get key).run (s, d) l).1 := by
      rw [← hnil, ← Salvaged.findings_eq h]
      rfl
    rcases ho : ((Store.get key).run (s, d) l).1 with v | e | _ <;> rw [ho] at hfound
    · exact .answered ⟨v, hfound, rfl⟩
    · exact .complained hfound
    · exact absurd (hnil.trans ho) run_nil_ne_crash
  | compact => exact absurd rfl hnot
  | stats =>
    have hsame : wp AnyFault Store.stats (fun o x => x = (s, d) ∧ ∀ e, o ≠ .err e) (s, d) :=
      wp_stats_same
    have hstats := hsame.run (l := l) fun _ _ => trivial
    refine Contract.asked_read rfl hrun hstats.1 h hopens ?_
    rcases ho : (Store.stats.run (s, d) l).1 with stats | e | _
    · exact .inr (.answered ⟨stats, rfl⟩)
    · exact absurd ho (hstats.2 e)
    · exact .inl (.inl rfl)
  | verify =>
    obtain ⟨readers, rs, t, hs, hopened, -⟩ := id h
    have hlog : d.read s.wal.path = some (logImage rs) := by
      rw [show s.wal.path = walPathOf dir from congrArg (fun s => s.wal.path) hs, ← dirOf_wal]
      exact hopened.log
    have hsame : wp AnyFault Store.verify (fun _ x => x = (s, d)) (s, d) :=
      wp_verify_same hlog hopened.valid
    refine Contract.asked_read rfl hrun (hsame.run fun _ _ => trivial) h hopens ?_
    rcases ho : (Store.verify.run (s, d) l).1 with stats | e | _
    · exact .inr (.answered ⟨stats, rfl⟩)
    · exact .inr (.complained trivial)
    · exact .inl (.inl rfl)

end Asks

/-! ## Runs from any disk that opens -/

section Runs

variable {dir : Path} {d₀ d₁ d : Disk} {s₀ : Store} {t : ℕ} {rs : List Report} {x : Option Store}

/-- What is found does not depend on the threshold. -/
theorem opensWith_of_open (h : (Store.openWithThreshold dir t).run d₀ [] = (.ok s₀, d₁)) :
    OpensWith dir (Finds dir (findings (s₀, d₁))) d₀ := fun t' => by
  have horder := inOrder_of_run h
  obtain ⟨readers, recs, hlen, hloads, hlog, hrun⟩ := horder.run_open t
  obtain ⟨readers', recs', hlen', hloads', hlog', hrun'⟩ := horder.run_open t'
  obtain rfl : readers = readers' := hloads.unique hloads'
  obtain rfl : recs = recs' := hlog.unique hlog'
  rw [h] at hrun
  cases hrun
  refine ⟨_, _, hrun', ?_⟩
  have hfinds := finds_of_open hrun'
  rw [findings_loadedStore] at hfinds ⊢
  exact hfinds

/-- **Writes hold on any disk.** Take any disk on which a store opens, whatever its segments hold. As
long as it is not compacted, and a store in which an I/O call failed is not used again: however calls
fail and processes die, what was reported adds up from what was found at first. A key that was not
written gives the answer or the complaint that it gave; one that was written since gives what was
acknowledged last; and the store can always be opened again, to just that. -/
theorem writes_hold_on_any_disk
    (hopen : (Store.openWithThreshold dir t).run d₀ [] = (.ok s₀, d₁))
    (h : FailStop dir (fun d => d = d₀) (fun q => q ≠ .compact) rs x d) :
    ∃ F, Account salvageContract (findings (s₀, d₁)) rs F ∧
      (∀ s, x = some s → findings (s, d) = F) ∧
      ∀ t g, ∀ hg : ∀ l, (g l).Perm l, ∃ s d',
        (Store.openWithThreshold dir t).run (d.reorder g hg) [] = (.ok s, d') ∧
          findings (s, d') = F := by
  obtain ⟨F, haccount, hopens, hfinds⟩ := h.keeps (K := salvageContract) (P := Finds dir)
    (fun _ hd => hd ▸ opensWith_of_open hopen) (fun _ _ _ h => Gives.opensWith (Salvaged.gives h))
    (fun _ _ _ _ _ h => h) fun _ _ _ _ _ _ _ h hq => Salvaged.ask h hq
  refine ⟨F, haccount, fun s hs => Salvaged.findings_eq (hfinds s hs), fun t g hg => ?_⟩
  obtain ⟨s, d', hrun, hfound⟩ := hopens t
  exact ⟨s, _, open_run_reorder hrun, Salvaged.findings_eq (d := d'.reorder g hg) hfound⟩

/-- `twoSegments` with a byte of the value of `a` changed in its segment. -/
def wornDisk : Disk :=
  twoSegments.2.put (segmentPath (segmentsDirOf [['d']]) 1)
    ((segmentImage [([97], some [49])]).set 15 0) (by decide +kernel)

/-- The store that is opened there. -/
def wornStore : Store × Disk :=
  let x := (Store.openWithThreshold [['d']] 1).run wornDisk []
  ((openedStore x.1).getD eagerStore, x.2)

theorem open_wornDisk :
    (Store.openWithThreshold [['d']] 1).run wornDisk [] = (.ok wornStore.1, wornStore.2) := by
  have hsome : (openedStore ((Store.openWithThreshold [['d']] 1).run wornDisk []).1).isSome := by
    decide +kernel
  refine Prod.ext ?_ rfl
  unfold wornStore
  generalize (Store.openWithThreshold [['d']] 1).run wornDisk [] = x at hsome ⊢
  rcases x with ⟨s | _ | _, d⟩
  · rfl
  · cases hsome
  · cases hsome

/-- The key is read, written, and read again. -/
def wornRead : Outcome StoneError Answer × Store × Disk := (Query.get [97]).method.run wornStore []

def healed : Outcome StoneError Answer × Store × Disk :=
  (Query.set [97] [51]).method.run (wornRead.2.1, wornRead.2.2) []

def healedRead : Outcome StoneError Answer × Store × Disk :=
  (Query.get [97]).method.run (healed.2.1, healed.2.2) []

theorem writes_hold_on_any_disk_damaged : ∃ F,
    Account salvageContract (findings wornStore) [.opened (.ok ()),
      .asked (.get [97]) (.err (.checksumMismatch 0x2b532fa7 0x7a8d2f9d)),
      .asked (.set [97] [51]) (.ok .done), .asked (.get [97]) (.ok (.value (some [51])))] F ∧
    (∀ s, some healedRead.2.1 = some s → findings (s, healedRead.2.2) = F) ∧
    ∀ t g, ∀ hg : ∀ l, (g l).Perm l, ∃ s d',
      (Store.openWithThreshold [['d']] t).run (healedRead.2.2.reorder g hg) [] = (.ok s, d') ∧
        findings (s, d') = F := by
  have hstart : FailStop [['d']] (fun d => d = wornDisk) (fun q => q ≠ .compact) [] none
      wornDisk := .start rfl
  have hfirst := hstart.opened (o := .ok wornStore.1) (t := 1) (g := id) (h := fun l => .refl l)
    (l := []) List.not_mem_nil open_wornDisk
  have hread : wornRead.1 = .err (.checksumMismatch 0x2b532fa7 0x7a8d2f9d) := by decide +kernel
  have hwrite : healed.1 = .ok .done := by decide +kernel
  have hagain : healedRead.1 = .ok (.value (some [51])) := by decide +kernel
  have hsecond := hfirst.ask (q := .get [97]) (l := []) (y := wornRead) nofun List.not_mem_nil rfl hread
    (by decide +kernel)
  have hthird := hsecond.ask (q := .set [97] [51]) (l := []) (y := healed) nofun List.not_mem_nil rfl
    hwrite (by decide +kernel)
  have hfourth := hthird.ask (q := .get [97]) (l := []) (y := healedRead) nofun List.not_mem_nil rfl
    hagain (by decide +kernel)
  exact writes_hold_on_any_disk open_wornDisk hfourth

end Runs

end StoneKV
