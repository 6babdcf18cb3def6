import StoneKV.Runs

/-!
# The markers that are read

* `Dir.MarkerRead`: the marker in the directory, if there is one, is the text of a valid one.
* `Standing`: an open store serves its directory, or is stuck with no generation left;
  **`Standing.call`**: it stays so in every call, whatever fails.
* `Reached`: all that can be reached from an empty directory, whatever fails; **`Reached.standing`**.
* **`marker_round_trip`**: a marker that is written is read back, and whatever is reached, the marker
  that `compact` writes next is valid and the one that is there is read.
-/

namespace StoneKV

open FaultProg

/-- The marker, if there is one, is the text of a valid one. -/
def Dir.MarkerRead (D : Dir) : Prop :=
  ∀ b, D.marker = some b → ∃ m : CompactionMarker, m.Valid ∧ b = utf8 (markerText m)

/-- The segments are sane and the marker can be read. -/
structure Dir.Readable (D : Dir) : Prop where
  sane : D.Sane
  marker : D.MarkerRead

section Directory

variable {A : Fault → Prop} {dir : Path} {s s' : Store} {D D' : Dir} {L : List (List Entry)}
  {es : List Entry} {c : Call} {o : Outcome StoneError Unit} {r : Record}

theorem Dir.MarkerRead.congr (h : D.MarkerRead) (hD : D'.marker = D.marker) : D'.MarkerRead :=
  fun b hb => h b (hD.symm.trans hb)

theorem markerRead_of_none (h : D.marker = none) : D.MarkerRead := fun b hb => by
  rw [h] at hb
  cases hb

theorem openKeeps_readable : OpenKeeps Dir.Readable where
  sane := Dir.Readable.sane
  within h hD := by
    refine ⟨h.sane.anti hD.files, ?_⟩
    rcases hD.files COMPACTION_MARKER_FILE with hn | hn
    · exact h.marker.congr hn
    · exact markerRead_of_none hn
  setWal _ h := ⟨h.sane, h.marker⟩

theorem markerRead_put (h : Served dir s D L) (hlen : 2 ≤ s.segments.length) {μ : Option Bytes}
    (hμ : μ = none ∨ μ = some s.nextMarkerText) : (D'.put COMPACTION_MARKER_FILE μ).MarkerRead := by
  intro b hb
  rw [Dir.marker, Dir.files_put_self] at hb
  rcases hμ with rfl | rfl <;> cases hb
  exact ⟨_, h.nextMarker_valid hlen, rfl⟩

theorem MergeStep.markerRead (hs : MergeStep A s D es o s' D') (h : Served dir s D L)
    (hlen : 2 ≤ s.segments.length) (hm : D.MarkerRead) : D'.MarkerRead := by
  cases hs with
  | refused _ _ => exact hm
  | failed _ => exact hm
  | aborted _ _ hμ _ => exact markerRead_put h hlen hμ
  | exhausted _ _ => exact markerRead_put h hlen (.inr rfl)
  | @installed _ olds _ _ hpre _ =>
    have hread : (D.replacing s es).MarkerRead := markerRead_put h hlen (.inr rfl)
    refine hread.congr ?_
    rw [Dir.marker, Dir.files_drop, if_neg fun hm => h.marker_not_mem (hpre.subset hm)]
    rfl
  | done _ _ => exact markerRead_put h hlen (.inl rfl)

theorem CompactStep.markerRead (hs : CompactStep A s D L o s' D') (h : Served dir s D L)
    (hm : D.MarkerRead) : D'.MarkerRead := by
  cases hs with
  | unflushed hflush _ => exact hm.congr hflush.marker
  | short hflush _ _ => exact hm.congr hflush.marker
  | merging hflush hb hlen hmerge =>
    exact hmerge.markerRead (hflush.served_of_ok h hb).1 hlen (hm.congr hflush.marker)

theorem LogStep.marker (hs : LogStep A s D r o s' D') : D'.marker = D.marker := by
  have happend : ∀ {o D'}, AppendStep A D r o D' → D'.marker = D.marker := fun ha => by
    rw [Dir.marker, ha.files]
    rfl
  cases hs with
  | unlogged ha _ => exact happend ha
  | logged ha hs =>
    cases hs with
    | kept _ => exact happend ha
    | flushed _ hflush => exact hflush.marker.trans (happend ha)

/-- **A call keeps the directory readable.** -/
theorem CallStep.readable (hs : CallStep A s D L c o s' D') (h : Served dir s D L) (hb : D'.Bounded)
    (hD : D.Readable) : D'.Readable := by
  refine ⟨hs.sane h hb hD.sane, ?_⟩
  cases c with
  | set _ _ => exact hD.marker.congr (LogStep.marker hs)
  | delete _ => exact hD.marker.congr (LogStep.marker hs)
  | get _ =>
    obtain ⟨-, rfl⟩ := hs
    exact hD.marker
  | compact => exact CompactStep.markerRead hs h hD.marker

end Directory

/-! ## Stores in every state -/

/-- The store serves segments of its directory, or no generation is left for its memtable. -/
def Standing (dir : Path) (s : Store) (D : Dir) : Prop := (∃ L, Served dir s D L) ∨ Stuck dir s D

section Standing

variable {A : Fault → Prop} {dir : Path} {s s' : Store} {D D' : Dir} {d : Disk} {L : List (List Entry)}
  {c : Call} {o : Outcome StoneError Unit} {r : Record}

theorem FlushStep.standing (hs : FlushStep A s D o s' D') (h : Served dir s D L) (hb : D'.Bounded) :
    Standing dir s' D' := by
  rcases hs.served_or_stuck h hb with ⟨L', hL', -⟩ | ⟨hstuck, -⟩
  · exact .inl ⟨L', hL'⟩
  · exact .inr hstuck

theorem LogStep.standing (hs : LogStep A s D r o s' D') (h : Served dir s D L) (hb : D'.Bounded) :
    Standing dir s' D' := by
  cases hs with
  | unlogged ha _ => exact .inl ⟨L, ha.served h⟩
  | logged ha hs =>
    cases hs with
    | kept _ => exact .inl ⟨L, ha.served_applied h⟩
    | flushed _ hflush => exact hflush.standing (ha.served_applied h) hb

theorem CallStep.standing (hs : CallStep A s D L c o s' D') (h : Served dir s D L) (hb : D'.Bounded) :
    Standing dir s' D' := by
  cases c with
  | set _ _ => exact LogStep.standing hs h hb
  | delete _ => exact LogStep.standing hs h hb
  | get _ =>
    obtain ⟨rfl, rfl⟩ := hs
    exact .inl ⟨L, h⟩
  | compact =>
    cases hs with
    | unflushed hflush _ => exact hflush.standing h hb
    | short hflush _ _ => exact hflush.standing h hb
    | merging hflush hb₁ _ hmerge =>
      obtain ⟨L', hL', -⟩ := hmerge.served (hflush.served_of_ok h hb₁).1 hb
      exact .inl ⟨L', hL'⟩

/-! ### Stores that are stuck -/

theorem not_isEmpty_applyRecord {m : Memtable} : ¬ (applyRecord m r).isEmpty := by
  rw [Memtable.isEmpty_iff]
  intro h
  have := h r.key
  rw [applyRecord_eq_put, Memtable.get_put, if_pos rfl] at this
  cases this

theorem LogStep.stuck (hs : LogStep A s D r o s' D') (h : Stuck dir s D) : Stuck dir s' D' := by
  cases hs with
  | unlogged ha _ => exact ⟨ha.writable h.writable, h.last, h.holds⟩
  | logged ha hs =>
    have happlied : Stuck dir (s.applied r) _ :=
      ⟨ha.writable_applied h.writable, h.last, not_isEmpty_applyRecord⟩
    cases hs with
    | kept _ => exact happlied
    | flushed _ hflush => exact (hflush.stuck happlied).1

/-- A store that is stuck compacts nothing. -/
theorem wp_compact_stuck (h : Stuck dir s (dirOf dir d)) : wp A Store.compact
    (fun o x => FlushStep A s (dirOf dir d) o.void x.1 (dirOf dir x.2)) (s, d) := by
  refine wp_bind (wp_self ?_)
  dsimp only [Outcome.andThen]
  rw [if_pos h.holds]
  refine FaultProg.wp.bind (wp_flushMemtable h.writable) ?_ (fun _ _ hs => hs) fun _ hs => hs
  exact fun _ x hs => absurd rfl (hs.stuck h).2

/-- A call on a store that is stuck. -/
theorem wp_call_stuck (h : Stuck dir s (dirOf dir d)) (hD : (dirOf dir d).Readable) (c : Call) :
    wp A c.method (fun _ x => Stuck dir x.1 (dirOf dir x.2) ∧ (dirOf dir x.2).Readable)
      (s, d) := by
  have hlog : ∀ r, wp A (Store.logged r fun m => applyRecord m r)
      (fun _ x => Stuck dir x.1 (dirOf dir x.2) ∧ (dirOf dir x.2).Readable) (s, d) := fun r =>
    (wp_logged h.writable).mono fun _ _ hs => ⟨hs.stuck h,
      hs.sane h.writable bounded_dirOf hD.sane, hD.marker.congr hs.marker⟩
  cases c with
  | set key val => exact hlog _
  | delete key => exact hlog _
  | get key =>
    refine wp_void (wp_get_same.mono fun o x hx => ?_)
    rw [hx]
    exact ⟨h, hD⟩
  | compact =>
    exact wp_void ((wp_compact_stuck h).mono fun _ _ hs => ⟨(hs.stuck h).1,
      hs.sane h.writable bounded_dirOf hD.sane, hD.marker.congr hs.marker⟩)

/-- **One call**, whatever fails. -/
theorem Standing.call (h : Standing dir s (dirOf dir d)) (hD : (dirOf dir d).Readable) (c : Call) :
    wp A c.method (fun _ x => Standing dir x.1 (dirOf dir x.2) ∧ (dirOf dir x.2).Readable)
      (s, d) := by
  rcases h with ⟨L, hL⟩ | h
  · exact (wp_call hL c).mono fun _ _ hs => ⟨hs.standing hL bounded_dirOf,
      hs.readable hL bounded_dirOf hD⟩
  · exact (wp_call_stuck h hD c).mono fun _ _ hx => ⟨.inr hx.1, hx.2⟩

/-- The store that a flush leaves when it returns. -/
theorem Standing.flush_run (h : Standing dir s (dirOf dir d)) {l : List Fault} {x : Store × Disk}
    (hrun : Store.flushMemtable.run (s, d) l = (.ok (), x)) :
    ∃ L, Served dir x.1 (dirOf dir x.2) L := by
  have hl : ∀ f ∈ l, AnyFault f := fun _ _ => trivial
  rcases h with ⟨L, hL⟩ | h
  · have hs := (wp_flushMemtable hL.writable).run_eq hl hrun
    exact ⟨_, (hs.served_of_ok hL bounded_dirOf).1⟩
  · have hs := (wp_flushMemtable h.writable).run_eq hl hrun
    exact absurd rfl (hs.stuck h).2

end Standing

/-! ## All that is reached -/

/-- What can be reached from an empty directory, whatever fails and however often the process dies:
the open store, if there is one, and the disk. The files are listed in any order. -/
inductive Reached (dir : Path) : Option Store → Disk → Prop
  | fresh {d : Disk} : Fresh dir d → Reached dir none d
  | opened {x : Option Store} {d d' : Disk} {t : ℕ} {f : List Name → List Name}
    {h : ∀ l, (f l).Perm l} {l : List Fault} {o : Outcome StoneError Store} : Reached dir x d →
    (Store.openWithThreshold dir t).run (d.reorder f h) l = (o, d') → Reached dir (openedStore o) d'
  | called {s s' : Store} {d d' : Disk} {c : Call} {l : List Fault} {o : Outcome StoneError Unit} :
    Reached dir (some s) d → c.method.run (s, d) l = (o, (s', d')) → Reached dir (leftStore s' o) d'

/-- **What is reached.** -/
theorem Reached.standing {dir : Path} {x : Option Store} {d : Disk} (h : Reached dir x d) :
    (dirOf dir d).Readable ∧ ∀ s, x = some s → Standing dir s (dirOf dir d) := by
  induction h with
  | fresh hd => exact ⟨⟨hd.usable.sane, markerRead_of_none (hd.files _)⟩, nofun⟩
  | @opened _ d _ _ f h l o _ hrun ih =>
    have hlisted : (dirOf dir (d.reorder f h)).Readable := ih.1
    obtain ⟨hread, hserved⟩ := (wp_openWithThreshold_keeps (A := AnyFault) openKeeps_readable
      hlisted).run_eq (fun _ _ => trivial) hrun
    refine ⟨hread, fun s hs => .inl (hserved s ?_)⟩
    rcases o with s' | _ | _ <;> cases hs
    rfl
  | @called s s' _ d' c l o _ hrun ih =>
    obtain ⟨hstanding, hread⟩ := ((ih.2 s rfl).call (A := AnyFault) ih.1 c).run_eq
      (fun _ _ => trivial) hrun
    refine ⟨hread, fun s'' hs => ?_⟩
    rcases o with _ | _ | _ <;> cases hs <;> exact hstanding

section RoundTrip

variable {sd : Path} {d d' : Disk} {m : CompactionMarker} {l : List Fault}

theorem readCompactionMarker_run (h : m.Valid)
    (hd : d.read (markerPath sd) = some (utf8 (markerText m))) :
    (readCompactionMarker (markerPath sd)).run d [] = (.ok m, d) := by
  have hparse := parseMarkerBytes_text h (markerPath sd)
  refine (Prog.run_bind_nil (Fs.run_readFile hd)).trans ?_
  rw [hparse]
  rfl

/-- What is written is read, whatever faults the writing met. -/
theorem read_written_marker (h : m.Valid)
    (hrun : (writeCompactionMarker sd m.outputGeneration m.oldGenerations).run d l = (.ok (), d')) :
    (readCompactionMarker (markerPath sd)).run d' [] = (.ok m, d') := by
  refine readCompactionMarker_run h ?_
  have hwp : wp AnyFault (writeCompactionMarker sd m.outputGeneration m.oldGenerations)
      (fun o d' => o = .ok () → d'.read (markerPath sd) = some (utf8 (markerText m))) d := by
    refine wp_writeCompactionMarker rfl rfl (fun _ => nofun) (fun _ d' hd' _ => ?_)
      (fun _ _ _ _ _ => nofun) fun _ _ => nofun
    have hne : markerPath sd ≠ markerTempPath sd := append_singleton_inj.not.mpr (by decide)
    exact (hd' _ hne).trans (if_pos rfl)
  exact hwp.run_eq (fun _ _ => trivial) hrun rfl

theorem write_marker_run (hd : d.read (markerPath sd) = none)
    (hlen : (utf8 (markerText m)).length ≤ maxFileLen) :
    ∃ d', (writeCompactionMarker sd m.outputGeneration m.oldGenerations).run d [] =
      (.ok (), d') := by
  have hwp : wp NoFault (writeCompactionMarker sd m.outputGeneration m.oldGenerations)
      (fun o _ => o = .crash ∨ o = .ok ()) d := by
    refine wp_writeCompactionMarker rfl rfl (fun hs => ?_) (fun _ _ _ => .inr rfl)
      (fun _ i hi => ?_) fun _ _ => .inl rfl
    · have hnone : d.read (sd ++ [COMPACTION_MARKER_FILE]) = none := hd
      rw [hnone] at hs
      cases hs
    · rcases hi with ⟨-, hbig⟩ | ⟨n, hn⟩
      · omega
      · exact absurd hn (not_noFault_fail n)
  exact ⟨_, Prod.ext (run_nil_of_wp hwp) rfl⟩

end RoundTrip

/-- **The marker that is written is the marker that is read.** For all generations that a compaction
may name, reading gives what was written, in the same order; and writing succeeds when there is no
marker and its text fits into a file. In all that is reached from an empty directory, whatever fails
and however often the process dies, the marker that is there is read; and a store that `compact`
goes on to merge, after its flush, names such generations. -/
theorem marker_round_trip :
    (∀ (segmentsDir : Path) (m : CompactionMarker), m.Valid →
      (∀ d l d', (writeCompactionMarker segmentsDir m.outputGeneration m.oldGenerations).run d l =
          (.ok (), d') →
        (readCompactionMarker (markerPath segmentsDir)).run d' [] = (.ok m, d')) ∧
      ∀ d : Disk, d.read (markerPath segmentsDir) = none →
        (utf8 (markerText m)).length ≤ maxFileLen →
        ∃ d', (writeCompactionMarker segmentsDir m.outputGeneration m.oldGenerations).run d [] =
          (.ok (), d')) ∧
    ∀ dir x d, Reached dir x d →
      (∀ b, d.read (markerPath (segmentsDirOf dir)) = some b → ∃ m : CompactionMarker, m.Valid ∧
        (readCompactionMarker (markerPath (segmentsDirOf dir))).run d [] = (.ok m, d)) ∧
      ∀ s, x = some s → ∀ l x₁, Store.flushMemtable.run (s, d) l = (.ok (), x₁) →
        2 ≤ x₁.1.segments.length → x₁.1.nextMarker.Valid := by
  refine ⟨fun sd m hm => ⟨fun d l d' => read_written_marker hm, fun d => write_marker_run⟩,
    fun dir x d hx => ⟨fun b hb => ?_, fun s hs l x₁ hrun hlen => ?_⟩⟩
  · rw [← dirOf_marker] at hb
    obtain ⟨m, hm, rfl⟩ := hx.standing.1.marker b hb
    rw [dirOf_marker] at hb
    exact ⟨m, hm, readCompactionMarker_run hm hb⟩
  · obtain ⟨L, hL⟩ := (hx.standing.2 s hs).flush_run hrun
    exact hL.nextMarker_valid hlen

/-- On an empty disk the marker of two segments is written and read back. -/
theorem marker_round_trip_two : ∃ d',
    (writeCompactionMarker [] 3 [2, 1]).run Disk.empty [] = (.ok (), d') ∧
      (readCompactionMarker (markerPath [])).run d' [] = (.ok ⟨3, [2, 1]⟩, d') := by
  have hvalid : (CompactionMarker.mk 3 [2, 1]).Valid :=
    ⟨by decide, by decide, by decide, by decide⟩
  obtain ⟨hread, hwrite⟩ := marker_round_trip.1 [] ⟨3, [2, 1]⟩ hvalid
  obtain ⟨d', hd'⟩ := hwrite Disk.empty Disk.read_empty (by decide +kernel)
  exact ⟨d', hd', hread _ _ _ hd'⟩

end StoneKV
