import StoneKV.Reopening

/-!
# Stores that their directory backs

Calls that fail leave files behind: a segment under the name of the next one, a marker, segments that
were to be removed. What `open` would make of the directory is still what the store serves.

* `Backed dir s D gs L rs`: the store `s` lists the segments of the generations `gs` with the entries
  `L`, the log holds `rs`, and `Extra` lists what else may be in the directory `D`.
* **`Backed.resumes`**: opening the directory gives what the store serves.
* **`FlushStep.backed`**, **`MergeStep.backed`**: a flush or a compaction keeps this, however it ends,
  unless it writes the segment that a marker names, or passes a marker by.
-/

namespace StoneKV

open FaultProg Layers

/-! ## The segments of a store -/

section Readers

variable {dir : Path} {gs : List ℕ} {L : List (List Entry)} {g : ℕ} {es : List Entry} {D : Dir}

theorem Dir.Holds.cons (h : D.Holds gs L) (hg : g + 1 < u64Size) (hgs : ∀ x ∈ gs, x < g)
    (hstor : Storable es) (hfile : D.files (segmentFilename g) = some (segmentImage es)) :
    D.Holds (g :: gs) (es :: L) := by
  refine ⟨fun x hx => ?_, List.pairwise_cons.mpr ⟨hgs, h.decreasing⟩, .cons ⟨hstor, hfile⟩ h.images⟩
  rcases List.mem_cons.mp hx with rfl | hx
  · exact hg
  · exact h.lt x hx

end Readers

/-! ## Backed stores -/

/-- A segment with the entries `es` below the records `rs` and above the segments `L` changes
nothing. -/
def Covered (rs : List Record) (L : List (List Entry)) (es : List Entry) : Prop :=
  ∀ k, view (memtableOf rs) (es :: L) k = view (memtableOf rs) L k

/-- The entries `es` show what all the segments `L` show. -/
def Replaces (L : List (List Entry)) (es : List Entry) : Prop :=
  ∀ k, value [layer es] k = value (L.map layer) k

/-- The file of the next segment, if it is there, is a segment whose entries have the property `P`. -/
def Leftover (s : Store) (D : Dir) (P : List Entry → Prop) : Prop :=
  ∀ b, D.files s.nextName = some b → ∃ es, Storable es ∧ b = segmentImage es ∧ P es

/-- What else may be in the directory: nothing but a segment under the name of the next one; or the
marker of a compaction that names it; or the marker of a compaction whose segment is listed, with some
of the segments that it replaces. -/
inductive Extra (s : Store) (D : Dir) (gs : List ℕ) (L : List (List Entry)) (rs : List Record) : Prop
  | plain : D.marker = none →
    (∀ n, (D.files n).isSome → n ∈ (s.nextSegmentGeneration :: gs).map segmentFilename) →
    Leftover s D (fun es => Covered rs L es ∧ (s.memtable.isEmpty → Replaces L es)) →
    Extra s D gs L rs
  | named : D.marker = some s.nextMarkerText → s.nextMarker.Valid →
    (∀ n, (D.files n).isSome → n = COMPACTION_MARKER_FILE ∨
      n ∈ (s.nextSegmentGeneration :: gs).map segmentFilename) →
    Leftover s D (Replaces L) → Extra s D gs L rs
  | replaced {m : CompactionMarker} : D.marker = some (utf8 (markerText m)) → m.Valid →
    m.outputGeneration ∈ gs → (∀ g ∈ m.oldGenerations, g ∉ gs) →
    (∀ n, (D.files n).isSome → n = COMPACTION_MARKER_FILE ∨
      n ∈ (s.nextSegmentGeneration :: gs).map segmentFilename ∨
      n ∈ m.oldGenerations.map segmentFilename) →
    Leftover s D (Covered rs L) → Extra s D gs L rs

/-- The store `s` at `dir` lists the segments of the generations `gs` with the entries `L`, and the
log holds the records `rs`, which show what the memtable shows, and perhaps a torn tail. -/
structure Backed (dir : Path) (s : Store) (D : Dir) (gs : List ℕ) (L : List (List Entry))
    (rs : List Record) : Prop where
  dir_eq : s.dir = dir
  wal : s.wal = ⟨walPathOf dir⟩
  segments : s.segments = readersOf dir gs L
  below : ∀ g ∈ gs, g < s.nextSegmentGeneration
  next_lt : s.nextSegmentGeneration < u64Size
  valid : ∀ e ∈ s.memtable.iter, (toRecord e).Valid
  holds : D.Holds gs L
  log : ∃ t, Torn t ∧ D.wal = some (logImage rs ++ t)
  records : ∀ r ∈ rs, r.Valid
  agrees : ∀ k, view (memtableOf rs) L k = view s.memtable L k
  extra : Extra s D gs L rs

/-- Opening the directory gives a store that holds `f`. -/
def Resumes (D : Dir) (f : Contents) : Prop :=
  ∃ gs L rs, Recoverable D gs L ∧ LogHolds D.wal rs ∧ ∀ k, view (memtableOf rs) L k = f k

section Backed

variable {A : Fault → Prop} {dir : Path} {s s' : Store} {D D' : Dir} {gs : List ℕ}
  {L : List (List Entry)} {rs : List Record} {es : List Entry} {m : CompactionMarker} {n : Name}
  {o : Outcome StoneError Unit}

theorem Backed.generations (h : Backed dir s D gs L rs) :
    s.segments.map SegmentReader.generation = gs := by
  rw [h.segments, generations_readersOf h.holds.length_eq]

theorem Backed.fileNames (h : Backed dir s D gs L rs) : s.fileNames = gs.map segmentFilename := by
  rw [Store.fileNames, h.segments, fileNames_readersOf h.holds.length_eq]

/-- **A backed store serves its segments.** -/
theorem Backed.served (h : Backed dir s D gs L rs) : Served dir s D L := by
  obtain ⟨t, -, hlog⟩ := h.log
  refine ⟨h.dir_eq, by rw [h.wal], by rw [hlog]; rfl, h.valid, ?_, ?_, fun r hr => ?_, h.next_lt⟩
  · rw [h.segments]
    exact h.holds.lists
  · rw [← List.pairwise_map (f := SegmentReader.generation) (R := fun a b => b < a), h.generations]
    exact h.holds.decreasing
  · refine h.below _ ?_
    rw [← h.generations]
    exact List.mem_map_of_mem hr

theorem Backed.not_mem (h : Backed dir s D gs L rs) : s.nextSegmentGeneration ∉ gs := fun hg =>
  lt_irrefl _ (h.below _ hg)

theorem nextMarker_of (hs : s.segments.map SegmentReader.generation = gs) :
    s.nextMarker = ⟨s.nextSegmentGeneration, gs⟩ := by
  rw [Store.nextMarker, hs]

/-- A segment that shows what all show changes nothing on top of them. -/
theorem Replaces.covered (h : Replaces L es) : Covered rs L es := fun k => by
  refine view_congr ?_
  rw [List.map_cons]
  refine value_cons_of_le fun v hv => ?_
  rw [← h k, value, find_singleton, hv, Option.join_some]

theorem Replaces.view (h : Replaces L es) (m : Memtable) (k : Key) :
    view m [es] k = StoneKV.view m L k := view_congr (h k)

theorem replaces_merged (h : ∀ es ∈ L, Ascending es) : Replaces L (merged L) := fun k => by
  refine value_live_find ?_
  rw [merged, layer_liveEntries fun es hes => h es (List.mem_reverse.mp hes), List.reverse_reverse]

/-- The memtable as a segment changes nothing below records that agree with it. -/
theorem covered_iter {m : Memtable} (h : ∀ k, StoneKV.view (memtableOf rs) L k = StoneKV.view m L k) :
    Covered rs L m.iter := fun k => by
  rcases hk : (memtableOf rs).get k with _ | v
  · have hrs : ∀ X, StoneKV.view (memtableOf rs) X k = value (X.map layer) k := fun X =>
      value_cons_of_none hk
    rw [hrs, List.map_cons, layer_iter]
    exact (h k).symm
  · have hrs : ∀ X, StoneKV.view (memtableOf rs) X k = v := fun X => value_cons_of_some hk
    rw [hrs, hrs]

theorem Backed.logHolds (h : Backed dir s D gs L rs) : LogHolds D.wal rs := ⟨h.records, .inr h.log⟩

theorem Backed.next_add_one_lt (h : Backed dir s D gs L rs) (hbelow : D.Below) {b : Bytes}
    (hb : D.files s.nextName = some b) : s.nextSegmentGeneration + 1 < u64Size := by
  have hlt := h.next_lt
  by_contra hne
  exact not_below_of_next (by omega) hb hbelow

/-- The listed segments, and perhaps the next one. -/
theorem mem_of_next (h : n ∈ (s.nextSegmentGeneration :: gs).map segmentFilename)
    (hnone : D.files s.nextName = none) (hn : (D.files n).isSome) : n ∈ gs.map segmentFilename := by
  rw [List.map_cons, List.mem_cons] at h
  rcases h with rfl | h
  · rw [← Store.nextName, hnone] at hn
    cases hn
  · exact h

/-- **Reopening a backed store.** The directory gives what the store serves. -/
theorem Backed.resumes (h : Backed dir s D gs L rs) (hbelow : D.Below) :
    Resumes D (view s.memtable L) := by
  have hkept : ∀ {gs' L'}, D.Holds gs' L' → Pending D gs' →
      (∀ k, view (memtableOf rs) L' k = view (memtableOf rs) L k) → Resumes D (view s.memtable L) :=
    fun hholds hpending hview =>
      ⟨_, _, rs, ⟨hholds, hpending⟩, h.logHolds, fun k => (hview k).trans (h.agrees k)⟩
  have hcons : ∀ {es}, Storable es → D.files s.nextName = some (segmentImage es) →
      D.Holds (s.nextSegmentGeneration :: gs) (es :: L) := fun hstor hfile =>
    h.holds.cons (h.next_add_one_lt hbelow hfile) h.below hstor hfile
  cases h.extra with
  | plain hmarker hfiles hleft =>
    rcases hnext : D.files s.nextName with _ | b
    · exact hkept h.holds (.none fun n hn => mem_of_next (hfiles n hn) hnext hn) fun _ => rfl
    · obtain ⟨es, hstor, rfl, hcov, -⟩ := hleft b hnext
      exact hkept (hcons hstor hnext) (.none hfiles) hcov
  | named hmarker hm hfiles hleft =>
    have hgs := nextMarker_of h.generations
    rcases hnext : D.files s.nextName with _ | b
    · refine hkept h.holds (.back hmarker hm ?_ ?_ fun n hn => (hfiles n hn).imp_right fun hmem =>
        mem_of_next hmem hnext hn) fun _ => rfl
      · rw [hgs]
        exact h.not_mem
      · rw [hgs]
        exact List.Subset.refl _
    · obtain ⟨es, hstor, rfl, hrep⟩ := hleft b hnext
      have hholds : D.Holds [s.nextSegmentGeneration] [es] :=
        ⟨by simpa using h.next_add_one_lt hbelow hnext, List.pairwise_singleton _ _,
          .cons ⟨hstor, hnext⟩ .nil⟩
      refine hkept hholds (.forward hmarker hm ?_ ?_ fun n hn => (hfiles n hn).imp_right fun hmem => ?_)
        fun k => hrep.view _ k
      · rw [hgs]
        exact List.mem_singleton_self _
      · rw [hgs]
        intro g hg hg'
        exact h.not_mem (List.mem_singleton.mp hg' ▸ hg)
      · rw [hgs]
        rw [List.map_cons, List.mem_cons] at hmem
        exact hmem.imp_left fun h => by rw [h]; exact List.mem_singleton_self _
  | @replaced m hmarker hm hout hold hfiles hleft =>
    rcases hnext : D.files s.nextName with _ | b
    · refine hkept h.holds (.forward hmarker hm hout hold fun n hn => (hfiles n hn).imp_right
        fun hmem => hmem.imp_left fun hmem => mem_of_next hmem hnext hn) fun _ => rfl
    · obtain ⟨es, hstor, rfl, hcov⟩ := hleft b hnext
      refine hkept (hcons hstor hnext) (.forward hmarker hm (List.mem_cons_of_mem _ hout) ?_ hfiles) hcov
      intro g hg hg'
      rcases List.mem_cons.mp hg' with rfl | hg'
      · have hlt := hm.old_lt _ hg
        have := h.below _ hout
        omega
      · exact hold g hg hg'

theorem lt_nextOf (h : gs.Pairwise fun a b => b < a) : ∀ g ∈ gs, g < nextOf gs := by
  rcases gs with _ | ⟨g, gs⟩
  · simp
  · intro x hx
    rcases List.mem_cons.mp hx with rfl | hx
    · exact Nat.lt_succ_self _
    · exact ((List.pairwise_cons.mp h).1 x hx).trans (Nat.lt_succ_self _)

theorem nextOf_lt (h : ∀ g ∈ gs, g + 1 < u64Size) : nextOf gs < u64Size := by
  rcases gs with _ | ⟨g, gs⟩
  · decide
  · exact h g List.mem_cons_self

/-- The file of the next segment of a settled directory is not there. -/
theorem Settled.next_none (h : Settled D gs L) : D.files (segmentFilename (nextOf gs)) = none := by
  by_contra hne
  have hmem := mem_segments.mp (h.only _ (Option.isSome_iff_ne_none.mpr hne))
  exact lt_irrefl _ (lt_nextOf h.holds.decreasing _ hmem)

theorem log_of_image {w : Option Bytes} (h : w = some (logImage rs)) :
    ∃ t, Torn t ∧ w = some (logImage rs ++ t) := ⟨[], torn_nil, by rw [List.append_nil, h]⟩

/-- **A store that was just opened is backed.** -/
theorem backed_storeOf {t : ℕ} (h : Settled D gs L) (hlog : D.wal = some (logImage rs))
    (hrs : ∀ r ∈ rs, r.Valid) : Backed dir (storeOf dir gs L rs t) D gs L rs := by
  refine ⟨rfl, rfl, rfl, lt_nextOf h.holds.decreasing, nextOf_lt h.holds.lt, valid_memtableOf hrs,
    h.holds, log_of_image hlog, hrs, fun _ => rfl,
    .plain ?_ (fun n hn => List.mem_cons_of_mem _ (h.only n hn)) ?_⟩
  · by_contra hne
    exact marker_not_mem_segments (h.only _ (Option.isSome_iff_ne_none.mpr hne))
  · intro b hb
    have := h.next_none
    rw [Store.nextName, storeOf] at hb
    rw [this] at hb
    cases hb

end Backed

/-! ## Flushing -/

/-- The marker of a compaction is there and names the next segment as its output. -/
def NamesNext (s : Store) (D : Dir) : Prop :=
  ∃ b m, D.marker = some b ∧ parseMarkerBytes (markerPath s.segmentsDir) b = .ok m ∧
    m.outputGeneration = s.nextSegmentGeneration

section Flush

variable {A : Fault → Prop} {dir : Path} {s s' : Store} {D D' : Dir} {gs : List ℕ}
  {L : List (List Entry)} {rs : List Record} {m : Memtable} {n : Name} {g : ℕ}
  {o : Outcome StoneError Unit} {v : Option Bytes}

/-- A segment after the next one is not there. -/
theorem Extra.none_of_lt (h : Extra s D gs L rs) (hbelow : ∀ g ∈ gs, g < s.nextSegmentGeneration)
    (hg : s.nextSegmentGeneration < g) : D.files (segmentFilename g) = none := by
  have hnext : segmentFilename g ∉ (s.nextSegmentGeneration :: gs).map segmentFilename := by
    rw [mem_segments, List.mem_cons]
    rintro (rfl | hmem)
    · exact lt_irrefl _ hg
    · have := hbelow g hmem
      omega
  by_contra hne
  have hsome := Option.isSome_iff_ne_none.mpr hne
  cases h with
  | plain _ hfiles _ => exact hnext (hfiles _ hsome)
  | named _ _ hfiles _ => exact (hfiles _ hsome).elim segmentFilename_ne_marker hnext
  | replaced _ hm hout _ hfiles _ =>
    rcases hfiles _ hsome with h | h | h
    · exact segmentFilename_ne_marker h
    · exact hnext h
    · have := hm.old_lt g (mem_segments.mp h)
      have := hbelow _ hout
      omega

theorem ne_nextName (h : g ≠ s.nextSegmentGeneration) : segmentFilename g ≠ s.nextName := fun he =>
  h (segmentFilename_injective he)

theorem mem_next_of_put (h : ((D.put s.nextName v).files n).isSome) :
    n = s.nextName ∨ (D.files n).isSome := by
  rw [Dir.files_put] at h
  split_ifs at h with hn
  · exact .inl hn
  · exact .inr h

/-- **The memtable as the next segment.** -/
theorem Backed.flushed (h : Backed dir s D gs L rs) (rs' : List Record) {w : Option Bytes}
    (hw : ∃ t, Torn t ∧ w = some (logImage rs' ++ t)) (hn : ¬ NamesNext s D)
    (hlt : s.nextSegmentGeneration + 1 < u64Size) (hstor : Storable s.memtable.iter)
    (hm : ∀ e ∈ m.iter, (toRecord e).Valid) (hrs : ∀ r ∈ rs', r.Valid)
    (hview : ∀ k, view (memtableOf rs') (s.memtable.iter :: L) k = view m (s.memtable.iter :: L) k) :
    Backed dir { s.flushed with memtable := m }
      ((D.put s.nextName (some (segmentImage s.memtable.iter))).setWal w)
      (s.nextSegmentGeneration :: gs) (s.memtable.iter :: L) rs' := by
  have hfile : (D.put s.nextName (some (segmentImage s.memtable.iter))).files s.nextName =
      some (segmentImage s.memtable.iter) := Dir.files_put_self _
  have hholds : (D.put s.nextName (some (segmentImage s.memtable.iter))).Holds gs L :=
    h.holds.congr fun g hg => by
      rw [Dir.files_put, if_neg (ne_nextName (Nat.ne_of_lt (h.below g hg)))]
  have hcons := hholds.cons hlt h.below hstor hfile
  have hnext : (D.put s.nextName (some (segmentImage s.memtable.iter))).files
      (segmentFilename (s.nextSegmentGeneration + 1)) = none := by
    rw [Dir.files_put, if_neg (ne_nextName (Nat.succ_ne_self _)),
      h.extra.none_of_lt h.below (Nat.lt_succ_self _)]
  have hleft : ∀ P, Leftover { s.flushed with memtable := m }
      ((D.put s.nextName (some (segmentImage s.memtable.iter))).setWal w) P :=
    fun P b hb => absurd (hnext.symm.trans hb) nofun
  have hmarker : (D.put s.nextName (some (segmentImage s.memtable.iter))).marker = D.marker :=
    marker_put_next
  have hmem : ∀ {n}, n = s.nextName ∨ n ∈ (s.nextSegmentGeneration :: gs).map segmentFilename →
      n ∈ ((s.nextSegmentGeneration + 1) :: s.nextSegmentGeneration :: gs).map segmentFilename := by
    rintro n (rfl | hmem)
    · exact List.mem_cons_of_mem _ List.mem_cons_self
    · exact List.mem_cons_of_mem _ hmem
  refine ⟨h.dir_eq, h.wal, ?_, ?_, hlt, hm, ⟨hcons.lt, hcons.decreasing, hcons.images⟩, hw, hrs, hview,
    ?_⟩
  · rw [readersOf_cons, ← h.segments, ← h.dir_eq]
    rfl
  · intro g hg
    rcases List.mem_cons.mp hg with rfl | hg
    · exact Nat.lt_succ_self _
    · exact (h.below g hg).trans (Nat.lt_succ_self _)
  · cases h.extra with
    | plain hnone hfiles _ =>
      exact .plain (hmarker.trans hnone) (fun n hsome => hmem ((mem_next_of_put hsome).imp_right
        (hfiles n))) (hleft _)
    | named hnamed hvalid _ _ =>
      exact absurd ⟨_, _, hnamed, parseMarkerBytes_text hvalid _, rfl⟩ hn
    | @replaced c hc hvalid hout hold hfiles _ =>
      refine .replaced (hmarker.trans hc) hvalid (List.mem_cons_of_mem _ hout) (fun g hg hg' => ?_)
        (fun n hsome => ?_) (hleft _)
      · rcases List.mem_cons.mp hg' with rfl | hg'
        · have := hvalid.old_lt _ hg
          have := h.below _ hout
          omega
        · exact hold g hg hg'
      · rcases mem_next_of_put hsome with hn | hn
        · exact .inr (.inl (hmem (.inl hn)))
        · exact (hfiles n hn).imp_right fun h => h.imp_left fun h => hmem (.inr h)

/-- A file under the name of the next segment. -/
theorem Backed.put_next (h : Backed dir s D gs L rs) (hn : ¬ NamesNext s D)
    (hv : v = D.files s.nextName ∨ v = none ∨ ∃ es, v = some (segmentImage es) ∧ Storable es ∧
      Covered rs L es ∧ (s.memtable.isEmpty → Replaces L es)) :
    Backed dir s (D.put s.nextName v) gs L rs := by
  have hleft : ∀ P : List Entry → Prop, Leftover s D P → (∀ es, Covered rs L es ∧
      (s.memtable.isEmpty → Replaces L es) → P es) → Leftover s (D.put s.nextName v) P := by
    intro P hP himp b hb
    rw [Dir.files_put_self] at hb
    rcases hv with rfl | rfl | ⟨es, rfl, hstor, hcov⟩
    · exact hP b hb
    · cases hb
    · cases hb
      exact ⟨es, hstor, rfl, himp es hcov⟩
  have hnext : s.nextName ∈ (s.nextSegmentGeneration :: gs).map segmentFilename := List.mem_cons_self
  refine ⟨h.dir_eq, h.wal, h.segments, h.below, h.next_lt, h.valid, h.holds.congr fun g hg => ?_,
    h.log, h.records, h.agrees, ?_⟩
  · rw [Dir.files_put, if_neg (ne_nextName (Nat.ne_of_lt (h.below g hg)))]
  · cases h.extra with
    | plain hnone hfiles hP =>
      refine .plain (marker_put_next.trans hnone) (fun n hsome => ?_) (hleft _ hP fun _ h => h)
      exact (mem_next_of_put hsome).elim (fun h => h ▸ hnext) (hfiles n)
    | named hnamed hvalid _ _ =>
      exact absurd ⟨_, _, hnamed, parseMarkerBytes_text hvalid _, rfl⟩ hn
    | @replaced c hc hvalid hout hold hfiles hP =>
      refine .replaced (marker_put_next.trans hc) hvalid hout hold (fun n hsome => ?_)
        (hleft _ hP fun _ h => h.1)
      exact (mem_next_of_put hsome).elim (fun h => .inr (.inl (h ▸ hnext))) (hfiles n)

/-- **A flush.** The store stays backed, unless a marker names the segment that is written. -/
theorem FlushStep.backed (hs : FlushStep A s D o s' D') (h : Backed dir s D gs L rs)
    (hn : s.memtable.isEmpty ∨ ¬ NamesNext s D) (hb : D'.Bounded)
    (hbelow : o = .ok () ∨ D'.Below) : ∃ gs' L' rs', Backed dir s' D' gs' L' rs' ∧
      (∀ k, view s'.memtable L' k = view s.memtable L k) ∧
      (o = .ok () → L' = s.segmentsAfter L ∧ s'.memtable.isEmpty) := by
  have hcov := covered_iter h.agrees
  have hnot : ¬ s.memtable.isEmpty → ¬ NamesNext s D := fun hne => hn.resolve_left hne
  cases hs with
  | empty hempty =>
    exact ⟨gs, L, rs, h, fun _ => rfl, fun _ => ⟨by rw [Store.segmentsAfter, if_pos hempty], hempty⟩⟩
  | @aborted _ v ho hv hne =>
    refine ⟨gs, L, rs, h.put_next (hnot hne) ?_, fun _ => rfl, fun hok => absurd hok ho.ne_ok⟩
    rcases hv with hv | hv | rfl
    · exact .inl hv
    · exact .inr (.inl hv)
    · exact .inr (.inr ⟨_, rfl, h.served.writable.storable_iter hb.put_next, hcov, fun h => absurd h hne⟩)
  | exhausted hlast _ =>
    exact absurd (hbelow.resolve_left nofun)
      (not_below_of_next hlast (Dir.files_put_self s.nextName))
  | @installed _ w ho hw hlt hne =>
    have hstor := h.served.writable.storable_iter (Dir.Bounded.put_next hb)
    have hview : ∀ k, view s.memtable (s.memtable.iter :: L) k = view s.memtable L k := fun _ => view_iter
    rcases hw with rfl | rfl
    · exact ⟨_, _, _, h.flushed rs h.log (hnot hne) hlt hstor h.valid h.records
        (fun k => (hcov k).trans ((h.agrees k).trans (hview k).symm)), hview,
        fun hok => absurd hok ho.ne_ok⟩
    · exact ⟨_, _, _, h.flushed [] (log_of_image rfl) (hnot hne) hlt hstor h.valid (by simp)
        (fun k => view_new_iter.trans (hview k).symm), hview, fun hok => absurd hok ho.ne_ok⟩
  | done hlt hne =>
    have hstor := h.served.writable.storable_iter (Dir.Bounded.put_next hb)
    have hnone : ∀ r ∈ ([] : List Record), r.Valid := by simp
    refine ⟨_, _, _, h.flushed [] (m := .new) (log_of_image rfl) (hnot hne) hlt hstor
      (valid_memtableOf hnone) hnone fun _ => rfl, fun _ => view_new_iter, fun _ => ⟨?_, ?_⟩⟩
    · rw [Store.segmentsAfter, if_neg hne]
    · exact Memtable.isEmpty_iff.mpr fun _ => Memtable.get_new

end Flush

/-! ## Compacting -/

section Merge

variable {A : Fault → Prop} {dir : Path} {s s' : Store} {D D' : Dir} {gs : List ℕ}
  {L : List (List Entry)} {rs : List Record} {es : List Entry} {n : Name}
  {o : Outcome StoneError Unit} {μ v : Option Bytes}

theorem Backed.namesNext_of_replaced (h : Backed dir s D gs L rs) {m : CompactionMarker}
    (hm : D.marker = some (utf8 (markerText m))) (hvalid : m.Valid) (hout : m.outputGeneration ∈ gs) :
    ¬ NamesNext s D := by
  rintro ⟨b, m', hb, hparse, hnext⟩
  rw [hm] at hb
  cases hb
  rw [parseMarkerBytes_text hvalid] at hparse
  cases hparse
  have := h.below _ hout
  omega

/-- What may be there when a compaction writes its marker. -/
theorem Backed.unmarked (h : Backed dir s D gs L rs) (hempty : s.memtable.isEmpty)
    (hA : D.marker = none ∨ A .deny) (hsafe : D.marker = none ∨ NamesNext s D ∨ ¬ A .deny) :
    (∀ n, (D.files n).isSome → n = COMPACTION_MARKER_FILE ∨
      n ∈ (s.nextSegmentGeneration :: gs).map segmentFilename) ∧ Leftover s D (Replaces L) := by
  cases h.extra with
  | plain _ hfiles hleft =>
    refine ⟨fun n hn => .inr (hfiles n hn), fun b hb => ?_⟩
    obtain ⟨es, hstor, hes, -, hrep⟩ := hleft b hb
    exact ⟨es, hstor, hes, hrep hempty⟩
  | named _ _ hfiles hleft => exact ⟨hfiles, hleft⟩
  | replaced hm hvalid hout _ _ _ =>
    have hne : D.marker ≠ none := by rw [hm]; exact nofun
    rcases hsafe with hnone | hnamed | hdeny
    · exact absurd hnone hne
    · exact absurd hnamed (h.namesNext_of_replaced hm hvalid hout)
    · exact absurd (hA.resolve_left hne) hdeny

/-- A compaction that ends with its segment or its marker left behind. -/
theorem Backed.left (h : Backed dir s D gs L rs) (hlen : 2 ≤ s.segments.length)
    (hfiles : ∀ n, (D.files n).isSome → n = COMPACTION_MARKER_FILE ∨
      n ∈ (s.nextSegmentGeneration :: gs).map segmentFilename)
    (hμ : μ = none ∨ μ = some s.nextMarkerText)
    (hv : ∀ b, v = some b → ∃ es, Storable es ∧ b = segmentImage es ∧ Replaces L es) :
    Backed dir s ((D.put s.nextName v).put COMPACTION_MARKER_FILE μ) gs L rs := by
  have hleft : Leftover s ((D.put s.nextName v).put COMPACTION_MARKER_FILE μ) (Replaces L) := by
    intro b hb
    rw [Dir.files_put, if_neg s.nextName_ne_marker, Dir.files_put_self] at hb
    exact hv b hb
  have hmarker : ((D.put s.nextName v).put COMPACTION_MARKER_FILE μ).marker = μ := by
    rw [Dir.marker, Dir.files_put_self]
  have hsub : ∀ n, (((D.put s.nextName v).put COMPACTION_MARKER_FILE μ).files n).isSome →
      (n = COMPACTION_MARKER_FILE ∧ μ.isSome) ∨
        n ∈ (s.nextSegmentGeneration :: gs).map segmentFilename := by
    intro n hn
    rw [Dir.files_put] at hn
    split_ifs at hn with hm
    · exact .inl ⟨hm, hn⟩
    · rcases mem_next_of_put hn with rfl | hn
      · exact .inr List.mem_cons_self
      · exact .inr ((hfiles n hn).resolve_left hm)
  refine ⟨h.dir_eq, h.wal, h.segments, h.below, h.next_lt, h.valid, h.holds.congr fun g hg => ?_,
    h.log, h.records, h.agrees, ?_⟩
  · rw [Dir.files_put, if_neg segmentFilename_ne_marker, Dir.files_put,
      if_neg (ne_nextName (Nat.ne_of_lt (h.below g hg)))]
  · rcases hμ with rfl | rfl
    · refine .plain hmarker (fun n hn => ?_) fun b hb => ?_
      · exact (hsub n hn).resolve_left fun hm => by cases hm.2
      · obtain ⟨es, hstor, hes, hrep⟩ := hleft b hb
        exact ⟨es, hstor, hes, hrep.covered, fun _ => hrep⟩
    · exact .named hmarker (h.served.nextMarker_valid hlen) (fun n hn => (hsub n hn).imp_left And.left) hleft

/-- The new segment in place of all. -/
theorem Backed.compacted (h : Backed dir s D gs L rs) (hlt : s.nextSegmentGeneration + 1 < u64Size)
    (hstor : Storable es) (hrep : Replaces L es)
    (hfile : D'.files s.nextName = some (segmentImage es)) (hwal : D'.wal = D.wal)
    (hextra : Extra (s.compacted es) D' [s.nextSegmentGeneration] [es] rs) :
    Backed dir (s.compacted es) D' [s.nextSegmentGeneration] [es] rs := by
  refine ⟨h.dir_eq, h.wal, ?_, ?_, hlt, h.valid, ⟨by simpa using hlt, List.pairwise_singleton _ _,
    .cons ⟨hstor, hfile⟩ .nil⟩, by rw [hwal]; exact h.log, h.records, fun k => ?_, hextra⟩
  · rw [readersOf_cons, ← h.dir_eq]
    rfl
  · rintro g (_ | ⟨_, ⟨⟩⟩)
    exact Nat.lt_succ_self _
  · rw [hrep.view, h.agrees k]
    exact (hrep.view _ k).symm

/-- **A compaction.** The store stays backed, unless a marker that names another segment is passed
by. -/
theorem MergeStep.backed (hs : MergeStep A s D (merged L) o s' D') (h : Backed dir s D gs L rs)
    (hempty : s.memtable.isEmpty) (hlen : 2 ≤ s.segments.length)
    (hsafe : D.marker = none ∨ NamesNext s D ∨ ¬ A .deny) (hb : D'.Bounded) (hbelow : D'.Below) :
    ∃ gs' L' rs', Backed dir s' D' gs' L' rs' ∧ ∀ k, view s'.memtable L' k = view s.memtable L k := by
  have hrep := replaces_merged h.served.ascending
  have hstor : D'.files s.nextName = some (segmentImage (merged L)) → Storable (merged L) :=
    fun hfile => h.served.storable_merged (hb _ _ hfile)
  have hgs := nextMarker_of h.generations
  -- the directory with the new segment and the marker holds nothing else
  have hsub : D.marker = none ∨ A .deny → ∀ n, ((D.replacing s (merged L)).files n).isSome →
      n = COMPACTION_MARKER_FILE ∨ n ∈ (s.nextSegmentGeneration :: gs).map segmentFilename := by
    intro hA n hn
    rw [Dir.replacing, Dir.files_put] at hn
    split_ifs at hn with hm
    · exact .inl hm
    · rcases mem_next_of_put hn with rfl | hn
      · exact .inr List.mem_cons_self
      · exact (h.unmarked hempty hA hsafe).1 n hn
  have hnone : ∀ {D''}, D.marker = none ∨ A .deny →
      (∀ n, (D''.files n).isSome → ((D.replacing s (merged L)).files n).isSome) →
      ∀ P, Leftover (s.compacted (merged L)) D'' P := fun hA hD'' P b hb' => by
    have hsome := hsub hA _ (hD'' _ (by rw [hb']; rfl))
    rcases hsome with hm | hm
    · exact absurd hm segmentFilename_ne_marker
    · rw [Store.nextName, mem_segments, List.mem_cons] at hm
      rcases hm with hm | hm
      · exact absurd hm (Nat.succ_ne_self _)
      · have := h.below _ hm
        change s.nextSegmentGeneration + 1 < s.nextSegmentGeneration at this
        omega
  cases hs with
  | refused _ _ => exact ⟨gs, L, rs, h, fun _ => rfl⟩
  | failed _ => exact ⟨gs, L, rs, h, fun _ => rfl⟩
  | @aborted _ μ v _ hA hμ hv =>
    obtain ⟨hfiles, hleft⟩ := h.unmarked hempty hA hsafe
    refine ⟨gs, L, rs, h.left hlen hfiles hμ fun b hb' => ?_, fun _ => rfl⟩
    subst hb'
    rcases hv with hv | hv | hv
    · exact hleft b hv.symm
    · cases hv
    · cases hv
      refine ⟨_, hstor ?_, rfl, hrep⟩
      rw [Dir.files_put, if_neg s.nextName_ne_marker, Dir.files_put_self]
  | exhausted hlast _ =>
    exact absurd hbelow (not_below_of_next hlast Dir.files_replacing_next)
  | @installed _ olds _ hA hpre hlt =>
    have holds : olds ⊆ gs.map segmentFilename := by
      rw [← h.fileNames]
      exact hpre.subset
    have hfile := h.served.files_installed (merged L) hpre
    have hdrop : ∀ n, (((D.replacing s (merged L)).drop olds).files n).isSome →
        ((D.replacing s (merged L)).files n).isSome := fun n hn => by
      rw [Dir.files_drop] at hn
      split_ifs at hn
      · cases hn
      · exact hn
    refine ⟨_, _, rs, h.compacted hlt (hstor hfile) hrep hfile rfl (.replaced (m := s.nextMarker) ?_
      (h.served.nextMarker_valid hlen) ?_ ?_ (fun n hn => ?_) (hnone hA hdrop _)), fun k => hrep.view _ k⟩
    · rw [Dir.marker, Dir.files_drop, if_neg fun hm => marker_not_mem_segments (holds hm),
        Dir.replacing, Dir.files_put_self]
      rfl
    · rw [hgs]
      exact List.mem_singleton_self _
    · rw [hgs]
      intro g hg hg'
      exact h.not_mem (List.mem_singleton.mp hg' ▸ hg)
    · rw [hgs]
      refine (hsub hA n (hdrop n hn)).imp_right fun hm => ?_
      rw [List.map_cons, List.mem_cons] at hm
      rcases hm with rfl | hm
      · exact .inl (List.mem_cons_of_mem _ List.mem_cons_self)
      · exact .inr hm
  | done hA hlt =>
    have hfile := h.served.files_done (merged L)
    have hdrop : ∀ n, ((((D.replacing s (merged L)).drop s.fileNames).put COMPACTION_MARKER_FILE
        none).files n).isSome → n ≠ COMPACTION_MARKER_FILE ∧ n ∉ s.fileNames ∧
          ((D.replacing s (merged L)).files n).isSome := fun n hn => by
      rw [Dir.files_put, Dir.files_drop] at hn
      split_ifs at hn with hm hold
      · cases hn
      · cases hn
      · exact ⟨hm, hold, hn⟩
    refine ⟨_, _, rs, h.compacted hlt (hstor hfile) hrep hfile rfl (.plain ?_ (fun n hn => ?_)
      (hnone hA (fun n hn => (hdrop n hn).2.2) _)), fun k => hrep.view _ k⟩
    · rw [Dir.marker, Dir.files_put_self]
    · obtain ⟨hm, hold, hn⟩ := hdrop n hn
      rw [h.fileNames] at hold
      have hmem := (hsub hA n hn).resolve_left hm
      rw [List.map_cons, List.mem_cons] at hmem
      rcases hmem with rfl | hmem
      · exact List.mem_cons_of_mem _ List.mem_cons_self
      · exact absurd hmem hold

/-- **A call of `compact`.** -/
theorem CompactStep.backed (hs : CompactStep A s D L o s' D') (h : Backed dir s D gs L rs)
    (hn : s.memtable.isEmpty ∨ ¬ NamesNext s D)
    (hsafe : D.marker = none ∨ NamesNext s D ∨ ¬ A .deny) (hb : D'.Bounded) (hbelow : D'.Below) :
    ∃ gs' L' rs', Backed dir s' D' gs' L' rs' ∧ ∀ k, view s'.memtable L' k = view s.memtable L k := by
  cases hs with
  | unflushed hflush _ =>
    obtain ⟨gs', L', rs', h', hview, -⟩ := hflush.backed h hn hb (.inr hbelow)
    exact ⟨gs', L', rs', h', hview⟩
  | short hflush _ _ =>
    obtain ⟨gs', L', rs', h', hview, -⟩ := hflush.backed h hn hb (.inr hbelow)
    exact ⟨gs', L', rs', h', hview⟩
  | @merging s₁ _ D₁ _ _ hflush hb₁ hlen hmerge =>
    obtain ⟨gs₁, L₁, rs₁, h₁, hview₁, hok⟩ := hflush.backed h hn hb₁ (.inl rfl)
    obtain ⟨rfl, hempty⟩ := hok rfl
    have hsafe₁ : D₁.marker = none ∨ NamesNext s₁ D₁ ∨ ¬ A .deny := by
      rcases hn with hn | hn
      · cases hflush with
        | empty _ => exact hsafe
        | done _ hne => exact absurd hn hne
        | aborted ho => exact absurd rfl ho.ne_ok
        | installed ho => exact absurd rfl ho.ne_ok
      · rw [hflush.marker]
        exact hsafe.imp_right fun h => .inr (h.resolve_left hn)
    obtain ⟨gs', L', rs', h', hview⟩ := hmerge.backed h₁ hempty hlen hsafe₁ hb hbelow
    exact ⟨gs', L', rs', h', fun k => (hview k).trans (hview₁ k)⟩

end Merge

/-! ## Logging -/

section Log

variable {A : Fault → Prop} {dir : Path} {s s' : Store} {D D' : Dir} {gs : List ℕ}
  {L : List (List Entry)} {rs : List Record} {es : List Entry} {r : Record}
  {o : Outcome StoneError Unit}

theorem applyRecord_stored (m : Memtable) (r : Record) : applyRecord m r.stored = applyRecord m r := by
  obtain ⟨_ | _, k, v⟩ := r <;> rfl

theorem memtableOf_append : memtableOf (rs ++ [r]) = applyRecord (memtableOf rs) r := by
  rw [memtableOf, List.foldl_append]
  rfl

theorem Covered.append (h : Covered rs L es) : Covered (rs ++ [r]) L es := fun k => by
  rw [memtableOf_append, view_applied, view_applied, funext h]

/-- The log is a list of records. -/
def Dir.Whole (D : Dir) : Prop := ∃ rs, (∀ r ∈ rs, Record.Valid r) ∧ D.wal = some (logImage rs)

theorem Backed.log_of_whole (h : Backed dir s D gs L rs) (hw : D.Whole) :
    D.wal = some (logImage rs) := by
  obtain ⟨t, ht, hlog⟩ := h.log
  obtain ⟨rs', hrs', hlog'⟩ := hw
  have heq : logImage rs ++ t = logImage rs' ++ [] := by
    rw [List.append_nil]
    exact Option.some_inj.mp (hlog.symm.trans hlog')
  obtain ⟨-, rfl⟩ := logImage_unique h.records hrs' ht torn_nil heq
  rw [hlog, List.append_nil]

theorem isEmpty_applied : ¬ (s.applied r).memtable.isEmpty := by
  intro h
  have := Memtable.isEmpty_iff.mp h r.key
  rw [Store.applied, applyRecord_eq_put, Memtable.get_put, if_pos rfl] at this
  cases this

/-- **A record in the log and in the memtable.** -/
theorem AppendStep.backed (hs : AppendStep A D r (.ok ()) D') (h : Backed dir s D gs L rs)
    (hwhole : D.Whole) :
    Backed dir (s.applied r) D' gs L (rs ++ [r.stored]) := by
  cases hs with
  | cut _ _ ho => exact absurd rfl ho.ne_ok
  | @done old b hold hb =>
    obtain rfl : old = logImage rs := Option.some_inj.mp (hold.symm.trans (h.log_of_whole hwhole))
    refine ⟨h.dir_eq, h.wal, h.segments, h.below, h.next_lt,
      valid_applyRecord h.valid (Record.valid_stored hb),
      ⟨h.holds.lt, h.holds.decreasing, h.holds.images⟩, log_of_image ?_,
      valid_logged h.records hb, fun k => ?_, ?_⟩
    · rw [logImage_logged hb]
      rfl
    · rw [memtableOf_append, applyRecord_stored, view_applied, Store.applied, view_applied,
        funext h.agrees]
    · have hleft : ∀ {P P' : List Entry → Prop}, Leftover s D P → (∀ es, P es → P' es) →
          Leftover (s.applied r) (D.setWal (some (logImage rs ++ b))) P' := fun hP hPP' b' hb' => by
        obtain ⟨es, hstor, hes, hp⟩ := hP b' hb'
        exact ⟨es, hstor, hes, hPP' es hp⟩
      cases h.extra with
      | plain hm hfiles hP =>
        exact .plain hm hfiles (hleft hP fun es hes =>
          ⟨hes.1.append, fun he => absurd he isEmpty_applied⟩)
      | named hm hvalid hfiles hP => exact .named hm hvalid hfiles (hleft hP fun _ h => h)
      | replaced hm hvalid hout hold hfiles hP =>
        exact .replaced hm hvalid hout hold hfiles (hleft hP fun _ h => h.append)

/-- **What follows an append.** -/
theorem AppliedStep.backed (hs : AppliedStep A s D o s' D') (h : Backed dir s D gs L rs)
    (hn : s.memtable.isOverThreshold s.flushThresholdBytes = true → ¬ NamesNext s D)
    (hb : D'.Bounded) (hbelow : D'.Below) : ∃ gs' L' rs', Backed dir s' D' gs' L' rs' ∧
      ∀ k, view s'.memtable L' k = view s.memtable L k := by
  cases hs with
  | kept _ => exact ⟨gs, L, rs, h, fun _ => rfl⟩
  | flushed hover hflush =>
    obtain ⟨gs', L', rs', h', hview, -⟩ := hflush.backed h (.inr (hn hover)) hb (.inr hbelow)
    exact ⟨gs', L', rs', h', hview⟩

end Log

end StoneKV
