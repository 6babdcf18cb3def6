import StoneKV.Opening

/-!
# Reopening

* `storeOf dir gs L rs t`: the store with the segments of the generations `gs`, which hold the entries
  `L`, and with the records `rs` in its log.
* `Loads dir D rs`: the open segments `rs` are all that the directory `D` has.
* **`wp_openRecovered`**: opening a directory that recovery leaves with given segments.
* **`wp_openWithThreshold`**: without failures, a directory that can be recovered to these opens as
  this store; and when the process dies in `open`, it can still be recovered to the same.
-/

namespace StoneKV

open FaultProg

/-- The open segments of the generations `gs` with the entries `L`. -/
def readersOf (dir : Path) (gs : List ℕ) (L : List (List Entry)) : List SegmentReader :=
  List.zipWith (fun g es => readerOf (segmentPath (segmentsDirOf dir) g) g es) gs L

/-- The generation after the newest of `gs`. -/
def nextOf : List ℕ → ℕ
  | [] => 1
  | g :: _ => g + 1

/-- The memtable with the records `rs`. -/
def memtableOf (rs : List Record) : Memtable := rs.foldl applyRecord .new

/-- The store at `dir` with the segments of the generations `gs`, which hold the entries `L`, and the
records `rs` in its log. -/
def storeOf (dir : Path) (gs : List ℕ) (L : List (List Entry)) (rs : List Record) (t : ℕ) : Store :=
  ⟨dir, ⟨walPathOf dir⟩, memtableOf rs, readersOf dir gs L, nextOf gs, t⟩

/-- The log holds the records `rs`, perhaps with a torn tail. -/
structure LogHolds (w : Option Bytes) (rs : List Record) : Prop where
  valid : ∀ r ∈ rs, r.Valid
  bytes : (w = none ∧ rs = []) ∨ ∃ t, Torn t ∧ w = some (logImage rs ++ t)

theorem valid_memtableOf {rs : List Record} (h : ∀ r ∈ rs, r.Valid) :
    ∀ e ∈ (memtableOf rs).iter, (toRecord e).Valid := by
  unfold memtableOf
  induction rs using List.reverseRecOn with
  | nil =>
    rintro ⟨k, v⟩ he
    rw [List.foldl_nil, Memtable.mem_iter, Memtable.get_new] at he
    cases he
  | append_singleton rs r ih =>
    rw [List.foldl_append]
    refine valid_applyRecord (ih fun x hx => h x (List.mem_append_left _ hx)) ?_
    rw [← toRecord_toEntry_stored, toRecord_toEntry (h r (by simp))]
    exact h r (by simp)

section Stale

variable {A : Fault → Prop} {dir : Path} {d : Disk} {n : Name} {Q : Outcome StoneError Unit → Disk → Prop}

/-- Removing temporary segments that are there. -/
theorem wp_removeTempFiles (hA : Reliable A) : ∀ (names : List Name) (d : Disk), names.Nodup →
    (∀ n ∈ names, (d.read (segmentsDirOf dir ++ [n])).isSome) →
    (∀ d', dirOf dir d' = dirOf dir d → Q (.ok ()) d') →
    (∀ d', dirOf dir d' = dirOf dir d → Q .crash d') →
    wp A (removeTempFiles (segmentsDirOf dir) names) Q d
  | [], d, _, _, hok, _ => wp_pure (hok d rfl)
  | n :: names, d, hnd, hthere, hok, hcr => by
    rw [List.nodup_cons] at hnd
    rw [removeTempFiles]
    split_ifs with hn
    · refine wp_bind (Fs.wp_removeFile (fun _ => ?_)
        (fun h => by have := hthere n List.mem_cons_self; rw [h] at this; cases this)
        (fun k hk => absurd hk (hA.fail k)) fun _ _ => hcr d rfl)
      have hd : dirOf dir (d.erase _) = dirOf dir d := dirOf_erase_scratch (.inl hn)
      refine wp_removeTempFiles hA names _ hnd.2 (fun x hx => ?_) (fun d' hd' => hok d' (hd'.trans hd))
        fun d' hd' => hcr d' (hd'.trans hd)
      have hne : x ≠ n := fun h => hnd.1 (h ▸ hx)
      rw [Disk.read_erase, if_neg fun h => hne (append_singleton_inj.mp h)]
      exact hthere x (List.mem_cons_of_mem _ hx)
    · exact wp_removeTempFiles hA names d hnd.2 (fun x hx => hthere x (List.mem_cons_of_mem _ hx))
        hok hcr

theorem wp_removeStaleTempFiles (hA : Reliable A) (hok : ∀ d', dirOf dir d' = dirOf dir d → Q (.ok ()) d')
    (hcr : ∀ d', dirOf dir d' = dirOf dir d → Q .crash d') :
    wp A (removeStaleTempFiles (segmentsDirOf dir)) Q d := by
  refine wp_bind (Fs.wp_readDir ?_ (fun k hk => absurd hk (hA.fail k)) fun _ _ => hcr d rfl)
  exact wp_removeTempFiles hA _ d Disk.nodup_list (fun n hn => Disk.mem_list.mp hn) hok hcr

end Stale

/-! ## Loading -/

section Load

variable {A : Fault → Prop} {dir : Path} {d : Disk} {n : Name} {gs : List ℕ} {L : List (List Entry)}
  {g : ℕ} {es : List Entry} {xs : List (ℕ × Path)} {rs : List SegmentReader} {D : Dir}

theorem not_isScratchName_of_looksLikeSegment (h : LooksLikeSegment n) : ¬ IsScratchName n := by
  rw [LooksLikeSegment, Bool.and_eq_true, List.isSuffixOf_iff_suffix] at h
  obtain ⟨p, hp⟩ := h.2
  have hlast : n.getLast? = some 'g' := by
    rw [← hp, List.getLast?_append_of_ne_nil _ (by decide)]
    rfl
  rintro (ht | ht)
  · have := getLast?_of_parseTemp ht
    rw [hlast] at this
    exact absurd this (by decide)
  · rw [ht] at hlast
    exact absurd hlast (by decide)

theorem readersOf_cons : readersOf dir (g :: gs) (es :: L) =
    readerOf (segmentPath (segmentsDirOf dir) g) g es :: readersOf dir gs L := rfl

theorem generations_readersOf : ∀ {gs : List ℕ} {L : List (List Entry)}, gs.length = L.length →
    (readersOf dir gs L).map SegmentReader.generation = gs
  | [], _, _ => rfl
  | g :: gs, [], h => by cases h
  | g :: gs, es :: L, h => by
    rw [readersOf_cons, List.map_cons, generations_readersOf (Nat.succ.inj h)]
    rfl

theorem fileName_readerOf : fileName (readerOf (segmentPath (segmentsDirOf dir) g) g es) =
    segmentFilename g := List.getLastD_concat

theorem fileNames_readersOf : ∀ {gs : List ℕ} {L : List (List Entry)}, gs.length = L.length →
    (readersOf dir gs L).map fileName = gs.map segmentFilename
  | [], _, _ => rfl
  | g :: gs, [], h => by cases h
  | g :: gs, es :: L, h => by
    rw [readersOf_cons, List.map_cons, fileNames_readersOf (Nat.succ.inj h), fileName_readerOf]
    rfl

theorem Dir.Holds.lists (h : D.Holds gs L) : List.Forall₂ (Lists dir D) (readersOf dir gs L) L := by
  obtain ⟨hlt, -, himages⟩ := h
  induction himages with
  | nil => exact .nil
  | @cons g es gs L hg _ ih =>
    have hg' := hlt g List.mem_cons_self
    exact .cons (lists_readerOf (by omega) hg.1 hg.2)
      (ih fun x hx => hlt x (List.mem_cons_of_mem _ hx))

theorem Dir.Holds.length_eq (h : D.Holds gs L) : gs.length = L.length := h.images.length_eq

/-- The directory holds the segments of the generations `gs` and nothing else. -/
structure Settled (D : Dir) (gs : List ℕ) (L : List (List Entry)) : Prop where
  holds : D.Holds gs L
  only : ∀ n, (D.files n).isSome → n ∈ gs.map segmentFilename

theorem Settled.recoverable (h : Settled D gs L) : Recoverable D gs L :=
  ⟨h.holds, .none h.only⟩

theorem Recoverable.settled (h : Recoverable D gs L) : Settled (D.only gs) gs L := by
  refine ⟨h.holds.congr fun g hg => ?_, fun n hn => ?_⟩
  · rw [Dir.files_only, if_pos (mem_segments.mpr hg)]
  · rw [Dir.files_only] at hn
    split_ifs at hn with hmem
    · exact hmem
    · cases hn

theorem Settled.only_eq (h : Settled D gs L) : D.only gs = D := by
  exact Dir.only_eq_self h.only

theorem Settled.setWal (h : Settled D gs L) (w : Option Bytes) :
    Settled (D.setWal w) gs L := ⟨⟨h.holds.lt, h.holds.decreasing, h.holds.images⟩, h.only⟩

/-- The directory has no segment of the last generation. -/
theorem Settled.below (h : Settled D gs L) : D.Below := by
  by_contra hne
  have hmem := mem_segments.mp (h.only _ (Option.isSome_iff_ne_none.mpr hne))
  have := h.holds.lt _ hmem
  omega

/-- The open segments `rs`, the newest first, are all the segments of the directory. -/
structure Loads (dir : Path) (D : Dir) (rs : List SegmentReader) : Prop where
  path : ∀ r ∈ rs, r.path = segmentsDirOf dir ++ [fileName r]
  parse : ∀ r ∈ rs, parseSegmentGeneration (fileName r) = some r.generation
  file : ∀ r ∈ rs, D.files (fileName r) = some r.file
  opened : ∀ r ∈ rs, SegmentReader.openIn r.path r.generation r.file = .ok r
  decreasing : rs.Pairwise fun a b => b.generation < a.generation
  below : ∀ r ∈ rs, r.generation + 1 < u64Size
  complete : ∀ n, (D.files n).isSome → LooksLikeSegment n → ∃ r ∈ rs, fileName r = n

theorem Loads.setWal (h : Loads dir D rs) (w : Option Bytes) : Loads dir (D.setWal w) rs :=
  ⟨h.path, h.parse, h.file, h.opened, h.decreasing, h.below, h.complete⟩

/-- The generation after the newest of `rs`. -/
def nextAfter : List SegmentReader → ℕ
  | [] => 1
  | r :: _ => r.generation + 1

theorem Loads.lt_nextAfter (h : Loads dir D rs) : ∀ r ∈ rs, r.generation < nextAfter rs := by
  have hdec := h.decreasing
  rcases rs with _ | ⟨r, rs⟩
  · simp
  · intro x hx
    rcases List.mem_cons.mp hx with rfl | hx
    · exact Nat.lt_succ_self _
    · exact ((List.pairwise_cons.mp hdec).1 x hx).trans (Nat.lt_succ_self _)

theorem Loads.nextAfter_lt (h : Loads dir D rs) : nextAfter rs < u64Size := by
  have hbelow := h.below
  rcases rs with _ | ⟨r, rs⟩
  · decide
  · exact hbelow r List.mem_cons_self

/-- A generation has one segment. -/
theorem eq_of_generation (h : rs.Pairwise fun a b => b.generation < a.generation)
    {r r' : SegmentReader} (hr : r ∈ rs) (hr' : r' ∈ rs) (heq : r.generation = r'.generation) :
    r = r' := by
  have hnd : (rs.map SegmentReader.generation).Nodup :=
    List.pairwise_map.mpr (h.imp fun hlt => hlt.ne')
  exact List.inj_on_of_nodup_map hnd hr hr' heq

/-- A file with a generation is the segment of that generation. -/
theorem Loads.of_parse (h : Loads dir (dirOf dir d) rs)
    (hn : (d.read (segmentsDirOf dir ++ [n])).isSome) (hp : parseSegmentGeneration n = some g) :
    ∃ r ∈ rs, fileName r = n ∧ r.generation = g := by
  rw [← dirOf_files (not_isScratchName_of_parse hp)] at hn
  obtain ⟨r, hr, rfl⟩ := h.complete n hn (looksLikeSegment_of_parse hp)
  rw [h.parse r hr, Option.some_inj] at hp
  exact ⟨r, hr, rfl, hp⟩

theorem Loads.loadable (h : Loads dir (dirOf dir d) rs) : Loadable d (segmentsDirOf dir) := by
  refine ⟨fun n hn hl => ?_, fun n n' g hn hn' hp hp' => ?_, fun n g hn hp => ?_,
    fun n g b hb hp => ?_⟩
  · rw [← dirOf_files (not_isScratchName_of_looksLikeSegment hl)] at hn
    obtain ⟨r, hr, rfl⟩ := h.complete n hn hl
    rw [h.parse r hr]
    rfl
  · obtain ⟨r, hr, rfl, hg⟩ := h.of_parse hn hp
    obtain ⟨r', hr', rfl, hg'⟩ := h.of_parse hn' hp'
    rw [eq_of_generation h.decreasing hr hr' (hg.trans hg'.symm)]
  · obtain ⟨r, hr, -, rfl⟩ := h.of_parse hn hp
    exact h.below r hr
  · obtain ⟨r, hr, rfl, rfl⟩ := h.of_parse (by rw [hb]; rfl) hp
    have hfile := h.file r hr
    rw [dirOf_files (not_isScratchName_of_parse hp), hb, Option.some_inj] at hfile
    rw [hfile, ← h.path r hr]
    exact ⟨r, h.opened r hr⟩

theorem Loads.discovered (h : Loads dir (dirOf dir d) rs)
    (hx : Discovered d (segmentsDirOf dir) xs) : xs = rs.map fun r => (r.generation, r.path) := by
  have : Std.Irrefl fun a b : ℕ × Path => b.1 < a.1 := ⟨fun a => lt_irrefl a.1⟩
  refine hx.decreasing.eq_of_mem_iff ?_ ?_
  · rw [List.pairwise_map]
    exact h.decreasing
  · rintro ⟨g, p⟩
    rw [hx.mem, List.mem_map]
    constructor
    · rintro ⟨n, hn, hp, rfl⟩
      obtain ⟨r, hr, rfl, rfl⟩ := h.of_parse hn hp
      exact ⟨r, hr, by rw [h.path r hr]⟩
    · rintro ⟨r, hr, heq⟩
      cases heq
      refine ⟨fileName r, ?_, h.parse r hr, h.path r hr⟩
      rw [← dirOf_files (not_isScratchName_of_parse (h.parse r hr)), h.file r hr]
      rfl

theorem Loads.opens {rs' : List SegmentReader} (h : Loads dir (dirOf dir d) rs)
    (ho : List.Forall₂ (Opens d) (rs.map fun r => (r.generation, r.path)) rs') : rs' = rs := by
  rw [List.forall₂_map_left_iff, List.forall₂_iff_get] at ho
  refine List.ext_get ho.1.symm fun i hi' hi => ?_
  obtain ⟨b, hb, hopen⟩ := ho.2 i hi hi'
  have hr := List.get_mem rs ⟨i, hi⟩
  have hfile := h.file _ hr
  rw [dirOf_files (not_isScratchName_of_parse (h.parse _ hr)), ← h.path _ hr] at hfile
  obtain rfl : b = (rs.get ⟨i, hi⟩).file := Option.some_inj.mp (hb.symm.trans hfile)
  have hopen' := h.opened _ hr
  dsimp only at hopen
  rw [hopen'] at hopen
  exact (Except.ok.inj hopen).symm

/-- **Loading.** -/
theorem Loads.wp_loadSegments {Q : Outcome StoneError (List SegmentReader × ℕ) → Disk → Prop}
    (h : Loads dir (dirOf dir d) rs) (hA : Reliable A) (hok : Q (.ok (rs, nextAfter rs)) d)
    (hcr : Q .crash d) : wp A (loadSegments (segmentsDirOf dir)) Q d := by
  refine StoneKV.wp_loadSegments (fun xs rs' next hx ho hn => ?_) (fun e he => ?_) hcr
  · rw [h.discovered hx] at ho hn
    rw [h.opens ho]
    have hnext : nextGeneration (rs.map fun r => (r.generation, r.path)) = .ok (nextAfter rs) := by
      rcases rs with _ | ⟨r, rs⟩
      · rfl
      · rw [nextGeneration, List.map_cons, List.head?_cons]
        dsimp only
        rw [checkedAdd_of_lt (h.below r List.mem_cons_self), okOr_some]
        rfl
    rw [hnext] at hn
    cases hn
    exact hok
  · rcases he with he | ⟨n, hn⟩
    · exact absurd h.loadable he
    · exact absurd hn (hA.fail n)

/-- The segments of a settled directory. -/
theorem Settled.loads (h : Settled D gs L) : Loads dir D (readersOf dir gs L) := by
  have hlists : ∀ r ∈ readersOf dir gs L, ∃ es, Lists dir D r es := fun r hr => by
    obtain ⟨es, -, hes⟩ := exists_of_forall₂ h.holds.lists hr
    exact ⟨es, hes⟩
  have hgens : (readersOf dir gs L).map SegmentReader.generation = gs :=
    generations_readersOf h.holds.length_eq
  have hnames : (readersOf dir gs L).map fileName = gs.map segmentFilename :=
    fileNames_readersOf h.holds.length_eq
  refine ⟨fun r hr => ?_, fun r hr => ?_, fun r hr => ?_, fun r hr => ?_, ?_, fun r hr => ?_,
    fun n hn _ => ?_⟩
  · obtain ⟨es, hes⟩ := hlists r hr
    exact hes.path
  · obtain ⟨es, hes⟩ := hlists r hr
    exact hes.parse
  · obtain ⟨es, hes⟩ := hlists r hr
    exact hes.file
  · obtain ⟨es, hes⟩ := hlists r hr
    exact hes.opened
  · rw [← List.pairwise_map (f := SegmentReader.generation) (R := fun a b => b < a), hgens]
    exact h.holds.decreasing
  · refine h.holds.lt _ ?_
    rw [← hgens]
    exact List.mem_map_of_mem hr
  · have hmem := h.only n hn
    rw [← hnames] at hmem
    exact List.mem_map.mp hmem

theorem nextAfter_readersOf (h : gs.length = L.length) : nextAfter (readersOf dir gs L) = nextOf gs := by
  rcases gs with _ | ⟨g, gs⟩ <;> rcases L with _ | ⟨es, L⟩
  · rfl
  · cases h
  · cases h
  · rfl

end Load

/-! ## Opening -/

section Open

variable {A : Fault → Prop} {dir : Path} {d : Disk} {gs : List ℕ} {L : List (List Entry)}
  {rs : List Record} {t : ℕ} {w : Option Bytes}

theorem logHolds_image (h : ∀ r ∈ rs, r.Valid) : LogHolds (some (logImage rs)) rs :=
  ⟨h, .inr ⟨[], torn_nil, by rw [List.append_nil]⟩⟩

/-- Replaying the log. It is then without a torn tail. -/
theorem wp_replayLog {Q : Outcome StoneError (ReplayStats × Memtable) → Disk → Prop}
    (h : LogHolds (dirOf dir d).wal rs) (hA : Reliable A)
    (hok : ∀ stats w d', (w = none ∧ rs = []) ∨ w = some (logImage rs) →
      dirOf dir d' = (dirOf dir d).setWal w → Q (.ok (stats, memtableOf rs)) d')
    (hcr : ∀ w d', LogHolds w rs → dirOf dir d' = (dirOf dir d).setWal w → Q .crash d') :
    wp A (Prog.withLocal Memtable.new (Wal.replay applyRecord (walPathOf dir))) Q d := by
  have hcut : ∀ hl, dirOf dir (d.put (walPathOf dir) (logImage rs) hl) =
      (dirOf dir d).setWal (some (logImage rs)) := fun hl => by
    rw [dirOf_setWal Disk.touched_put, Disk.read_put, if_pos rfl]
  refine wp_withLocal ?_
  have hkept : ∀ m, Outcome.inLocal Q .crash (m, d) := fun m => hcr _ d h (Dir.setWal_wal).symm
  rcases h.bytes with ⟨hnone, rfl⟩ | ⟨t, ht, hlog⟩
  · exact Wal.wp_replay_none hnone hA (hok _ _ d (.inl ⟨hnone, rfl⟩) (Dir.setWal_wal).symm) (hkept _)
  · exact Wal.wp_replay hlog h.valid ht.decode hA (fun hl => hok _ _ _ (.inr rfl) (hcut hl)) hkept
      fun _ hl => hcr _ _ (logHolds_image h.valid) (hcut hl)

/-- **Opening** a directory that recovery makes into `D` without failures: the segments of `D` are
loaded and the records of the log are in the memtable. -/
theorem wp_openRecovered {D : Dir} {readers : List SegmentReader}
    {Q : Outcome StoneError Store → Disk → Prop}
    (hrec : ∀ {R : Outcome StoneError Unit → Disk → Prop},
      (∀ d', dirOf dir d' = D → R (.ok ()) d') → (∀ d', Q .crash d' → R .crash d') →
      wp A (recoverPendingCompaction (segmentsDirOf dir)) R d)
    (hloads : Loads dir D readers) (hl : LogHolds D.wal rs) (hA : Reliable A)
    (hok : ∀ d', dirOf dir d' = D.setWal (some (logImage rs)) →
      Q (.ok ⟨dir, ⟨walPathOf dir⟩, memtableOf rs, readers, nextAfter readers, t⟩) d')
    (hstart : Q .crash d)
    (hcr : ∀ w d', LogHolds w rs → dirOf dir d' = D.setWal w → Q .crash d') :
    wp A (Store.openWithThreshold dir t) Q d := by
  refine wp_bind (Fs.wp_touch ?_ (fun n hn => absurd hn (hA.fail n)) fun _ _ => hstart)
  refine wp_bind (Fs.wp_touch ?_ (fun n hn => absurd hn (hA.fail n)) fun _ _ => hstart)
  refine wp_bind (hrec (fun d₁ hd₁ => ?_) fun d' hd' => hd')
  have hend : ∀ d', dirOf dir d' = D → Q .crash d' := fun d' hd' =>
    hcr _ d' hl (hd'.trans Dir.setWal_wal.symm)
  refine wp_bind (wp_removeStaleTempFiles hA (fun d₂ hd₂ => ?_) fun d₂ hd₂ => hend d₂ (hd₂.trans hd₁))
  replace hd₂ := hd₂.trans hd₁
  rw [← hd₂] at hloads hl
  refine wp_bind (hloads.wp_loadSegments hA ?_ (hend d₂ hd₂))
  refine wp_bind (wp_replayLog hl hA (fun stats w d₃ hw hd₃ => ?_) fun w d₃ hw hd₃ => ?_)
  · rw [hd₂] at hd₃
    have hwal : d₃.read (walPathOf dir) = w := by rw [← dirOf_wal, hd₃, Dir.wal_setWal]
    refine wp_bind (wp_openWal (fun hn => ?_) (fun hs => ?_) (fun ⟨n, hn⟩ => absurd hn (hA.fail n)) ?_)
    · rw [hwal] at hn
      subst hn
      rcases hw with ⟨-, rfl⟩ | hw
      · refine wp_pure (hok _ ?_)
        rw [dirOf_setWal Disk.touched_put, Disk.read_put, if_pos rfl, hd₃, Dir.setWal_setWal]
        rfl
      · cases hw
    · rw [hwal] at hs
      rcases hw with ⟨rfl, -⟩ | rfl
      · cases hs
      · exact wp_pure (hok _ hd₃)
    · refine hcr w d₃ ?_ hd₃
      rcases hw with hw | rfl
      · exact ⟨hl.valid, .inl hw⟩
      · exact logHolds_image hl.valid
  · rw [hd₂] at hd₃
    exact hcr w d₃ hw hd₃

/-- **Opening.** Without failures the directory opens as the store that it can be recovered to, and
then holds just that; and when the process dies in `open` it can still be recovered to the same. -/
theorem wp_openWithThreshold {Q : Outcome StoneError Store → Disk → Prop}
    (h : Recoverable (dirOf dir d) gs L) (hl : LogHolds (dirOf dir d).wal rs) (hA : Reliable A)
    (hok : ∀ d', dirOf dir d' = ((dirOf dir d).only gs).setWal (some (logImage rs)) →
      Q (.ok (storeOf dir gs L rs t)) d')
    (hcr : ∀ d', Recoverable (dirOf dir d') gs L → LogHolds (dirOf dir d').wal rs → Q .crash d') :
    wp A (Store.openWithThreshold dir t) Q d := by
  have hloads : Loads dir ((dirOf dir d).only gs) (readersOf dir gs L) := h.settled.loads
  refine wp_openRecovered (fun hok hcr' => ?_) hloads hl hA (fun d' hd' => ?_) (hcr d h hl)
    fun w d' hw hd' => ?_
  · exact wp_recoverPendingCompaction h hA hok fun d' hd' hw =>
      hcr' d' (hcr d' hd' (by rw [hw]; exact hl))
  · rw [nextAfter_readersOf h.holds.images.length_eq]
    exact hok d' hd'
  · have hsettled := h.settled.setWal w
    rw [← hd'] at hsettled
    exact hcr d' hsettled.recoverable (by rw [hd']; exact hw)

end Open

end StoneKV
