import StoneKV.Recovered
import StoneKV.Calls

/-!
# Opening a store

* **`served_of_opens`**: a store whose segments were loaded serves them.
* `Dir.Sane`: every file of the directory but the marker is a segment as the store writes them;
  **`CallStep.sane`**: it stays so, whatever fails.
* `OpenKeeps P`: nothing that `open` does to a directory takes the property `P` from it;
  **`wp_openWithThreshold_keeps`**: then `open` keeps it, and returns a store that serves its segments.
-/

namespace StoneKV

open FaultProg

/-! ## The loaded segments -/

section Opens

variable {dir : Path} {d : Disk} {xs : List (ℕ × Path)} {rs : List SegmentReader} {g next t : ℕ}
  {p : Path} {m : Memtable} {L : List (List Entry)} {r : SegmentReader} {es : List Entry}

theorem Opens.generation (h : Opens d (g, p) r) : r.generation = g ∧ r.path = p := by
  obtain ⟨b, -, hr⟩ := h
  obtain ⟨i, is, -, rfl⟩ := SegmentReader.openIn_eq_ok.mp hr
  exact ⟨rfl, rfl⟩

theorem generations_of_opens (h : List.Forall₂ (Opens d) xs rs) :
    rs.map SegmentReader.generation = xs.map Prod.fst := by
  induction h with
  | nil => rfl
  | @cons x r xs rs hr _ ih => rw [List.map_cons, List.map_cons, ih, hr.generation.1]

/-- An open file of the directory is listed. -/
theorem Discovered.lists (hx : Discovered d (segmentsDirOf dir) xs) (hmem : (g, p) ∈ xs)
    (hr : Opens d (g, p) r) (hs : r.Sound es) : Lists dir (dirOf dir d) r es := by
  obtain ⟨n, -, hparse, rfl⟩ := (hx.mem g p).mp hmem
  obtain ⟨b, hb, hopen⟩ := hr
  obtain ⟨i, is, hc, rfl⟩ := SegmentReader.openIn_eq_ok.mp hopen
  have hname : fileName ⟨b, segmentsDirOf dir ++ [n], g, is, SEGMENT_HEADER_SIZE, i⟩ = n :=
    List.getLastD_concat
  refine ⟨?_, ?_, ?_, hopen, hs⟩
  · rw [hname]
  · rw [hname]
    exact hparse
  · rw [hname, dirOf_files (not_isScratchName_of_parse hparse)]
    exact hb

/-- The segments of a directory are below the next generation. -/
theorem lt_of_nextGeneration (hdec : xs.Pairwise fun a b => b.1 < a.1)
    (hn : nextGeneration xs = .ok next) : (∀ g ∈ xs.map Prod.fst, g < next) ∧ next < u64Size := by
  unfold nextGeneration at hn
  rcases xs with _ | ⟨⟨g, p⟩, xs⟩
  · cases hn
    exact ⟨by simp, by decide⟩
  · simp only [List.head?_cons, okOr_eq_ok, checkedAdd_eq_some] at hn
    obtain ⟨rfl, hlt⟩ := hn
    refine ⟨fun g' hg' => ?_, hlt⟩
    rw [List.map_cons, List.mem_cons, List.mem_map] at hg'
    rcases hg' with rfl | ⟨x, hx, rfl⟩
    · exact Nat.lt_succ_self _
    · exact ((List.pairwise_cons.mp hdec).1 x hx).trans (Nat.lt_succ_self _)

/-- **A store whose segments were loaded serves them**, with any log. -/
theorem served_of_opens (hx : Discovered d (segmentsDirOf dir) xs)
    (ho : List.Forall₂ (Opens d) xs rs) (hn : nextGeneration xs = .ok next)
    (hs : List.Forall₂ (fun r es => r.Sound es) rs L) (hm : ∀ e ∈ m.iter, (toRecord e).Valid)
    (w : Bytes) :
    Served dir ⟨dir, ⟨walPathOf dir⟩, m, rs, next, t⟩ ((dirOf dir d).setWal (some w)) L := by
  have hgen := generations_of_opens ho
  obtain ⟨hbelow, hlt⟩ := lt_of_nextGeneration hx.decreasing hn
  refine ⟨rfl, rfl, rfl, hm, ?_, ?_, fun r hr => ?_, hlt⟩
  · have hlen : xs.length = rs.length := ho.length_eq
    rw [List.forall₂_iff_get] at ho hs ⊢
    refine ⟨hs.1, fun i hi hj => ?_⟩
    exact (hx.lists (List.get_mem _ _) (ho.2 i (hlen ▸ hi) hi) (hs.2 i hi hj)).congr rfl
  · rw [← List.pairwise_map (f := SegmentReader.generation) (R := fun a b => b < a), hgen,
      List.pairwise_map]
    exact hx.decreasing
  · refine hbelow _ ?_
    rw [← hgen]
    exact List.mem_map_of_mem hr

end Opens

/-! ## Sane directories -/

/-- Every file but the marker is a segment as the store writes them, under the name of its
generation. -/
def Dir.Sane (D : Dir) : Prop :=
  ∀ n b, D.files n = some b → n = COMPACTION_MARKER_FILE ∨
    ∃ g es, n = segmentFilename g ∧ g < u64Size ∧ Storable es ∧ b = segmentImage es

section Sane

variable {A : Fault → Prop} {dir : Path} {s s' : Store} {D D' : Dir} {L : List (List Entry)}
  {es : List Entry} {c : Call} {o : Outcome StoneError Unit} {r : Record} {v : Option Bytes}

/-- Removals keep a directory sane. -/
theorem Dir.Sane.anti (h : D.Sane) (hD : ∀ n, D'.files n = D.files n ∨ D'.files n = none) :
    D'.Sane := by
  intro n b hb
  rcases hD n with hn | hn
  · exact h n b (hn.symm.trans hb)
  · rw [hn] at hb
    cases hb

theorem Dir.Below.anti (h : D.Below) (hD : ∀ n, D'.files n = D.files n ∨ D'.files n = none) :
    D'.Below := by
  rcases hD (segmentFilename (u64Size - 1)) with hn | hn
  · exact hn.trans h
  · exact hn

theorem Dir.Sane.drop (h : D.Sane) (ns : List Name) : (D.drop ns).Sane :=
  h.anti fun n => by
    rw [Dir.files_drop]
    split_ifs
    · exact .inr rfl
    · exact .inl rfl

theorem Dir.Sane.put_marker (h : D.Sane) : (D.put COMPACTION_MARKER_FILE v).Sane := by
  intro n b hb
  rw [Dir.files_put] at hb
  split_ifs at hb with hn
  · exact .inl hn
  · exact h n b hb

theorem Dir.Sane.put_next (h : D.Sane) (hs : s.nextSegmentGeneration < u64Size)
    (hv : v = D.files s.nextName ∨ v = none ∨ ∃ es, v = some (segmentImage es) ∧ Storable es) :
    (D.put s.nextName v).Sane := by
  intro n b hb
  rw [Dir.files_put] at hb
  split_ifs at hb with hn
  · rcases hv with rfl | rfl | ⟨es, rfl, hstor⟩
    · rw [← hn] at hb
      exact h n b hb
    · cases hb
    · cases hb
      exact .inr ⟨_, es, hn, hs, hstor, rfl⟩
  · exact h n b hb

theorem FlushStep.sane (hs : FlushStep A s D o s' D') (h : Writable dir s D) (hb : D'.Bounded)
    (hsane : D.Sane) : D'.Sane := by
  have hput : (D.put s.nextName (some (segmentImage s.memtable.iter))).Bounded →
      (D.put s.nextName (some (segmentImage s.memtable.iter))).Sane := fun hb =>
    hsane.put_next h.next_lt (.inr (.inr ⟨_, rfl, h.storable_iter hb.put_next⟩))
  cases hs with
  | empty _ => exact hsane
  | aborted _ hv _ =>
    rcases hv with rfl | rfl | rfl
    · exact hsane.put_next h.next_lt (.inl rfl)
    · exact hsane.put_next h.next_lt (.inr (.inl rfl))
    · exact hput hb
  | exhausted _ _ => exact hput hb
  | installed _ _ _ _ => exact hput hb
  | done _ _ => exact hput hb

theorem MergeStep.sane (hs : MergeStep A s D (merged L) o s' D') (h : Served dir s D L)
    (hb : D'.Bounded) (hsane : D.Sane) : D'.Sane := by
  have hput : (segmentImage (merged L)).length ≤ maxFileLen → (D.replacing s (merged L)).Sane :=
    fun hlen => (hsane.put_next h.next_lt (.inr (.inr ⟨_, rfl, h.storable_merged hlen⟩))).put_marker
  cases hs with
  | refused _ _ => exact hsane
  | failed _ => exact hsane
  | @aborted _ μ v _ _ _ hv =>
    refine Dir.Sane.put_marker ?_
    rcases hv with rfl | rfl | rfl
    · exact hsane.put_next h.next_lt (.inl rfl)
    · exact hsane.put_next h.next_lt (.inr (.inl rfl))
    · refine hsane.put_next h.next_lt (.inr (.inr ⟨_, rfl, h.storable_merged (hb s.nextName _ ?_)⟩))
      rw [Dir.files_put, if_neg s.nextName_ne_marker, Dir.files_put_self]
  | exhausted _ _ => exact hput (hb s.nextName _ Dir.files_replacing_next)
  | installed _ _ hpre _ => exact (hput (hb s.nextName _ (h.files_installed _ hpre))).drop _
  | done _ _ => exact ((hput (hb s.nextName _ (h.files_done _))).drop s.fileNames).put_marker

theorem CompactStep.sane (hs : CompactStep A s D L o s' D') (h : Served dir s D L) (hb : D'.Bounded)
    (hsane : D.Sane) : D'.Sane := by
  cases hs with
  | unflushed hflush _ => exact hflush.sane h.writable hb hsane
  | short hflush _ _ => exact hflush.sane h.writable hb hsane
  | merging hflush hb₁ _ hmerge =>
    exact hmerge.sane (hflush.served_of_ok h hb₁).1 hb (hflush.sane h.writable hb₁ hsane)

theorem AppendStep.files (hs : AppendStep A D r o D') : D'.files = D.files := by
  cases hs <;> rfl

theorem LogStep.sane (hs : LogStep A s D r o s' D') (h : Writable dir s D) (hb : D'.Bounded)
    (hsane : D.Sane) : D'.Sane := by
  have happend : ∀ {o D'}, AppendStep A D r o D' → D'.Sane := fun ha =>
    hsane.anti fun n => .inl (by rw [ha.files])
  cases hs with
  | unlogged ha _ => exact happend ha
  | logged ha hs =>
    cases hs with
    | kept _ => exact happend ha
    | flushed _ hflush => exact hflush.sane (ha.writable_applied h) hb (happend ha)

/-- **A call keeps the directory sane.** -/
theorem CallStep.sane (hs : CallStep A s D L c o s' D') (h : Served dir s D L) (hb : D'.Bounded)
    (hsane : D.Sane) : D'.Sane := by
  cases c with
  | set _ _ => exact LogStep.sane hs h.writable hb hsane
  | delete _ => exact LogStep.sane hs h.writable hb hsane
  | get _ =>
    obtain ⟨-, rfl⟩ := hs
    exact hsane
  | compact => exact CompactStep.sane hs h hb hsane

end Sane

/-! ## Opening, whatever fails -/

section Open

variable {A : Fault → Prop} {dir : Path} {d : Disk} {D : Dir} {t : ℕ}

/-- A sane directory without a segment of the last generation. -/
structure Dir.Usable (D : Dir) : Prop where
  sane : D.Sane
  below : D.Below

theorem Dir.Usable.within {D' : Dir} (h : D.Usable) (hD : D'.Within D) : D'.Usable :=
  ⟨h.sane.anti hD.files, h.below.anti hD.files⟩

theorem Dir.Usable.setWal (h : D.Usable) (w : Option Bytes) : (D.setWal w).Usable := ⟨h.sane, h.below⟩

theorem exists_forall₂ {α β : Type} {R : α → β → Prop} : ∀ {as : List α}, (∀ a ∈ as, ∃ b, R a b) →
    ∃ bs, List.Forall₂ R as bs
  | [], _ => ⟨[], .nil⟩
  | a :: as, h => by
    obtain ⟨b, hb⟩ := h a List.mem_cons_self
    obtain ⟨bs, hbs⟩ := exists_forall₂ fun x hx => h x (List.mem_cons_of_mem _ hx)
    exact ⟨b :: bs, .cons hb hbs⟩

/-- The segments of a sane directory hold what they are images of. -/
theorem sound_of_sane {xs : List (ℕ × Path)} {rs : List SegmentReader}
    (hsane : (dirOf dir d).Sane) (hx : Discovered d (segmentsDirOf dir) xs)
    (ho : List.Forall₂ (Opens d) xs rs) : ∃ L, List.Forall₂ (fun r es => r.Sound es) rs L := by
  have hsound : ∀ r ∈ rs, ∃ es, r.Sound es := fun r hr => by
    obtain ⟨x, hx', b, hb, hopen⟩ := exists_of_forall₂ ho.flip hr
    obtain ⟨n, -, hparse, hp⟩ := (hx.mem _ _).mp hx'
    rw [hp, ← dirOf_files (not_isScratchName_of_parse hparse)] at hb
    rcases hsane n b hb with rfl | ⟨g, es, -, -, hstor, rfl⟩
    · exact absurd rfl (ne_marker_of_parse hparse)
    · exact ⟨es, (hstor.faithful _).sound hopen⟩
  exact exists_forall₂ hsound

/-- Opening the log creates it if it is not there. -/
theorem wp_openWal {path : Path} {Q : Outcome StoneError Wal → Disk → Prop}
    (hnew : d.read path = none → Q (.ok ⟨path⟩) (d.put path [] (Nat.zero_le _)))
    (hold : (d.read path).isSome → Q (.ok ⟨path⟩) d) (herr : CanFail A → Q (.err (.io .other)) d)
    (hcr : Q .crash d) : wp A (Wal.open path) Q d := by
  have hcreate : wp A (do
      Fs.openCreate path
      return (⟨path⟩ : Wal) : Io Wal) Q d :=
    wp_bind (Fs.wp_openCreate (fun hn => wp_pure (hnew hn)) (fun hs => wp_pure (hold hs))
      (fun n hn => herr ⟨n, hn⟩) fun _ _ => hcr)
  unfold Wal.open
  split_ifs
  · exact wp_bind (Fs.wp_touch hcreate (fun n hn => herr ⟨n, hn⟩) fun _ _ => hcr)
  · exact hcreate

/-- What `open_with_threshold` does once the directory is tidied. -/
def Store.loadTidied (dir : Path) (t : ℕ) : Io Store := do
  let (segments, nextSegmentGeneration) ← loadSegments (segmentsDirOf dir)
  let walPath := walPathOf dir
  let (_stats, memtable) ← Prog.withLocal Memtable.new (Wal.replay applyRecord walPath)
  let wal ← Wal.open walPath
  return ⟨dir, wal, memtable, segments, nextSegmentGeneration, t⟩

theorem Store.openWithThreshold_eq : Store.openWithThreshold dir t = (do
    Fs.touch
    Fs.touch
    recoverPendingCompaction (segmentsDirOf dir)
    removeStaleTempFiles (segmentsDirOf dir)
    Store.loadTidied dir t) := rfl

/-- A property that `open` keeps of sane directories. -/
structure OpenKeeps (P : Dir → Prop) : Prop where
  sane : ∀ {D}, P D → D.Sane
  within : ∀ {D D'}, P D → D'.Within D → P D'
  setWal : ∀ {D} w, P D → P (D.setWal w)

theorem openKeeps_usable : OpenKeeps Dir.Usable :=
  ⟨Dir.Usable.sane, Dir.Usable.within, fun w h => Dir.Usable.setWal h w⟩

/-- The directory has the property `P`; and if a store is returned, it serves the directory. -/
def KeepsAndServes (P : Dir → Prop) (dir : Path) (o : Outcome StoneError Store) (d : Disk) : Prop :=
  P (dirOf dir d) ∧ ∀ s, o = .ok s → ∃ L, Served dir s (dirOf dir d) L

section Keeps

variable {P : Dir → Prop}

theorem keepsAndServes_err {e : StoneError} (h : P (dirOf dir d)) :
    KeepsAndServes P dir (.err e) d := ⟨h, fun _ hs => by cases hs⟩

theorem keepsAndServes_crash (h : P (dirOf dir d)) : KeepsAndServes P dir .crash d :=
  ⟨h, fun _ hs => by cases hs⟩

theorem keepsAndServes_ok {s : Store} {L : List (List Entry)} (h : P (dirOf dir d))
    (hs : Served dir s (dirOf dir d) L) : KeepsAndServes P dir (.ok s) d :=
  ⟨h, fun _ heq => by
    cases heq
    exact ⟨L, hs⟩⟩

theorem wp_loadTidied (hP : OpenKeeps P) (h : P (dirOf dir d)) :
    wp A (Store.loadTidied dir t) (KeepsAndServes P dir) d := by
  refine wp_bind (wp_loadSegments (fun xs rs next hx ho hn => ?_) (fun _ _ => keepsAndServes_err h)
    (keepsAndServes_crash h))
  obtain ⟨L, hL⟩ := sound_of_sane (hP.sane h) hx ho
  have hreplay : wp A (Wal.replay applyRecord (walPathOf dir)) _ _ :=
    Wal.wp_replay_any (d := d) (I := fun m => ∀ e ∈ m.iter, (toRecord e).Valid) (b := .new)
    (fun m r hr hm => valid_applyRecord hm (by rwa [← toRecord_toEntry_stored, toRecord_toEntry hr]))
    fun e he => by
      obtain ⟨k, v⟩ := e
      rw [Memtable.mem_iter, Memtable.get_new] at he
      cases he
  have hwal : ∀ {d'}, d.Touched (walPathOf dir) d' → P (dirOf dir d') := fun ht => by
    rw [dirOf_setWal ht]
    exact hP.setWal _ h
  refine wp_bind (wp_withLocal (hreplay.mono ?_))
  rintro (_ | _ | _) ⟨m, d'⟩ ⟨hm, ht⟩
  · have hserved : ∀ w, Served dir ⟨dir, ⟨walPathOf dir⟩, m, rs, next, t⟩
        ((dirOf dir d).setWal (some w)) L := served_of_opens hx ho hn hL hm
    refine wp_bind (wp_openWal (fun _ => wp_pure ?_) (fun hs => wp_pure ?_)
      (fun _ => keepsAndServes_err (hwal ht)) (keepsAndServes_crash (hwal ht)))
    · have hd'' := dirOf_setWal (ht.trans (Disk.touched_put (b := []) (h := Nat.zero_le _)))
      rw [Disk.read_put, if_pos rfl] at hd''
      refine keepsAndServes_ok (L := L) ?_ ?_ <;> rw [hd'']
      · exact hP.setWal _ h
      · exact hserved _
    · obtain ⟨w, hw⟩ := Option.isSome_iff_exists.mp hs
      refine keepsAndServes_ok (L := L) ?_ ?_ <;> rw [dirOf_setWal ht, hw]
      · exact hP.setWal _ h
      · exact hserved _
  · exact keepsAndServes_err (hwal ht)
  · exact keepsAndServes_crash (hwal ht)

/-- **Opening a sane directory.** Whatever fails, the directory keeps its property; and when `open`
returns, the store serves the segments that are there. -/
theorem wp_openWithThreshold_keeps (hP : OpenKeeps P) (h : P (dirOf dir d)) :
    wp A (Store.openWithThreshold dir t) (KeepsAndServes P dir) d := by
  rw [Store.openWithThreshold_eq]
  refine wp_bind (Fs.wp_touch ?_ (fun _ _ => keepsAndServes_err h) fun _ _ => keepsAndServes_crash h)
  refine wp_bind (Fs.wp_touch ?_ (fun _ _ => keepsAndServes_err h) fun _ _ => keepsAndServes_crash h)
  refine FaultProg.wp.bind (wp_recoverPendingCompaction_within (.refl _)) (fun _ d₁ hw₁ => ?_)
    (fun _ _ hw => keepsAndServes_err (hP.within h hw)) fun _ hw =>
      keepsAndServes_crash (hP.within h hw)
  have h₁ := hP.within h hw₁
  exact FaultProg.wp.bind (wp_removeStaleTempFiles_within (.refl _))
    (fun _ d₂ hw₂ => wp_loadTidied hP (hP.within h₁ hw₂))
    (fun _ _ hw => keepsAndServes_err (hP.within h₁ hw)) fun _ hw =>
      keepsAndServes_crash (hP.within h₁ hw)

end Keeps

/-- The directory is usable; and if a store is returned, it serves the directory. -/
def ServesIfOk (dir : Path) (o : Outcome StoneError Store) (d : Disk) : Prop :=
  (dirOf dir d).Usable ∧ ∀ s, o = .ok s → ∃ L, Served dir s (dirOf dir d) L

/-- **Opening a usable directory.** -/
theorem wp_openWithThreshold_sane (h : (dirOf dir d).Usable) :
    wp A (Store.openWithThreshold dir t) (ServesIfOk dir) d :=
  wp_openWithThreshold_keeps openKeeps_usable h

end Open

end StoneKV
