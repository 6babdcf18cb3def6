import StoneKV.History

/-!
# Generations are not used twice

* `Ages D D'`: from `D` to `D'` the segments keep their bytes until they are removed, and a generation
  that was given out is not given out again.
* **`CallStep.ages`**, `Resumes.ages_open`: a call and an opening without failures.
* `Later A B dir x d`: what can be reached from `x` and `d` on.
* **`generations_never_reused`**: over calls, crashes and openings.
-/

namespace StoneKV

open FaultProg

/-- The bytes of the segment with the generation `g`. -/
def Dir.segment (D : Dir) (g : ℕ) : Option Bytes := D.files (segmentFilename g)

/-- The bytes under the generations up to the newest one stay, or are removed; and what is removed is
not newer than all that is left. -/
structure Ages (D D' : Dir) : Prop where
  kept : ∀ g g', g ≤ g' → (D.segment g').isSome → D'.segment g = D.segment g ∨ D'.segment g = none
  covered : ∀ g, (D.segment g).isSome → ∃ g', g ≤ g' ∧ (D'.segment g').isSome

/-- All segments have generations below the next one of the store. -/
def Store.Newest (s : Store) (D : Dir) : Prop := ∀ g, (D.segment g).isSome → g < s.nextSegmentGeneration

section Ages

variable {D D' D'' : Dir} {s s' : Store} {A : Fault → Prop} {o : Outcome StoneError Unit} {r : Record}
  {es : List Entry} {dir : Path} {gs : List ℕ} {L : List (List Entry)} {rs : List Record} {t : ℕ}
  {c : Call} {v : Option Bytes} {g : ℕ}

theorem Ages.refl (D : Dir) : Ages D D := ⟨fun _ _ _ _ => .inl rfl, fun g hg => ⟨g, le_rfl, hg⟩⟩

theorem Ages.trans (h : Ages D D') (h' : Ages D' D'') : Ages D D'' := by
  refine ⟨fun g g' hle hg' => ?_, fun g hg => ?_⟩
  · obtain ⟨g'', hle', hg''⟩ := h.covered g' hg'
    rcases h'.kept g g'' (hle.trans hle') hg'' with heq | hnone
    · rw [heq]
      exact h.kept g g' hle hg'
    · exact .inr hnone
  · obtain ⟨g', hle, hg'⟩ := h.covered g hg
    obtain ⟨g'', hle', hg''⟩ := h'.covered g' hg'
    exact ⟨g'', hle.trans hle', hg''⟩

/-- The log does not matter. -/
theorem Ages.setWal (h : Ages D D') (w : Option Bytes) : Ages D (D'.setWal w) := ⟨h.kept, h.covered⟩

/-- Older segments stay, or are removed when there is one with the next generation. -/
theorem Store.Newest.ages (h : s.Newest D) (hfiles : ∀ g, g < s.nextSegmentGeneration →
    D'.segment g = D.segment g ∨
      (D'.segment g = none ∧ (D'.segment s.nextSegmentGeneration).isSome)) : Ages D D' := by
  refine ⟨fun g g' hle hg' => ?_, fun g hg => ?_⟩
  · exact (hfiles g (hle.trans_lt (h g' hg'))).imp_right And.left
  · rcases hfiles g (h g hg) with heq | ⟨-, hnext⟩
    · exact ⟨g, le_rfl, heq ▸ hg⟩
    · exact ⟨_, (h g hg).le, hnext⟩

theorem segment_put_next (h : g < s.nextSegmentGeneration) :
    (D.put s.nextName v).segment g = D.segment g := by
  rw [Dir.segment, Dir.files_put, if_neg]
  · rfl
  · exact fun heq => h.ne (segmentFilename_injective heq)

theorem segment_put_marker : (D.put COMPACTION_MARKER_FILE v).segment g = D.segment g := by
  rw [Dir.segment, Dir.files_put, if_neg segmentFilename_ne_marker]
  rfl

theorem FlushStep.ages (hs : FlushStep A s D o s' D') (h : s.Newest D) : Ages D D' := by
  have hput : ∀ v, Ages D (D.put s.nextName v) := fun v => h.ages fun _ hg => .inl (segment_put_next hg)
  cases hs with
  | empty _ => exact .refl D
  | aborted _ _ _ => exact hput _
  | exhausted _ _ => exact hput _
  | installed _ _ _ _ => exact (hput _).setWal _
  | done _ _ => exact (hput _).setWal _

theorem MergeStep.ages (hs : MergeStep A s D es o s' D') (h : s.Newest D) (hserved : Served dir s D L) :
    Ages D D' := by
  have hput : ∀ v μ, Ages D ((D.put s.nextName v).put COMPACTION_MARKER_FILE μ) := fun v μ =>
    h.ages fun g hg => .inl (segment_put_marker.trans (segment_put_next hg))
  have hdrop : ∀ olds, olds <+: s.fileNames → Ages D ((D.replacing s es).drop olds) := fun olds hpre => by
    refine h.ages fun g hg => ?_
    rw [Dir.segment, Dir.files_drop]
    split_ifs
    · refine .inr ⟨rfl, ?_⟩
      rw [Dir.segment]
      exact Option.isSome_iff_exists.mpr ⟨_, hserved.files_installed es hpre⟩
    · exact .inl (segment_put_marker.trans (segment_put_next hg))
  cases hs with
  | refused _ _ => exact .refl D
  | failed _ => exact .refl D
  | aborted _ _ _ _ => exact hput _ _
  | exhausted _ _ => exact hput _ _
  | installed _ _ hpre _ => exact hdrop _ hpre
  | done _ _ =>
    refine (hdrop _ (List.prefix_refl _)).trans ⟨fun g g' _ _ => .inl segment_put_marker, fun g hg => ?_⟩
    exact ⟨g, le_rfl, by rwa [segment_put_marker]⟩

theorem Live.newest (h : Live dir s D gs L rs t) : s.Newest D := by
  intro g hg
  have hmem := mem_segments.mp (h.settled.only _ hg)
  have hgens : (readersOf dir gs L).map SegmentReader.generation = gs :=
    generations_readersOf h.settled.holds.length_eq
  rw [← hgens, ← h.backed.segments] at hmem
  obtain ⟨r, hr, rfl⟩ := List.mem_map.mp hmem
  exact h.backed.served.below r hr

theorem AppendStep.segment_eq (hs : AppendStep A D r o D') : D'.segment = D.segment := by
  cases hs <;> rfl

theorem LogStep.ages (hs : LogStep A s D r o s' D') (h : s.Newest D) : Ages D D' := by
  have hsame : ∀ {o : Outcome StoneError Unit} {D₁ : Dir}, AppendStep A D r o D₁ → Ages D D₁ :=
    fun happend => ⟨fun g _ _ _ => .inl (congrFun happend.segment_eq g), fun g hg =>
      ⟨g, le_rfl, by rwa [happend.segment_eq]⟩⟩
  cases hs with
  | unlogged happend _ => exact hsame happend
  | logged happend happlied =>
    cases happlied with
    | kept _ => exact hsame happend
    | flushed _ hflush =>
      refine (hsame happend).trans (hflush.ages fun g hg => ?_)
      rw [happend.segment_eq] at hg
      exact h g hg

theorem CompactStep.ages (hs : CompactStep A s D L o s' D') (h : Live dir s D gs L rs t) :
    Ages D D' := by
  cases hs with
  | unflushed hflush _ => exact hflush.ages h.newest
  | short hflush _ _ => exact hflush.ages h.newest
  | merging hflush hb₁ _ hmerge =>
    obtain ⟨gs₁, rs₁, h₁⟩ := hflush.live h hb₁
    exact (hflush.ages h.newest).trans (hmerge.ages h₁.newest h₁.backed.served)

/-- **A call**, however it ends. -/
theorem CallStep.ages (hs : CallStep A s D L c o s' D') (h : Live dir s D gs L rs t) : Ages D D' := by
  cases c with
  | set key val => exact LogStep.ages hs h.newest
  | delete key => exact LogStep.ages hs h.newest
  | get key =>
    obtain ⟨-, rfl⟩ : s' = s ∧ D' = D := hs
    exact .refl _
  | compact => exact CompactStep.ages hs h

/-! ## Opening -/

/-- The generations that recovery keeps are the newest ones. -/
theorem Recoverable.covers (h : Recoverable D gs L) (hg : (D.segment g).isSome) : ∃ g' ∈ gs, g ≤ g' := by
  have hkept : segmentFilename g ∈ gs.map segmentFilename → ∃ g' ∈ gs, g ≤ g' := fun hmem =>
    ⟨g, mem_segments.mp hmem, le_rfl⟩
  cases h.pending with
  | none honly => exact hkept (honly _ hg)
  | back _ _ _ _ honly =>
    rcases honly _ hg with hm | hmem
    · exact absurd hm segmentFilename_ne_marker
    · exact hkept hmem
  | forward _ hvalid hout _ honly =>
    rcases honly _ hg with hm | hmem | hold
    · exact absurd hm segmentFilename_ne_marker
    · exact hkept hmem
    · exact ⟨_, hout, (hvalid.old_lt g (mem_segments.mp hold)).le⟩

theorem Dir.Holds.segment_isSome (h : D.Holds gs L) (hg : g ∈ gs) : (D.segment g).isSome := by
  obtain ⟨es, -, -, hfile⟩ := h.image hg
  exact Option.isSome_iff_exists.mpr ⟨_, hfile⟩

theorem Recoverable.ages (h : Recoverable D gs L) (hwithin : ∀ n, D'.files n = D.files n ∨ D'.files n = none)
    (h' : D'.Holds gs L) : Ages D D' := by
  refine ⟨fun g _ _ _ => hwithin _, fun g hg => ?_⟩
  obtain ⟨g', hg', hle⟩ := h.covers hg
  exact ⟨g', hle, h'.segment_isSome hg'⟩

/-- **An opening** without failures, however it ends. -/
theorem Resumes.ages_open {d d' : Disk} {f : Contents} {l : List Fault} {x : Outcome StoneError Store}
    (h : Resumes (dirOf dir d) f) (husable : (dirOf dir d).Usable) (hl : ∀ e ∈ l, NoFail e)
    (hrun : (Store.openWithThreshold dir t).run d l = (x, d')) : Ages (dirOf dir d) (dirOf dir d') := by
  obtain ⟨gs, L, rs, hrec, hlog, -⟩ := h
  have hkeeps : OpenKeeps fun D => D.Usable ∧
      ∀ n, D.files n = (dirOf dir d).files n ∨ D.files n = none := by
    refine ⟨fun hD => hD.1.sane, fun hD hw => ⟨hD.1.within hw, fun n => ?_⟩,
      fun w hD => ⟨hD.1.setWal w, hD.2⟩⟩
    rcases hw.files n with heq | hnone
    · rw [heq]
      exact hD.2 n
    · exact .inr hnone
  have hwithin := ((wp_openWithThreshold_keeps (t := t) (A := NoFail) hkeeps
    ⟨husable, fun n => .inl rfl⟩).run_eq hl hrun).1.2
  have hholds : (dirOf dir d').Holds gs L := by
    refine wp.run_eq (Q := fun _ d' => (dirOf dir d').Holds gs L)
      (wp_openWithThreshold hrec hlog reliable_noFail (fun d₁ hd₁ => ?_) fun d₁ hrec₁ _ => hrec₁.holds)
      hl hrun
    rw [hd₁]
    exact hrec.settled.holds.congr fun _ _ => rfl
  exact hrec.ages hwithin hholds

end Ages

/-! ## What comes later -/

/-- What can be reached from the store `x` and the disk `d` on, as `Reachable` from nothing. -/
inductive Later (A : Fault → Prop) (B : Call → Fault → Prop) (dir : Path) (x : Option Store) (d : Disk) :
    Option Store → Disk → Prop
  | now : Later A B dir x d x d
  | opened {y : Option Store} {d' d'' : Disk} {t : ℕ} {f : List Name → List Name}
    {h : ∀ l, (f l).Perm l} {l : List Fault} {o : Outcome StoneError Store} :
    Later A B dir x d y d' → (∀ e ∈ l, A e) →
    (Store.openWithThreshold dir t).run (d'.reorder f h) l = (o, d'') →
    Later A B dir x d (openedStore o) d''
  | called {s s' : Store} {d' d'' : Disk} {c : Call} {l : List Fault} {o : Outcome StoneError Unit} :
    Later A B dir x d (some s) d' → (∀ e ∈ l, B c e) → c.method.run (s, d') l = (o, (s', d'')) →
    (∀ i, o = .err (.io i) → CanFail (B c)) → (dirOf dir d'').Below →
    Later A B dir x d (leftStore s' o) d''

/-- **Generations are not used twice.** Take what is reached without failures, and anything that is
reached from there, by calls, crashes at any point, and openings. The bytes of a segment are as they
were, or the segment was removed; a segment that was removed does not come back, nor any other under
its generation, nor any under a generation that was passed over; and there is always a segment that is
not older. -/
theorem generations_never_reused {dir : Path} {x y : Option Store} {d d' : Disk}
    (h : Reachable NoFail (fun _ => NoFail) dir x d)
    (hlater : Later NoFail (fun _ => NoFail) dir x d y d') : Ages (dirOf dir d) (dirOf dir d') := by
  suffices hall : Reachable NoFail (fun _ => NoFail) dir y d' ∧ Ages (dirOf dir d) (dirOf dir d') from
    hall.2
  induction hlater with
  | now => exact ⟨h, .refl _⟩
  | @opened y d₁ d₂ t f hf l o _ hl hrun ih =>
    obtain ⟨hreach, hages⟩ := ih
    obtain ⟨g, hg⟩ := hreach.live.1
    have hlisted : Resumes (dirOf dir (d₁.reorder f hf)) g := hg
    have husable : (dirOf dir (d₁.reorder f hf)).Usable := hreach.served.1
    exact ⟨hreach.opened hl hrun, hages.trans (hlisted.ages_open husable hl hrun)⟩
  | @called s s' d₁ d₂ c l o _ hl hrun hio hbelow ih =>
    obtain ⟨hreach, hages⟩ := ih
    obtain ⟨gs, L, rs, t, hlive⟩ := hreach.live.2 s rfl
    have hstep : CallStep NoFail s (dirOf dir d₁) L c o s' (dirOf dir d₂) :=
      (wp_call hlive.backed.served c).run_eq hl hrun
    exact ⟨hreach.called hl hrun hio hbelow, hages.trans (hstep.ages hlive)⟩

/-- A compaction of two segments. -/
theorem generations_never_reused_compact :
    Ages (dirOf [['d']] twoSegments.2) (dirOf [['d']] (Call.compact.method.run twoSegments []).2.2) :=
  generations_never_reused (cleanRun_twoSegments.reachable reachable_eagerStore)
    (.called (c := .compact) (l := []) (o := .ok ()) .now (by simp)
      (Prod.fst_eq_iff.mp (by decide +kernel)) nofun (by decide +kernel))

end StoneKV
