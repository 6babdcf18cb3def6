import StoneKV.Sessions
import StoneKV.Opened

/-!
# Crashes

* `Life P dir x d m p`: what is reached from an empty directory when the process may die anywhere; `m`
  is what the acknowledged operations make of the store, `p` the operation that was in flight.
* **`life_recovers`**: the next `open` returns, and the store holds `m`, or `m` with `p` done.
* **`exhausted_life_lost`**: not if a segment may have the last generation.
-/

namespace StoneKV

open FaultProg

/-- What `get` answers in an open store. -/
def answersOf (y : Store × Disk) : Contents := fun k =>
  match (Store.get k).run y [] with
  | (.ok v, _) => v
  | _ => none

/-- What is reached from an empty directory: the open store, if there is one, and the disk; what the
acknowledged operations make of the store; and the operation that was in flight when the process last
died, if it was not opened since. No call fails. The directory has the property `P` after each call.
-/
inductive Life (P : Dir → Prop) (dir : Path) :
    Option Store → Disk → Contents → Option Call → Prop
  | fresh {d : Disk} : Fresh dir d → Life P dir none d (fun _ => none) none
  | opened {x : Option Store} {d d' : Disk} {m : Contents} {p : Option Call} {t : ℕ}
    {f : List Name → List Name} {h : ∀ l, (f l).Perm l} {l : List Fault} {s : Store} :
    Life P dir x d m p → (∀ e ∈ l, NoFail e) →
    (Store.openWithThreshold dir t).run (d.reorder f h) l = (.ok s, d') →
    Life P dir (some s) d' (answersOf (s, d')) none
  | openDied {x : Option Store} {d d' : Disk} {m : Contents} {p : Option Call} {t : ℕ}
    {f : List Name → List Name} {h : ∀ l, (f l).Perm l} {l : List Fault} :
    Life P dir x d m p → (∀ e ∈ l, NoFail e) →
    (Store.openWithThreshold dir t).run (d.reorder f h) l = (.crash, d') → Life P dir none d' m p
  | returned {s s' : Store} {d d' : Disk} {m : Contents} {p : Option Call} {c : Call}
    {l : List Fault} : Life P dir (some s) d m p → (∀ e ∈ l, NoFail e) →
    c.method.run (s, d) l = (.ok (), (s', d')) → P (dirOf dir d') →
    Life P dir (some s') d' (c.change m) none
  | refused {s s' : Store} {d d' : Disk} {m : Contents} {p : Option Call} {c : Call}
    {l : List Fault} {e : StoneError} : Life P dir (some s) d m p → (∀ e ∈ l, NoFail e) →
    c.method.run (s, d) l = (.err e, (s', d')) → ¬ e.IsIo → P (dirOf dir d') →
    Life P dir (some s') d' m none
  | died {s s' : Store} {d d' : Disk} {m : Contents} {p : Option Call} {c : Call} {l : List Fault} :
    Life P dir (some s) d m p → (∀ e ∈ l, NoFail e) →
    c.method.run (s, d) l = (.crash, (s', d')) → P (dirOf dir d') → Life P dir none d' m (some c)

section Life

variable {dir : Path} {x : Option Store} {s : Store} {d : Disk} {m : Contents} {p : Option Call}
  {gs : List ℕ} {L : List (List Entry)} {rs : List Record} {t : ℕ} {g : Contents}

theorem Live.answersOf_eq (h : Live dir s (dirOf dir d) gs L rs t) :
    answersOf (s, d) = view s.memtable L := by
  funext k
  rw [answersOf, h.backed.served.get_run]

/-- What the store is to hold when it is opened next. -/
def Due (m : Contents) (p : Option Call) (g : Contents) : Prop := g = m ∨ ∃ c ∈ p, g = c.change m

/-- **What a life leaves.** The directory can be resumed with the acknowledged operations, or with
also the one in flight; an open store holds the former. -/
theorem Life.resumes (h : Life Dir.Below dir x d m p) :
    (∃ g, Resumes (dirOf dir d) g ∧ Due m p g) ∧ ∀ s, x = some s →
      ∃ gs L rs t, Live dir s (dirOf dir d) gs L rs t ∧ view s.memtable L = m := by
  have hlive : ∀ {s d gs L rs t}, Live dir s (dirOf dir d) gs L rs t →
      (∃ g, Resumes (dirOf dir d) g ∧ Due (view s.memtable L) none g) ∧ ∀ s', some s = some s' →
        ∃ gs' L' rs' t', Live dir s' (dirOf dir d) gs' L' rs' t' ∧
          view s'.memtable L' = view s.memtable L := fun {s d gs L rs t} h => by
    refine ⟨⟨_, h.resumes, .inl rfl⟩, fun s' hs' => ?_⟩
    cases hs'
    exact ⟨gs, L, rs, t, h, rfl⟩
  induction h with
  | fresh hd => exact ⟨⟨_, hd.resumes, .inl rfl⟩, nofun⟩
  | @opened _ d _ _ _ t f h _ _ _ hl hrun ih =>
    obtain ⟨⟨g, hg, -⟩, -⟩ := ih
    have hlisted : Resumes (dirOf dir (d.reorder f h)) g := hg
    rcases (hlisted.opens (t := t) reliable_noFail).run_eq hl hrun with
      ⟨hcr, -⟩ | ⟨s, gs, L, rs, ho, h', -⟩
    · cases hcr
    · cases ho
      rw [h'.answersOf_eq]
      exact hlive h'
  | @openDied _ d _ _ _ t f h _ _ hl hrun ih =>
    obtain ⟨⟨g, hg, hdue⟩, -⟩ := ih
    have hlisted : Resumes (dirOf dir (d.reorder f h)) g := hg
    rcases (hlisted.opens (t := t) reliable_noFail).run_eq hl hrun with
      ⟨-, hres⟩ | ⟨s, gs, L, rs, ho, -⟩
    · exact ⟨⟨g, hres, hdue⟩, nofun⟩
    · cases ho
  | @returned s s' d d' m p c l _ hl hrun hbelow ih =>
    obtain ⟨gs, L, rs, t, h, rfl⟩ := ih.2 s rfl
    rcases h.call hl hrun nofun hbelow with ⟨hcr, -⟩ | ⟨-, gs', L', rs', h', hview⟩ | ⟨⟨e, he⟩, -⟩
    · cases hcr
    · rw [← hview]
      exact hlive h'
    · cases he
  | @refused s s' d d' m p c l e _ hl hrun hio hbelow ih =>
    obtain ⟨gs, L, rs, t, h, rfl⟩ := ih.2 s rfl
    have hne : (.err e : Outcome StoneError Unit) ≠ .err (.io .fileTooLarge) := fun he =>
      hio ⟨_, by cases he; rfl⟩
    rcases h.call hl hrun hne hbelow with ⟨hcr, -⟩ | ⟨hok, -⟩ | ⟨-, rfl, hd, -⟩
    · cases hcr
    · cases hok
    · rw [← hd] at h
      exact hlive h
  | @died s s' d d' m p c l _ hl hrun hbelow ih =>
    obtain ⟨gs, L, rs, t, h, rfl⟩ := ih.2 s rfl
    rcases h.call hl hrun nofun hbelow with ⟨-, hres⟩ | ⟨hok, -⟩ | ⟨⟨e, he⟩, -⟩
    · refine ⟨?_, nofun⟩
      rcases hres with hres | hres
      · exact ⟨_, hres, .inl rfl⟩
      · exact ⟨_, hres, .inr ⟨c, rfl, rfl⟩⟩
    · cases hok
    · cases he

/-- **Crash safety.** However often the process died, in whatever calls, as long as no segment has the
last generation: `open` does not return an error; without a crash it returns a store, with the files
listed in any order; and this holds what the acknowledged operations make of it, or that with the
operation in flight done. -/
theorem life_recovers (h : Life Dir.Below dir x d m p) (t : ℕ) (f : List Name → List Name)
    (hf : ∀ l, (f l).Perm l) :
    (∀ l, (∀ e ∈ l, NoFail e) → ∀ e,
      ((Store.openWithThreshold dir t).run (d.reorder f hf) l).1 ≠ .err e) ∧
    ∃ s d' g, (Store.openWithThreshold dir t).run (d.reorder f hf) [] = (.ok s, d') ∧
      Answers (s, d') g ∧ (g = m ∨ ∃ c, p = some c ∧ g = c.change m) := by
  obtain ⟨g, hg, hdue⟩ := h.resumes.1
  have hlisted : Resumes (dirOf dir (d.reorder f hf)) g := hg
  refine ⟨fun l hl e he => ?_, ?_⟩
  · rcases (hlisted.opens (t := t) reliable_noFail).run hl with ⟨hcr, -⟩ | ⟨s, gs, L, rs, ho, -⟩
    · rw [hcr] at he
      cases he
    · rw [ho] at he
      cases he
  · obtain ⟨s, d', gs, L, rs, hopen, hlive, hview⟩ := hlisted.opens_nil (t := t)
    exact ⟨s, d', g, hopen, hview ▸ hlive.backed.served.answers, hdue⟩

/-- After the first `set`, which flushed. -/
def acknowledged : Store × Disk := ((Call.set [97] [49]).method.run (newStore, openedDisk) []).2

/-- The process dies three bytes into the record of the second one. -/
def died : Store × Disk := ((Call.set [98] [50]).method.run acknowledged [.none, .crash 3]).2

theorem life_died : Life Dir.Below [['d']] none died.2
    ((Call.set [97] [49]).change (answersOf (newStore, openedDisk))) (some (.set [98] [50])) := by
  have hopened : Life Dir.Below [['d']] (some newStore) openedDisk
      (answersOf (newStore, openedDisk)) none :=
    .opened (.fresh (fresh_empty _)) (by simp) (open_empty 0)
  have hfirst : ((Call.set [97] [49]).method.run (newStore, openedDisk) []).1 = .ok () := by
    decide +kernel
  have hsecond : ((Call.set [98] [50]).method.run acknowledged [.none, .crash 3]).1 = .crash := by
    decide +kernel
  have hreturned : Life Dir.Below [['d']] (some acknowledged.1) acknowledged.2
      ((Call.set [97] [49]).change (answersOf (newStore, openedDisk))) none :=
    hopened.returned (l := []) (by simp) (Prod.ext hfirst rfl) (by decide +kernel)
  exact hreturned.died (by simp [NoFail]) (Prod.ext hsecond rfl) (by decide +kernel)

/-- An acknowledged write, and one in flight that left a part of its record. -/
theorem life_recovers_died : died.2.read (walPathOf [['d']]) ≠ some [] ∧
    (∀ l, (∀ e ∈ l, NoFail e) → ∀ e,
      ((Store.openWithThreshold [['d']] 0).run (died.2.reorder List.reverse List.reverse_perm) l).1 ≠
        .err e) ∧
    ∃ s d' g, (Store.openWithThreshold [['d']] 0).run
        (died.2.reorder List.reverse List.reverse_perm) [] = (.ok s, d') ∧ Answers (s, d') g ∧
      (g = (Call.set [97] [49]).change (answersOf (newStore, openedDisk)) ∨
        ∃ c, some (Call.set [98] [50]) = some c ∧
          g = c.change ((Call.set [97] [49]).change (answersOf (newStore, openedDisk)))) :=
  ⟨by decide +kernel, life_recovers life_died 0 List.reverse List.reverse_perm⟩

end Life

/-! ## The last generation -/

section Exhausted

variable {dir : Path} {s : Store} {d : Disk} {gs : List ℕ} {L : List (List Entry)} {t : ℕ}

/-- A directory with a segment of the last generation does not open. -/
theorem not_opens_of_last (hlast : ¬ (dirOf dir d).Below) (s : Store) (d' : Disk) :
    (Store.openWithThreshold dir t).run d [] ≠ (.ok s, d') := fun hopen => by
  have hnone := last_none_of_open hopen
  rw [segmentPath, ← dirOf_files not_isScratchName_segment] at hnone
  exact hlast hnone

/-- The record that sets the empty key to the empty value. -/
def emptyRecord : Record := .newSet [] []

theorem encode_emptyRecord : emptyRecord.encode = .ok emptyRecord.image :=
  Record.encode_eq (Nat.zero_le _) (Nat.zero_le _)

theorem image_iter_emptyRecord :
    (segmentImage (applyRecord .new emptyRecord).iter).length ≤ maxFileLen := by decide +kernel

theorem Failed.crash_or_big {big : Prop} {o : Outcome StoneError Unit} (h : Failed NoFault big o) :
    o = .crash ∨ big := by
  rcases h with h | ⟨i, -, ⟨-, hbig⟩ | ⟨n, hn⟩⟩
  · exact .inl h
  · exact .inr hbig
  · exact absurd hn (not_noFault_fail n)

/-- **A write without faults** of a record that fits into the log. Either the memtable stays below the
threshold; or it becomes a segment; or it becomes a segment of the last generation, and after that
the directory does not open any more. -/
theorem Live.logged {rs : List Record} {c : Call} {r : Record} {b : Bytes}
    (h : Live dir s (dirOf dir d) gs L rs t) (hc : c.record = some r) (hb : r.encode = .ok b)
    (hlog : (logImage rs ++ b).length ≤ maxFileLen)
    (himg : (segmentImage (applyRecord (memtableOf rs) r).iter).length ≤ maxFileLen)
    {o : Outcome StoneError Unit} {s' : Store} {d' : Disk}
    (hrun : c.method.run (s, d) [] = (o, (s', d'))) :
    ((applyRecord (memtableOf rs) r).isOverThreshold t = false ∧ o = .ok () ∧
      s'.nextSegmentGeneration = s.nextSegmentGeneration ∧
      Live dir s' (dirOf dir d') gs L (rs ++ [r.stored]) t) ∨
    (applyRecord (memtableOf rs) r).isOverThreshold t = true ∧
    ((s.nextSegmentGeneration + 1 < u64Size ∧ o = .ok () ∧
      s'.nextSegmentGeneration = s.nextSegmentGeneration + 1 ∧
      ∃ gs', Live dir s' (dirOf dir d') gs' ((applyRecord (memtableOf rs) r).iter :: L) [] t) ∨
    (s.nextSegmentGeneration + 1 = u64Size ∧ o = .err exhausted ∧ (dirOf dir d').marker = none ∧
      ¬ (dirOf dir d').Below)) := by
  have hstep : LogStep NoFault s (dirOf dir d) r o s' (dirOf dir d') := by
    have := (wp_call (A := NoFault) h.backed.served c).run_eq (by simp) hrun
    cases c <;> cases hc <;> exact this
  have hne : o ≠ .crash := by
    have hne := run_nil_ne_crash (m := c.method) (s := (s, d))
    rwa [hrun] at hne
  have hmem : (s.applied r).memtable = applyRecord (memtableOf rs) r := by
    rw [Store.applied, h.memtable_eq]
  have ht : (s.applied r).flushThresholdBytes = t := by
    rw [h.store]
    rfl
  have hbounded : (dirOf dir d').Bounded := bounded_dirOf
  generalize dirOf dir d' = D' at hstep hbounded
  cases hstep with
  | unlogged happend ho =>
    cases happend with
    | rejected he =>
      rw [hb] at he
      cases he
    | cut hold henc hf =>
      rw [h.log] at hold
      cases hold
      rw [hb] at henc
      cases henc
      exact absurd (hf.crash_or_big.resolve_left hne) (Nat.not_lt.mpr hlog)
    | done _ _ => exact absurd rfl ho
  | logged happend happlied =>
    have h₁ := happend.live h
    cases happlied with
    | kept hover =>
      rw [hmem, ht] at hover
      exact .inl ⟨hover, rfl, rfl, h₁⟩
    | flushed hover hflush =>
      rw [hmem, ht] at hover
      refine .inr ⟨hover, ?_⟩
      have hmarker := hflush.marker.trans h₁.marker_none
      cases hflush with
      | empty hempty => exact absurd hempty isEmpty_applied
      | aborted hf _ _ =>
        rw [hmem] at hf
        exact absurd (hf.crash_or_big.resolve_left hne) (Nat.not_lt.mpr himg)
      | exhausted hlast _ =>
        exact .inr ⟨hlast, rfl, hmarker,
          not_below_of_next hlast (Dir.files_put_self (s.applied r).nextName)⟩
      | installed hf _ _ _ => exact absurd (hf.crash_or_big.resolve_left hne) id
      | done hlt hfull =>
        obtain ⟨gs', rs', h'⟩ := FlushStep.live (A := NoFault) (.done hlt hfull) h₁ hbounded
        obtain rfl : rs' = [] := logImage_eq_nil.mp (Option.some_inj.mp h'.log).symm
        have hL : (s.applied r).segmentsAfter L = (applyRecord (memtableOf rs) r).iter :: L := by
          rw [Store.segmentsAfter, if_neg hfull, hmem]
        rw [hL] at h'
        exact .inl ⟨hlt, rfl, rfl, gs', h'⟩

/-- Setting the empty key, with flushes at every write. -/
theorem Live.set_empty (h : Live dir s (dirOf dir d) gs L [] 0)
    {o : Outcome StoneError Unit} {s' : Store} {d' : Disk}
    (hrun : (Call.set [] []).method.run (s, d) [] = (o, (s', d'))) :
    (s.nextSegmentGeneration + 1 < u64Size ∧ o = .ok () ∧
      s'.nextSegmentGeneration = s.nextSegmentGeneration + 1 ∧
      ∃ gs' L', Live dir s' (dirOf dir d') gs' L' [] 0) ∨
    (s.nextSegmentGeneration + 1 = u64Size ∧ o = .err exhausted ∧ (dirOf dir d').marker = none ∧
      ¬ (dirOf dir d').Below) := by
  rcases h.logged (r := emptyRecord) rfl encode_emptyRecord (by decide +kernel)
    image_iter_emptyRecord hrun with ⟨hover, -⟩ | ⟨-, ⟨hlt, hok, hnext, gs', h'⟩ | hlast⟩
  · rw [Memtable.isOverThreshold, decide_eq_false_iff_not] at hover
    exact absurd (Nat.zero_le _) hover
  · exact .inl ⟨hlt, hok, hnext, gs', _, h'⟩
  · exact .inr hlast

/-- A store with flushes at every write reaches any generation but the last. -/
theorem exists_life_of_generation : ∀ n, n + 1 < u64Size → ∃ s d m,
    Life (fun _ => True) [['d']] (some s) d m none ∧ s.nextSegmentGeneration = n + 1 ∧
      ∃ gs L, Live [['d']] s (dirOf [['d']] d) gs L [] 0
  | 0, _ => by
    have hlife : Life (fun _ => True) [['d']] (some newStore) openedDisk _ none :=
      .opened (.fresh (fresh_empty _)) (by simp) (open_empty 0)
    obtain ⟨s, d', gs, L, rs, hopen, hlive, -⟩ := (fresh_empty [['d']]).resumes.opens_nil (t := 0)
    have heq : (Outcome.ok newStore, openedDisk) = (.ok s, d') := Eq.trans rfl hopen
    cases heq
    obtain rfl : rs = [] := logImage_eq_nil.mp (Option.some_inj.mp hlive.log).symm
    exact ⟨_, _, _, hlife, rfl, gs, L, hlive⟩
  | n + 1, hn => by
    obtain ⟨s, d, m, hlife, hnext, gs, L, hlive⟩ := exists_life_of_generation n (by omega)
    rcases hrun : (Call.set [] []).method.run (s, d) [] with ⟨o, s', d'⟩
    rcases hlive.set_empty hrun with ⟨-, rfl, hnext', gs', L', hlive'⟩ | ⟨hlast, -⟩
    · exact ⟨s', d', _, hlife.returned (by simp) hrun trivial, by rw [hnext', hnext], gs', L', hlive'⟩
    · omega

/-- **A life that ends.** After a segment of the last generation has been written, the directory does
not open any more, and all that the store held is lost. -/
theorem exhausted_life_lost : ¬ ∀ (x : Option Store) (d : Disk) (m : Contents) (p : Option Call),
    Life (fun _ => True) [['d']] x d m p → ∃ s d',
      (Store.openWithThreshold [['d']] 0).run (d.reorder id fun l => .refl l) [] = (.ok s, d') := by
  intro hall
  obtain ⟨s, d, m, hlife, hnext, gs, L, hlive⟩ :=
    exists_life_of_generation (u64Size - 2) (by decide)
  rcases hrun : (Call.set [] []).method.run (s, d) [] with ⟨o, s', d'⟩
  rcases hlive.set_empty hrun with ⟨hlt, -⟩ | ⟨-, rfl, -, hlast⟩
  · rw [hnext] at hlt
    exact absurd hlt (by decide)
  · have hio : ¬ exhausted.IsIo := fun ⟨_, h⟩ => by cases h
    obtain ⟨s₁, d₁, hopen⟩ := hall _ _ _ _ (hlife.refused (by simp) hrun hio trivial)
    have hlisted : ¬ (dirOf [['d']] (d'.reorder id fun l => .refl l)).Below := by
      rw [dirOf_reorder]
      exact hlast
    exact not_opens_of_last hlisted s₁ d₁ hopen

end Exhausted

end StoneKV
