import StoneKV.Live

/-!
# Runs without failures

* **`Resumes.opens`**: without failures a directory that gives `f` opens as a store that serves `f`;
  when the process dies in `open`, it still gives `f`.
* **`Reachable.live`**: without failures a store is the one that its directory opens as.
* **`reopen_same`**: reopening it gives the same store and leaves the log and the segments.
* `CleanRun`: calls without failures; **`store_refines_map`**: the store is a map.
-/

namespace StoneKV

open FaultProg

section Resume

variable {A : Fault → Prop} {α : Type} {dir : Path} {d : Disk} {f : Contents} {t : ℕ}

/-- **Opening what can be resumed.** -/
theorem Resumes.opens (h : Resumes (dirOf dir d) f) (hA : Reliable A) :
    wp A (Store.openWithThreshold dir t) (fun o d' =>
      (o = .crash ∧ Resumes (dirOf dir d') f) ∨ ∃ s gs L rs, o = .ok s ∧
        Live dir s (dirOf dir d') gs L rs t ∧ view s.memtable L = f) d := by
  obtain ⟨gs, L, rs, hrec, hlog, hview⟩ := h
  refine wp_openWithThreshold hrec hlog hA (fun d' hd' => .inr ⟨_, gs, L, rs, rfl, ?_, funext hview⟩)
    fun d' hrec' hlog' => .inl ⟨rfl, gs, L, rs, hrec', hlog', hview⟩
  rw [hd']
  exact ⟨rfl, hrec.settled.setWal _, rfl, hlog.valid⟩

/-- Opening without faults what can be resumed. -/
theorem Resumes.opens_nil (h : Resumes (dirOf dir d) f) : ∃ s d' gs L rs,
    (Store.openWithThreshold dir t).run d [] = (.ok s, d') ∧
      Live dir s (dirOf dir d') gs L rs t ∧ view s.memtable L = f := by
  obtain ⟨s, gs, L, rs, ho, hlive, hview⟩ := run_nil_of_wp
    ((h.opens (t := t) reliable_noFault).mono fun _ _ hQ => hQ.imp_left And.left)
  exact ⟨s, _, gs, L, rs, Prod.ext ho rfl, hlive, hview⟩

theorem Live.resumes {s : Store} {D : Dir} {gs : List ℕ} {L : List (List Entry)} {rs : List Record}
    (h : Live dir s D gs L rs t) : Resumes D (view s.memtable L) :=
  ⟨gs, L, rs, h.settled.recoverable, by rw [h.log]; exact logHolds_image h.records,
    fun k => by rw [h.memtable_eq]⟩

theorem Fresh.resumes (h : Fresh dir d) : Resumes (dirOf dir d) fun _ => none := by
  refine ⟨[], [], [], ⟨⟨by simp, .nil, .nil⟩, .none fun n hn => ?_⟩, ⟨by simp, .inl ⟨h.wal, rfl⟩⟩,
    fun _ => rfl⟩
  rw [h.files] at hn
  cases hn

end Resume

/-! ## What is reachable -/

section Reachable

variable {dir : Path} {x : Option Store} {s s' : Store} {d d' : Disk} {gs : List ℕ}
  {L : List (List Entry)} {rs : List Record} {t : ℕ} {c : Call} {l : List Fault}
  {o : Outcome StoneError Unit}

/-- **One call without failures.** -/
theorem Live.call (h : Live dir s (dirOf dir d) gs L rs t) (hl : ∀ e ∈ l, NoFail e)
    (hrun : c.method.run (s, d) l = (o, (s', d'))) (hio : o ≠ .err (.io .fileTooLarge))
    (hbelow : (dirOf dir d').Below) :
    (o = .crash ∧ (Resumes (dirOf dir d') (view s.memtable L) ∨
      Resumes (dirOf dir d') (c.change (view s.memtable L)))) ∨
    (o = .ok () ∧ ∃ gs' L' rs', Live dir s' (dirOf dir d') gs' L' rs' t ∧
      view s'.memtable L' = c.change (view s.memtable L)) ∨
    ((∃ e, o = .err e) ∧ s' = s ∧ dirOf dir d' = dirOf dir d ∧ (c.Fits → c.record = none)) := by
  have hstep : CallStep NoFail s (dirOf dir d) L c o s' (dirOf dir d') :=
    (wp_call h.backed.served c).run_eq hl hrun
  have hcrash : o = .crash → Resumes (dirOf dir d') (view s.memtable L) ∨
      Resumes (dirOf dir d') (c.change (view s.memtable L)) := fun _ =>
    hstep.resumes h.backed (fun _ => ⟨rs, h.records, h.log⟩) (fun _ => h.not_namesNext)
      (.inl h.marker_none) bounded_dirOf hbelow
  rcases o with ⟨⟨⟩⟩ | e | _
  · exact .inr (.inl ⟨rfl, hstep.live h bounded_dirOf⟩)
  · by_cases hc : ∃ k, c = .get k
    · obtain ⟨k, rfl⟩ := hc
      obtain ⟨hs, hd⟩ : s' = s ∧ dirOf dir d' = dirOf dir d := hstep
      exact .inr (.inr ⟨⟨e, rfl⟩, hs, hd, fun _ => rfl⟩)
    · rcases hstep.crash_or_ok (fun k hk => hc ⟨k, hk⟩) h reliable_noFail hio hbelow with
        hcr | ⟨hok, -⟩ | ⟨he, hfits, hs, hd⟩
      · cases hcr
      · cases hok
      · exact .inr (.inr ⟨he, hs, hd, fun hf => absurd hf hfits⟩)
  · exact .inl ⟨rfl, hcrash rfl⟩

/-- **What is reachable without failures.** The directory can be resumed, and an open store is the one
that its directory opens as. -/
theorem Reachable.live (h : Reachable NoFail (fun _ => NoFail) dir x d) :
    (∃ f, Resumes (dirOf dir d) f) ∧
      ∀ s, x = some s → ∃ gs L rs t, Live dir s (dirOf dir d) gs L rs t := by
  induction h with
  | fresh hd => exact ⟨⟨_, hd.resumes⟩, nofun⟩
  | @opened _ d _ t f h _ o _ hl hrun ih =>
    obtain ⟨g, hg⟩ := ih.1
    have hlisted : Resumes (dirOf dir (d.reorder f h)) g := hg
    rcases (hlisted.opens (t := t) reliable_noFail).run_eq hl hrun with
      ⟨rfl, hres⟩ | ⟨s, gs, L, rs, rfl, hlive, -⟩
    · exact ⟨⟨g, hres⟩, nofun⟩
    · refine ⟨⟨_, hlive.resumes⟩, fun s' hs' => ?_⟩
      cases hs'
      exact ⟨gs, L, rs, t, hlive⟩
  | @called s s' d d' c l o _ hl hrun hio hbelow ih =>
    obtain ⟨gs, L, rs, t, hlive⟩ := ih.2 s rfl
    have hnot : o ≠ .err (.io .fileTooLarge) := fun ho => by
      obtain ⟨n, hn⟩ := hio _ ho
      exact reliable_noFail.fail n hn
    rcases hlive.call hl hrun hnot hbelow with ⟨rfl, hres⟩ | ⟨rfl, gs', L', rs', hlive', -⟩ |
      ⟨⟨e, rfl⟩, rfl, hd, -⟩
    · exact ⟨hres.elim (fun h => ⟨_, h⟩) fun h => ⟨_, h⟩, nofun⟩
    · refine ⟨⟨_, hlive'.resumes⟩, fun s'' hs'' => ?_⟩
      cases hs''
      exact ⟨gs', L', rs', t, hlive'⟩
    · rw [hd]
      refine ⟨ih.1, fun s'' hs'' => ?_⟩
      cases hs''
      exact ⟨gs, L, rs, t, hlive⟩

/-- Opening without faults the directory of a store that it opens as. -/
theorem Live.reopen (h : Live dir s (dirOf dir d) gs L rs t) : ∃ d',
    (Store.openWithThreshold dir t).run d [] = (.ok s, d') ∧ dirOf dir d' = dirOf dir d := by
  have hlog : LogHolds (dirOf dir d).wal rs := by
    rw [h.log]
    exact logHolds_image h.records
  obtain ⟨ho, hd⟩ := run_nil_of_wp (Q := fun o d' => o = .ok (storeOf dir gs L rs t) ∧
      dirOf dir d' = ((dirOf dir d).only gs).setWal (some (logImage rs)))
    (wp_openWithThreshold h.settled.recoverable hlog reliable_noFault
      (fun d' hd' => .inr ⟨rfl, hd'⟩) fun _ _ _ => .inl rfl)
  refine ⟨_, Prod.ext (ho.trans (by rw [h.store])) rfl, hd.trans ?_⟩
  rw [h.settled.only_eq, ← h.log, Dir.setWal_wal]

/-- **Reopening is the identity.** Take a store reached without failures. Opening its directory with
its threshold, with the files listed in any order, gives the same store, and leaves the log and the
segments as they are. -/
theorem reopen_same (h : Reachable NoFail (fun _ => NoFail) dir (some s) d)
    (f : List Name → List Name) (hf : ∀ l, (f l).Perm l) :
    ∃ d', (Store.openWithThreshold dir s.flushThresholdBytes).run (d.reorder f hf) [] = (.ok s, d') ∧
      d'.read (walPathOf dir) = d.read (walPathOf dir) ∧
      ∀ n, (parseSegmentGeneration n).isSome →
        d'.read (segmentsDirOf dir ++ [n]) = d.read (segmentsDirOf dir ++ [n]) := by
  obtain ⟨gs, L, rs, t, hlive⟩ := h.live.2 s rfl
  have ht : s.flushThresholdBytes = t := by
    rw [hlive.store]
    rfl
  have hlisted : Live dir s (dirOf dir (d.reorder f hf)) gs L rs t := hlive
  obtain ⟨d', hrun, hd⟩ := hlisted.reopen
  refine ⟨d', by rw [ht, hrun], ?_, fun n hn => ?_⟩
  · rw [← dirOf_wal, hd]
    rfl
  · obtain ⟨g, hg⟩ := Option.isSome_iff_exists.mp hn
    have hscratch := not_isScratchName_of_parse hg
    rw [← dirOf_files hscratch, hd, dirOf_files hscratch]
    rfl

/-- A call that returns. -/
theorem Reachable.returned {y : Store × Disk} {c : Call}
    (h : Reachable NoFail (fun _ => NoFail) dir (some y.1) y.2)
    (ho : (c.method.run y []).1 = .ok ()) (hbelow : (dirOf dir (c.method.run y []).2.2).Below) :
    Reachable NoFail (fun _ => NoFail) dir (some (c.method.run y []).2.1) (c.method.run y []).2.2 :=
  h.called (c := c) (l := []) (o := .ok ()) (by simp) (Prod.ext ho rfl) nofun hbelow

/-- A store that flushes long values at once. -/
def usedStore : Store := { newStore with flushThresholdBytes := 36 }

/-- Two segments, an entry in the memtable, and a tombstone that hides one of the first segment. -/
def used : Store × Disk :=
  [Call.set [97] (List.replicate 20 49), .set [98] (List.replicate 20 50), .set [99] [51],
    .delete [97]].foldl (fun y c => (c.method.run y []).2) (usedStore, openedDisk)

theorem reachable_used : Reachable NoFail (fun _ => NoFail) [['d']] (some used.1) used.2 :=
  (((Reachable.returned (y := (usedStore, openedDisk)) (reachable_new 36)
    (by decide +kernel) (by decide +kernel)).returned (by decide +kernel) (by decide +kernel)).returned
      (by decide +kernel) (by decide +kernel)).returned (by decide +kernel) (by decide +kernel)

/-- The files of `used`, listed backwards. -/
theorem reopen_same_used : used.1.segments.length = 2 ∧
    used.1.memtable.iter = [([97], none), ([99], some [51])] ∧ ∃ d',
      (Store.openWithThreshold [['d']] used.1.flushThresholdBytes).run
        (used.2.reorder List.reverse List.reverse_perm) [] = (.ok used.1, d') ∧
      d'.read (walPathOf [['d']]) = used.2.read (walPathOf [['d']]) ∧
      ∀ n, (parseSegmentGeneration n).isSome →
        d'.read (segmentsDirOf [['d']] ++ [n]) = used.2.read (segmentsDirOf [['d']] ++ [n]) :=
  ⟨by decide +kernel, by decide +kernel,
    reopen_same reachable_used List.reverse List.reverse_perm⟩

end Reachable

/-! ## The store as a map -/

section Map

variable {dir : Path} {x y : Store × Disk} {cs : List Call} {d : Disk} {t : ℕ}

/-- A run of calls from `x` whose keys and values are not too large, in which no call fails and no
file or generation becomes too large. -/
inductive CleanRun (dir : Path) (x : Store × Disk) : List Call → Store × Disk → Prop
  | start : CleanRun dir x [] x
  | called {cs : List Call} {y : Store × Disk} (c : Call) : CleanRun dir x cs y → c.Fits →
    (c.method.run y []).1 ≠ .err (.io .fileTooLarge) → (dirOf dir (c.method.run y []).2.2).Below →
    CleanRun dir x (cs ++ [c]) (c.method.run y []).2

/-- **The store after a run.** -/
theorem CleanRun.live {gs : List ℕ} {L : List (List Entry)} {rs : List Record}
    (h : Live dir x.1 (dirOf dir x.2) gs L rs t) (hrun : CleanRun dir x cs y) :
    ∃ gs' L' rs', Live dir y.1 (dirOf dir y.2) gs' L' rs' t ∧
      view y.1.memtable L' = changes cs (view x.1.memtable L) := by
  induction hrun with
  | start => exact ⟨gs, L, rs, h, rfl⟩
  | @called cs y c _ hfits hio hbelow ih =>
    obtain ⟨gs₁, L₁, rs₁, h₁, hview₁⟩ := ih
    obtain ⟨s, d⟩ := y
    have hchanges : changes (cs ++ [c]) (view x.1.memtable L) = c.change (view s.memtable L₁) := by
      rw [changes_concat, ← hview₁]
    have hne : (c.method.run (s, d) []).1 ≠ .crash := run_nil_ne_crash
    rw [hchanges]
    rcases hrun : c.method.run (s, d) [] with ⟨o, s', d'⟩
    rw [hrun] at hio hbelow hne
    rcases h₁.call (l := []) (by simp) hrun hio hbelow with ⟨hcr, -⟩ | ⟨-, hlive⟩ | ⟨-, rfl, hd, hc⟩
    · exact absurd hcr hne
    · exact hlive
    · refine ⟨gs₁, L₁, rs₁, by rw [hd]; exact h₁, ?_⟩
      cases c with
      | set key val => cases hc hfits
      | delete key => cases hc hfits
      | get key => rfl
      | compact => rfl

/-- **The store is a map.** Opened in an empty directory with any threshold, after any calls without
failures, `get` answers what the last `set` of the key put, or nothing if there is none or the key was
deleted since. -/
theorem store_refines_map (h : Fresh dir d) (t : ℕ) : ∃ s d',
    (Store.openWithThreshold dir t).run d [] = (.ok s, d') ∧
      ∀ cs y, CleanRun dir (s, d') cs y → Answers y (changes cs fun _ => none) := by
  obtain ⟨s, d', gs, L, rs, hopen, hlive, hview⟩ := h.resumes.opens_nil (t := t)
  refine ⟨s, d', hopen, fun cs y hrun => ?_⟩
  obtain ⟨gs', L', rs', hlive', hview'⟩ := hrun.live hlive
  rw [← hview, ← hview']
  exact hlive'.backed.served.answers

theorem store_refines_map_empty : ∃ s d',
    (Store.openWithThreshold [['d']] 0).run Disk.empty [] = (.ok s, d') ∧
      ∀ cs y, CleanRun [['d']] (s, d') cs y → Answers y (changes cs fun _ => none) :=
  store_refines_map (fresh_empty _) 0

end Map

end StoneKV
