import StoneKV.Backed
import StoneKV.Runs

/-!
# Stores without failures

* `Live dir s D gs L rs t`: the store is the one that its directory opens as, and the directory holds
  nothing else.
* **`CallStep.live`**: a call that returns keeps this, and changes the contents as it is to.
* **`CallStep.resumes`**: when the process dies in a call, opening the directory gives the contents
  from before the call, or those after it.
-/

namespace StoneKV

open FaultProg Layers

/-- The store is the one that its directory opens as, and there is nothing else in the directory. -/
structure Live (dir : Path) (s : Store) (D : Dir) (gs : List ℕ) (L : List (List Entry))
    (rs : List Record) (t : ℕ) : Prop where
  store : s = storeOf dir gs L rs t
  settled : Settled D gs L
  log : D.wal = some (logImage rs)
  records : ∀ r ∈ rs, r.Valid

section Live

variable {A : Fault → Prop} {dir : Path} {s s' : Store} {D D' : Dir} {gs : List ℕ}
  {L : List (List Entry)} {rs : List Record} {t : ℕ} {r : Record} {o : Outcome StoneError Unit}
  {c : Call}

theorem Live.backed (h : Live dir s D gs L rs t) : Backed dir s D gs L rs := by
  rw [h.store]
  exact backed_storeOf h.settled h.log h.records

theorem Live.marker_none (h : Live dir s D gs L rs t) : D.marker = none := by
  by_contra hne
  exact marker_not_mem_segments (h.settled.only _ (Option.isSome_iff_ne_none.mpr hne))

theorem not_namesNext_of_none (h : D.marker = none) : ¬ NamesNext s D := by
  rintro ⟨b, m, hb, -⟩
  rw [h] at hb
  cases hb

theorem Live.not_namesNext (h : Live dir s D gs L rs t) : ¬ NamesNext s D :=
  not_namesNext_of_none h.marker_none

theorem Live.memtable_eq (h : Live dir s D gs L rs t) : s.memtable = memtableOf rs := by
  rw [h.store]
  rfl

/-- **A flush that returns.** -/
theorem FlushStep.live (hs : FlushStep A s D (.ok ()) s' D') (h : Live dir s D gs L rs t)
    (hb : D'.Bounded) : ∃ gs' rs', Live dir s' D' gs' (s.segmentsAfter L) rs' t := by
  unfold Store.segmentsAfter
  cases hs with
  | empty hempty =>
    rw [if_pos hempty]
    exact ⟨gs, rs, h⟩
  | aborted ho => exact absurd rfl ho.ne_ok
  | installed ho => exact absurd rfl ho.ne_ok
  | done hlt hne =>
    rw [if_neg hne]
    have hstor := h.backed.served.writable.storable_iter (Dir.Bounded.put_next hb)
    have hnone : ∀ r ∈ ([] : List Record), r.Valid := by simp
    have hnew := h.backed.flushed [] (m := .new) (log_of_image rfl) h.not_namesNext hlt hstor
      (valid_memtableOf hnone) hnone fun _ => rfl
    refine ⟨s.nextSegmentGeneration :: gs, [], ?_, ⟨hnew.holds, fun n hn => ?_⟩, rfl, hnone⟩
    · rw [storeOf, ← hnew.segments, h.store]
      rfl
    · rcases mem_next_of_put hn with rfl | hn
      · exact List.mem_cons_self
      · exact List.mem_cons_of_mem _ (h.settled.only n hn)

/-- **A compaction that returns.** -/
theorem MergeStep.live (hs : MergeStep A s D (merged L) (.ok ()) s' D') (h : Live dir s D gs L rs t)
    (hb : D'.Bounded) : Live dir s' D' [s.nextSegmentGeneration] [merged L] rs t := by
  cases hs with
  | failed ho => exact absurd rfl ho.ne_ok
  | aborted ho => exact absurd rfl ho.ne_ok
  | installed ho => exact absurd rfl ho.ne_ok
  | done _ hlt =>
    have hserved := h.backed.served
    have hfile := hserved.files_done (merged L)
    refine ⟨?_, ⟨⟨by simpa using hlt, List.pairwise_singleton _ _,
      .cons ⟨hserved.storable_merged (hb _ _ hfile), hfile⟩ .nil⟩, fun n hn => ?_⟩, h.log, h.records⟩
    · rw [h.store]
      rfl
    · rw [Dir.files_put, Dir.files_drop, Dir.replacing, Dir.files_put] at hn
      split_ifs at hn with hm hold
      · cases hn
      · cases hn
      · rcases mem_next_of_put hn with rfl | hn
        · exact List.mem_singleton_self _
        · rw [h.backed.fileNames] at hold
          exact absurd (h.settled.only n hn) hold

theorem MergeStep.memtable_eq {es : List Entry} (hs : MergeStep A s D es o s' D') :
    s'.memtable = s.memtable := by
  cases hs <;> rfl

/-- **A call of `compact` that returns.** -/
theorem CompactStep.live (hs : CompactStep A s D L (.ok ()) s' D') (h : Live dir s D gs L rs t)
    (hb : D'.Bounded) : ∃ gs' L' rs', Live dir s' D' gs' L' rs' t ∧
      ∀ k, view s'.memtable L' k = view s.memtable L k := by
  have hserved := h.backed.served
  cases hs with
  | unflushed _ ho => exact absurd rfl ho
  | short hflush _ _ =>
    obtain ⟨gs', rs', h'⟩ := hflush.live h hb
    exact ⟨gs', _, rs', h', (hflush.served_of_ok hserved hb).2.2⟩
  | merging hflush hb₁ _ hmerge =>
    obtain ⟨gs₁, rs₁, h₁⟩ := hflush.live h hb₁
    have hview := (hflush.served_of_ok hserved hb₁).2.2
    have hsame := hmerge.memtable_eq
    refine ⟨_, _, rs₁, hmerge.live h₁ hb, fun k => ?_⟩
    rw [hsame, (replaces_merged h₁.backed.served.ascending).view, hview]

/-- **A record in the log and in the memtable.** -/
theorem AppendStep.live (hs : AppendStep A D r (.ok ()) D') (h : Live dir s D gs L rs t) :
    Live dir (s.applied r) D' gs L (rs ++ [r.stored]) t := by
  cases hs with
  | cut _ _ ho => exact absurd rfl ho.ne_ok
  | @done old b hold hb =>
    obtain rfl : old = logImage rs := Option.some_inj.mp (hold.symm.trans h.log)
    refine ⟨?_, h.settled.setWal _, ?_, valid_logged h.records hb⟩
    · rw [h.store, storeOf, storeOf, memtableOf_append, applyRecord_stored]
      rfl
    · rw [logImage_logged hb]
      rfl

/-- **A `set` or `delete` that returns.** -/
theorem LogStep.live (hs : LogStep A s D r (.ok ()) s' D') (h : Live dir s D gs L rs t)
    (hb : D'.Bounded) : ∃ gs' L' rs', Live dir s' D' gs' L' rs' t ∧
      view s'.memtable L' = Function.update (view s.memtable L) r.key (toEntry r).2 := by
  cases hs with
  | unlogged _ ho => exact absurd rfl ho
  | logged happend happlied =>
    have h₁ := happend.live h
    cases happlied with
    | kept _ => exact ⟨gs, L, _, h₁, view_applied⟩
    | flushed _ hflush =>
      obtain ⟨gs', rs', h'⟩ := hflush.live h₁ hb
      exact ⟨gs', _, rs', h',
        (funext (hflush.served_of_ok h₁.backed.served hb).2.2).trans view_applied⟩

/-- **A call that returns.** -/
theorem CallStep.live (hs : CallStep A s D L c (.ok ()) s' D') (h : Live dir s D gs L rs t)
    (hb : D'.Bounded) : ∃ gs' L' rs', Live dir s' D' gs' L' rs' t ∧
      view s'.memtable L' = c.change (view s.memtable L) := by
  cases c with
  | set key val => exact LogStep.live hs h hb
  | delete key => exact LogStep.live hs h hb
  | get key =>
    obtain ⟨rfl, rfl⟩ : s' = s ∧ D' = D := hs
    exact ⟨gs, L, rs, h, rfl⟩
  | compact =>
    obtain ⟨gs', L', rs', h', hview⟩ := CompactStep.live hs h hb
    exact ⟨gs', L', rs', h', funext hview⟩

end Live

/-! ## Calls without failures -/

section Outcomes

variable {A : Fault → Prop} {dir : Path} {s s' : Store} {D D' : Dir} {gs : List ℕ}
  {L : List (List Entry)} {rs : List Record} {t : ℕ} {r : Record} {es : List Entry} {c : Call}
  {big : Prop} {o : Outcome StoneError Unit}

/-- Without failures only a file that grows too large makes a call fail. -/
theorem Failed.eq_crash (h : Failed A big o) (hA : Reliable A)
    (hio : o ≠ .err (.io .fileTooLarge)) : o = .crash := by
  rcases h with h | ⟨i, h, ⟨rfl, -⟩ | ⟨n, hn⟩⟩
  · exact h
  · exact absurd h hio
  · exact absurd hn (hA.fail n)

theorem FlushStep.crash_or_ok (hs : FlushStep A s D o s' D') (hA : Reliable A)
    (hio : o ≠ .err (.io .fileTooLarge)) (hbelow : D'.Below) : o = .crash ∨ o = .ok () := by
  cases hs with
  | empty _ => exact .inr rfl
  | aborted ho => exact .inl (ho.eq_crash hA hio)
  | exhausted hlast _ =>
    exact absurd hbelow (not_below_of_next hlast (Dir.files_put_self s.nextName))
  | installed ho => exact .inl (ho.eq_crash hA hio)
  | done _ _ => exact .inr rfl

theorem MergeStep.crash_or_ok (hs : MergeStep A s D es o s' D') (hm : D.marker = none)
    (hA : Reliable A) (hio : o ≠ .err (.io .fileTooLarge)) (hbelow : D'.Below) :
    o = .crash ∨ o = .ok () := by
  cases hs with
  | refused hsome _ =>
    rw [hm] at hsome
    cases hsome
  | failed ho => exact .inl (ho.eq_crash hA hio)
  | aborted ho => exact .inl (ho.eq_crash hA hio)
  | exhausted hlast _ =>
    exact absurd hbelow (not_below_of_next hlast Dir.files_replacing_next)
  | installed ho => exact .inl (ho.eq_crash hA hio)
  | done _ _ => exact .inr rfl

theorem CompactStep.crash_or_ok (hs : CompactStep A s D L o s' D') (hm : D.marker = none)
    (hA : Reliable A) (hio : o ≠ .err (.io .fileTooLarge)) (hbelow : D'.Below) :
    o = .crash ∨ o = .ok () := by
  cases hs with
  | unflushed hflush _ => exact hflush.crash_or_ok hA hio hbelow
  | short _ _ _ => exact .inr rfl
  | merging hflush _ _ hmerge => exact hmerge.crash_or_ok (hflush.marker.trans hm) hA hio hbelow

/-- A `set` or `delete` returns, unless the process dies or its record does not encode; and then it
does nothing. -/
theorem LogStep.crash_or_ok (hs : LogStep A s D r o s' D') (hA : Reliable A)
    (hio : o ≠ .err (.io .fileTooLarge)) (hbelow : D'.Below) :
    o = .crash ∨ o = .ok () ∧ (∃ b, r.encode = .ok b) ∨
      ∃ e, o = .err e ∧ r.encode = .error e ∧ s' = s ∧ D' = D := by
  cases hs with
  | unlogged happend ho =>
    cases happend with
    | rejected he => exact .inr (.inr ⟨_, rfl, he, rfl, rfl⟩)
    | cut _ _ ho => exact .inl (ho.eq_crash hA hio)
    | done _ _ => exact absurd rfl ho
  | logged happend happlied =>
    have hok : o = .crash ∨ o = .ok () := by
      cases happlied with
      | kept _ => exact .inr rfl
      | flushed _ hflush => exact hflush.crash_or_ok hA hio hbelow
    exact hok.imp_right fun hok => .inl ⟨hok, happend.encode⟩

/-- The key and the value of the call are not too large. -/
def Call.Fits (c : Call) : Prop :=
  ∀ r, c.record = some r → r.key.length ≤ Record.MAX_FIELD_LEN ∧
    r.value.length ≤ Record.MAX_FIELD_LEN

theorem Call.fits_of_encode {b : Bytes} (hr : c.record = some r) (hb : r.encode = .ok b) :
    c.Fits := fun r' hr' => by
  rw [hr] at hr'
  cases hr'
  exact ⟨(Record.encode_eq_ok hb).1, (Record.encode_eq_ok hb).2.1⟩

theorem Call.not_fits_of_encode {e : StoneError} (hr : c.record = some r)
    (he : r.encode = .error e) : ¬ c.Fits := fun hfits => by
  have := (Record.encode_eq_error he).1
  have := hfits r hr
  omega

/-- **A call without failures.** It returns, unless its key or value is too large; and then it does
nothing. -/
theorem CallStep.crash_or_ok (hs : CallStep A s D L c o s' D') (hc : ∀ k, c ≠ .get k)
    (h : Live dir s D gs L rs t) (hA : Reliable A) (hio : o ≠ .err (.io .fileTooLarge))
    (hbelow : D'.Below) : o = .crash ∨ o = .ok () ∧ c.Fits ∨
      (∃ e, o = .err e) ∧ ¬ c.Fits ∧ s' = s ∧ D' = D := by
  have hlog : ∀ {r}, c.record = some r → LogStep A s D r o s' D' → o = .crash ∨ o = .ok () ∧ c.Fits ∨
      (∃ e, o = .err e) ∧ ¬ c.Fits ∧ s' = s ∧ D' = D := fun hr hs => by
    rcases hs.crash_or_ok hA hio hbelow with hcr | ⟨hok, b, hb⟩ | ⟨e, ho, he, hs', hD'⟩
    · exact .inl hcr
    · exact .inr (.inl ⟨hok, Call.fits_of_encode hr hb⟩)
    · exact .inr (.inr ⟨⟨e, ho⟩, Call.not_fits_of_encode hr he, hs', hD'⟩)
  cases c with
  | set key val => exact hlog rfl hs
  | delete key => exact hlog rfl hs
  | get key => exact absurd rfl (hc key)
  | compact =>
    rcases CompactStep.crash_or_ok hs h.marker_none hA hio hbelow with hcr | hok
    · exact .inl hcr
    · exact .inr (.inl ⟨hok, nofun⟩)

end Outcomes

/-! ## Calls that the process dies in -/

section Deaths

variable {A : Fault → Prop} {dir : Path} {s s' : Store} {D D' : Dir} {gs : List ℕ}
  {L : List (List Entry)} {rs : List Record} {t : Bytes} {r : Record} {c : Call}
  {o : Outcome StoneError Unit}

/-- The call flushes the memtable, if it gets that far. -/
def Call.Flushes (c : Call) (s : Store) : Prop :=
  match c.record with
  | some r => (s.applied r).memtable.isOverThreshold s.flushThresholdBytes = true
  | none => c = .compact ∧ ¬ s.memtable.isEmpty

theorem Backed.torn (h : Backed dir s D gs L rs) (ht : Torn t) :
    Backed dir s (D.setWal (some (logImage rs ++ t))) gs L rs := by
  refine ⟨h.dir_eq, h.wal, h.segments, h.below, h.next_lt, h.valid,
    ⟨h.holds.lt, h.holds.decreasing, h.holds.images⟩, ⟨t, ht, rfl⟩, h.records, h.agrees, ?_⟩
  cases h.extra with
  | plain hm hfiles hP => exact .plain hm hfiles hP
  | named hm hvalid hfiles hP => exact .named hm hvalid hfiles hP
  | replaced hm hvalid hout hold hfiles hP => exact .replaced hm hvalid hout hold hfiles hP

/-- An append leaves the marker as it is. -/
theorem AppendStep.namesNext (hs : AppendStep A D r o D') :
    NamesNext (s.applied r) D' ↔ NamesNext s D := by
  cases hs <;> exact Iff.rfl

/-- However an append ends, the log holds the record or not. -/
theorem AppendStep.torn_or_done (hs : AppendStep A D r o D') (h : Backed dir s D gs L rs)
    (hw : D.Whole) : Backed dir s D' gs L rs ∨ Backed dir (s.applied r) D' gs L (rs ++ [r.stored]) := by
  cases hs with
  | rejected _ => exact .inl h
  | done hold hb => exact .inr (AppendStep.backed (A := A) (.done hold hb) h hw)
  | @cut _ old b n hold hb _ =>
    have hvalid := Record.valid_stored hb
    obtain rfl : old = logImage rs := Option.some_inj.mp (hold.symm.trans (h.log_of_whole hw))
    have himg : b = r.stored.image := by rw [r.image_stored, (Record.encode_eq_ok hb).2.2]
    rw [himg]
    rcases torn_or_image hvalid n with ht | ht
    · exact .inl (h.torn ht)
    · rw [ht, ← himg]
      exact .inr (AppendStep.backed (A := A) (.done hold hb) h hw)

/-- **A call that ends in any way.** Opening the directory gives what the store served, or that with
the call done. -/
theorem CallStep.resumes (hs : CallStep A s D L c o s' D') (h : Backed dir s D gs L rs)
    (hw : c.record.isSome → D.Whole) (hn : c.Flushes s → ¬ NamesNext s D)
    (hsafe : D.marker = none ∨ NamesNext s D ∨ ¬ A .deny) (hb : D'.Bounded) (hbelow : D'.Below) :
    Resumes D' (view s.memtable L) ∨ Resumes D' (c.change (view s.memtable L)) := by
  have hlog : ∀ {r}, c.record = some r → LogStep A s D r o s' D' →
      Resumes D' (view s.memtable L) ∨ Resumes D' (c.change (view s.memtable L)) := fun {r} hr hs => by
    have hdone : ∀ {s₁ D₁ gs₁ L₁ rs₁}, Backed dir s₁ D₁ gs₁ L₁ rs₁ → D₁.Below →
        view s₁.memtable L₁ = view (s.applied r).memtable L →
        Resumes D₁ (c.change (view s.memtable L)) := fun h₁ hbelow hview => by
      rw [Call.change_of_record hr, ← view_applied, show applyRecord s.memtable r =
        (s.applied r).memtable from rfl, ← hview]
      exact h₁.resumes hbelow
    cases hs with
    | unlogged happend _ =>
      rcases happend.torn_or_done h (hw (by rw [hr]; rfl)) with h₁ | h₁
      · exact .inl (h₁.resumes hbelow)
      · exact .inr (hdone h₁ hbelow rfl)
    | logged happend happlied =>
      have h₁ := happend.backed h (hw (by rw [hr]; rfl))
      have hn₁ : (s.applied r).memtable.isOverThreshold (s.applied r).flushThresholdBytes = true →
          ¬ NamesNext (s.applied r) _ := fun hover hnamed => by
        refine hn ?_ (happend.namesNext.mp hnamed)
        rw [Call.Flushes, hr]
        exact hover
      obtain ⟨gs', L', rs', h', hview⟩ := happlied.backed h₁ hn₁ hb hbelow
      exact .inr (hdone h' hbelow (funext hview))
  cases c with
  | set key val => exact hlog rfl hs
  | delete key => exact hlog rfl hs
  | get key =>
    obtain ⟨rfl, rfl⟩ : s' = s ∧ D' = D := hs
    exact .inl (h.resumes hbelow)
  | compact =>
    have hn' : s.memtable.isEmpty ∨ ¬ NamesNext s D :=
      or_iff_not_imp_left.mpr fun hne => hn ⟨rfl, hne⟩
    obtain ⟨gs', L', rs', h', hview⟩ := CompactStep.backed hs h hn' hsafe hb hbelow
    rw [← funext hview]
    exact .inl (h'.resumes hbelow)

end Deaths

end StoneKV
