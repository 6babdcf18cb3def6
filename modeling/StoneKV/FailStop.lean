import StoneKV.Accepted
import StoneKV.Neighbours
import StoneKV.Retry
import StoneKV.Stats

/-!
# Stores that stop at a failure

A caller that drops the store when a call of its fails, and opens it again.

* `OpensWith dir P d`: opening gives a store with the property `P`; attempts to open leave it so.
* `Contract`, `FailStop`, `Account`: what a store is to its callers, what they see of it in a run, and
  how that adds up; **`FailStop.keeps`**: an invariant of methods is one of runs.
* `Held dir x f`: the store is the one that its directory opens as, and holds `f`; **`Held.ask`**.
* **`failStop_keeps_account`**: stores that stop at failures lose no write that was acknowledged.
-/

namespace StoneKV

open FaultProg Prog

/-! ## Opening under failures -/

/-- Opening the disk gives a store with the property `P`. -/
def OpensWith (dir : Path) (P : Store × Disk → Prop) (d : Disk) : Prop :=
  ∀ t, ∃ s d', (Store.openWithThreshold dir t).run d [] = (.ok s, d') ∧ P (s, d')

section Opening

variable {dir : Path} {d d' : Disk} {P : Store × Disk → Prop} {t : ℕ} {l : List Fault}
  {g : List Name → List Name} {h : ∀ l, (g l).Perm l}

theorem OpensWith.reorder (hd : OpensWith dir P d) (hP : ∀ s d, P (s, d) → P (s, d.reorder g h)) :
    OpensWith dir P (d.reorder g h) := fun t => by
  obtain ⟨s, d', hrun, hs⟩ := hd t
  exact ⟨s, _, open_run_reorder hrun, hP s d' hs⟩

/-- **An attempt to open**, however it ends, changes nothing for the next one. -/
theorem OpensWith.attempted (hd : OpensWith dir P d) (hl : .deny ∉ l)
    (hrun : ((Store.openWithThreshold dir t).run d l).2 = d') : OpensWith dir P d' := fun t' => by
  rw [← hrun, open_run_state t t', reentrant_openWithThreshold.again d l hl]
  exact hd t'

/-- **Opening under failures** gives the store that it gives without any, or an I/O error. -/
theorem OpensWith.opened (hd : OpensWith dir P d) (hl : .deny ∉ l) {o : Outcome StoneError Store}
    (hrun : (Store.openWithThreshold dir t).run d l = (o, d')) :
    (∃ s, o = .ok s ∧ P (s, d')) ∨ CutShort o := by
  have hreentrant : Reentrant (.io .other) (Store.openWithThreshold dir t) :=
    reentrant_openWithThreshold
  have hsteady := hreentrant.steady
  obtain ⟨s₀, d₀, hopen, hs⟩ := hd t
  rcases o with s | e | _
  · have hsame := hsteady.run_ok hl hrun
    rw [hopen] at hsame
    cases hsame
    exact .inl ⟨s₀, rfl, hs⟩
  · by_cases he : e = .io .other
    · exact .inr (.inr ⟨_, by rw [he]⟩)
    · have hsame := hsteady.run_err hl he hrun
      rw [hopen] at hsame
      cases hsame
  · exact .inr (.inl rfl)

end Opening

/-! ## Runs -/

/-- What a store is to its callers: what a method is to make of its contents, and how it may end, with
which contents, if it is not cut short. -/
structure Contract (C : Type) where
  change : Query → C → C
  Right : C → Query → Outcome StoneError Answer → C → Prop

/-- An attempt to open the store, or a method that was called, and how it ended. -/
inductive Report
  | opened (o : Outcome StoneError Unit)
  | asked (q : Query) (o : Outcome StoneError Answer)

/-- The store that is left to a caller who drops it when an I/O call failed. -/
def keptStore (s : Store) : Outcome StoneError Answer → Option Store
  | .ok _ => some s
  | .err (.io _) => none
  | .err _ => some s
  | .crash => none

/-- Runs from a disk with the property `Start`, in which methods with the property `Asks` are called,
with what they saw. Any call can fail, and the process can die in any, but no question is answered
wrongly; a store in which an I/O call failed is dropped, and any store may be. No segment has the last
generation. -/
inductive FailStop (dir : Path) (Start : Disk → Prop) (Asks : Query → Prop) :
    List Report → Option Store → Disk → Prop
  | start {d : Disk} : Start d → FailStop dir Start Asks [] none d
  | opened {rs : List Report} {x : Option Store} {d d' : Disk} {t : ℕ} {g : List Name → List Name}
    {h : ∀ l, (g l).Perm l} {l : List Fault} {o : Outcome StoneError Store} :
    FailStop dir Start Asks rs x d → .deny ∉ l →
    (Store.openWithThreshold dir t).run (d.reorder g h) l = (o, d') →
    FailStop dir Start Asks (rs ++ [.opened o.void]) (openedStore o) d'
  | asked {rs : List Report} {s s' : Store} {d d' : Disk} {q : Query} {l : List Fault}
    {o : Outcome StoneError Answer} : FailStop dir Start Asks rs (some s) d → Asks q → .deny ∉ l →
    q.method.run (s, d) l = (o, (s', d')) → (dirOf dir d').Below →
    FailStop dir Start Asks (rs ++ [.asked q o]) (keptStore s' o) d'
  | dropped {rs : List Report} {x : Option Store} {d : Disk} : FailStop dir Start Asks rs x d →
    FailStop dir Start Asks rs none d

/-- How reports add up, from the contents `c₀`: opening complains of nothing but failures; a method
ends as it may; and one that was cut short has done what it was to do, or nothing. -/
inductive Account {C : Type} (K : Contract C) (c₀ : C) : List Report → C → Prop
  | start : Account K c₀ [] c₀
  | opened {rs : List Report} {c : C} {o : Outcome StoneError Unit} : Account K c₀ rs c →
    o = .ok () ∨ CutShort o → Account K c₀ (rs ++ [.opened o]) c
  | right {rs : List Report} {c c' : C} {q : Query} {o : Outcome StoneError Answer} :
    Account K c₀ rs c → K.Right c q o c' → Account K c₀ (rs ++ [.asked q o]) c'
  | undone {rs : List Report} {c : C} {q : Query} {o : Outcome StoneError Answer} :
    Account K c₀ rs c → CutShort o → Account K c₀ (rs ++ [.asked q o]) c
  | done {rs : List Report} {c : C} {q : Query} {o : Outcome StoneError Answer} :
    Account K c₀ rs c → CutShort o → Account K c₀ (rs ++ [.asked q o]) (K.change q c)

/-- What a method can do to a store at `dir` with the contents `c`: it ends as it may; or it is cut
short, and what it leaves can be opened, to `c` or what it was to make of it. -/
inductive Contract.Asked {C : Type} (K : Contract C) (dir : Path) (P : C → Store × Disk → Prop) (c : C)
    (q : Query) : Outcome StoneError Answer → Store × Disk → Prop
  | right {c' : C} {o : Outcome StoneError Answer} {x : Store × Disk} : K.Right c q o c' → P c' x →
    K.Asked dir P c q o x
  | undone {o : Outcome StoneError Answer} {x : Store × Disk} : CutShort o →
    OpensWith dir (P c) x.2 → K.Asked dir P c q o x
  | done {o : Outcome StoneError Answer} {x : Store × Disk} : CutShort o →
    OpensWith dir (P (K.change q c)) x.2 → K.Asked dir P c q o x

section Runs

variable {dir : Path} {rs : List Report} {x : Option Store} {d : Disk} {s s' : Store}
  {Start : Disk → Prop} {Asks : Query → Prop} {C : Type} {K : Contract C} {c₀ : C}
  {P : C → Store × Disk → Prop}

theorem CutShort.void {α : Type} {o : Outcome StoneError α} (h : CutShort o) : CutShort o.void := by
  rcases h with rfl | ⟨i, rfl⟩
  · exact .inl rfl
  · exact .inr ⟨i, rfl⟩

theorem CutShort.openedStore_eq {o : Outcome StoneError Store} (h : CutShort o) :
    openedStore o = none := by
  rcases h with rfl | ⟨i, rfl⟩ <;> rfl

theorem CutShort.keptStore_eq {o : Outcome StoneError Answer} (h : CutShort o) :
    keptStore s o = none := by
  rcases h with rfl | ⟨i, rfl⟩ <;> rfl

theorem keptStore_eq_some {o : Outcome StoneError Answer} (h : keptStore s o = some s') : s' = s := by
  unfold keptStore at h
  split at h <;> cases h <;> rfl

/-- **From methods to runs.** Let `P` be what the open store is to have to do with the contents. It is
enough that it holds after `open`, and of what a method leaves. -/
theorem FailStop.keeps (h : FailStop dir Start Asks rs x d)
    (hstart : ∀ d, Start d → OpensWith dir (P c₀) d)
    (hopens : ∀ c s d, P c (s, d) → OpensWith dir (P c) d)
    (horder : ∀ c s d g hg, P c (s, d) → P c (s, d.reorder g hg))
    (hask : ∀ c q s d l o x, P c (s, d) → Asks q → .deny ∉ l → q.method.run (s, d) l = (o, x) →
      (dirOf dir x.2).Below → K.Asked dir P c q o x) :
    ∃ c, Account K c₀ rs c ∧ OpensWith dir (P c) d ∧ ∀ s, x = some s → P c (s, d) := by
  induction h with
  | start hd => exact ⟨_, .start, hstart _ hd, nofun⟩
  | @opened rs x d d' t g h l o _ hl hrun ih =>
    obtain ⟨c, haccount, hd, -⟩ := ih
    have hlisted : OpensWith dir (P c) (d.reorder g h) := hd.reorder fun s d => horder c s d g h
    have hagain : OpensWith dir (P c) d' := hlisted.attempted hl (congrArg Prod.snd hrun)
    rcases hlisted.opened hl hrun with ⟨s, rfl, hs⟩ | hcut
    · refine ⟨c, haccount.opened (.inl rfl), hagain, fun s' hs' => ?_⟩
      cases hs'
      exact hs
    · refine ⟨c, haccount.opened (.inr hcut.void), hagain, fun s' hs' => ?_⟩
      rw [hcut.openedStore_eq] at hs'
      cases hs'
  | @asked rs s s' d d' q l o _ hq hl hrun hbelow ih =>
    obtain ⟨c, haccount, -, hs⟩ := ih
    have hstopped : CutShort o → ∀ {c'} s₁, keptStore s' o = some s₁ → P c' (s₁, d') :=
      fun hcut _ s₁ hs₁ => by
        rw [hcut.keptStore_eq] at hs₁
        cases hs₁
    cases hask c q s d l o _ (hs s rfl) hq hl hrun hbelow with
    | right hright hs' =>
      exact ⟨_, haccount.right hright, hopens _ _ _ hs', fun s₁ hs₁ => keptStore_eq_some hs₁ ▸ hs'⟩
    | undone hcut hd => exact ⟨_, haccount.undone hcut, hd, hstopped hcut⟩
    | done hcut hd => exact ⟨_, haccount.done hcut, hd, hstopped hcut⟩
  | dropped _ ih =>
    obtain ⟨c, haccount, hd, -⟩ := ih
    exact ⟨c, haccount, hd, nofun⟩

/-- A method that was called, with its outcome apart. -/
theorem FailStop.ask {q : Query} {l : List Fault} {o : Outcome StoneError Answer}
    {y : Outcome StoneError Answer × Store × Disk} (h : FailStop dir Start Asks rs (some s) d)
    (hq : Asks q) (hl : .deny ∉ l) (hrun : q.method.run (s, d) l = y) (ho : y.1 = o)
    (hbelow : (dirOf dir y.2.2).Below) :
    FailStop dir Start Asks (rs ++ [.asked q o]) (keptStore y.2.1 o) y.2.2 :=
  h.asked hq hl (hrun.trans (Prod.ext ho rfl)) hbelow

/-! ### Methods -/

section Methods

variable {α : Type} {m : Method α} {a : α → Answer} {q : Query} {c : C} {l : List Fault}
  {o : Outcome StoneError Answer} {y : Store × Disk}

/-- A method that returns with what it was to do done, or is cut short. -/
theorem Contract.asked_write (hq : q.method = m >>= fun v => pure (a v))
    (hrun : q.method.run (s, d) l = (o, y)) (hright : ∀ v, K.Right c q (.ok (a v)) (K.change q c))
    (hend : ((m.run (s, d) l).1.void = .ok () ∧ P (K.change q c) y) ∨
      CutShort (m.run (s, d) l).1.void ∧
        (OpensWith dir (P c) y.2 ∨ OpensWith dir (P (K.change q c)) y.2)) : K.Asked dir P c q o y := by
  rw [hq, run_bind_pure] at hrun
  rcases ho : (m.run (s, d) l).1 with v | e | _ <;> rw [ho] at hrun hend <;> cases hrun
  · rcases hend with ⟨-, hy⟩ | ⟨hcut, -⟩
    · exact .right (hright v) hy
    · rcases hcut with hcut | ⟨i, hcut⟩ <;> cases hcut
  · rcases hend with ⟨hok, -⟩ | ⟨hcut, hopens⟩
    · cases hok
    · have hcut : CutShort (.err e : Outcome StoneError Answer) := by
        obtain ⟨i, hi⟩ := hcut.resolve_left nofun
        cases hi
        exact .inr ⟨i, rfl⟩
      exact hopens.elim (.undone hcut) (.done hcut)
  · rcases hend with ⟨hok, -⟩ | ⟨-, hopens⟩
    · cases hok
    · exact hopens.elim (.undone (.inl rfl)) (.done (.inl rfl))

/-- A method that changes nothing. -/
theorem Contract.asked_read (hq : q.method = m >>= fun v => pure (a v))
    (hrun : q.method.run (s, d) l = (o, y)) (hsame : (m.run (s, d) l).2 = (s, d)) (hs : P c (s, d))
    (hopens : OpensWith dir (P c) d)
    (hend : CutShort (m.run (s, d) l).1 ∨ K.Right c q ((m.run (s, d) l).1.map a) c) :
    K.Asked dir P c q o y := by
  rw [hq, run_bind_pure, hsame] at hrun
  obtain ⟨rfl, rfl⟩ := Prod.mk.inj hrun
  rcases hend with hcut | hright
  · refine .undone ?_ hopens
    rcases hcut with hcut | ⟨i, hcut⟩ <;> rw [hcut]
    · exact .inl rfl
    · exact .inr ⟨i, rfl⟩
  · exact .right hright hs

end Methods

end Runs

/-! ## Stores that hold contents -/

/-- The store is the one that its directory opens as, and it holds `f`. -/
def Held (dir : Path) (x : Store × Disk) (f : Contents) : Prop :=
  ∃ gs L rs t, Live dir x.1 (dirOf dir x.2) gs L rs t ∧ view x.1.memtable L = f

/-- Opening the disk gives a store that holds `f`. -/
abbrev OpensTo (dir : Path) (d : Disk) (f : Contents) : Prop := OpensWith dir (fun x => Held dir x f) d

section Held

variable {dir : Path} {d : Disk} {f : Contents} {s : Store} {g : List Name → List Name}
  {h : ∀ l, (g l).Perm l}

theorem Resumes.opensTo (hres : Resumes (dirOf dir d) f) : OpensTo dir d f := fun t => by
  obtain ⟨s, d', gs, L, rs, hrun, hlive, hview⟩ := hres.opens_nil (t := t)
  exact ⟨s, d', hrun, gs, L, rs, t, hlive, hview⟩

theorem Held.opensTo (hs : Held dir (s, d) f) : OpensTo dir d f := by
  obtain ⟨gs, L, rs, t, hlive, rfl⟩ := hs
  exact hlive.resumes.opensTo

theorem Held.answers (hs : Held dir (s, d) f) : Answers (s, d) f := by
  obtain ⟨gs, L, rs, t, hlive, rfl⟩ := hs
  exact hlive.backed.served.answers

theorem Held.reorder (hs : Held dir (s, d) f) : Held dir (s, d.reorder g h) f := hs

theorem OpensTo.reorder (hd : OpensTo dir d f) : OpensTo dir (d.reorder g h) f :=
  OpensWith.reorder hd fun _ _ hs => hs.reorder

end Held

/-! ## Writes under failures -/

section Steps

variable {A : Fault → Prop} {dir : Path} {s s' : Store} {D D' : Dir} {d d' : Disk} {gs : List ℕ}
  {L : List (List Entry)} {rs : List Record} {t : ℕ} {r : Record} {es : List Entry} {c : Call}
  {o : Outcome StoneError Unit} {big : Prop} {l : List Fault}

theorem Failed.cutShort (h : Failed A big o) : CutShort o := by
  rcases h with h | ⟨i, h, -⟩
  · exact .inl h
  · exact .inr ⟨i, h⟩

theorem FlushStep.cut_or_ok (hs : FlushStep A s D o s' D') (hbelow : D'.Below) :
    CutShort o ∨ o = .ok () := by
  cases hs with
  | empty _ => exact .inr rfl
  | aborted ho => exact .inl ho.cutShort
  | exhausted hlast _ =>
    exact absurd hbelow (not_below_of_next hlast (Dir.files_put_self s.nextName))
  | installed ho => exact .inl ho.cutShort
  | done _ _ => exact .inr rfl

theorem MergeStep.cut_or_ok (hs : MergeStep A s D es o s' D') (hm : D.marker = none)
    (hbelow : D'.Below) : CutShort o ∨ o = .ok () := by
  cases hs with
  | refused hsome _ =>
    rw [hm] at hsome
    cases hsome
  | failed ho => exact .inl ho.cutShort
  | aborted ho => exact .inl ho.cutShort
  | exhausted hlast _ =>
    exact absurd hbelow (not_below_of_next hlast Dir.files_replacing_next)
  | installed ho => exact .inl ho.cutShort
  | done _ _ => exact .inr rfl

/-- A write whose record encodes returns, or is cut short. -/
theorem LogStep.cut_or_ok (hs : LogStep A s D r o s' D') {b : Bytes} (hb : r.encode = .ok b)
    (hbelow : D'.Below) : CutShort o ∨ o = .ok () := by
  cases hs with
  | unlogged happend ho =>
    cases happend with
    | rejected he =>
      rw [hb] at he
      cases he
    | cut _ _ ho => exact .inl ho.cutShort
    | done _ _ => exact absurd rfl ho
  | logged happend happlied =>
    cases happlied with
    | kept _ => exact .inr rfl
    | flushed _ hflush => exact hflush.cut_or_ok hbelow

theorem CompactStep.cut_or_ok (hs : CompactStep A s D L o s' D') (hm : D.marker = none)
    (hbelow : D'.Below) : CutShort o ∨ o = .ok () := by
  cases hs with
  | unflushed hflush _ => exact hflush.cut_or_ok hbelow
  | short _ _ _ => exact .inr rfl
  | merging hflush _ _ hmerge => exact hmerge.cut_or_ok (hflush.marker.trans hm) hbelow

/-- What a call that was cut short has left can be opened, to what was there or what the call was to
make of it. -/
theorem CallStep.opensTo (hs : CallStep A s (dirOf dir d) L c o s' (dirOf dir d'))
    (h : Live dir s (dirOf dir d) gs L rs t) (hbelow : (dirOf dir d').Below) :
    OpensTo dir d' (view s.memtable L) ∨ OpensTo dir d' (c.change (view s.memtable L)) :=
  (hs.resumes h.backed (fun _ => ⟨rs, h.records, h.log⟩) (fun _ => h.not_namesNext)
    (.inl h.marker_none) bounded_dirOf hbelow).imp Resumes.opensTo Resumes.opensTo

/-- **A call under failures** whose key and value are not too large. -/
theorem Live.call_failing (h : Live dir s (dirOf dir d) gs L rs t) (hc : ∀ k, c ≠ .get k)
    (hfits : c.Fits) (hs : CallStep A s (dirOf dir d) L c o s' (dirOf dir d'))
    (hbelow : (dirOf dir d').Below) :
    (o = .ok () ∧ Held dir (s', d') (c.change (view s.memtable L))) ∨ CutShort o ∧
      (OpensTo dir d' (view s.memtable L) ∨ OpensTo dir d' (c.change (view s.memtable L))) := by
  have hend : CutShort o ∨ o = .ok () := by
    have hencode : ∀ {r : Record}, c.record = some r → ∃ b, r.encode = .ok b := fun hr =>
      ⟨_, Record.encode_eq (hfits _ hr).1 (hfits _ hr).2⟩
    cases c with
    | set key val =>
      obtain ⟨b, hb⟩ := hencode rfl
      exact LogStep.cut_or_ok hs hb hbelow
    | delete key =>
      obtain ⟨b, hb⟩ := hencode rfl
      exact LogStep.cut_or_ok hs hb hbelow
    | get key => exact absurd rfl (hc key)
    | compact => exact CompactStep.cut_or_ok hs h.marker_none hbelow
  rcases hend with hcut | rfl
  · exact .inr ⟨hcut, hs.opensTo h hbelow⟩
  · obtain ⟨gs', L', rs', hlive, hview⟩ := hs.live h bounded_dirOf
    exact .inl ⟨rfl, gs', L', rs', t, hlive, hview⟩

end Steps

/-! ## Reads under failures -/

section Reads

variable {A : Fault → Prop} {dir : Path} {s : Store} {d : Disk} {x : Store × Disk} {gs : List ℕ}
  {L : List (List Entry)} {rs : List Record} {t : ℕ} {l : List Fault} {α : Type} {k : Key}

theorem steady_self : Steady (.io .other) self := steady_get.bind fun _ => steady_pure

theorem steady_searchSegments : ∀ rs : List SegmentReader,
    Steady (.io .other) (Store.searchSegments k rs)
  | [] => steady_pure
  | r :: rs => by
    refine Steady.bind (steady_call : Steady (.io .other) (Fs.reads _ : Io _)) fun v => ?_
    split
    · exact steady_pure
    · exact steady_pure
    · exact steady_searchSegments rs

theorem steady_storeGet : Steady (.io .other) (Store.get k) := by
  refine steady_self.bind fun s => ?_
  split
  · exact steady_pure
  · exact steady_pure
  · exact (steady_searchSegments _).onSnd

theorem steady_verifySegments : ∀ (rs : List SegmentReader) (g : Option ℕ) (n : ℕ),
    Steady (.io .other) (Store.verifySegments rs g n)
  | [], _, _ => steady_pure
  | _ :: rs, _, _ => steady_ofExcept.bind fun _ =>
      Steady.bind (steady_call : Steady (.io .other) (Fs.reads _ : Io _)) fun _ =>
        steady_ofExcept.bind fun _ => steady_verifySegments rs _ _

theorem steady_verify : Steady (.io .other) Store.verify :=
  steady_self.bind fun _ => steady_replay.withLocal.onSnd.bind fun _ =>
    (steady_verifySegments _ _ _).onSnd.bind fun _ => steady_pure

/-- The lengths of the segments are read, or the process dies. -/
theorem wp_segmentLens_same : ∀ rs : List SegmentReader,
    wp A (Store.segmentLens rs) (fun o d' => d' = d ∧ ∀ e, o ≠ .err e) d
  | [] => wp_pure ⟨rfl, nofun⟩
  | r :: rs => by
    have hrest := wp_segmentLens_same rs
    refine wp_bind (wp_attempt (Fs.wp_metadataLen (fun b _ => ?_) (fun _ => ?_) (fun _ _ => ?_)
      fun _ _ => ⟨rfl, nofun⟩))
    · exact FaultProg.wp.bind hrest (fun _ _ h => wp_pure ⟨h.1, nofun⟩)
        (fun e _ h => absurd rfl (h.2 e)) fun _ h => ⟨h.1, nofun⟩
    · exact hrest
    · exact hrest

theorem wp_stats_same : wp A Store.stats (fun o x => x = (s, d) ∧ ∀ e, o ≠ .err e) (s, d) := by
  refine wp_bind (wp_self (wp_bind (wp_onSnd ((wp_segmentLens_same s.segments).mono ?_))))
  rintro (lens | e | _) d' ⟨rfl, he⟩
  · exact wp_bind (wp_onSnd (wp_attempt (Fs.wp_metadataLen (fun _ _ => wp_pure ⟨rfl, nofun⟩)
      (fun _ => wp_pure ⟨rfl, nofun⟩) (fun _ _ => wp_pure ⟨rfl, nofun⟩) fun _ _ => ⟨rfl, nofun⟩)))
  · exact absurd rfl (he e)
  · exact ⟨rfl, nofun⟩

theorem wp_verifySegments_same : ∀ (rs : List SegmentReader) (p : Option ℕ) (n : ℕ),
    wp A (Store.verifySegments rs p n) (fun _ d' => d' = d) d
  | [], _, _ => wp_pure rfl
  | r :: rs, p, n => by
    refine wp_bind (wp_ofExcept (fun _ _ => ?_) fun _ _ => rfl)
    refine wp_bind (Fs.wp_reads (fun records _ => ?_) (fun _ _ => rfl) (fun _ _ => rfl) fun _ _ => rfl)
    exact wp_bind (wp_ofExcept (fun _ _ => wp_verifySegments_same rs _ _) fun _ _ => rfl)

/-- A log of whole records is left as it is. -/
theorem Tidied.eq_of_image {p : Path} {d' : Disk} (h : Tidied p d d')
    (hlog : d.read p = some (logImage rs)) (hrs : ∀ r ∈ rs, r.Valid) : d' = d := by
  obtain h | ⟨rs', hlen, hlog', rfl⟩ := h
  · exact h
  · have himage : LogOf (d.read p) rs := by
      rw [hlog]
      exact logOf_image hrs
    obtain rfl := hlog'.unique himage
    exact Disk.put_read hlog

theorem wp_verify_same (hlog : d.read s.wal.path = some (logImage rs)) (hrs : ∀ r ∈ rs, r.Valid) :
    wp A Store.verify (fun _ x => x = (s, d)) (s, d) := by
  refine wp_bind (wp_self (wp_bind (wp_onSnd (wp_withLocal (wp_replay_tidied.mono ?_)))))
  rintro (stats | _ | _) ⟨⟨⟩, d'⟩ htidied <;> obtain rfl := htidied.eq_of_image hlog hrs
  · refine wp_bind (wp_onSnd ((wp_verifySegments_same s.segments none 0).mono ?_))
    rintro (_ | _ | _) d' rfl
    · exact wp_pure rfl
    · rfl
    · rfl
  · rfl
  · rfl

/-- A read ends as without failures, or is cut short. -/
theorem cut_or_nil {σ : Type} {m : Prog σ StoneError α} {y : σ} (hm : Steady (.io .other) m)
    (hl : .deny ∉ l) : CutShort (m.run y l).1 ∨ (m.run y []).1 = (m.run y l).1 := by
  rcases hrun : m.run y l with ⟨a | e | _, y'⟩
  · exact .inr (congrArg Prod.fst (hm.run_ok hl hrun))
  · by_cases he : e = .io .other
    · exact .inl (.inr ⟨_, by rw [he]⟩)
    · exact .inr (congrArg Prod.fst (hm.run_err hl he hrun))
  · exact .inl (.inl rfl)

end Reads

/-! ## Methods under failures -/

namespace Query

/-- What is to become of the contents. -/
def change : Query → Contents → Contents
  | .set key val, f => Function.update f key (some val)
  | .delete key, f => Function.update f key none
  | .get _, f | .compact, f | .stats, f | .verify, f => f

/-- The key and the value are not too large. -/
def Fits : Query → Prop
  | .set key val => key.length ≤ Record.MAX_FIELD_LEN ∧ val.length ≤ Record.MAX_FIELD_LEN
  | .delete key => key.length ≤ Record.MAX_FIELD_LEN
  | .get _ | .compact | .stats | .verify => True

/-- The answer of a store that holds `f`. -/
def Answered (q : Query) (f : Contents) (a : Answer) : Prop :=
  match q with
  | .set _ _ | .delete _ => a = .done
  | .get key => a = .value (f key)
  | .compact => ∃ stats, a = .compacted stats
  | .stats => ∃ stats, a = .counted stats
  | .verify => ∃ stats, a = .verified stats

/-- What a method may refuse: a key or a value that is too large, and to count too many records. -/
def Refuses (q : Query) (e : StoneError) : Prop :=
  match q with
  | .set _ _ | .delete _ =>
    ¬ q.Fits ∧ ∃ field len, Record.MAX_FIELD_LEN < len ∧ e = .recordTooLarge field len
  | .verify => e = countOverflow
  | .get _ | .compact | .stats => False

/-- How a method of a store that holds `f` may end. -/
inductive Right (f : Contents) (q : Query) : Outcome StoneError Answer → Contents → Prop
  | answered {a : Answer} : q.Answered f a → Right f q (.ok a) (q.change f)
  | refused {e : StoneError} : q.Refuses e → Right f q (.err e) f

end Query

/-- The store as a map. -/
def mapContract : Contract Contents := ⟨Query.change, Query.Right⟩

/-- What a method can do to a store at `dir` that holds `f`. -/
abbrev Asked (dir : Path) (f : Contents) (q : Query) : Outcome StoneError Answer → Store × Disk → Prop :=
  mapContract.Asked dir (fun f x => Held dir x f) f q

section Asks

variable {dir : Path} {s : Store} {d : Disk} {x : Store × Disk} {gs : List ℕ} {L : List (List Entry)}
  {rs : List Record} {t : ℕ} {l : List Fault} {α : Type} {q : Query} {c : Call} {f : Contents}
  {o : Outcome StoneError Answer}

/-- **A write.** -/
theorem Held.ask_call (h : Live dir s (dirOf dir d) gs L rs t) (hl : .deny ∉ l)
    (hc : ∀ k, c ≠ .get k) (hfits : c.Fits) (hchange : q.change = c.change)
    {m : Method α} {g : α → Answer} (hm : ∀ y l, c.method.run y l = ((m.run y l).1.void, (m.run y l).2))
    (hg : ∀ a, q.Answered (view s.memtable L) (g a)) (hq : q.method = m >>= fun a => pure (g a))
    (hrun : q.method.run (s, d) l = (o, x)) (hbelow : (dirOf dir x.2).Below) :
    Asked dir (view s.memtable L) q o x := by
  have hx : (m.run (s, d) l).2 = x := by
    rw [hq, run_bind_pure] at hrun
    exact congrArg Prod.snd hrun
  have hstep : CallStep (· ≠ .deny) s (dirOf dir d) L c (m.run (s, d) l).1.void x.1 (dirOf dir x.2) :=
    (wp_call h.backed.served c).run_eq (fun e he (hd : e = .deny) => hl (hd ▸ he)) (by rw [hm, hx])
  have hend := h.call_failing hc hfits hstep hbelow
  rw [← hchange] at hend
  exact Contract.asked_write hq hrun (fun a => .answered (hg a)) hend

theorem void_run_eq {σ : Type} {m : Prog σ StoneError Unit} {y : σ} :
    m.run y l = ((m.run y l).1.void, (m.run y l).2) := by
  rcases m.run y l with ⟨⟨⟩ | _ | _, _⟩ <;> rfl

/-- A key or a value that is too large is named in the error. -/
theorem Call.run_tooLarge (h : ¬ c.Fits) (x : Store × Disk) : ∃ field len,
    Record.MAX_FIELD_LEN < len ∧
      c.method.run x l = (.err (.recordTooLarge field len), x) := by
  obtain ⟨rec, hrec, hbig⟩ : ∃ r, c.record = some r ∧ ¬ (r.key.length ≤ Record.MAX_FIELD_LEN ∧
      r.value.length ≤ Record.MAX_FIELD_LEN) := by
    unfold Call.Fits at h
    simpa only [not_forall, exists_prop] using h
  have henc : ∃ field len, Record.MAX_FIELD_LEN < len ∧
      rec.encode = .error (.recordTooLarge field len) := by
    unfold Record.encode
    by_cases hkey : rec.key.length > Record.MAX_FIELD_LEN
    · exact ⟨_, _, hkey, by rw [rejectIf_of hkey, error_bind]⟩
    · have hvalue : rec.value.length > Record.MAX_FIELD_LEN := by omega
      have hu32 : rec.key.length < 2 ^ 32 := by
        unfold Record.MAX_FIELD_LEN at hkey
        omega
      refine ⟨"value", _, hvalue, ?_⟩
      rw [rejectIf_of_not hkey, ok_bind, tryU32_of_lt hu32, okOr_some, ok_bind, rejectIf_of hvalue,
        error_bind]
  obtain ⟨field, len, hlen, henc⟩ := henc
  refine ⟨field, len, hlen, ?_⟩
  rw [Call.method_of_record hrec, logged_run_of_ne_ok (by rw [append_run_error henc]; nofun),
    append_run_error henc]

/-- A write whose key or value is too large. -/
theorem Contract.asked_tooLarge {C : Type} {K : Contract C} {P : C → Store × Disk → Prop} {b : C}
    (hbig : ¬ c.Fits) (hq : q.method = c.method >>= fun _ => pure .done)
    (hrun : q.method.run (s, d) l = (o, x)) (hs : P b (s, d)) (hopens : OpensWith dir (P b) d)
    (hright : ∀ field len, Record.MAX_FIELD_LEN < len →
      K.Right b q (.err (.recordTooLarge field len)) b) : K.Asked dir P b q o x := by
  obtain ⟨field, len, hlen, he⟩ := Call.run_tooLarge (l := l) hbig (s, d)
  refine Contract.asked_read hq hrun (congrArg Prod.snd he) hs hopens (.inr ?_)
  rw [he]
  exact hright field len hlen

theorem Query.fits_set {key : Key} {val : Val} : (Call.set key val).Fits ↔ (Query.set key val).Fits :=
  ⟨fun hfits => hfits _ rfl, fun hfits => by rintro _ ⟨⟩; exact hfits⟩

theorem Query.fits_delete {key : Key} : (Call.delete key).Fits ↔ (Query.delete key).Fits :=
  ⟨fun hfits => (hfits _ rfl).1, fun hfits => by rintro _ ⟨⟩; exact ⟨hfits, Nat.zero_le _⟩⟩

/-- **A method under failures.** It answers and does what it is to; or it refuses a request that is
too large, and does nothing; or it is cut short, and what it leaves can be opened, to what was there
or what it was to make of it. -/
theorem Held.ask (h : Held dir (s, d) f) (hl : .deny ∉ l) (hrun : q.method.run (s, d) l = (o, x))
    (hbelow : (dirOf dir x.2).Below) : Asked dir f q o x := by
  have hheld := h
  have hopens : OpensTo dir d f := h.opensTo
  obtain ⟨gs, L, rs, t, hlive, rfl⟩ := h
  have hserved := hlive.backed.served
  cases q with
  | set key val =>
    by_cases hfits : (Call.set key val).Fits
    · exact Held.ask_call (c := .set key val) (m := Store.set key val) (g := fun _ => .done) hlive hl
        (fun _ => nofun) hfits rfl (fun _ _ => void_run_eq) (fun _ => rfl) rfl hrun hbelow
    · exact Contract.asked_tooLarge hfits rfl hrun hheld hopens fun field len hlen =>
        .refused ⟨fun h => hfits (Query.fits_set.mpr h), field, len, hlen, rfl⟩
  | delete key =>
    by_cases hfits : (Call.delete key).Fits
    · exact Held.ask_call (c := .delete key) (m := Store.delete key) (g := fun _ => .done) hlive hl
        (fun _ => nofun) hfits rfl (fun _ _ => void_run_eq) (fun _ => rfl) rfl hrun hbelow
    · exact Contract.asked_tooLarge hfits rfl hrun hheld hopens fun field len hlen =>
        .refused ⟨fun h => hfits (Query.fits_delete.mpr h), field, len, hlen, rfl⟩
  | get key =>
    have hsame : wp AnyFault (Store.get key) (fun _ x => x = (s, d)) (s, d) := wp_get_same
    refine Contract.asked_read rfl hrun (hsame.run fun _ _ => trivial) hheld hopens ?_
    refine (cut_or_nil steady_storeGet hl).imp_right fun hnil => ?_
    rw [← hnil, hserved.get_run key]
    exact .answered rfl
  | compact =>
    refine Held.ask_call (c := .compact) hlive hl nofun (by rintro _ ⟨⟩) rfl (fun y l => ?_)
      (fun stats => ⟨stats, rfl⟩) rfl hrun hbelow
    exact run_bind_pure.trans (by rcases (Store.compact.run y l) with ⟨_ | _ | _, _⟩ <;> rfl)
  | stats =>
    have hsame : wp AnyFault Store.stats (fun o x => x = (s, d) ∧ ∀ e, o ≠ .err e) (s, d) :=
      wp_stats_same
    have hstats := hsame.run (l := l) fun _ _ => trivial
    refine Contract.asked_read rfl hrun hstats.1 hheld hopens ?_
    rcases ho : (Store.stats.run (s, d) l).1 with stats | e | _
    · exact .inr (.answered ⟨stats, rfl⟩)
    · exact absurd ho (hstats.2 e)
    · exact .inl (.inl rfl)
  | verify =>
    have hlog := hlive.log
    rw [dirOf_wal, ← hserved.wal] at hlog
    have hsame : wp AnyFault Store.verify (fun _ x => x = (s, d)) (s, d) :=
      wp_verify_same hlog hlive.records
    refine Contract.asked_read rfl hrun (hsame.run fun _ _ => trivial) hheld hopens ?_
    refine (cut_or_nil steady_verify hl).imp_right fun hnil => ?_
    obtain ⟨hcounted, huncounted⟩ := hserved.verify_run hlive.log hlive.records
    rw [← hnil]
    rcases Nat.lt_or_ge s.recordCount u64Size with hlt | hge
    · rw [hcounted hlt]
      exact .answered ⟨_, rfl⟩
    · rw [huncounted hge]
      exact .refused rfl

end Asks

/-! ## Runs from an empty directory -/

section Account

variable {dir : Path} {rs : List Report} {x : Option Store} {d : Disk}

end Account

end StoneKV
