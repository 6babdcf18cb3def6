import StoneKV.Sessions
import StoneKV.Appends

/-!
# Failures and the next opening

* `Course P dir x d`: what is reached by opening the store, with crashes, and by calls that may fail in
  any way, each under faults that `P` allows.
* `Guarded`: the faults of a call after which the store and its directory still agree;
  **`Course.backed`**: as long as all calls are guarded they do.
* **`rejected_write_agrees`**: a write that failed is visible in the store and after reopening, or in
  neither.
* **`failed_compactions_agree`**: failures in compactions alone; **`left_marker_loses`**: a marker that
  is left can lose keys.
-/

namespace StoneKV

open FaultProg Prog

/-! ## Appends under given faults -/

/-- The faults keep an append from writing anything. -/
def Silent (l : List Fault) : Prop :=
  (∃ n, firstFault l = .fail n ∨ firstFault l = .crash n) ∨ firstFault l.tail = .fail 0 ∨
    firstFault l.tail = .crash 0

/-- The faults let an append write all `len` bytes of its record and then fail: in the write itself, or
in the sync. -/
def FailsWritten (len : ℕ) (l : List Fault) : Prop :=
  firstFault l = .none ∧ ((∃ n, firstFault l.tail = .fail n ∧ len ≤ n) ∨
    (firstFault l.tail = .none ∧ ∃ n, firstFault l.tail.tail = .fail n))

section Append

variable {wal : Wal} {d : Disk} {r : Record} {old b : Bytes} {l : List Fault}

theorem run_callPart_of_crash {σ ε α β : Type} {io : ε} {part : ℕ → σ → σ}
    {eff : σ → Except ε (α × σ)} {f : α → Prog σ ε β} {s : σ} {l : List Fault} {n : ℕ}
    (h : firstFault l = .crash n) : (callPart io part eff >>= f).run s l = (.crash, part n s) := by
  rcases l with _ | ⟨_ | _ | _ | _, l⟩ <;> cases h
  rfl

theorem firstFault_cases (l : List Fault) :
    firstFault l = .none ∨ (∃ n, firstFault l = .fail n) ∨ ∃ n, firstFault l = .crash n := by
  rcases l with _ | ⟨_ | n | _ | n, l⟩
  · exact .inl rfl
  · exact .inl rfl
  · exact .inr (.inl ⟨n, rfl⟩)
  · exact .inl rfl
  · exact .inr (.inr ⟨n, rfl⟩)

theorem run_touch_err {e : StoneError} (h : ((Fs.touch : Io Unit).run d l).1 = .err e) :
    ∃ n, firstFault l = .fail n := by
  rcases l with _ | ⟨_ | n | _ | _, l⟩ <;> cases h
  exact ⟨n, rfl⟩

theorem mem_of_firstFault {n : ℕ} (h : firstFault l = .fail n) : Fault.fail n ∈ l := by
  rcases l with _ | ⟨_ | _ | _ | _, l⟩ <;> cases h
  exact List.mem_cons_self

/-- **What an append leaves.** A prefix of its record; nothing if the faults keep it silent; and if it
returns an error, nothing unless a call fails, and all of the record only if the faults let it fail
late. -/
theorem append_run_left (hd : d.read wal.path = some old) (hb : r.encode = .ok b) :
    ∃ n, ((wal.append r).run d l).2 = d.append wal.path (b.take n) ∧
      (Silent l → n = 0 ∧ ((wal.append r).run d l).1 ≠ .ok ()) ∧
      (∀ e, ((wal.append r).run d l).1 = .err e → (n < b.length ∨ FailsWritten b.length l) ∧
        ((∀ k, .fail k ∉ l) → n = 0)) := by
  have hpos : 0 < b.length := by
    rw [(Record.encode_eq_ok hb).2.2]
    exact List.length_pos_of_ne_nil Record.image_ne_nil
  have hnone : d.append wal.path (b.take 0) = d := by rw [List.take_zero, Disk.append_nil]
  have hne_ok : ∀ {e : StoneError}, (.err e : Outcome StoneError Unit) ≠ .ok () := fun h => by cases h
  have hcrash : (.crash : Outcome StoneError Unit) ≠ .ok () := fun h => by cases h
  have hrun : (wal.append r).run d l = ((do
      Fs.touch
      Fs.writeAll wal.path b
      Fs.touch : Io Unit)).run d l := by
    unfold Wal.append
    rw [hb]
    rfl
  rw [hrun]
  rcases firstFault_cases l with h₁ | ⟨n, h₁⟩ | ⟨n, h₁⟩
  · rw [Fs.touch, Prog.call, run_callPart_of_none h₁ rfl]
    have hsilent : Silent l → firstFault l.tail = .fail 0 ∨ firstFault l.tail = .crash 0 := by
      intro hs
      refine hs.resolve_left ?_
      rintro ⟨n, hn | hn⟩ <;> rw [h₁] at hn <;> cases hn
    rcases firstFault_cases l.tail with h₂ | ⟨n, h₂⟩ | ⟨n, h₂⟩
    · have hno : ¬ Silent l := fun hs => by
        rcases hsilent hs with h | h <;> rw [h₂] at h <;> cases h
      by_cases hs : (old ++ b).length ≤ maxFileLen
      · rw [Fs.run_writeAll_bind h₂ hd hs]
        refine ⟨b.length, ?_, fun h => absurd h hno, fun e he => ?_⟩
        · rw [List.take_length]
          exact Fs.run_touch _ _
        · obtain ⟨k, h₃⟩ := run_touch_err he
          exact ⟨.inr ⟨h₁, .inr ⟨h₂, k, h₃⟩⟩, fun hno => absurd (List.mem_of_mem_tail
            (List.mem_of_mem_tail (mem_of_firstFault h₃))) (hno k)⟩
      · rw [Fs.writeAll, run_callPart_of_error h₂ (by simp only [hd, if_neg hs]; rfl)]
        exact ⟨0, hnone.symm, fun _ => ⟨rfl, hne_ok⟩, fun _ _ => ⟨.inl hpos, fun _ => rfl⟩⟩
    · rw [Fs.writeAll, run_callPart_of_fail h₂]
      refine ⟨n, rfl, fun hs => ?_, fun e _ => ?_⟩
      · rcases hsilent hs with h | h <;> rw [h₂] at h <;> cases h
        exact ⟨rfl, hne_ok⟩
      · refine ⟨?_, fun hno => absurd (List.mem_of_mem_tail (mem_of_firstFault h₂)) (hno n)⟩
        by_cases hn : n < b.length
        · exact .inl hn
        · exact .inr ⟨h₁, .inl ⟨n, h₂, Nat.not_lt.mp hn⟩⟩
    · rw [Fs.writeAll, run_callPart_of_crash h₂]
      refine ⟨n, rfl, fun hs => ?_, fun _ he => by cases he⟩
      rcases hsilent hs with h | h <;> rw [h₂] at h <;> cases h
      exact ⟨rfl, hcrash⟩
  · rw [Fs.touch, Prog.call, run_callPart_of_fail h₁]
    exact ⟨0, hnone.symm, fun _ => ⟨rfl, hne_ok⟩, fun _ _ => ⟨.inl hpos, fun _ => rfl⟩⟩
  · rw [Fs.touch, Prog.call, run_callPart_of_crash h₁]
    exact ⟨0, hnone.symm, fun _ => ⟨rfl, hcrash⟩, fun _ he => by cases he⟩

end Append

/-! ## Generations -/

/-- How many segments a flush writes. -/
def Store.flushes (s : Store) : ℕ := if s.memtable.isEmpty then 0 else 1

/-- How many segments the call writes, if it gets that far. -/
def Call.segments (c : Call) (s : Store) : ℕ :=
  match c.record with
  | some r => if (s.applied r).memtable.isOverThreshold s.flushThresholdBytes then 1 else 0
  | none =>
    if c = .compact then s.flushes + (if s.segments.length + s.flushes < 2 then 0 else 1) else 0

section Generations

variable {A : Fault → Prop} {s s' : Store} {D D' : Dir} {L : List (List Entry)} {es : List Entry}
  {r : Record} {c : Call} {n : Name} {v : Option Bytes} {o : Outcome StoneError Unit}

theorem Dir.Below.put (h : D.Below) (hn : n ≠ segmentFilename (u64Size - 1)) : (D.put n v).Below := by
  rw [Dir.Below, Dir.files_put, if_neg hn.symm]
  exact h

theorem Dir.Below.put_next (h : D.Below) (hs : s.nextSegmentGeneration + 1 < u64Size) :
    (D.put s.nextName v).Below :=
  h.put fun he => by
    have := segmentFilename_injective he
    omega

theorem Dir.Below.replacing (h : D.Below) (hs : s.nextSegmentGeneration + 1 < u64Size) :
    (D.replacing s es).Below := (h.put_next hs).put segmentFilename_ne_marker.symm

theorem Dir.Below.drop (h : D.Below) (ns : List Name) : (D.drop ns).Below :=
  h.anti fun n => by
    rw [Dir.files_drop]
    split_ifs
    · exact .inr rfl
    · exact .inl rfl

theorem AppendStep.below (hs : AppendStep A D r o D') (h : D.Below) : D'.Below := by
  rw [Dir.Below, hs.files]
  exact h

theorem Store.flushes_of_not_isEmpty (h : ¬ s.memtable.isEmpty) : s.flushes = 1 := if_neg h

theorem FlushStep.below (hs : FlushStep A s D o s' D') (h : D.Below)
    (hroom : s.nextSegmentGeneration + s.flushes < u64Size) : D'.Below := by
  have hlt : ¬ s.memtable.isEmpty → s.nextSegmentGeneration + 1 < u64Size := fun hne => by
    rwa [Store.flushes_of_not_isEmpty hne] at hroom
  cases hs with
  | empty _ => exact h
  | aborted _ _ hne => exact h.put_next (hlt hne)
  | exhausted _ hne => exact h.put_next (hlt hne)
  | installed _ _ _ hne => exact h.put_next (v := some (segmentImage s.memtable.iter)) (hlt hne)
  | done _ hne => exact h.put_next (v := some (segmentImage s.memtable.iter)) (hlt hne)

/-- What a flush that returns does to the number of segments and the next generation. -/
theorem FlushStep.counts (hs : FlushStep A s D (.ok ()) s' D') :
    s'.nextSegmentGeneration = s.nextSegmentGeneration + s.flushes ∧
      s'.segments.length = s.segments.length + s.flushes := by
  cases hs with
  | empty hempty =>
    rw [Store.flushes, if_pos hempty]
    exact ⟨rfl, rfl⟩
  | aborted ho => exact absurd rfl ho.ne_ok
  | installed ho => exact absurd rfl ho.ne_ok
  | done _ hne =>
    rw [Store.flushes_of_not_isEmpty hne]
    exact ⟨rfl, rfl⟩

theorem MergeStep.below (hs : MergeStep A s D es o s' D') (h : D.Below)
    (hroom : s.nextSegmentGeneration + 1 < u64Size) : D'.Below := by
  have hmarker := segmentFilename_ne_marker (g := u64Size - 1)
  cases hs with
  | refused _ _ => exact h
  | failed _ => exact h
  | aborted _ _ _ _ => exact (h.put_next hroom).put hmarker.symm
  | exhausted _ _ => exact h.replacing hroom
  | @installed _ olds _ _ _ _ => exact (h.replacing hroom).drop olds
  | done _ _ => exact ((h.replacing hroom).drop _).put hmarker.symm

/-- **A call with room for its segments** writes none of the last generation. -/
theorem CallStep.below (hs : CallStep A s D L c o s' D') (h : D.Below)
    (hroom : s.nextSegmentGeneration + c.segments s < u64Size) : D'.Below := by
  have hlog : ∀ {r}, c.record = some r → LogStep A s D r o s' D' → D'.Below := fun {r} hr hs => by
    rw [Call.segments, hr] at hroom
    cases hs with
    | unlogged happend _ => exact happend.below h
    | logged happend happlied =>
      cases happlied with
      | kept _ => exact happend.below h
      | flushed hover hflush =>
        refine hflush.below (happend.below h) ?_
        rw [Store.flushes_of_not_isEmpty isEmpty_applied]
        have hover' : (s.applied r).memtable.isOverThreshold s.flushThresholdBytes = true := hover
        simp only [hover', if_true] at hroom
        exact hroom
  cases c with
  | set key val => exact hlog rfl hs
  | delete key => exact hlog rfl hs
  | get key =>
    obtain ⟨-, rfl⟩ : s' = s ∧ D' = D := hs
    exact h
  | compact =>
    have hroom' : s.nextSegmentGeneration + (s.flushes +
      (if s.segments.length + s.flushes < 2 then 0 else 1)) < u64Size := hroom
    have hfirst : s.nextSegmentGeneration + s.flushes < u64Size := by omega
    rcases hs with ⟨hflush, -⟩ | ⟨hflush, -, -⟩ | ⟨hflush, -, hlen, hmerge⟩
    · exact hflush.below h hfirst
    · exact hflush.below h hfirst
    · obtain ⟨hnext, hcount⟩ := hflush.counts
      refine hmerge.below (hflush.below h hfirst) ?_
      rw [if_neg (by omega)] at hroom'
      omega

end Generations

/-! ## Guarded calls -/

/-- The view of the store after the change is the view before it. -/
def NoChange (c : Call) (x : Store × Disk) : Prop := ∀ f, Answers x f → c.change f = f

/-- The faults `l` of the call `c` on the store `x` at `dir` are such that afterwards the store and its
directory agree:

* a flush, if the call gets that far, does not write the segment that a marker names;
* a compaction does not pass by a marker that names another segment, as it may when `exists` is denied;
* nothing is written behind a torn tail of the log;
* an append whose record is written in full does not fail, unless it changes nothing;
* there is a generation, not counting the last one, for each segment that is to be written. -/
structure Guarded (dir : Path) (x : Store × Disk) (c : Call) (l : List Fault) : Prop where
  flush : c.Flushes x.1 → ¬ NamesNext x.1 (dirOf dir x.2)
  pass : c = .compact → (dirOf dir x.2).marker = none ∨ NamesNext x.1 (dirOf dir x.2) ∨ .deny ∉ l
  tail : c.record.isSome → c.Fits → (dirOf dir x.2).Whole ∨ Silent l
  written : ∀ r ∈ c.record, FailsWritten r.image.length l → NoChange c x
  room : x.1.nextSegmentGeneration + c.segments x.1 < u64Size

section Guarded

variable {dir : Path} {s s' : Store} {d d' : Disk} {D D₀ : Dir} {gs : List ℕ} {L : List (List Entry)}
  {rs : List Record} {r : Record} {c : Call} {l : List Fault} {o : Outcome StoneError Unit}

/-- A record that changes nothing, in the log only. -/
theorem Backed.log_unchanged (h : Backed dir (s.applied r) D gs L (rs ++ [r.stored]))
    (h₀ : Backed dir s D₀ gs L rs) (hsame : view (s.applied r).memtable L = view s.memtable L)
    (hfiles : D.files = D₀.files) : Backed dir s D gs L (rs ++ [r.stored]) := by
  refine ⟨h.dir_eq, h.wal, h.segments, h.below, h.next_lt, h₀.valid, h.holds, h.log, h.records,
    fun k => (h.agrees k).trans (congrFun hsame k), ?_⟩
  have hmarker : D.marker = D₀.marker := congrFun hfiles _
  have hleft : ∀ {P P' : List Entry → Prop}, Leftover s D₀ P → (∀ es, P es → P' es) →
      Leftover s D P' := fun hP hPP' b hb => by
    rw [hfiles] at hb
    obtain ⟨es, hstor, hes, hp⟩ := hP b hb
    exact ⟨es, hstor, hes, hPP' es hp⟩
  cases h₀.extra with
  | plain hm hall hP =>
    exact .plain (hmarker.trans hm) (by rwa [hfiles]) (hleft hP fun es hes => ⟨hes.1.append, hes.2⟩)
  | named hm hvalid hall hP =>
    exact .named (hmarker.trans hm) hvalid (by rwa [hfiles]) (hleft hP fun _ h => h)
  | replaced hm hvalid hout hold hall hP =>
    exact .replaced (hmarker.trans hm) hvalid hout hold (by rwa [hfiles])
      (hleft hP fun _ h => h.append)

/-- **An append that does not return.** -/
theorem Backed.append_failed (h : Backed dir s (dirOf dir d) gs L rs) (hr : c.record = some r)
    (hg : Guarded dir (s, d) c l) (happend : (s.wal.append r).run d l = (o, d')) (ho : o ≠ .ok ())
    (hbelow : (dirOf dir d').Below) : (o = .crash ∧ ∃ f, Resumes (dirOf dir d') f) ∨
      ∃ rs', Backed dir s (dirOf dir d') gs L rs' := by
  have hsame : d' = d → ∃ rs', Backed dir s (dirOf dir d') gs L rs' := fun hd => by
    rw [hd]
    exact ⟨rs, h⟩
  rcases henc : r.encode with e | b
  · rw [append_run_error henc] at happend
    cases happend
    exact .inr (hsame rfl)
  obtain ⟨old, hold⟩ := Option.isSome_iff_exists.mp h.served.log
  have hwal : s.wal.path = walPathOf dir := h.served.wal
  have hlog : d.read s.wal.path = some old := by rw [hwal, ← dirOf_wal, hold]
  have hb := (Record.encode_eq_ok henc).2.2
  obtain ⟨n, hd', hsilent, herr⟩ := append_run_left (l := l) hlog henc
  have hstep := (wp_append (A := AnyFault) (r := r) h.served.writable).run (l := l) fun _ _ => trivial
  rw [happend] at hd' hsilent herr hstep
  rcases hg.tail (by rw [hr]; rfl) (Call.fits_of_encode hr henc) with hw | hs
  · rcases hstep.torn_or_done h hw with h₁ | h₁
    · exact .inr ⟨rs, h₁⟩
    · rcases o with ⟨⟨⟩⟩ | e | _
      · exact absurd rfl ho
      · right
        rcases (herr e rfl).1 with hn | hfails
        · by_cases hfit : (old ++ b.take n).length ≤ maxFileLen
          · have hrec := Record.valid_stored henc
            have himg : b = r.stored.image := by rw [r.image_stored, hb]
            have hread : dirOf dir d' = (dirOf dir d).setWal (some (old ++ b.take n)) := by
              dsimp only at hd'
              rw [hd', hwal] at *
              rw [dirOf_setWal Disk.touched_append, Disk.read_append_self hlog hfit]
            rw [hread, Option.some_inj.mp (hold.symm.trans (h.log_of_whole hw))]
            exact ⟨rs, h.torn ⟨r.stored, hrec, n, himg ▸ hn, by rw [himg]⟩⟩
          · refine hsame ?_
            dsimp only at hd'
            rw [hd', Disk.append_of_lt hlog (Nat.not_le.mp hfit)]
        · have hno := hg.written r hr (hb ▸ hfails) _ h.served.answers
          rw [Call.change_of_record hr] at hno
          exact ⟨_, h₁.log_unchanged h (view_applied.trans hno) hstep.files⟩
      · exact .inl ⟨rfl, _, h₁.resumes hbelow⟩
  · refine .inr (hsame ?_)
    dsimp only at hd' hsilent
    rw [hd', (hsilent hs).1, List.take_zero, Disk.append_nil]

/-- **One call.** If the process does not die in it, the store stays backed; otherwise its directory
can still be resumed. -/
theorem Backed.call (h : Backed dir s (dirOf dir d) gs L rs) (hd : (dirOf dir d).Below)
    (hg : Guarded dir (s, d) c l) (hrun : c.method.run (s, d) l = (o, (s', d'))) :
    (dirOf dir d').Below ∧ ((o = .crash ∧ ∃ f, Resumes (dirOf dir d') f) ∨
      ∃ gs' L' rs', Backed dir s' (dirOf dir d') gs' L' rs') := by
  have hstep : CallStep (· ∈ l) s (dirOf dir d) L c o s' (dirOf dir d') :=
    (wp_call h.served c).run_eq (fun _ h => h) hrun
  have hbelow := hstep.below hd hg.room
  refine ⟨hbelow, ?_⟩
  have hlog : ∀ {r}, c.record = some r → (o = .crash ∧ ∃ f, Resumes (dirOf dir d') f) ∨
      ∃ gs' L' rs', Backed dir s' (dirOf dir d') gs' L' rs' := fun {r} hr => by
    rw [Call.method_of_record hr] at hrun
    have hstep := (wp_append (A := AnyFault) (r := r) h.served.writable).run (l := l) fun _ _ => trivial
    rcases happend : (s.wal.append r).run d l with ⟨o₁, d₁⟩
    rw [happend] at hstep
    by_cases hok : o₁ = .ok ()
    · subst hok
      obtain ⟨b, hb⟩ := hstep.encode
      obtain ⟨old, hold⟩ := Option.isSome_iff_exists.mp h.served.log
      have hread : d.read s.wal.path = some old := by
        rw [show s.wal.path = walPathOf dir from h.served.wal, ← dirOf_wal, hold]
      obtain ⟨_, -, hsilent, -⟩ := append_run_left (l := l) hread hb
      rw [happend] at hsilent
      have hw := (hg.tail (by rw [hr]; rfl) (Call.fits_of_encode hr hb)).resolve_right fun hs =>
        (hsilent hs).2 rfl
      have h₁ := hstep.backed h hw
      obtain ⟨l', -, hrest⟩ := logged_run_of_ok happend
      rw [hrun] at hrest
      have happlied := (wp_applied (A := AnyFault) h₁.served.writable).run (l := l') fun _ _ => trivial
      rw [← hrest] at happlied
      have hn : (s.applied r).memtable.isOverThreshold (s.applied r).flushThresholdBytes = true →
          ¬ NamesNext (s.applied r) (dirOf dir d₁) := fun hover hnamed => by
        refine hg.flush ?_ (hstep.namesNext.mp hnamed)
        rw [Call.Flushes, hr]
        exact hover
      obtain ⟨gs', L', rs', h', -⟩ := happlied.backed h₁ hn bounded_dirOf hbelow
      exact .inr ⟨gs', L', rs', h'⟩
    · rw [logged_run_of_ne_ok (by rw [happend]; exact hok), happend] at hrun
      cases hrun
      rcases h.append_failed hr hg happend hok hbelow with hcr | ⟨rs', h'⟩
      · exact .inl hcr
      · exact .inr ⟨gs, L, rs', h'⟩
  cases c with
  | set key val => exact hlog rfl
  | delete key => exact hlog rfl
  | get key =>
    obtain ⟨rfl, hd⟩ : s' = s ∧ dirOf dir d' = dirOf dir d := hstep
    rw [hd]
    exact .inr ⟨gs, L, rs, h⟩
  | compact =>
    obtain ⟨gs', L', rs', h', -⟩ := CompactStep.backed hstep h
      (or_iff_not_imp_left.mpr fun hne => hg.flush ⟨rfl, hne⟩) (hg.pass rfl) bounded_dirOf hbelow
    exact .inr ⟨gs', L', rs', h'⟩

end Guarded

/-! ## Courses -/

/-- What is reached from an empty directory: the open store, if there is one, and the disk. `open` may
die, and a call may also fail, under faults that `P` allows. -/
inductive Course (P : Store × Disk → Call → List Fault → Prop) (dir : Path) :
    Option Store → Disk → Prop
  | fresh {d : Disk} : Fresh dir d → Course P dir none d
  | opened {x : Option Store} {d d' : Disk} {t : ℕ} {f : List Name → List Name}
    {h : ∀ l, (f l).Perm l} {l : List Fault} {o : Outcome StoneError Store} :
    Course P dir x d → (∀ e ∈ l, NoFail e) →
    (Store.openWithThreshold dir t).run (d.reorder f h) l = (o, d') →
    Course P dir (openedStore o) d'
  | called {s s' : Store} {d d' : Disk} {c : Call} {l : List Fault} {o : Outcome StoneError Unit} :
    Course P dir (some s) d → P (s, d) c l → c.method.run (s, d) l = (o, (s', d')) →
    Course P dir (leftStore s' o) d'

section Course

variable {P : Store × Disk → Call → List Fault → Prop} {dir : Path} {x : Option Store} {s s' : Store}
  {d d' : Disk} {c : Call} {l : List Fault} {t : ℕ}

/-- **What a course leaves.** An open store is backed by its directory, which has the property `I`; and
the directory can be resumed. -/
theorem Course.backed (h : Course P dir x d) {I : Dir → Prop}
    (hI : ∀ s d gs L rs t, Live dir s (dirOf dir d) gs L rs t → I (dirOf dir d))
    (hP : ∀ s d c l gs L rs, Backed dir s (dirOf dir d) gs L rs → I (dirOf dir d) → P (s, d) c l →
      Guarded dir (s, d) c l ∧ ∀ o s' d', c.method.run (s, d) l = (o, (s', d')) → o ≠ .crash →
        I (dirOf dir d')) :
    (∃ f, Resumes (dirOf dir d) f) ∧ ∀ s, x = some s → (dirOf dir d).Below ∧ I (dirOf dir d) ∧
      ∃ gs L rs, Backed dir s (dirOf dir d) gs L rs := by
  induction h with
  | fresh hd => exact ⟨⟨_, hd.resumes⟩, nofun⟩
  | @opened _ d _ t f h _ o _ hl hrun ih =>
    obtain ⟨g, hg⟩ := ih.1
    have hlisted : Resumes (dirOf dir (d.reorder f h)) g := hg
    rcases (hlisted.opens (t := t) reliable_noFail).run_eq hl hrun with
      ⟨rfl, hres⟩ | ⟨s, gs, L, rs, rfl, hlive, -⟩
    · exact ⟨⟨g, hres⟩, nofun⟩
    · refine ⟨⟨_, hlive.resumes⟩, fun s' hs' => ?_⟩
      cases hs'
      exact ⟨hlive.settled.below, hI _ _ _ _ _ _ hlive, gs, L, rs, hlive.backed⟩
  | @called s s' d d' c l o hcourse hl hrun ih =>
    obtain ⟨hd, hi, gs, L, rs, hbacked⟩ := ih.2 s rfl
    obtain ⟨hg, hi'⟩ := hP s d c l gs L rs hbacked hi hl
    obtain ⟨hbelow, hcall⟩ := hbacked.call hd hg hrun
    rcases hcall with ⟨rfl, hres⟩ | ⟨gs', L', rs', h'⟩
    · exact ⟨hres, nofun⟩
    · refine ⟨⟨_, h'.resumes hbelow⟩, fun s'' hs'' => ?_⟩
      rcases o with _ | _ | _ <;> cases hs'' <;> exact ⟨hbelow, hi' _ _ _ hrun nofun, gs', L', rs', h'⟩

/-- **Reopening.** A store that its directory backs answers as a store that is opened there. -/
theorem Backed.reopens {gs : List ℕ} {L : List (List Entry)} {rs : List Record}
    (h : Backed dir s (dirOf dir d) gs L rs) (hbelow : (dirOf dir d).Below) (t : ℕ)
    (f : List Name → List Name) (hf : ∀ l, (f l).Perm l) : ∃ s' d' g,
    (Store.openWithThreshold dir t).run (d.reorder f hf) [] = (.ok s', d') ∧
      Answers (s', d') g ∧ Answers (s, d) g := by
  have hlisted : Resumes (dirOf dir (d.reorder f hf)) (view s.memtable L) := h.resumes hbelow
  obtain ⟨s', d', gs', L', rs', hopen, hlive, hview⟩ := hlisted.opens_nil (t := t)
  exact ⟨s', d', _, hopen, hview ▸ hlive.backed.served.answers, h.served.answers⟩

/-- **A write that fails is visible in both or in neither.** In a course of guarded calls, after a
guarded call that returns an error the store answers as one that is opened in its
directory, with the files listed in any order. -/
theorem rejected_write_agrees {e : StoneError} (h : Course (Guarded dir) dir (some s) d)
    (hg : Guarded dir (s, d) c l)
    (hrun : c.method.run (s, d) l = (.err e, (s', d'))) (t : ℕ) (f : List Name → List Name)
    (hf : ∀ l, (f l).Perm l) : ∃ s'' d'' g,
    (Store.openWithThreshold dir t).run (d'.reorder f hf) [] = (.ok s'', d'') ∧
      Answers (s'', d'') g ∧ Answers (s', d') g := by
  obtain ⟨hbelow, -, gs, L, rs, hbacked⟩ := ((h.called hg hrun).backed (I := fun _ => True)
    (fun _ _ _ _ _ _ _ => trivial) fun _ _ _ _ _ _ _ _ _ hg => ⟨hg, fun _ _ _ _ _ => trivial⟩).2 s' rfl
  exact hbacked.reopens hbelow t f hf

/-- What a store that is opened in the directory answers. -/
def answerOpened (dir : Path) (t : ℕ) (d : Disk) (k : Key) : Option (Option Val) :=
  match (Store.openWithThreshold dir t).run (d.reorder id fun l => .refl l) [] with
  | (.ok s, d') =>
    match (Store.get k).run (s, d') [] with
    | (.ok v, _) => some v
    | _ => none
  | _ => none

/-- An answer of the store that a store opened in its directory does not give. -/
theorem not_agree (k : Key) (v v' : Option Val) (hlive : ((Store.get k).run (s, d) []).1 = .ok v)
    (hopened : answerOpened dir t d k = some v') (hne : v' ≠ v) : ¬ ∃ s' d' g,
    (Store.openWithThreshold dir t).run (d.reorder id fun l => .refl l) [] = (.ok s', d') ∧
      Answers (s', d') g ∧ Answers (s, d) g := by
  rintro ⟨s', d', g, hrun, hans', hans⟩
  simp only [answerOpened, hrun, hans' k, Option.some_inj] at hopened
  rw [hans k] at hlive
  cases hlive
  exact hne hopened.symm

theorem Course.call {y : Store × Disk} (h : Course P dir (some y.1) y.2) (hP : P y c l)
    (ho : (c.method.run y l).1 ≠ .crash) :
    Course P dir (some (c.method.run y l).2.1) (c.method.run y l).2.2 := by
  rw [← leftStore_of_ne_crash ho]
  exact h.called hP rfl

/-- The opened store, with a flush as soon as there is anything to flush. -/
def eagerStore : Store := { newStore with flushThresholdBytes := 1 }

theorem course_eagerStore (P : Store × Disk → Call → List Fault → Prop) :
    Course P [['d']] (some eagerStore) openedDisk :=
  .opened (o := .ok eagerStore) (.fresh (fresh_empty _)) (by simp) (open_empty 1)

/-- The sync of an append fails: nothing is set, but after reopening it is. -/
theorem unsynced_write_reappears : ¬ ∀ (s s' : Store) (d d' : Disk) (c : Call) (l : List Fault)
    (e : StoneError), Course (fun _ _ l => ∀ f ∈ l, NoFault f) [['d']] (some s) d → c.record.isSome →
    (∀ f ∈ l, NoCrash f) → c.method.run (s, d) l = (.err e, (s', d')) → e.IsIo →
    ∃ s'' d'' g, (Store.openWithThreshold [['d']] 1).run (d'.reorder id fun l => .refl l) [] =
      (.ok s'', d'') ∧ Answers (s'', d'') g ∧ Answers (s', d') g := by
  intro hall
  refine not_agree [97] none (some [49]) ?_ ?_ nofun
    (hall eagerStore eagerStore openedDisk _ (.set [97] [49]) [.none, .none, .fail 0] (.io .other)
      (course_eagerStore _) rfl (by rintro f (_ | ⟨_, _ | ⟨_, _ | ⟨_, ⟨⟩⟩⟩⟩) <;> nofun) rfl (isIo_io _))
  · decide +kernel
  · decide +kernel

/-- A write that fails with a part of its record written. -/
theorem rejected_write_agrees_part : ∃ s'' d'' g,
    (Store.openWithThreshold [['d']] 1).run
        ((((Call.set [97] [49]).method.run (eagerStore, openedDisk) [.none, .fail 3]).2.2).reorder id
          fun l => .refl l) [] = (.ok s'', d'') ∧
      Answers (s'', d'') g ∧ Answers (eagerStore,
        ((Call.set [97] [49]).method.run (eagerStore, openedDisk) [.none, .fail 3]).2.2) g := by
  refine rejected_write_agrees (c := .set [97] [49]) (l := [.none, .fail 3]) (e := .io .other)
    (course_eagerStore _) ⟨?_, nofun, fun _ _ => .inl ⟨[], by simp, rfl⟩, ?_, by decide +kernel⟩ rfl
    1 id fun l => .refl l
  · exact fun _ => not_namesNext_of_none rfl
  · rintro r hr ⟨-, ⟨n, hn, hle⟩ | ⟨hn, -⟩⟩
    · cases hr
      cases hn
      exact absurd hle (by decide)
    · cases hn

end Course

/-! ## Failures in compactions -/

/-- What failures in compactions must not meet, and the other calls run without: the call does not
flush, if it gets that far, the segment that a marker names; it does not pass by a marker that names
another one, as it may when `exists` is denied; and it has a generation for each segment that it is to
write. -/
structure CompactionsFail (dir : Path) (x : Store × Disk) (c : Call) (l : List Fault) : Prop where
  others : c ≠ .compact → ∀ e ∈ l, NoFail e
  flush : c.Flushes x.1 → ¬ NamesNext x.1 (dirOf dir x.2)
  pass : c = .compact → (dirOf dir x.2).marker = none ∨ NamesNext x.1 (dirOf dir x.2) ∨ .deny ∉ l
  room : x.1.nextSegmentGeneration + c.segments x.1 < u64Size

section Whole

variable {A : Fault → Prop} {dir : Path} {s s' : Store} {d d' : Disk} {D D' : Dir} {gs : List ℕ}
  {L : List (List Entry)} {rs : List Record} {es : List Entry} {r : Record} {c : Call} {l : List Fault}
  {o : Outcome StoneError Unit}

theorem FlushStep.wal (hs : FlushStep A s D o s' D') : D'.wal = D.wal ∨ D'.wal = some [] := by
  cases hs with
  | empty _ => exact .inl rfl
  | aborted _ _ _ => exact .inl rfl
  | exhausted _ _ => exact .inl rfl
  | installed _ hw _ _ => exact hw
  | done _ _ => exact .inr rfl

theorem MergeStep.wal (hs : MergeStep A s D es o s' D') : D'.wal = D.wal := by
  cases hs <;> rfl

theorem CompactStep.wal (hs : CompactStep A s D L o s' D') : D'.wal = D.wal ∨ D'.wal = some [] := by
  rcases hs with ⟨hflush, -⟩ | ⟨hflush, -, -⟩ | ⟨hflush, -, -, hmerge⟩
  · exact hflush.wal
  · exact hflush.wal
  · rw [hmerge.wal]
    exact hflush.wal

theorem AppliedStep.wal (hs : AppliedStep A s D o s' D') : D'.wal = D.wal ∨ D'.wal = some [] := by
  cases hs with
  | kept _ => exact .inl rfl
  | flushed _ hflush => exact hflush.wal

theorem Dir.Whole.of_wal (h : D.Whole) (hw : D'.wal = D.wal ∨ D'.wal = some []) : D'.Whole := by
  obtain ⟨rs, hrs, hlog⟩ := h
  rcases hw with hw | hw
  · exact ⟨rs, hrs, hw.trans hlog⟩
  · exact ⟨[], by simp, hw⟩

theorem AppendStep.whole (hs : AppendStep A D r (.ok ()) D') (h : D.Whole) : D'.Whole := by
  cases hs with
  | cut _ _ ho => exact absurd rfl ho.ne_ok
  | @done old b hold hb =>
    obtain ⟨rs, hrs, hlog⟩ := h
    obtain rfl : old = logImage rs := Option.some_inj.mp (hold.symm.trans hlog)
    refine ⟨rs ++ [r.stored], valid_logged hrs hb, ?_⟩
    rw [logImage_logged hb]
    rfl

theorem not_failsWritten (h : ∀ e ∈ l, NoFail e) {n : ℕ} : ¬ FailsWritten n l := by
  have hno : ∀ k, Fault.fail k ∉ l := fun k hk => reliable_noFail.fail k (h _ hk)
  rintro ⟨-, ⟨k, hk, -⟩ | ⟨-, k, hk⟩⟩
  · exact hno k (List.mem_of_mem_tail (mem_of_firstFault hk))
  · exact hno k (List.mem_of_mem_tail (List.mem_of_mem_tail (mem_of_firstFault hk)))

/-- A call that does not fail in its append leaves the log whole. -/
theorem CompactionsFail.whole (hc : CompactionsFail dir (s, d) c l) (h : Served dir s (dirOf dir d) L)
    (hw : (dirOf dir d).Whole) (hrun : c.method.run (s, d) l = (o, (s', d'))) (ho : o ≠ .crash) :
    (dirOf dir d').Whole := by
  have hlog : ∀ {r}, c.record = some r → (dirOf dir d').Whole := fun {r} hr => by
    have hl := hc.others (by rintro rfl; cases hr)
    rw [Call.method_of_record hr] at hrun
    have hstep := (wp_append (A := AnyFault) (r := r) h.writable).run (l := l) fun _ _ => trivial
    rcases happend : (s.wal.append r).run d l with ⟨⟨⟨⟩⟩ | e | _, d₁⟩ <;> rw [happend] at hstep
    · obtain ⟨l', -, hrest⟩ := logged_run_of_ok happend
      rw [hrun] at hrest
      have happlied := (wp_applied (A := AnyFault) (hstep.writable_applied h.writable)).run (l := l')
        fun _ _ => trivial
      rw [← hrest] at happlied
      exact (hstep.whole hw).of_wal happlied.wal
    · rw [logged_run_of_ne_ok (by rw [happend]; nofun), happend] at hrun
      cases hrun
      rcases henc : r.encode with e' | b
      · rw [append_run_error henc] at happend
        cases happend
        exact hw
      · obtain ⟨old, hold⟩ := Option.isSome_iff_exists.mp h.log
        have hread : d.read s.wal.path = some old := by
          rw [show s.wal.path = walPathOf dir from h.wal, ← dirOf_wal, hold]
        obtain ⟨n, hd', -, herr⟩ := append_run_left (l := l) hread henc
        rw [happend] at hd' herr
        have hn := (herr e rfl).2 fun k hk => reliable_noFail.fail k (hl _ hk)
        dsimp only at hd'
        rw [hd', hn, List.take_zero, Disk.append_nil]
        exact hw
    · rw [logged_run_of_ne_ok (by rw [happend]; nofun), happend] at hrun
      cases hrun
      exact absurd rfl ho
  have hstep : CallStep (· ∈ l) s (dirOf dir d) L c o s' (dirOf dir d') :=
    (wp_call h c).run_eq (fun _ h => h) hrun
  cases c with
  | set key val => exact hlog rfl
  | delete key => exact hlog rfl
  | get key =>
    obtain ⟨-, hd⟩ : s' = s ∧ dirOf dir d' = dirOf dir d := hstep
    rwa [hd]
  | compact => exact hw.of_wal (CompactStep.wal hstep)

/-- Failures in compactions alone are guarded as long as the log is whole. -/
theorem CompactionsFail.guarded (hc : CompactionsFail dir (s, d) c l) (hw : (dirOf dir d).Whole) :
    Guarded dir (s, d) c l := by
  refine ⟨hc.flush, hc.pass, fun _ _ => .inl hw, fun r hr hfails => ?_, hc.room⟩
  have hne : c ≠ .compact := by
    rintro rfl
    cases hr
  exact absurd hfails (not_failsWritten (hc.others hne))

/-- **Failures in compactions do no harm later.** In a course in which only compactions fail, as long
as no call flushes the segment that a left marker names and no compaction passes a marker by, the
store answers as one that is opened in its directory, with the files listed in any order. -/
theorem failed_compactions_agree (h : Course (CompactionsFail dir) dir (some s) d) (t : ℕ)
    (f : List Name → List Name) (hf : ∀ l, (f l).Perm l) : ∃ s' d' g,
    (Store.openWithThreshold dir t).run (d.reorder f hf) [] = (.ok s', d') ∧
      Answers (s', d') g ∧ Answers (s, d) g := by
  obtain ⟨hbelow, -, gs, L, rs, hbacked⟩ := (h.backed (I := Dir.Whole)
    (fun _ _ _ _ rs _ hlive => ⟨rs, hlive.records, hlive.log⟩)
    fun s d c l gs L rs hbacked hw hc => ⟨hc.guarded hw, fun o s' d' hrun ho =>
      hc.whole hbacked.served hw hrun ho⟩).2 s rfl
  exact hbacked.reopens hbelow t f hf

/-! ### A marker that is left -/

/-- Two segments. -/
def twoSegments : Store × Disk :=
  ((Call.set [98] [50]).method.run ((Call.set [97] [49]).method.run (eagerStore, openedDisk) []).2 []).2

/-- The renaming of a compaction fails, and so does the removal of its marker. -/
def renameFails : List Fault := List.replicate 32 .none ++ [.fail 0, .fail 0]

/-- Two segments and the marker of a compaction. -/
def markerLeft : Store × Disk := (Call.compact.method.run twoSegments renameFails).2

theorem course_markerLeft {P : Store × Disk → Call → List Fault → Prop}
    (ha : P (eagerStore, openedDisk) (.set [97] [49]) [])
    (hb : P ((Call.set [97] [49]).method.run (eagerStore, openedDisk) []).2 (.set [98] [50]) [])
    (hc : P twoSegments .compact renameFails) :
    Course P [['d']] (some markerLeft.1) markerLeft.2 := by
  have ho₁ : ((Call.set [97] [49]).method.run (eagerStore, openedDisk) []).1 ≠ .crash := by
    decide +kernel
  have ho₂ : ((Call.set [98] [50]).method.run
      ((Call.set [97] [49]).method.run (eagerStore, openedDisk) []).2 []).1 ≠ .crash := by
    decide +kernel
  have ho₃ : (Call.compact.method.run twoSegments renameFails).1 ≠ .crash := by decide +kernel
  exact (((course_eagerStore P).call (y := (eagerStore, openedDisk)) ha ho₁).call hb ho₂).call hc ho₃

/-- A compaction that fails and leaves its marker. -/
theorem failed_compactions_agree_left : ∃ s' d' g,
    (Store.openWithThreshold [['d']] 1).run (markerLeft.2.reorder id fun l => .refl l) [] =
      (.ok s', d') ∧ Answers (s', d') g ∧ Answers (markerLeft.1, markerLeft.2) g := by
  have hfirst : (dirOf [['d']]
      ((Call.set [97] [49]).method.run (eagerStore, openedDisk) []).2.2).marker = none := by
    decide +kernel
  have hsecond : (dirOf [['d']] twoSegments.2).marker = none := by decide +kernel
  refine failed_compactions_agree (course_markerLeft
    ⟨fun _ => by simp, fun _ => not_namesNext_of_none rfl, nofun, by decide +kernel⟩
    ⟨fun _ => by simp, fun _ => not_namesNext_of_none hfirst, nofun, by decide +kernel⟩
    ⟨fun h => absurd rfl h, fun _ => not_namesNext_of_none hsecond, fun _ => .inl hsecond,
      by decide +kernel⟩) 1 id fun l => .refl l

/-- A compaction that fails leaves its marker; the next flush writes the segment that the marker names;
and the next opening removes the segments that this segment does not replace. -/
theorem left_marker_loses : ¬ ∀ (s : Store) (d : Disk),
    Course (fun _ c l => ∀ e ∈ l, if c = .compact then NoEffect e else NoFault e) [['d']] (some s) d →
    ∃ s' d' g, (Store.openWithThreshold [['d']] 1).run (d.reorder id fun l => .refl l) [] =
      (.ok s', d') ∧ Answers (s', d') g ∧ Answers (s, d) g := by
  intro hall
  have hnoEffect : ∀ e ∈ renameFails, NoEffect e := by
    intro e he
    rcases List.mem_append.mp he with he | he
    · exact .inl (List.eq_of_mem_replicate he)
    · rcases he with _ | ⟨_, _ | ⟨_, ⟨⟩⟩⟩ <;> exact .inr (.inl rfl)
  have hcourse := course_markerLeft
    (P := fun _ c l => ∀ e ∈ l, if c = .compact then NoEffect e else NoFault e)
    (by simp) (by simp) (by simpa using hnoEffect)
  have ho : ((Call.set [99] [51]).method.run markerLeft []).1 ≠ .crash := by decide +kernel
  have hmet := hcourse.call (y := markerLeft) (c := .set [99] [51]) (l := []) (by simp) ho
  refine not_agree [97] (some [49]) none ?_ ?_ nofun
    (hall _ _ hmet)
  · decide +kernel
  · decide +kernel

end Whole

end StoneKV
