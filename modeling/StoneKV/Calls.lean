import StoneKV.CompactStep
import StoneKV.Logging

/-!
# Calls

* `Call`: a call on an open store; `Call.method`: what it runs; `Call.change`: what it is to do to the
  contents of the store, a map.
* `CallStep`: what a call can do to the store and its directory; **`wp_call`**.
* **`Served.call_run`**: however a call ends, the store serves what it served, or what it served with the
  call done, and which of them it is.
-/

namespace StoneKV

open FaultProg Layers

/-- What a store holds. -/
abbrev Contents : Type := Key → Option Val

/-- A call on an open store. -/
inductive Call
  | set (key : Key) (val : Val)
  | delete (key : Key)
  | get (key : Key)
  | compact
  deriving DecidableEq

namespace Call

/-- What the call runs, without its result. -/
def method : Call → Method Unit
  | .set key val => Store.set key val
  | .delete key => Store.delete key
  | .get key => do
    let _ ← Store.get key
    return ()
  | .compact => do
    let _ ← Store.compact
    return ()

/-- The record that the call logs. -/
def record : Call → Option Record
  | .set key val => some (.newSet key val)
  | .delete key => some (.newDelete key)
  | .get _ | .compact => none

/-- What the call is to do to the contents. -/
def change : Call → Contents → Contents
  | .set key val, f => Function.update f key (some val)
  | .delete key, f => Function.update f key none
  | .get _, f | .compact, f => f

end Call

/-- What a call can do to the store `s`, which serves the segments `L` in the directory `D`. -/
def CallStep (A : Fault → Prop) (s : Store) (D : Dir) (L : List (List Entry)) (c : Call)
    (o : Outcome StoneError Unit) (s' : Store) (D' : Dir) : Prop :=
  match c with
  | .set key val => LogStep A s D (.newSet key val) o s' D'
  | .delete key => LogStep A s D (.newDelete key) o s' D'
  | .get _ => s' = s ∧ D' = D
  | .compact => CompactStep A s D L o s' D'

section Calls

variable {A : Fault → Prop} {dir : Path} {s s' : Store} {D D' : Dir} {L : List (List Entry)} {d : Disk}
  {c : Call} {o : Outcome StoneError Unit} {r : Record} {m : Memtable}

theorem wp_void {α : Type} {m : Method α} {Q : Outcome StoneError Unit → Store × Disk → Prop}
    {x : Store × Disk} (h : wp A m (fun o x => Q o.void x) x) : wp A (do
      let _ ← m
      return () : Method Unit) Q x :=
  FaultProg.wp.bind h (fun _ _ h => wp_pure h) (fun _ _ h => h) fun _ h => h

/-- Searching changes nothing, whatever fails. -/
theorem wp_searchSegments_same {k : Key} : ∀ rs : List SegmentReader,
    wp A (Store.searchSegments k rs) (fun _ d' => d' = d) d
  | [] => wp_pure rfl
  | r :: rs => by
    refine wp_bind (Fs.wp_reads (fun a _ => ?_) (fun _ _ => rfl) (fun _ _ => rfl) fun _ _ => rfl)
    rcases a with _ | _ | _
    · exact wp_searchSegments_same rs
    · exact wp_pure rfl
    · exact wp_pure rfl

theorem wp_get_same {k : Key} : wp A (Store.get k) (fun _ x => x = (s, d)) (s, d) := by
  refine wp_bind (wp_self ?_)
  dsimp only [Outcome.andThen]
  split
  · exact wp_pure rfl
  · exact wp_pure rfl
  · exact wp_onSnd ((wp_searchSegments_same s.segments).mono fun _ _ h => by rw [h])

/-- **One call.** -/
theorem wp_call (h : Served dir s (dirOf dir d) L) (c : Call) :
    wp A c.method (fun o x => CallStep A s (dirOf dir d) L c o x.1 (dirOf dir x.2)) (s, d) := by
  cases c with
  | set key val => exact wp_logged h.writable
  | delete key => exact wp_logged h.writable
  | get key =>
    refine wp_void (wp_get_same.mono fun o x hx => ?_)
    rw [hx]
    exact ⟨rfl, rfl⟩
  | compact => exact wp_void (wp_compact h)

/-! ### What a call keeps -/

theorem AppliedStep.served (hs : AppliedStep A s D o s' D') (h : Served dir s D L) (hb : D'.Bounded)
    (hbelow : D'.Below) : ∃ L', Served dir s' D' L' ∧
      ∀ k, view s'.memtable L' k = view s.memtable L k := by
  cases hs with
  | kept _ => exact ⟨L, h, fun _ => rfl⟩
  | flushed _ hflush => exact hflush.served h hb hbelow

/-- The record in the memtable covers what the key had. -/
theorem view_applied : view (applyRecord m r) L = Function.update (view m L) r.key (toEntry r).2 := by
  funext k
  have hget : (applyRecord m r).get k = if k = r.key then some (toEntry r).2 else m.get k := by
    rw [applyRecord_eq_put, Memtable.get_put]
  rw [Function.update_apply]
  split_ifs with hk
  · rw [if_pos hk] at hget
    exact value_cons_of_some hget
  · rw [if_neg hk] at hget
    rw [view, view, value_cons, value_cons, hget]

theorem Call.change_of_record (h : c.record = some r) (f : Contents) :
    c.change f = Function.update f r.key (toEntry r).2 := by
  cases c <;> cases h <;> rfl

theorem Call.method_of_record (h : c.record = some r) :
    c.method = Store.logged r fun m => applyRecord m r := by
  cases c <;> cases h <;> rfl

/-! ### Calls under given faults -/

section Runs

variable {l : List Fault} {d' : Disk}

theorem run_self_bind {α : Type} {f : Store → Method α} :
    (self >>= f).run (s, d) l = (f s).run (s, d) l := rfl

theorem run_update_bind {α : Type} {g : Store → Store} {f : Unit → Method α} :
    (update g >>= f).run (s, d) l = (f ()).run (g s, d) l := rfl

/-- What follows an append that succeeds. -/
theorem logged_run_of_ok (h : (s.wal.append r).run d l = (.ok (), d')) :
    ∃ l', l' <:+ l ∧ (Store.logged r fun m => applyRecord m r).run (s, d) l = (do
      let s ← self
      if s.memtable.isOverThreshold s.flushThresholdBytes then
        Store.flushMemtable : Method Unit).run (s.applied r, d') l' := by
  obtain ⟨l', hl', hrest⟩ := Prog.run_bind_of_ok (f := fun _ => (do
    update fun s => { s with memtable := applyRecord s.memtable r }
    let s ← self
    if s.memtable.isOverThreshold s.flushThresholdBytes then Store.flushMemtable : Method Unit))
    (Prog.run_onSnd (t := s) h)
  exact ⟨l', hl', run_self_bind.trans (hrest.trans run_update_bind)⟩

/-- An append that does not succeed ends the operation. -/
theorem logged_run_of_ne_ok (h : ((s.wal.append r).run d l).1 ≠ .ok ()) :
    (Store.logged r fun m => applyRecord m r).run (s, d) l =
      (((s.wal.append r).run d l).1, (s, ((s.wal.append r).run d l).2)) := by
  rcases e : (s.wal.append r).run d l with ⟨⟨⟩ | _ | _, d'⟩
  · rw [e] at h
    exact absurd rfl h
  · exact run_self_bind.trans (Prog.run_bind_of_err (Prog.run_onSnd e))
  · exact run_self_bind.trans (Prog.run_bind_of_crash (Prog.run_onSnd e))

/-- The append of the call succeeds. -/
def Call.Logged (c : Call) (x : Store × Disk) (l : List Fault) : Prop :=
  ∃ r, c.record = some r ∧ ((x.1.wal.append r).run x.2 l).1 = .ok ()

/-- **A call under given faults.** If its append succeeds the store serves what it is to do too;
otherwise it serves what it served. -/
theorem Served.call_run (h : Served dir s (dirOf dir d) L) {x : Store × Disk}
    (hx : (c.method.run (s, d) l).2 = x) (hbelow : (dirOf dir x.2).Below) :
    ∃ L', Served dir x.1 (dirOf dir x.2) L' ∧
      (c.Logged (s, d) l → view x.1.memtable L' = c.change (view s.memtable L)) ∧
      (¬ c.Logged (s, d) l → view x.1.memtable L' = view s.memtable L) := by
  have hlog : ∀ r, c.record = some r → ∃ L', Served dir x.1 (dirOf dir x.2) L' ∧
      (c.Logged (s, d) l → view x.1.memtable L' = c.change (view s.memtable L)) ∧
      (¬ c.Logged (s, d) l → view x.1.memtable L' = view s.memtable L) := fun r hr => by
    have happend := (wp_append (A := AnyFault) (r := r) h.writable).run (l := l) fun _ _ => trivial
    rw [Call.method_of_record hr] at hx
    by_cases hok : ((s.wal.append r).run d l).1 = .ok ()
    · have hrun : (s.wal.append r).run d l = (.ok (), ((s.wal.append r).run d l).2) :=
        Prod.ext hok rfl
      rw [hok] at happend
      obtain ⟨l', -, hrest⟩ := logged_run_of_ok hrun
      have hserved := happend.served_applied h
      have hstep := (wp_applied (A := AnyFault) hserved.writable).run (l := l') fun _ _ => trivial
      rw [← hrest, hx] at hstep
      obtain ⟨L', hserved', hview⟩ := hstep.served hserved bounded_dirOf hbelow
      refine ⟨L', hserved', fun _ => ?_, fun hn => absurd ⟨r, hr, hok⟩ hn⟩
      rw [Call.change_of_record hr]
      exact (funext hview).trans view_applied
    · rw [logged_run_of_ne_ok hok] at hx
      subst hx
      refine ⟨L, happend.served h, fun hl => ?_, fun _ => rfl⟩
      obtain ⟨r', hr', hok'⟩ := hl
      rw [hr] at hr'
      cases hr'
      exact absurd hok' hok
  have hnone : c.record = none → (∃ L', Served dir x.1 (dirOf dir x.2) L' ∧
      ∀ k, view x.1.memtable L' k = view s.memtable L k) → ∃ L', Served dir x.1 (dirOf dir x.2) L' ∧
      (c.Logged (s, d) l → view x.1.memtable L' = c.change (view s.memtable L)) ∧
      (¬ c.Logged (s, d) l → view x.1.memtable L' = view s.memtable L) := by
    rintro hr ⟨L', hserved, hview⟩
    refine ⟨L', hserved, fun hl => ?_, fun _ => funext hview⟩
    obtain ⟨r', hr', -⟩ := hl
    rw [hr] at hr'
    cases hr'
  have hstep := (wp_call (A := AnyFault) h c).run (l := l) fun _ _ => trivial
  rw [hx] at hstep
  cases c with
  | set key val => exact hlog _ rfl
  | delete key => exact hlog _ rfl
  | get key =>
    obtain ⟨hs, hd⟩ : x.1 = s ∧ dirOf dir x.2 = dirOf dir d := hstep
    rw [hs, hd]
    rw [hs, hd] at hnone
    exact hnone rfl ⟨L, h, fun _ => rfl⟩
  | compact => exact hnone rfl (CompactStep.served hstep h bounded_dirOf hbelow)

end Runs

end Calls

end StoneKV
