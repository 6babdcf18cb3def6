import StoneKV.Lib.Prog

/-!
# Programs that can be started again

A program is run, perhaps under faults, and then run again without any.

* `Steady io m`: a run of `m` that does not die and does not end with `io`, the error of a call that
  fails, has not been disturbed; one rule for each way to build a program, but for `Prog.attempt`,
  which has none.
* `Reentrant io m`: moreover, after any run, a run without faults ends as it does without that run.
* **`Reentrant.bind`**: a sequence can be started again when its second part does not undo the first.
* **`Reentrant.after`**: so it is after any number of runs.
-/

namespace FaultProg

open Prog

variable {σ τ ε α β : Type}

/-- A run of `m` in which the process does not die, and that does not end with the error `io` of a
call that failed, ends as without faults. Denied answers are not seen to fail, so they are not among
the faults. -/
def Steady (io : ε) (m : Prog σ ε α) : Prop :=
  ∀ s l o s', .deny ∉ l → o ≠ .crash → o ≠ .err io → m.run s l = (o, s') → m.run s [] = (o, s')

section Steady

variable {io : ε} {m : Prog σ ε α} {f : α → Prog σ ε β} {s s' : σ} {l : List Fault} {a : α} {e : ε}
  {x : Except ε α}

/-- A run that returns has not been disturbed. -/
theorem Steady.run_ok (hm : Steady io m) (hl : .deny ∉ l) (h : m.run s l = (.ok a, s')) :
    m.run s [] = (.ok a, s') :=
  hm s l (.ok a) s' hl nofun nofun h

theorem Steady.run_err (hm : Steady io m) (hl : .deny ∉ l) (he : e ≠ io)
    (h : m.run s l = (.err e, s')) : m.run s [] = (.err e, s') :=
  hm s l (.err e) s' hl nofun (fun heq => he (by cases heq; rfl)) h

theorem steady_pure : Steady io (pure a : Prog σ ε α) := fun _ _ _ _ _ _ _ h => h

theorem steady_throw : Steady io (Prog.throw e : Prog σ ε α) := fun _ _ _ _ _ _ _ h => h

theorem steady_ofExcept : Steady io (Prog.ofExcept x : Prog σ ε α) := by
  cases x with
  | ok a => exact steady_pure
  | error e => exact steady_throw

theorem steady_get : Steady io (Prog.get : Prog σ ε σ) := fun _ _ _ _ _ _ _ h => h

theorem steady_modify {f : σ → σ} : Steady io (Prog.modify f : Prog σ ε Unit) :=
  fun _ _ _ _ _ _ _ h => h

theorem steady_ite {c : Prop} [Decidable c] {m' : Prog σ ε α} (h : c → Steady io m)
    (h' : ¬ c → Steady io m') : Steady io (if c then m else m') := by
  split_ifs with hc
  · exact h hc
  · exact h' hc

/-- **Composition.** -/
theorem Steady.bind (hm : Steady io m) (hf : ∀ a, Steady io (f a)) : Steady io (m >>= f) := by
  intro s l o s' hl hcr hio h
  rcases e : m.run s l with ⟨a | e' | _, s₁⟩
  · obtain ⟨l', hl', hrest⟩ := run_bind_of_ok (f := f) e
    rw [hrest] at h
    rw [run_bind_nil (hm.run_ok hl e)]
    exact hf a s₁ l' o s' (fun hd => hl (hl'.subset hd)) hcr hio h
  · rw [run_bind_of_err e] at h
    cases h
    exact run_bind_of_err (hm.run_err hl (fun heq => hio (congrArg _ heq)) e)
  · rw [run_bind_of_crash e] at h
    cases h
    exact absurd rfl hcr

theorem steady_callPart {part : ℕ → σ → σ} {eff : σ → Except ε (α × σ)} :
    Steady io (Prog.callPart io part eff) := by
  intro s l o s' hl hcr hio h
  -- the calls to come do not matter
  have hfinish : ∀ l, ((finish eff s []).1, (finish eff s []).2.state) =
      ((finish eff s l).1, (finish eff s l).2.state) := fun l => by
    unfold finish
    split <;> rfl
  match l with
  | [] => exact h
  | .none :: l => exact (hfinish l).trans h
  | .fail _ :: _ =>
    cases h
    exact absurd rfl hio
  | .deny :: l => exact absurd List.mem_cons_self hl
  | .crash _ :: _ =>
    cases h
    exact absurd rfl hcr

theorem steady_call {eff : σ → Except ε (α × σ)} : Steady io (Prog.call io eff) :=
  steady_callPart

theorem steady_ask {dflt : α} {ans : σ → α} : Steady io (Prog.ask dflt ans : Prog σ ε α) := by
  intro s l o s' hl hcr _ h
  match l with
  | [] | .none :: _ | .fail _ :: _ => exact h
  | .deny :: l => exact absurd List.mem_cons_self hl
  | .crash _ :: _ =>
    cases h
    exact absurd rfl hcr

theorem Steady.onSnd (hm : Steady io m) : Steady io (m.onSnd : Prog (τ × σ) ε α) := by
  rintro ⟨t, s⟩ l o ⟨t', s'⟩ hl hcr hio h
  rw [run_onSnd_eq, Prod.mk.injEq, Prod.mk.injEq] at h
  obtain ⟨ho, rfl, hs⟩ := h
  rw [run_onSnd_eq, hm s l o s' hl hcr hio (Prod.ext ho hs)]

/-- A run with a local variable ends as the run over it. -/
theorem run_withLocal_eq {t : τ} {m : Prog (τ × σ) ε α} :
    (Prog.withLocal t m).run s l =
      match m.run (t, s) l with
      | (.ok a, x) => (.ok (a, x.1), x.2)
      | (.err e, x) => (.err e, x.2)
      | (.crash, x) => (.crash, x.2) := by
  simp only [run, Prog.withLocal]
  rcases m.exec ⟨(t, s), l⟩ with ⟨_ | _ | _, w⟩ <;> rfl

theorem Steady.withLocal {t : τ} {m : Prog (τ × σ) ε α} (hm : Steady io m) :
    Steady io (Prog.withLocal t m) := by
  intro s l o s' hl hcr hio h
  rw [run_withLocal_eq] at h ⊢
  rcases e : m.run (t, s) l with ⟨a | e' | _, x⟩ <;> rw [e] at h <;> cases h
  · rw [hm.run_ok hl e]
  · rw [hm.run_err hl (fun heq => hio (congrArg _ heq)) e]
  · exact absurd rfl hcr

end Steady

/-- What becomes of the state when the last part of a program is replaced. -/
theorem run_bind_state_congr {m : Prog σ ε α} {f f' : α → Prog σ ε β}
    (h : ∀ a s l, ((f a).run s l).2 = ((f' a).run s l).2) (s : σ) (l : List Fault) :
    ((m >>= f).run s l).2 = ((m >>= f').run s l).2 := by
  simp only [run, Bind.bind, Prog.bind] at h ⊢
  rcases m.exec ⟨s, l⟩ with ⟨a | e | _, w⟩
  · exact h a w.state w.faults
  · rfl
  · rfl

/-- After a run that ended in any way, a run without faults ends as one from the start. -/
structure Reentrant (io : ε) (m : Prog σ ε α) : Prop where
  steady : Steady io m
  again : ∀ s l, .deny ∉ l → m.run (m.run s l).2 [] = m.run s []

section Reentrant

variable {io : ε} {m : Prog σ ε α} {f : α → Prog σ ε β} {s s' : σ} {a : α}

/-- A program that only reads. -/
theorem Steady.reentrant (hm : Steady io m) (hread : ∀ s l, (m.run s l).2 = s) :
    Reentrant io m :=
  ⟨hm, fun s l _ => by rw [hread]⟩

/-- What a program that returned has left, it leaves as it is. -/
theorem Reentrant.settled (hm : Reentrant io m) (h : m.run s [] = (.ok a, s')) :
    m.run s' [] = (.ok a, s') := by
  have := hm.again s [] List.not_mem_nil
  rwa [h] at this

/-- **A sequence can be started again** when both parts can, and whatever becomes of a run of the
second part, what the first part left is still so. -/
theorem Reentrant.bind (hm : Reentrant io m) (hf : ∀ a, Reentrant io (f a))
    (hkeeps : ∀ a s l, .deny ∉ l → m.run s [] = (.ok a, s) →
      m.run ((f a).run s l).2 [] = (.ok a, ((f a).run s l).2)) : Reentrant io (m >>= f) := by
  refine ⟨hm.steady.bind fun a => (hf a).steady, fun s l hl => ?_⟩
  -- the first part ends as it did from the start
  have hsame : ∀ {s'}, m.run s' [] = m.run s [] → (m >>= f).run s' [] = (m >>= f).run s [] := by
    intro s' h
    rcases e : m.run s [] with ⟨a | e' | _, s₁⟩
    · rw [run_bind_nil e, run_bind_nil (h.trans e)]
    · rw [run_bind_of_err e, run_bind_of_err (h.trans e)]
    · rw [run_bind_of_crash e, run_bind_of_crash (h.trans e)]
  have hagain := hm.again s l hl
  rcases e : m.run s l with ⟨a | e' | _, s₁⟩ <;> rw [e] at hagain
  · have hfirst := hm.steady.run_ok hl e
    obtain ⟨l', hl', hrest⟩ := run_bind_of_ok (f := f) e
    have hl' : .deny ∉ l' := fun hd => hl (hl'.subset hd)
    have hsettled := hm.settled hfirst
    rw [hrest, run_bind_nil (hkeeps a s₁ l' hl' hsettled), run_bind_nil hfirst]
    exact (hf a).again s₁ l' hl'
  · rw [run_bind_of_err e]
    exact hsame hagain
  · rw [run_bind_of_crash e]
    exact hsame hagain

/-- **After any number of runs.** -/
theorem Reentrant.after (hm : Reentrant io m) (ls : List (List Fault)) (hls : ∀ l ∈ ls, .deny ∉ l)
    (s : σ) : m.run (ls.foldl (fun s l => (m.run s l).2) s) [] = m.run s [] := by
  induction ls generalizing s with
  | nil => rfl
  | cons l ls ih =>
    rw [List.foldl_cons, ih fun l hl => hls l (List.mem_cons_of_mem _ hl)]
    exact hm.again s l (hls l List.mem_cons_self)

end Reentrant

end FaultProg
