import Mathlib.Tactic

/-!
# Programs whose calls can fail or be cut short

A program runs over a state `σ`. Each of its calls takes one *fault* from a list: the call
completes, fails and returns an error, or the process dies in it. A question has no error to return,
but it can be answered with no. An error keeps the state reached so far.

* `Prog`: programs; `Prog.call`, `Prog.callPart`, `Prog.ask`: their calls; `Prog.attempt` catches an
  error; `Prog.onSnd` and `Prog.withLocal` frame a component of the state.
* `wp A m Q s`: every run of `m` from `s` under faults allowed by `A` ends in `Q`, with one rule for
  each way to build a program (`wp_pure`, `wp_bind`, `wp_call`, `wp_attempt`, …).
-/

namespace FaultProg

/-- What happens to one call. `fail n` and `crash n` leave the first `n` bytes of a write and have
no effect on any other call. A question does not `fail`; `deny` answers it with no, and only that. -/
inductive Fault
  | none
  | fail (done : ℕ)
  | deny
  | crash (done : ℕ)
  deriving DecidableEq, Repr

/-- How a program ends. -/
inductive Outcome (ε α : Type)
  | ok (a : α)
  | err (e : ε)
  | crash
  deriving DecidableEq, Repr

/-- The outcome without the value. -/
def Outcome.void {ε α : Type} : Outcome ε α → Outcome ε Unit
  | .ok _ => .ok ()
  | .err e => .err e
  | .crash => .crash

/-- The outcome with another value. -/
def Outcome.map {ε α β : Type} (g : α → β) : Outcome ε α → Outcome ε β
  | .ok a => .ok (g a)
  | .err e => .err e
  | .crash => .crash

/-- The outcome of a computation that makes no call. -/
def Outcome.ofExcept {ε α : Type} : Except ε α → Outcome ε α
  | .ok a => .ok a
  | .error e => .err e

/-- The state together with the faults of the calls to come; calls beyond the list complete. -/
structure World (σ : Type) where
  state : σ
  faults : List Fault

/-- A program over `σ` that returns `α` or an error of type `ε`. It takes faults from the front, and
dies only of one of them. -/
structure Prog (σ ε α : Type) where
  exec : World σ → Outcome ε α × World σ
  suffix : ∀ w, (exec w).2.faults <:+ w.faults
  dies : ∀ w, (exec w).1 = .crash → ∃ n, Fault.crash n ∈ w.faults

namespace Prog

variable {σ τ ε α β : Type}

/-- Run `m` from `s` under the faults `l`. -/
def run (m : Prog σ ε α) (s : σ) (l : List Fault) : Outcome ε α × σ :=
  ((m.exec ⟨s, l⟩).1, (m.exec ⟨s, l⟩).2.state)

/-- Return `a`. -/
def ret (a : α) : Prog σ ε α where
  exec w := (.ok a, w)
  suffix _ := List.suffix_rfl
  dies _ h := by cases h

/-- Return the error `e`. -/
def throw (e : ε) : Prog σ ε α where
  exec w := (.err e, w)
  suffix _ := List.suffix_rfl
  dies _ h := by cases h

/-- Sequential composition: an error or a crash ends the program. -/
def bind (m : Prog σ ε α) (f : α → Prog σ ε β) : Prog σ ε β where
  exec w :=
    match m.exec w with
    | (.ok a, w') => (f a).exec w'
    | (.err e, w') => (.err e, w')
    | (.crash, w') => (.crash, w')
  suffix w := by
    have h := m.suffix w
    rcases e : m.exec w with ⟨a | _ | _, w'⟩ <;> rw [e] at h
    · exact ((f a).suffix w').trans h
    · exact h
    · exact h
  dies w hw := by
    have h := m.suffix w
    have hm := m.dies w
    rcases e : m.exec w with ⟨a | _ | _, w'⟩ <;> rw [e] at h hm hw
    · obtain ⟨n, hn⟩ := (f a).dies w' hw
      exact ⟨n, h.subset hn⟩
    · cases hw
    · exact hm rfl

instance : Monad (Prog σ ε) where
  pure := ret
  bind := bind

/-- A computation that makes no call. -/
def ofExcept : Except ε α → Prog σ ε α
  | .ok a => ret a
  | .error e => throw e

/-- Read the state. -/
def get : Prog σ ε σ where
  exec w := (.ok w.state, w)
  suffix _ := List.suffix_rfl
  dies _ h := by cases h

/-- Change the state. -/
def modify (f : σ → σ) : Prog σ ε Unit where
  exec w := (.ok (), { w with state := f w.state })
  suffix _ := List.suffix_rfl
  dies _ h := by cases h

/-- Catch an error of `m`; the state stays as `m` left it. -/
def attempt (m : Prog σ ε α) : Prog σ ε (Except ε α) where
  exec w :=
    match m.exec w with
    | (.ok a, w') => (.ok (.ok a), w')
    | (.err e, w') => (.ok (.error e), w')
    | (.crash, w') => (.crash, w')
  suffix w := by
    have h := m.suffix w
    rcases e : m.exec w with ⟨_ | _ | _, w'⟩ <;> rw [e] at h <;> exact h
  dies w hw := by
    have hm := m.dies w
    rcases e : m.exec w with ⟨_ | _ | _, w'⟩ <;> rw [e] at hm hw
    · cases hw
    · cases hw
    · exact hm rfl

/-- Run a program over the second component of the state. -/
def onSnd (m : Prog σ ε α) : Prog (τ × σ) ε α where
  exec w :=
    let r := m.exec ⟨w.state.2, w.faults⟩
    (r.1, ⟨(w.state.1, r.2.state), r.2.faults⟩)
  suffix w := m.suffix ⟨w.state.2, w.faults⟩
  dies w hw := m.dies ⟨w.state.2, w.faults⟩ hw

/-- Run a program with a local variable, returned with the result. -/
def withLocal (t : τ) (m : Prog (τ × σ) ε α) : Prog σ ε (α × τ) where
  exec w :=
    match m.exec ⟨(t, w.state), w.faults⟩ with
    | (.ok a, w') => (.ok (a, w'.state.1), ⟨w'.state.2, w'.faults⟩)
    | (.err e, w') => (.err e, ⟨w'.state.2, w'.faults⟩)
    | (.crash, w') => (.crash, ⟨w'.state.2, w'.faults⟩)
  suffix w := by
    have h := m.suffix ⟨(t, w.state), w.faults⟩
    rcases e : m.exec ⟨(t, w.state), w.faults⟩ with ⟨_ | _ | _, w'⟩ <;> rw [e] at h <;> exact h
  dies w hw := by
    have hm := m.dies ⟨(t, w.state), w.faults⟩
    rcases e : m.exec ⟨(t, w.state), w.faults⟩ with ⟨_ | _ | _, w'⟩ <;> rw [e] at hm hw
    · cases hw
    · cases hw
    · exact hm rfl

/-- A completed call with effect `eff`. -/
def finish (eff : σ → Except ε (α × σ)) (s : σ) (l : List Fault) : Outcome ε α × World σ :=
  match eff s with
  | .ok (a, s') => (.ok a, ⟨s', l⟩)
  | .error e => (.err e, ⟨s, l⟩)

theorem finish_ne_crash (eff : σ → Except ε (α × σ)) (s : σ) (l : List Fault) :
    (finish eff s l).1 ≠ .crash := by
  unfold finish; split <;> simp

theorem finish_faults (eff : σ → Except ε (α × σ)) (s : σ) (l : List Fault) :
    (finish eff s l).2.faults = l := by
  unfold finish; split <;> rfl

/-- One call: it completes with effect `eff`, or, with `n` of its bytes done, leaves the state
`part n` and fails with the error `io` or dies. -/
def callPart (io : ε) (part : ℕ → σ → σ) (eff : σ → Except ε (α × σ)) : Prog σ ε α where
  exec w :=
    match w.faults with
    | [] => finish eff w.state []
    | .none :: l | .deny :: l => finish eff w.state l
    | .fail n :: l => (.err io, ⟨part n w.state, l⟩)
    | .crash n :: l => (.crash, ⟨part n w.state, l⟩)
  suffix w := by
    obtain ⟨s, _ | ⟨_ | _ | _ | _, l⟩⟩ := w <;> simp [finish_faults]
  dies w hw := by
    obtain ⟨s, _ | ⟨_ | _ | _ | n, l⟩⟩ := w
    · exact absurd hw (finish_ne_crash eff s [])
    · exact absurd hw (finish_ne_crash eff s l)
    · cases hw
    · exact absurd hw (finish_ne_crash eff s l)
    · exact ⟨n, List.mem_cons_self⟩

/-- An atomic call: a fault leaves the state as it was. -/
def call (io : ε) (eff : σ → Except ε (α × σ)) : Prog σ ε α := callPart io (fun _ s => s) eff

/-- An atomic question; `dflt` is its answer when it is denied. -/
def ask (dflt : α) (ans : σ → α) : Prog σ ε α where
  exec w :=
    match w.faults with
    | [] => (.ok (ans w.state), ⟨w.state, []⟩)
    | .none :: l | .fail _ :: l => (.ok (ans w.state), ⟨w.state, l⟩)
    | .deny :: l => (.ok dflt, ⟨w.state, l⟩)
    | .crash _ :: l => (.crash, ⟨w.state, l⟩)
  suffix w := by
    obtain ⟨s, _ | ⟨_ | _ | _ | _, l⟩⟩ := w <;> simp
  dies w hw := by
    obtain ⟨s, _ | ⟨_ | _ | _ | n, l⟩⟩ := w
    · cases hw
    · cases hw
    · cases hw
    · cases hw
    · exact ⟨n, List.mem_cons_self⟩

/-! ### Runs under given faults -/

/-- What the first fault of a list is for a call that is no question. -/
def firstFault : List Fault → Fault
  | [] | .deny :: _ => .none
  | f :: _ => f

section Runs

variable {io : ε} {part : ℕ → σ → σ} {eff : σ → Except ε (α × σ)} {f : α → Prog σ ε β} {s s' : σ}
  {a : α} {e : ε} {l : List Fault} {n : ℕ}

theorem run_callPart_of_fail (h : firstFault l = .fail n) :
    (callPart io part eff >>= f).run s l = (.err io, part n s) := by
  rcases l with _ | ⟨_ | _ | _ | _, l⟩ <;> cases h
  rfl

theorem run_callPart_of_none (h : firstFault l = .none) (he : eff s = .ok (a, s')) :
    (callPart io part eff >>= f).run s l = (f a).run s' l.tail := by
  have hfin : ∀ l, finish eff s l = (.ok a, ⟨s', l⟩) := fun l => by rw [finish, he]
  rcases l with _ | ⟨_ | _ | _ | _, l⟩ <;> cases h <;>
    simp [run, Bind.bind, Prog.bind, callPart, hfin]

theorem run_callPart_of_error (h : firstFault l = .none) (he : eff s = .error e) :
    (callPart io part eff >>= f).run s l = (.err e, s) := by
  have hfin : ∀ l, finish eff s l = (.err e, ⟨s, l⟩) := fun l => by rw [finish, he]
  rcases l with _ | ⟨_ | _ | _ | _, l⟩ <;> cases h <;>
    simp [run, Bind.bind, Prog.bind, callPart, hfin]

/-- Without faults, what follows a program that returns runs without faults. -/
theorem run_bind_nil {m : Prog σ ε α} (h : m.run s [] = (.ok a, s')) :
    (m >>= f).run s [] = (f a).run s' [] := by
  have hs := m.suffix ⟨s, []⟩
  simp only [run, Bind.bind, Prog.bind] at h ⊢
  rcases e : m.exec ⟨s, []⟩ with ⟨o, s₁, l₁⟩
  rw [e] at h hs
  cases h
  have hl : l₁ = [] := List.suffix_nil.mp hs
  rw [hl]

/-- What follows a program that returns runs under the faults that are left. -/
theorem run_bind_of_ok {m : Prog σ ε α} (h : m.run s l = (.ok a, s')) :
    ∃ l', l' <:+ l ∧ (m >>= f).run s l = (f a).run s' l' := by
  have hs := m.suffix ⟨s, l⟩
  simp only [run, Bind.bind, Prog.bind] at h ⊢
  rcases e : m.exec ⟨s, l⟩ with ⟨o, s₁, l₁⟩
  rw [e] at h hs
  cases h
  exact ⟨l₁, hs, rfl⟩

/-- Nothing follows a program that returns an error. -/
theorem run_bind_of_err {m : Prog σ ε α} (h : m.run s l = (.err e, s')) :
    (m >>= f).run s l = (.err e, s') := by
  simp only [run, Bind.bind, Prog.bind] at h ⊢
  rcases e : m.exec ⟨s, l⟩ with ⟨_ | _ | _, w⟩ <;> rw [e] at h <;> cases h
  rfl

/-- Nothing follows a program that dies. -/
theorem run_bind_of_crash {m : Prog σ ε α} (h : m.run s l = (.crash, s')) :
    (m >>= f).run s l = (.crash, s') := by
  simp only [run, Bind.bind, Prog.bind] at h ⊢
  rcases e : m.exec ⟨s, l⟩ with ⟨_ | _ | _, w⟩ <;> rw [e] at h <;> cases h
  rfl

/-- **A sequence that returns** without faults is two programs that return. -/
theorem exists_of_run_bind_nil {m : Prog σ ε α} {b : β} (h : (m >>= f).run s [] = (.ok b, s')) :
    ∃ a s₁, m.run s [] = (.ok a, s₁) ∧ (f a).run s₁ [] = (.ok b, s') := by
  rcases hm : m.run s [] with ⟨a | e | _, s₁⟩
  · rw [run_bind_nil hm] at h
    exact ⟨a, s₁, rfl, h⟩
  · rw [run_bind_of_err hm] at h
    cases h
  · rw [run_bind_of_crash hm] at h
    cases h

theorem eq_of_run_ofExcept {x : Except ε α}
    (h : (ofExcept x : Prog σ ε α).run s l = (.ok a, s')) : x = .ok a ∧ s' = s := by
  cases x with
  | ok b =>
    cases h
    exact ⟨rfl, rfl⟩
  | error e => exact absurd (congrArg Prod.fst h) nofun

theorem run_bind_pure {m : Prog σ ε α} {g : α → β} :
    (m >>= fun a => pure (g a)).run s l = ((m.run s l).1.map g, (m.run s l).2) := by
  simp only [run, Bind.bind, Prog.bind]
  rcases m.exec ⟨s, l⟩ with ⟨_ | _ | _, w⟩ <;> rfl

theorem run_onSnd_eq {m : Prog σ ε α} {t : τ} : (m.onSnd : Prog (τ × σ) ε α).run (t, s) l =
    ((m.run s l).1, (t, (m.run s l).2)) := rfl

theorem run_of_run_withLocal {m : Prog (τ × σ) ε α} {t t' : τ}
    (h : (withLocal t m).run s l = (.ok (a, t'), s')) : m.run (t, s) l = (.ok a, (t', s')) := by
  simp only [run, withLocal, Prod.mk.injEq] at h ⊢
  rcases e : m.exec ⟨(t, s), l⟩ with ⟨_ | _ | _, ⟨t₁, s₁⟩, l₁⟩ <;> rw [e] at h
  · obtain ⟨h₁, h₂⟩ := h
    cases h₁
    exact ⟨rfl, congrArg _ h₂⟩
  · exact absurd h.1 nofun
  · exact absurd h.1 nofun

theorem run_onSnd {m : Prog σ ε α} {t : τ} {o : Outcome ε α} (h : m.run s l = (o, s')) :
    (m.onSnd : Prog (τ × σ) ε α).run (t, s) l = (o, (t, s')) := by
  simp only [run, onSnd, Prod.mk.injEq] at h ⊢
  exact ⟨h.1, trivial, h.2⟩

theorem run_withLocal {m : Prog (τ × σ) ε α} {t t' : τ} (h : m.run (t, s) l = (.ok a, (t', s'))) :
    (withLocal t m).run s l = (.ok (a, t'), s') := by
  simp only [run, withLocal, Prod.mk.injEq] at h ⊢
  rcases e : m.exec ⟨(t, s), l⟩ with ⟨o, ⟨t₁, s₁⟩, l₁⟩
  rw [e] at h
  obtain ⟨rfl, h⟩ := h
  cases h
  exact ⟨rfl, rfl⟩

end Runs

end Prog

/-! ## Weakest preconditions -/

section WP

variable {σ τ ε α β : Type} {A B : Fault → Prop}

/-- The postcondition of the first part of a sequence. -/
def Outcome.andThen (f : α → σ → Prop) (Q : Outcome ε β → σ → Prop) : Outcome ε α → σ → Prop
  | .ok a, s => f a s
  | .err e, s => Q (.err e) s
  | .crash, s => Q .crash s

/-- Every run of `m` from `s` whose faults `A` allows ends in `Q`. -/
def wp (A : Fault → Prop) (m : Prog σ ε α) (Q : Outcome ε α → σ → Prop) (s : σ) : Prop :=
  ∀ l, (∀ f ∈ l, A f) → Q (m.exec ⟨s, l⟩).1 (m.exec ⟨s, l⟩).2.state

/-- Faults of a run in which every call completes. -/
def NoFault : Fault → Prop := fun f => f = .none

/-- Faults of a run in which no call fails and no question is denied. -/
def NoFail : Fault → Prop := fun f => f = .none ∨ ∃ n, f = .crash n

/-- Faults of a run in which the process does not die. -/
def NoCrash : Fault → Prop := fun f => ∀ n, f ≠ .crash n

/-- Faults of a run whose failing calls have no effect. -/
def NoEffect : Fault → Prop := fun f => f = .none ∨ f = .fail 0 ∨ f = .deny

/-- Any fault. -/
def AnyFault : Fault → Prop := fun _ => True

/-- A call can fail. -/
def CanFail (A : Fault → Prop) : Prop := ∃ n, A (.fail n)

/-- No call fails and no question is denied. -/
structure Reliable (A : Fault → Prop) : Prop where
  fail : ∀ n, ¬ A (.fail n)
  deny : ¬ A .deny

theorem reliable_noFault : Reliable NoFault := ⟨nofun, nofun⟩

theorem reliable_noFail : Reliable NoFail where
  fail _ := by rintro (h | ⟨_, h⟩) <;> cases h
  deny := by rintro (h | ⟨_, h⟩) <;> cases h

theorem not_noFault_fail (n : ℕ) : ¬ NoFault (.fail n) := reliable_noFault.fail n

variable {m : Prog σ ε α} {Q R : Outcome ε α → σ → Prop} {s : σ}

theorem wp.run (h : wp A m Q s) {l : List Fault} (hl : ∀ f ∈ l, A f) :
    Q (m.run s l).1 (m.run s l).2 := h l hl

theorem wp.run_eq (h : wp A m Q s) {l : List Fault} (hl : ∀ f ∈ l, A f) {o : Outcome ε α} {s' : σ}
    (e : m.run s l = (o, s')) : Q o s' := by
  have := h.run hl
  rwa [e] at this

/-- The outcome of the run without faults. -/
theorem wp.run_nil (h : wp NoFault m Q s) : Q (m.run s []).1 (m.run s []).2 :=
  h [] (by simp)

/-- A specification of the runs without faults that names the outcome. -/
theorem wp.run_nil_eq {o : Outcome ε α} {s' : σ}
    (h : wp NoFault m (fun o₁ s₁ => o₁ ≠ .crash → (o₁, s₁) = (o, s')) s) : m.run s [] = (o, s') := by
  refine h [] (by simp) fun hc => ?_
  obtain ⟨n, hn⟩ := m.dies ⟨s, []⟩ hc
  cases hn

theorem wp.mono (h : wp A m Q s) (hQ : ∀ o s', Q o s' → R o s') : wp A m R s :=
  fun l hl => hQ _ _ (h l hl)

theorem wp.and (h₁ : wp A m Q s) (h₂ : wp A m R s) : wp A m (fun o s' => Q o s' ∧ R o s') s :=
  fun l hl => ⟨h₁ l hl, h₂ l hl⟩

theorem wp_of_forall (h : ∀ o s', Q o s') : wp A m Q s := fun _ _ => h _ _

/-- **A program that no fault kills does not die.** -/
theorem wp.noCrash (hA : ∀ n, ¬ A (.crash n)) (h : wp A m (fun o s' => o ≠ .crash → Q o s') s) :
    wp A m Q s := by
  intro l hl
  refine h l hl fun hc => ?_
  obtain ⟨n, hn⟩ := m.dies ⟨s, l⟩ hc
  exact hA n (hl _ hn)

/-- A specification of the runs without faults need not speak of crashes. -/
theorem run_nil_of_wp (h : wp NoFault m (fun o s' => o = .crash ∨ Q o s') s) :
    Q (m.run s []).1 (m.run s []).2 :=
  (wp.noCrash nofun (h.mono fun _ _ hQ hne => hQ.resolve_left hne)).run_nil

/-- Without faults a program does not die. -/
theorem run_nil_ne_crash : (m.run s []).1 ≠ .crash :=
  run_nil_of_wp (Q := fun o _ => o ≠ .crash) (wp_of_forall fun _ _ => em _)

theorem wp_ret {a : α} (h : Q (.ok a) s) : wp A (Prog.ret a) Q s := fun _ _ => h

theorem wp_pure {a : α} (h : Q (.ok a) s) : wp A (pure a : Prog σ ε α) Q s := fun _ _ => h

theorem wp_throw {e : ε} (h : Q (.err e) s) : wp A (Prog.throw e) Q s := fun _ _ => h

theorem wp_bind {f : α → Prog σ ε β} {Q : Outcome ε β → σ → Prop}
    (h : wp A m (Outcome.andThen (fun a s' => wp A (f a) Q s') Q) s) : wp A (m >>= f) Q s := by
  intro l hl
  have h₁ := h l hl
  have h₂ := m.suffix ⟨s, l⟩
  change Q ((m.bind f).exec ⟨s, l⟩).1 ((m.bind f).exec ⟨s, l⟩).2.state
  unfold Prog.bind
  rcases e : m.exec ⟨s, l⟩ with ⟨_ | _ | _, w⟩ <;> rw [e] at h₁ h₂
  · simp only [e]
    exact h₁ w.faults fun g hg => hl g (h₂.subset hg)
  · simp only [e]
    exact h₁
  · simp only [e]
    exact h₁

/-- A step whose specification is `R`, followed by the rest. -/
theorem wp.bind {f : α → Prog σ ε β} {Q : Outcome ε β → σ → Prop}
    (h : wp A m R s) (hok : ∀ a s', R (.ok a) s' → wp A (f a) Q s')
    (herr : ∀ e s', R (.err e) s' → Q (.err e) s') (hcr : ∀ s', R .crash s' → Q .crash s') :
    wp A (m >>= f) Q s := by
  refine wp_bind (h.mono ?_)
  rintro (a | e | _) s' h'
  · exact hok a s' h'
  · exact herr e s' h'
  · exact hcr s' h'

/-- A step of which nothing is known. -/
theorem wp_bind_any {f : α → Prog σ ε β} {Q : Outcome ε β → σ → Prop}
    (hok : ∀ a s', wp A (f a) Q s') (herr : ∀ e s', Q (.err e) s') (hcr : ∀ s', Q .crash s') :
    wp A (m >>= f) Q s :=
  wp.bind (R := fun _ _ => True) (wp_of_forall fun _ _ => trivial) (fun a s' _ => hok a s')
    (fun e s' _ => herr e s') fun s' _ => hcr s'

theorem wp_ofExcept {x : Except ε α} (hok : ∀ a, x = .ok a → Q (.ok a) s)
    (herr : ∀ e, x = .error e → Q (.err e) s) : wp A (Prog.ofExcept x) Q s := by
  cases x with
  | ok a => exact wp_ret (hok a rfl)
  | error e => exact wp_throw (herr e rfl)

theorem wp_get {Q : Outcome ε σ → σ → Prop} (h : Q (.ok s) s) :
    wp A (Prog.get : Prog σ ε σ) Q s := fun _ _ => h

theorem wp_modify {f : σ → σ} {Q : Outcome ε Unit → σ → Prop} (h : Q (.ok ()) (f s)) :
    wp A (Prog.modify f : Prog σ ε Unit) Q s := fun _ _ => h

/-- The postcondition of a program whose error is caught. -/
def Outcome.caught (Q : Outcome ε (Except ε α) → σ → Prop) : Outcome ε α → σ → Prop
  | .ok a, s => Q (.ok (.ok a)) s
  | .err e, s => Q (.ok (.error e)) s
  | .crash, s => Q .crash s

theorem wp_attempt {Q : Outcome ε (Except ε α) → σ → Prop} (h : wp A m (Outcome.caught Q) s) :
    wp A m.attempt Q s := by
  intro l hl
  have h₁ := h l hl
  unfold Prog.attempt
  rcases e : m.exec ⟨s, l⟩ with ⟨_ | _ | _, w⟩ <;> rw [e] at h₁ <;> simp only [e] <;> exact h₁

theorem wp_onSnd {t : τ} {Q : Outcome ε α → τ × σ → Prop} (h : wp A m (fun o s' => Q o (t, s')) s) :
    wp A m.onSnd Q (t, s) := fun l hl => h l hl

/-- A step of which nothing is known, over the second component of the state. -/
theorem wp_onSnd_bind_any {t : τ} {f : α → Prog (τ × σ) ε β} {Q : Outcome ε β → τ × σ → Prop}
    (hok : ∀ a s', wp A (f a) Q (t, s')) (herr : ∀ e s', Q (.err e) (t, s'))
    (hcr : ∀ s', Q .crash (t, s')) : wp A (m.onSnd >>= f) Q (t, s) := by
  refine wp_bind (wp_onSnd (wp_of_forall ?_))
  rintro (a | e | _) s'
  · exact hok a s'
  · exact herr e s'
  · exact hcr s'

/-- The postcondition of a program with a local variable. -/
def Outcome.inLocal (Q : Outcome ε (α × τ) → σ → Prop) : Outcome ε α → τ × σ → Prop
  | .ok a, s => Q (.ok (a, s.1)) s.2
  | .err e, s => Q (.err e) s.2
  | .crash, s => Q .crash s.2

theorem wp_withLocal {t : τ} {m : Prog (τ × σ) ε α} {Q : Outcome ε (α × τ) → σ → Prop}
    (h : wp A m (Outcome.inLocal Q) (t, s)) : wp A (Prog.withLocal t m) Q s := by
  intro l hl
  have h₁ := h l hl
  unfold Prog.withLocal
  dsimp only
  rcases e : m.exec ⟨(t, s), l⟩ with ⟨_ | _ | _, w⟩ <;> rw [e] at h₁ <;> exact h₁

theorem wp_callPart {io : ε} {part : ℕ → σ → σ} {eff : σ → Except ε (α × σ)}
    (hok : ∀ a s', eff s = .ok (a, s') → Q (.ok a) s') (herr : ∀ e, eff s = .error e → Q (.err e) s)
    (hfail : ∀ n, A (.fail n) → Q (.err io) (part n s))
    (hcr : ∀ n, A (.crash n) → Q .crash (part n s)) : wp A (Prog.callPart io part eff) Q s := by
  have hfin : ∀ l, Q (Prog.finish eff s l).1 (Prog.finish eff s l).2.state := by
    intro l
    unfold Prog.finish
    split
    · exact hok _ _ ‹_›
    · exact herr _ ‹_›
  intro l hl
  match l with
  | [] => exact hfin []
  | .none :: l | .deny :: l => exact hfin l
  | .fail n :: l => exact hfail n (hl _ List.mem_cons_self)
  | .crash n :: l => exact hcr n (hl _ List.mem_cons_self)

theorem wp_call {io : ε} {eff : σ → Except ε (α × σ)} (hok : ∀ a s', eff s = .ok (a, s') → Q (.ok a) s')
    (herr : ∀ e, eff s = .error e → Q (.err e) s) (hfail : ∀ n, A (.fail n) → Q (.err io) s)
    (hcr : ∀ n, A (.crash n) → Q .crash s) : wp A (Prog.call io eff) Q s :=
  wp_callPart hok herr hfail hcr

theorem wp_ask {dflt : α} {ans : σ → α} (hok : Q (.ok (ans s)) s)
    (hdeny : A .deny → Q (.ok dflt) s) (hcr : ∀ n, A (.crash n) → Q .crash s) :
    wp A (Prog.ask dflt ans) Q s := by
  intro l hl
  match l with
  | [] => exact hok
  | .none :: l | .fail _ :: l => exact hok
  | .deny :: l => exact hdeny (hl _ List.mem_cons_self)
  | .crash n :: l => exact hcr n (hl _ List.mem_cons_self)

-- The rules above are all that is used of `wp` from here on.
attribute [irreducible] wp

end WP

end FaultProg
