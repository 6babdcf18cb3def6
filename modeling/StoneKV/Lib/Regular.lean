import StoneKV.Lib.Prog

/-!
# Where a program can die

A specification of all runs says what is left when the process dies, but not that it can die there.

* `Regular m`: calls that complete are as good as no faults. Every way to build a program keeps this.
* `Dies m R s`: the process can die in `m` and leave a state with the property `R`.
* **`Regular.dies_bind`**: it can die in what follows a program that returns.
-/

namespace FaultProg

variable {σ τ ε α β : Type}

/-- After some calls that complete, `m` has ended as it does without faults. -/
def Regular (m : Prog σ ε α) : Prop :=
  ∀ s, ∃ n, ∀ l, m.exec ⟨s, List.replicate n .none ++ l⟩ = ((m.run s []).1, ⟨(m.run s []).2, l⟩)

/-- From `s` and without a call that fails, the process can die in `m` and leave a state with the
property `R`. -/
def Dies (m : Prog σ ε α) (R : σ → Prop) (s : σ) : Prop :=
  ∃ l, (∀ f ∈ l, NoFail f) ∧ ∃ s', m.run s l = (.crash, s') ∧ R s'

/-! ## Regular programs -/

section Regular

variable {m : Prog σ ε α} {f : α → Prog σ ε β} {io : ε} {part : ℕ → σ → σ}
  {eff : σ → Except ε (α × σ)}

theorem regular_pure {a : α} : Regular (pure a : Prog σ ε α) := fun _ => ⟨0, fun _ => rfl⟩

theorem regular_throw {e : ε} : Regular (Prog.throw e : Prog σ ε α) := fun _ => ⟨0, fun _ => rfl⟩

theorem regular_get : Regular (Prog.get : Prog σ ε σ) := fun _ => ⟨0, fun _ => rfl⟩

theorem regular_modify {g : σ → σ} : Regular (Prog.modify g : Prog σ ε Unit) :=
  fun _ => ⟨0, fun _ => rfl⟩

theorem regular_ofExcept {x : Except ε α} : Regular (Prog.ofExcept x : Prog σ ε α) := by
  cases x with
  | ok a => exact regular_pure
  | error e => exact regular_throw

/-- **Composition.** -/
theorem regular_bind (hm : Regular m) (hf : ∀ a, Regular (f a)) : Regular (m >>= f) := by
  intro s
  obtain ⟨n, hn⟩ := hm s
  rcases hrun : m.run s [] with ⟨a | e | _, s₁⟩
  · obtain ⟨k, hk⟩ := hf a s₁
    refine ⟨n + k, fun l => ?_⟩
    rw [Prog.run_bind_nil hrun, List.replicate_add, List.append_assoc, ← hk l]
    change (m.bind f).exec _ = _
    rw [Prog.bind]
    dsimp only
    rw [hn, hrun]
  · refine ⟨n, fun l => ?_⟩
    rw [Prog.run_bind_of_err hrun]
    change (m.bind f).exec _ = _
    rw [Prog.bind]
    dsimp only
    rw [hn, hrun]
  · refine ⟨n, fun l => ?_⟩
    rw [Prog.run_bind_of_crash hrun]
    change (m.bind f).exec _ = _
    rw [Prog.bind]
    dsimp only
    rw [hn, hrun]

theorem Regular.attempt (hm : Regular m) : Regular m.attempt := by
  intro s
  obtain ⟨n, hn⟩ := hm s
  refine ⟨n, fun l => ?_⟩
  rw [Prog.run, Prog.attempt]
  dsimp only
  rw [hn, Prog.run]
  rcases m.exec ⟨s, []⟩ with ⟨_ | _ | _, w⟩ <;> rfl

theorem Regular.onSnd (hm : Regular m) : Regular (m.onSnd : Prog (τ × σ) ε α) := by
  rintro ⟨t, s⟩
  obtain ⟨n, hn⟩ := hm s
  refine ⟨n, fun l => ?_⟩
  simp only [Prog.run, Prog.onSnd, hn]

theorem regular_callPart : Regular (Prog.callPart io part eff) := by
  refine fun s => ⟨1, fun l => ?_⟩
  change Prog.finish eff s l = ((Prog.finish eff s []).1, ⟨(Prog.finish eff s []).2.state, l⟩)
  unfold Prog.finish
  split <;> rfl

theorem regular_call : Regular (Prog.call io eff) := regular_callPart

theorem regular_ask {dflt : α} {ans : σ → α} : Regular (Prog.ask dflt ans : Prog σ ε α) :=
  fun _ => ⟨1, fun _ => rfl⟩

theorem regular_ite {c : Prop} [Decidable c] {m' : Prog σ ε α} (hm : Regular m)
    (hm' : Regular m') : Regular (if c then m else m') := by
  split_ifs
  · exact hm
  · exact hm'

end Regular

/-! ## Dying -/

section Dying

variable {m : Prog σ ε α} {f : α → Prog σ ε β} {io : ε} {eff : σ → Except ε (α × σ)}
  {R : σ → Prop} {s : σ}

theorem Dies.mono {R' : σ → Prop} (h : Dies m R s) (hR : ∀ s', R s' → R' s') : Dies m R' s := by
  obtain ⟨l, hl, s', hrun, hs'⟩ := h
  exact ⟨l, hl, s', hrun, hR s' hs'⟩

/-- The process can die in the first part. -/
theorem Dies.bind (h : Dies m R s) : Dies (m >>= f) R s := by
  obtain ⟨l, hl, s', hrun, hs'⟩ := h
  exact ⟨l, hl, s', Prog.run_bind_of_crash hrun, hs'⟩

/-- **Later.** The process can die in what follows a program that returns. -/
theorem Regular.dies_bind (hm : Regular m)
    (h : wp NoFault m (fun o s₁ => o = .crash ∨ ∃ a, o = .ok a ∧ Dies (f a) R s₁) s) :
    Dies (m >>= f) R s := by
  obtain ⟨n, hn⟩ := hm s
  obtain ⟨a, ha, l, hl, s', hrun, hs'⟩ := run_nil_of_wp h
  refine ⟨List.replicate n .none ++ l, fun x hx => ?_, s', ?_, hs'⟩
  · rcases List.mem_append.mp hx with hx | hx
    · exact .inl (List.eq_of_mem_replicate hx)
    · exact hl x hx
  · rw [← hrun]
    change ((m.bind f).run s _) = _
    rw [Prog.run, Prog.bind]
    dsimp only
    rw [hn, ha]
    rfl

theorem Dies.attempt (h : Dies m R s) : Dies m.attempt R s := by
  obtain ⟨l, hl, s', hrun, hs'⟩ := h
  refine ⟨l, hl, s', ?_, hs'⟩
  simp only [Prog.run, Prog.attempt, Prod.mk.injEq] at hrun ⊢
  rcases e : m.exec ⟨s, l⟩ with ⟨_ | _ | _, w⟩ <;> rw [e] at hrun
  · cases hrun.1
  · cases hrun.1
  · exact ⟨rfl, hrun.2⟩

theorem Dies.onSnd {t : τ} {R : τ × σ → Prop} (h : Dies m (fun s' => R (t, s')) s) :
    Dies m.onSnd R (t, s) := by
  obtain ⟨l, hl, s', hrun, hs'⟩ := h
  exact ⟨l, hl, (t, s'), Prog.run_onSnd hrun, hs'⟩

/-- The process can die in a call before it has done anything. -/
theorem dies_call (h : R s) : Dies (Prog.call io eff) R s :=
  ⟨[.crash 0], by simp [NoFail], s, rfl, h⟩

end Dying

end FaultProg
