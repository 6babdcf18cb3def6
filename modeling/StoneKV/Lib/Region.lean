import StoneKV.Lib.Disk

/-!
# Programs that stay within a region of the state

* `Region σ`: which states look alike from the region, and which changes spare all that is outside
  the part of it that may be written.
* `Contained R m V`: `m` cannot tell states apart that look alike, spares what it may not write, and
  returns values with the property `V`; one rule for each way to build a program.
* `Region.withVar`: a variable beside a region.
* `Region.files K W`: of the files of a disk, those in `K` may be read and those in `W` written; one
  rule for each call.
* `Component`, `Joint`: components that take turns on one state; **`Joint.purge`**: when the regions are
  apart, each of them is where it is without the turns of the others.
-/

namespace FaultProg

/-- A region of the state: `alike` states hold the same in it, and a state that is `spared` holds the
same outside of what may be written. -/
structure Region (σ : Type) where
  alike : σ → σ → Prop
  spared : σ → σ → Prop
  refl : ∀ s, spared s s
  trans : ∀ {s s' s''}, spared s s' → spared s' s'' → spared s s''

variable {σ τ ε α β : Type}

/-- Two runs, the first one from `s`, that end in the same way and look alike. -/
structure Together (R : Region σ) (V : α → Prop) (s : σ) (r r' : Outcome ε α × World σ) : Prop where
  outcome : r.1 = r'.1
  faults : r.2.faults = r'.2.faults
  alike : R.alike r.2.state r'.2.state
  spared : R.spared s r.2.state
  value : ∀ a, r.1 = .ok a → V a

/-- From states that look alike `m` ends in the same way in states that look alike, it spares what it
may not write, and what it returns has the property `V`. -/
def Contained (R : Region σ) (m : Prog σ ε α) (V : α → Prop) : Prop :=
  ∀ s s' l, R.alike s s' → Together R V s (m.exec ⟨s, l⟩) (m.exec ⟨s', l⟩)

/-- Nothing is said of the values. -/
abbrev Inside (R : Region σ) (m : Prog σ ε α) : Prop := Contained R m fun _ => True

/-! ## Building programs -/

section Build

variable {R : Region σ} {m : Prog σ ε α} {V V' : α → Prop} {f : α → Prog σ ε β} {U : β → Prop}
  {a : α} {e : ε} {x : Except ε α}

theorem Contained.mono (h : Contained R m V) (hV : ∀ a, V a → V' a) : Contained R m V' :=
  fun s s' l hs =>
    let ht := h s s' l hs
    ⟨ht.outcome, ht.faults, ht.alike, ht.spared, fun a ha => hV a (ht.value a ha)⟩

theorem Contained.inside (h : Contained R m V) : Inside R m := h.mono fun _ _ => trivial

theorem contained_pure (h : V a) : Contained R (pure a : Prog σ ε α) V := fun s _ _ hs =>
  ⟨rfl, rfl, hs, R.refl s, by rintro _ ⟨⟩; exact h⟩

theorem contained_throw : Contained R (Prog.throw e : Prog σ ε α) V := fun s _ _ hs =>
  ⟨rfl, rfl, hs, R.refl s, by rintro _ ⟨⟩⟩

theorem contained_ofExcept (h : ∀ a, x = .ok a → V a) :
    Contained R (Prog.ofExcept x : Prog σ ε α) V := by
  cases x with
  | ok a => exact contained_pure (h a rfl)
  | error e => exact contained_throw

theorem inside_ofExcept : Inside R (Prog.ofExcept x : Prog σ ε α) :=
  contained_ofExcept fun _ _ => trivial

/-- **Composition.** -/
theorem Contained.bind (hm : Contained R m V) (hf : ∀ a, V a → Contained R (f a) U) :
    Contained R (m >>= f) U := by
  intro s s' l hs
  have h := hm s s' l hs
  change Together R U s ((m.bind f).exec _) ((m.bind f).exec _)
  unfold Prog.bind
  dsimp only
  rcases e : m.exec ⟨s, l⟩ with ⟨o, s₁, l₁⟩
  rcases e' : m.exec ⟨s', l⟩ with ⟨o', s₁', l₁'⟩
  rw [e, e'] at h
  obtain ⟨ho, hl, ha, hsp, hv⟩ := h
  cases ho
  cases hl
  cases o with
  | ok a =>
    have h := hf a (hv a rfl) s₁ s₁' l₁ ha
    exact ⟨h.outcome, h.faults, h.alike, R.trans hsp h.spared, h.value⟩
  | err e => exact ⟨rfl, rfl, ha, hsp, by rintro _ ⟨⟩⟩
  | crash => exact ⟨rfl, rfl, ha, hsp, by rintro _ ⟨⟩⟩

/-- Composition when nothing is known of the value in between. -/
theorem Contained.seq (hm : Contained R m V) (hf : ∀ a, Contained R (f a) U) :
    Contained R (m >>= f) U := hm.bind fun a _ => hf a

/-- Nothing follows an error. -/
theorem contained_throw_bind : Contained R (Prog.throw e >>= f) U :=
  (contained_throw (V := fun _ => False)).bind fun _ h => h.elim

/-- The value, if it is there, has the property `V`. -/
def Caught (V : α → Prop) (x : Except ε α) : Prop := ∀ a, x = .ok a → V a

theorem Contained.attempt (hm : Contained R m V) : Contained R m.attempt (Caught V) := by
  intro s s' l hs
  have h := hm s s' l hs
  unfold Prog.attempt
  dsimp only
  rcases e : m.exec ⟨s, l⟩ with ⟨o, w⟩
  rcases e' : m.exec ⟨s', l⟩ with ⟨o', w'⟩
  rw [e, e'] at h
  obtain ⟨ho, hl, ha, hsp, hv⟩ := h
  cases ho
  cases o with
  | ok a => exact ⟨rfl, hl, ha, hsp, by rintro _ ⟨⟩ _ ⟨⟩; exact hv a rfl⟩
  | err e => exact ⟨rfl, hl, ha, hsp, by rintro _ ⟨⟩ _ ⟨⟩⟩
  | crash => exact ⟨rfl, hl, ha, hsp, by rintro _ ⟨⟩⟩

theorem contained_ite {c : Prop} [Decidable c] {m' : Prog σ ε α} (h : c → Contained R m V)
    (h' : ¬ c → Contained R m' V) : Contained R (if c then m else m') V := by
  split_ifs with hc
  · exact h hc
  · exact h' hc

end Build

/-! ## Calls -/

/-- Effects on states that look alike, the first one on `s`. -/
inductive Effects (R : Region σ) (V : α → Prop) (s : σ) :
    Except ε (α × σ) → Except ε (α × σ) → Prop
  | ok {a : α} {s₁ s₁' : σ} : V a → R.alike s₁ s₁' → R.spared s s₁ →
    Effects R V s (.ok (a, s₁)) (.ok (a, s₁'))
  | error {e : ε} : Effects R V s (.error e) (.error e)

section Calls

variable {R : Region σ} {V : α → Prop} {io : ε} {eff : σ → Except ε (α × σ)}

theorem together_finish {s s' : σ} {l : List Fault} (hs : R.alike s s')
    (h : Effects R V s (eff s) (eff s')) :
    Together R V s (Prog.finish eff s l) (Prog.finish eff s' l) := by
  unfold Prog.finish
  generalize eff s = x at h ⊢
  generalize eff s' = x' at h ⊢
  cases h with
  | ok hv ha hsp => exact ⟨rfl, rfl, ha, hsp, by rintro _ ⟨⟩; exact hv⟩
  | error => exact ⟨rfl, rfl, hs, R.refl s, by rintro _ ⟨⟩⟩

theorem contained_callPart {part : ℕ → σ → σ}
    (hpart : ∀ n s s', R.alike s s' → R.alike (part n s) (part n s') ∧ R.spared s (part n s))
    (heff : ∀ s s', R.alike s s' → Effects R V s (eff s) (eff s')) :
    Contained R (Prog.callPart io part eff) V := by
  intro s s' l hs
  match l with
  | [] => exact together_finish hs (heff s s' hs)
  | .none :: l | .deny :: l => exact together_finish hs (heff s s' hs)
  | .fail n :: l =>
    obtain ⟨ha, hsp⟩ := hpart n s s' hs
    exact ⟨rfl, rfl, ha, hsp, by rintro _ ⟨⟩⟩
  | .crash n :: l =>
    obtain ⟨ha, hsp⟩ := hpart n s s' hs
    exact ⟨rfl, rfl, ha, hsp, by rintro _ ⟨⟩⟩

theorem contained_call (heff : ∀ s s', R.alike s s' → Effects R V s (eff s) (eff s')) :
    Contained R (Prog.call io eff) V :=
  contained_callPart (fun _ s _ hs => ⟨hs, R.refl s⟩) heff

theorem inside_ask {dflt : α} {ans : σ → α} (h : ∀ s s', R.alike s s' → ans s = ans s') :
    Inside R (Prog.ask dflt ans : Prog σ ε α) := by
  intro s s' l hs
  have hans := h s s' hs
  match l with
  | [] => exact ⟨congrArg Outcome.ok hans, rfl, hs, R.refl s, fun _ _ => trivial⟩
  | .none :: l | .fail _ :: l =>
    exact ⟨congrArg Outcome.ok hans, rfl, hs, R.refl s, fun _ _ => trivial⟩
  | .deny :: l => exact ⟨rfl, rfl, hs, R.refl s, fun _ _ => trivial⟩
  | .crash _ :: l => exact ⟨rfl, rfl, hs, R.refl s, fun _ _ => trivial⟩

end Calls

/-! ## Variables -/

/-- A variable with the property `I` beside a region. -/
def Region.withVar (I : τ → Prop) (R : Region σ) : Region (τ × σ) where
  alike x y := x.1 = y.1 ∧ I x.1 ∧ R.alike x.2 y.2
  spared x y := R.spared x.2 y.2
  refl x := R.refl x.2
  trans h h' := R.trans h h'

section Variables

variable {R : Region σ} {I : τ → Prop} {m : Prog σ ε α} {V : α → Prop}

theorem Contained.onSnd (hm : Contained R m V) :
    Contained (R.withVar I) (m.onSnd : Prog (τ × σ) ε α) V := by
  rintro ⟨t, s⟩ ⟨t', s'⟩ l ⟨rfl, ht, hs⟩
  have h := hm s s' l hs
  exact ⟨h.outcome, h.faults, ⟨rfl, ht, h.alike⟩, h.spared, h.value⟩

/-- Reading the variable. -/
theorem contained_get {f : τ → Prog (τ × σ) ε β} {U : β → Prop}
    (hf : ∀ t, I t → Contained (R.withVar I) (f t) U) :
    Contained (R.withVar I) (Prog.get >>= fun x => f x.1) U := by
  rintro ⟨t, s⟩ ⟨t', s'⟩ l ⟨rfl, ht, hs⟩
  exact hf t ht (t, s) (t, s') l ⟨rfl, ht, hs⟩

/-- Changing the variable. -/
theorem contained_modify {g : τ → τ} (hg : ∀ t, I t → I (g t)) :
    Inside (R.withVar I) (Prog.modify fun x => (g x.1, x.2) : Prog (τ × σ) ε Unit) := by
  rintro ⟨t, s⟩ ⟨t', s'⟩ l ⟨rfl, ht, hs⟩
  exact ⟨rfl, rfl, ⟨rfl, hg t ht, hs⟩, R.refl s, fun _ _ => trivial⟩

/-- A local variable. -/
theorem Contained.withLocal {t : τ} {m : Prog (τ × σ) ε α} (ht : I t)
    (hm : Contained (R.withVar I) m V) : Contained R (Prog.withLocal t m) fun x => V x.1 := by
  intro s s' l hs
  have h := hm (t, s) (t, s') l ⟨rfl, ht, hs⟩
  unfold Prog.withLocal
  dsimp only
  rcases e : m.exec ⟨(t, s), l⟩ with ⟨o, ⟨t₁, s₁⟩, l₁⟩
  rcases e' : m.exec ⟨(t, s'), l⟩ with ⟨o', ⟨t₁', s₁'⟩, l₁'⟩
  rw [e, e'] at h
  obtain ⟨ho, hl, ⟨hvar, -, ha⟩, hsp, hv⟩ := h
  cases ho
  cases hvar
  cases o with
  | ok a => exact ⟨rfl, hl, ha, hsp, by rintro _ ⟨⟩; exact hv a rfl⟩
  | err e => exact ⟨rfl, hl, ha, hsp, by rintro _ ⟨⟩⟩
  | crash => exact ⟨rfl, hl, ha, hsp, by rintro _ ⟨⟩⟩

end Variables

/-! ## Files -/

namespace Disk

variable {d d' : Disk} {dir : Path}

theorem nameIn_isSome_iff {p : Path} : (nameIn dir p).isSome ↔ ∃ n, p = dir ++ [n] := by
  unfold nameIn
  constructor
  · intro h
    split_ifs at h with hd
    · obtain ⟨n, hn⟩ := Option.isSome_iff_exists.mp h
      exact ⟨n, by rw [← hd]; exact (List.dropLast_append_getLast? n hn).symm⟩
    · cases h
  · rintro ⟨n, rfl⟩
    simp

/-- **Listing** depends on the files of the directory only. -/
theorem list_congr (hread : ∀ n, d.read (dir ++ [n]) = d'.read (dir ++ [n]))
    (horder : d.readOrder = d'.readOrder) : d.list dir = d'.list dir := by
  have hkeys : d.files.keys.filter (fun p => (nameIn dir p).isSome) =
      d'.files.keys.filter fun p => (nameIn dir p).isSome := by
    have hlt : ∀ a b : Path, compare a b = .lt → compare b a = .lt → False := fun a b h h' => by
      have heq : compare a b = (compare b a).swap := Std.OrientedCmp.eq_swap
      rw [heq, h'] at h
      cases h
    have hsorted : ∀ d : Disk, (d.files.keys.filter fun p => (nameIn dir p).isSome).Pairwise
        fun a b => compare a b = .lt := fun d => Std.ExtTreeMap.ordered_keys.filter _
    have hnodup : ∀ d : Disk, (d.files.keys.filter fun p => (nameIn dir p).isSome).Nodup :=
      fun d => Std.ExtTreeMap.nodup_keys.filter _
    have hmem : ∀ (d : Disk) p, p ∈ d.files.keys ↔ (d.read p).isSome := fun d p => by
      rw [Std.ExtTreeMap.mem_keys, read, Option.isSome_map, Std.ExtTreeMap.isSome_getElem?_iff_mem]
    refine List.Perm.eq_of_pairwise (fun a b _ _ h h' => (hlt a b h h').elim) (hsorted d) (hsorted d')
      ((List.perm_ext_iff_of_nodup (hnodup d) (hnodup d')).mpr fun p => ?_)
    rw [List.mem_filter, List.mem_filter, hmem, hmem, nameIn_isSome_iff]
    refine and_congr_left ?_
    rintro ⟨n, rfl⟩
    rw [hread]
  have hfilter : ∀ l : List Path, l.filterMap (nameIn dir) =
      (l.filter fun p => (nameIn dir p).isSome).filterMap (nameIn dir) := fun l => by
    rw [List.filterMap_filter]
    refine List.filterMap_congr fun p _ => ?_
    rcases nameIn dir p with _ | n <;> rfl
  unfold list
  rw [horder, hfilter, hkeys, ← hfilter]

end Disk

/-- The files in `K` may be read, and those in `W` read and written. -/
def Region.files (K W : Set Path) : Region Disk where
  alike d d' := (∀ p, p ∈ K ∨ p ∈ W → d.read p = d'.read p) ∧ d.readOrder = d'.readOrder
  spared d d' := (∀ p, p ∉ W → d'.read p = d.read p) ∧ d'.readOrder = d.readOrder
  refl _ := ⟨fun _ _ => rfl, rfl⟩
  trans h h' := ⟨fun p hp => (h'.1 p hp).trans (h.1 p hp), h'.2.trans h.2⟩

namespace Fs

variable [FromIo ε] {K W : Set Path} {d d' : Disk} {p q dir : Path} {b : Bytes}

theorem alike_put {h h' : b.length ≤ maxFileLen} (ha : (Region.files K W).alike d d') :
    (Region.files K W).alike (d.put p b h) (d'.put p b h') := by
  refine ⟨fun q hq => ?_, ha.2⟩
  rw [Disk.read_put, Disk.read_put, ha.1 q hq]

theorem alike_erase (ha : (Region.files K W).alike d d') :
    (Region.files K W).alike (d.erase p) (d'.erase p) := by
  refine ⟨fun q hq => ?_, ha.2⟩
  rw [Disk.read_erase, Disk.read_erase, ha.1 q hq]

theorem spared_put {h : b.length ≤ maxFileLen} (hp : p ∈ W) :
    (Region.files K W).spared d (d.put p b h) :=
  ⟨fun q hq => by rw [Disk.read_put, if_neg fun e : q = p => hq (e ▸ hp)], rfl⟩

theorem spared_erase (hp : p ∈ W) : (Region.files K W).spared d (d.erase p) :=
  ⟨fun q hq => by rw [Disk.read_erase, if_neg fun e : q = p => hq (e ▸ hp)], rfl⟩

theorem append_together (hp : p ∈ W) (ha : (Region.files K W).alike d d') :
    (Region.files K W).alike (d.append p b) (d'.append p b) ∧
      (Region.files K W).spared d (d.append p b) := by
  unfold Disk.append
  rw [← ha.1 p (.inr hp)]
  split
  · exact ⟨ha, Region.refl _ d⟩
  · split_ifs
    · exact ⟨alike_put ha, spared_put hp⟩
    · exact ⟨ha, Region.refl _ d⟩

theorem inside_touch : Inside (Region.files K W) (touch : Prog Disk ε Unit) :=
  contained_call fun _ _ ha => .ok trivial ha (Region.refl _ _)

omit [FromIo ε] in
theorem inside_pathExists (hp : p ∈ K ∨ p ∈ W) :
    Inside (Region.files K W) (pathExists p : Prog Disk ε Bool) :=
  inside_ask fun _ _ ha => by rw [ha.1 p hp]

theorem inside_removeFile (hp : p ∈ W) :
    Inside (Region.files K W) (removeFile p : Prog Disk ε Unit) :=
  contained_call fun d d' ha => by
    rw [← ha.1 p (.inr hp)]
    split
    · exact .error
    · exact .ok trivial (alike_erase ha) (spared_erase hp)

theorem inside_rename (hp : p ∈ W) (hq : q ∈ W) :
    Inside (Region.files K W) (rename p q : Prog Disk ε Unit) :=
  contained_call fun d d' ha => by
    have hread := ha.1 p (.inr hp)
    split <;> rename_i h <;> split <;> rename_i h' <;> rw [hread, h'] at h <;> cases h
    · exact .error
    · exact .ok trivial (alike_put (alike_erase ha))
        (Region.trans _ (spared_erase hp) (spared_put hq))

theorem inside_readFile (hp : p ∈ K ∨ p ∈ W) :
    Inside (Region.files K W) (readFile p : Prog Disk ε Bytes) :=
  contained_call fun d d' ha => by
    rw [← ha.1 p hp]
    split
    · exact .error
    · exact .ok trivial ha (Region.refl _ _)

theorem inside_metadataLen (hp : p ∈ K ∨ p ∈ W) :
    Inside (Region.files K W) (metadataLen p : Prog Disk ε ℕ) :=
  contained_call fun d d' ha => by
    rw [← ha.1 p hp]
    split
    · exact .error
    · exact .ok trivial ha (Region.refl _ _)

theorem inside_createTruncate (hp : p ∈ W) :
    Inside (Region.files K W) (createTruncate p : Prog Disk ε Unit) :=
  contained_call fun _ _ ha => .ok trivial (alike_put ha) (spared_put hp)

theorem inside_openCreate (hp : p ∈ W) :
    Inside (Region.files K W) (openCreate p : Prog Disk ε Unit) :=
  contained_call fun d d' ha => by
    rw [← ha.1 p (.inr hp)]
    split
    · exact .ok trivial (alike_put ha) (spared_put hp)
    · exact .ok trivial ha (Region.refl _ _)

theorem inside_openWrite (hp : p ∈ K ∨ p ∈ W) :
    Inside (Region.files K W) (openWrite p : Prog Disk ε Unit) :=
  contained_call fun d d' ha => by
    rw [← ha.1 p hp]
    split
    · exact .error
    · exact .ok trivial ha (Region.refl _ _)

theorem inside_writeAll (hp : p ∈ W) :
    Inside (Region.files K W) (writeAll p b : Prog Disk ε Unit) :=
  contained_callPart (fun _ _ _ ha => append_together hp ha) fun d d' ha => by
    rw [← ha.1 p (.inr hp)]
    obtain ⟨halike, hspared⟩ := append_together (b := b) hp ha
    split
    · exact .ok trivial ha (Region.refl _ _)
    · split_ifs
      · exact .ok trivial halike hspared
      · exact .error

theorem inside_setLen {n : ℕ} (hp : p ∈ W) :
    Inside (Region.files K W) (setLen p n : Prog Disk ε Unit) :=
  contained_call fun d d' ha => by
    rw [← ha.1 p (.inr hp)]
    split
    · exact .ok trivial ha (Region.refl _ _)
    · split_ifs
      · exact .ok trivial (alike_put ha) (spared_put hp)
      · exact .error

theorem inside_readDir (hdir : ∀ n, dir ++ [n] ∈ K ∨ dir ++ [n] ∈ W) :
    Inside (Region.files K W) (readDir dir : Prog Disk ε (List Name)) :=
  contained_call fun d d' ha => by
    rw [← Disk.list_congr (fun n => ha.1 _ (hdir n)) ha.2]
    exact .ok trivial ha (Region.refl _ _)

theorem contained_reads {V : α → Prop} {x : Except ε α} (h : ∀ a, x = .ok a → V a) :
    Contained (Region.files K W) (reads x) V :=
  contained_call fun d d' ha => by
    cases x with
    | ok a => exact .ok (h a rfl) ha (Region.refl _ _)
    | error e => exact .error

end Fs

section Kept

variable {K W : Set Path} {p : Path} {d : Disk}

theorem alike_self : (Region.files K W).alike d d := ⟨fun _ _ => rfl, rfl⟩

/-- Other files stay as they are. -/
theorem Contained.read_eq {m : Prog Disk ε α} {V : α → Prop}
    (h : Contained (Region.files K W) m V) (l : List Fault) (hp : p ∉ W) :
    (m.run d l).2.read p = d.read p := (h d d l alike_self).spared.1 p hp

theorem Contained.read_eq_withVar {I : τ → Prop} {t : τ} {m : Prog (τ × Disk) ε α} {V : α → Prop}
    (h : Contained ((Region.files K W).withVar I) m V) (ht : I t) (l : List Fault) (hp : p ∉ W) :
    (m.run (t, d) l).2.2.read p = d.read p :=
  (h (t, d) (t, d) l ⟨rfl, ht, alike_self⟩).spared.1 p hp

end Kept

/-! ## Components -/

/-- One of several components that share a state: its region, what it holds itself, and its turns with
their answers. -/
structure Component (σ τ ω γ : Type) where
  region : Region σ
  Inv : τ → Prop
  turn : ω → τ × σ → γ × τ × σ
  refl : ∀ s, region.alike s s
  outcome : ∀ w t s s', Inv t → region.alike s s' →
    (turn w (t, s)).1 = (turn w (t, s')).1 ∧ (turn w (t, s)).2.1 = (turn w (t, s')).2.1 ∧
      region.alike (turn w (t, s)).2.2 (turn w (t, s')).2.2
  inv : ∀ w t s, Inv t → Inv (turn w (t, s)).2.1
  spared : ∀ w t s, Inv t → region.spared s (turn w (t, s)).2.2

/-- What the components hold, the state, and all answers so far. -/
structure Joint (ι σ τ γ : Type) where
  own : ι → τ
  state : σ
  answers : List (ι × γ)

namespace Joint

variable {ι ω γ : Type} [DecidableEq ι] (C : ι → Component σ τ ω γ)

/-- A turn of one component. -/
def turn (x : Joint ι σ τ γ) (w : ι × ω) : Joint ι σ τ γ :=
  let r := (C w.1).turn w.2 (x.own w.1, x.state)
  ⟨Function.update x.own w.1 r.2.1, r.2.2, x.answers ++ [(w.1, r.1)]⟩

/-- Turns, one after another. -/
def run (x : Joint ι σ τ γ) (ws : List (ι × ω)) : Joint ι σ τ γ := ws.foldl (turn C) x

/-- What `i` is answered. -/
def answersOf (i : ι) (x : Joint ι σ τ γ) : List (ι × γ) := x.answers.filter fun a => a.1 = i

/-- The component `i` is where it is in `y`. -/
structure Same (i : ι) (x y : Joint ι σ τ γ) : Prop where
  own : x.own i = y.own i
  inv : (C i).Inv (x.own i)
  state : (C i).region.alike x.state y.state
  answers : x.answersOf i = y.answersOf i

/-- Each component spares the regions of the others. -/
def Apart : Prop := ∀ i j, i ≠ j → ∀ s s' s'', (C j).region.spared s s' →
  (C i).region.alike s s'' → (C i).region.alike s' s''

variable {C} {i : ι} {x y : Joint ι σ τ γ} {w : ι × ω}

/-- A turn of the component. -/
theorem Same.turn_self (h : Same C i x y) (hw : w.1 = i) : Same C i (turn C x w) (turn C y w) := by
  obtain ⟨j, w⟩ := w
  obtain rfl : j = i := hw
  obtain ⟨hanswer, hown, hstate⟩ := (C j).outcome w (x.own j) x.state y.state h.inv h.state
  rw [h.own] at hanswer hown hstate
  refine ⟨?_, ?_, ?_, ?_⟩
  · unfold turn
    dsimp only
    rw [Function.update_self, Function.update_self, h.own, hown]
  · unfold turn
    dsimp only
    rw [Function.update_self]
    exact (C j).inv w _ _ h.inv
  · unfold turn
    dsimp only
    rw [h.own]
    exact hstate
  · have hprev := h.answers
    unfold answersOf at hprev ⊢
    unfold turn
    dsimp only
    rw [List.filter_append, List.filter_append, hprev, h.own, hanswer]

/-- A turn of another component, in `x` only. -/
theorem Same.turn_other (hC : Apart C) (h : Same C i x y) (hw : w.1 ≠ i)
    (hinv : (C w.1).Inv (x.own w.1)) : Same C i (turn C x w) y := by
  have hown : (turn C x w).own i = x.own i := Function.update_of_ne hw.symm _ _
  refine ⟨hown.trans h.own, by rw [hown]; exact h.inv, ?_, ?_⟩
  · exact hC i w.1 hw.symm _ _ _ ((C w.1).spared w.2 _ _ hinv) h.state
  · rw [← h.answers]
    unfold answersOf turn
    dsimp only
    rw [List.filter_append, List.filter_singleton, decide_eq_false hw, cond_false, List.append_nil]

theorem inv_turn (h : ∀ j, (C j).Inv (x.own j)) : ∀ j, (C j).Inv ((turn C x w).own j) := by
  intro j
  unfold turn
  dsimp only
  by_cases hj : j = w.1
  · subst hj
    rw [Function.update_self]
    exact (C w.1).inv w.2 _ _ (h w.1)
  · rw [Function.update_of_ne hj]
    exact h j

/-- **Without the others.** After any turns a component is where it is after its own turns alone. -/
theorem purge (hC : Apart C) (i : ι) : ∀ (ws : List (ι × ω)) (x y : Joint ι σ τ γ),
    (∀ j, (C j).Inv (x.own j)) → Same C i x y →
      Same C i (run C x ws) (run C y (ws.filter fun w => w.1 = i))
  | [], _, _, _, h => h
  | w :: ws, x, y, hinv, h => by
    by_cases hw : w.1 = i
    · have hkeep : (w :: ws).filter (fun w => w.1 = i) = w :: ws.filter fun w => w.1 = i :=
        List.filter_cons_of_pos (decide_eq_true hw)
      rw [hkeep]
      exact purge hC i ws _ _ (inv_turn hinv) (h.turn_self hw)
    · have hdrop : (w :: ws).filter (fun w => w.1 = i) = ws.filter fun w => w.1 = i :=
        List.filter_cons_of_neg fun h => hw (of_decide_eq_true h)
      rw [hdrop]
      exact purge hC i ws _ _ (inv_turn hinv) (h.turn_other hC hw (hinv w.1))

end Joint

end FaultProg
