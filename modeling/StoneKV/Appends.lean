import StoneKV.Wal

/-!
# Appends that fail

A failed append leaves any prefix of its record in the log, and the next append goes on behind it.

* `Wal.appends`: calls of `append` one after another, each with the faults of its own calls.
* `bytesWritten`, `LeavesPart`: how much of its record a call leaves in the log.
* **`appends_log`**: as long as nothing is written behind a part of a record, the log is a list of
  records, the acknowledged ones among them in order, and at most one torn tail.
-/

namespace StoneKV

open FaultProg Prog

/-- Calls of `append` with their faults: the records of the calls that return `Ok`, and the disk. -/
def Wal.appends (wal : Wal) : List (Record × List Fault) → Disk → List Record × Disk
  | [], d => ([], d)
  | (r, l) :: calls, d =>
    match (wal.append r).run d l with
    | (.ok (), d') => (r :: (appends wal calls d').1, (appends wal calls d').2)
    | (_, d') => appends wal calls d'

/-- The number of bytes of a record of `len` bytes that the faults let an append write: it seeks,
writes, and syncs. -/
def bytesWritten (len : ℕ) (l : List Fault) : ℕ :=
  match firstFault l, firstFault l.tail with
  | .fail _, _ => 0
  | _, .fail n => min n len
  | _, _ => len

/-- The number of bytes that a call of `append` writes. -/
def written (c : Record × List Fault) : ℕ :=
  match c.1.encode with
  | .ok b => bytesWritten b.length c.2
  | .error _ => 0

/-- The call leaves a part of its record in the log. -/
def LeavesPart (c : Record × List Fault) : Prop := 0 < written c ∧ written c < c.1.image.length

instance : DecidablePred LeavesPart := fun _ => inferInstanceAs (Decidable (_ ∧ _))

variable {wal : Wal} {d : Disk} {r : Record} {old b t : Bytes} {l : List Fault}

theorem noCrash_firstFault (h : ∀ f ∈ l, NoCrash f) :
    firstFault l = .none ∨ ∃ n, firstFault l = .fail n := by
  rcases l with _ | ⟨_ | n | _ | n, l⟩
  · exact .inl rfl
  · exact .inl rfl
  · exact .inr ⟨n, rfl⟩
  · exact .inl rfl
  · exact absurd rfl (h _ List.mem_cons_self n)

theorem noCrash_tail (h : ∀ f ∈ l, NoCrash f) : ∀ f ∈ l.tail, NoCrash f :=
  fun f hf => h f (List.mem_of_mem_tail hf)

theorem bytesWritten_le {len : ℕ} : bytesWritten len l ≤ len := by
  unfold bytesWritten
  split <;> omega

/-- **One append.** The bytes that the faults let through are at the end of the log; and when the call
returns, these are all. -/
theorem append_run (hd : d.read wal.path = some old) (hb : r.encode = .ok b)
    (hl : ∀ f ∈ l, NoCrash f) :
    ((wal.append r).run d l).2 = d.append wal.path (b.take (bytesWritten b.length l)) ∧
      (((wal.append r).run d l).1 = .ok () →
        bytesWritten b.length l = b.length ∧ (old ++ b).length ≤ maxFileLen) := by
  have hrun : (wal.append r).run d l = ((do
      Fs.touch
      Fs.writeAll wal.path b
      Fs.touch : Io Unit)).run d l := by
    unfold Wal.append
    rw [hb]
    rfl
  rw [hrun]
  unfold bytesWritten
  rcases noCrash_firstFault hl with h₁ | ⟨n, h₁⟩
  · rw [Fs.touch, Prog.call, run_callPart_of_none h₁ rfl, h₁]
    rcases noCrash_firstFault (noCrash_tail hl) with h₂ | ⟨n, h₂⟩
    · rw [h₂]
      by_cases hs : (old ++ b).length ≤ maxFileLen
      · rw [Fs.run_writeAll_bind h₂ hd hs]
        exact ⟨(Fs.run_touch _ _).trans (by simp), fun _ => ⟨rfl, hs⟩⟩
      · rw [Fs.writeAll, run_callPart_of_error h₂ (by simp only [hd, if_neg hs]; rfl)]
        dsimp only
        rw [List.take_length, Disk.append_of_lt hd (by omega)]
        exact ⟨rfl, fun h => by cases h⟩
    · rw [h₂, Fs.writeAll, run_callPart_of_fail h₂, ← List.take_eq_take_min]
      exact ⟨rfl, fun h => by cases h⟩
  · rw [Fs.touch, Prog.call, run_callPart_of_fail h₁, h₁]
    exact ⟨by simp, fun h => by cases h⟩

/-- An append that does not encode does nothing. -/
theorem append_run_error {e : StoneError} (he : r.encode = .error e) :
    (wal.append r).run d l = (.err e, d) := by
  unfold Wal.append
  rw [he]
  rfl

/-- **An append without faults.** The record encodes and fits, and is at the end of the log; or the call
returns an error and does nothing. -/
theorem append_run_noFault (hd : d.read wal.path = some old) :
    (∃ b, r.encode = .ok b ∧ (old ++ b).length ≤ maxFileLen ∧
      (wal.append r).run d [] = (.ok (), d.append wal.path b)) ∨
    (∀ b, r.encode = .ok b → maxFileLen < (old ++ b).length) ∧
      ∃ e, (wal.append r).run d [] = (.err e, d) := by
  rcases henc : r.encode with e | b
  · exact .inr ⟨fun b hb => (by cases hb), e, append_run_error henc⟩
  obtain ⟨hdisk, hok⟩ := append_run (l := []) hd henc (by simp)
  have hall : b.take (bytesWritten b.length []) = b := List.take_length
  rw [hall] at hdisk
  by_cases hfits : (old ++ b).length ≤ maxFileLen
  · refine .inl ⟨b, rfl, hfits, Prod.ext ?_ hdisk⟩
    refine run_nil_of_wp (Q := fun o _ => o = .ok ()) (Wal.wp_append hd (fun e he => ?_)
      (fun _ _ _ => .inr rfl) (fun b' n i hb' hi => ?_) fun _ _ _ => .inl rfl)
    · rw [henc] at he
      cases he
    · rw [henc] at hb'
      cases hb'
      rcases hi with ⟨-, hbig⟩ | ⟨n, hn⟩
      · exact absurd hfits (Nat.not_le.mpr hbig)
      · exact absurd hn (not_noFault_fail n)
  · rw [Nat.not_le] at hfits
    rw [Disk.append_of_lt hd hfits] at hdisk
    refine .inr ⟨fun b' hb' => Except.ok.inj hb' ▸ hfits, ?_⟩
    rcases ho : ((wal.append r).run d []).1 with ⟨⟩ | e | _
    · exact absurd (hok ho).2 (Nat.not_le.mpr hfits)
    · exact ⟨e, Prod.ext ho hdisk⟩
    · exact absurd ho run_nil_ne_crash

/-- **The log after one append.** Behind a part of a record nothing is written: then the log has a new
record at its end, or a new torn tail, or is as it was. -/
theorem append_log {rs : List Record} (hd : d.read wal.path = some (logImage rs ++ t))
    (ht : Torn t) (hsilent : t ≠ [] → written (r, l) = 0) (hl : ∀ f ∈ l, NoCrash f) :
    ∃ rs' t', ((wal.append r).run d l).2.read wal.path = some (logImage (rs ++ rs') ++ t') ∧
      (∀ r ∈ rs', r.Valid) ∧ Torn t' ∧ (t' ≠ [] → t ≠ [] ∨ LeavesPart (r, l)) ∧
      (((wal.append r).run d l).1 = .ok () → rs' = [r.stored]) := by
  have hsame : d.read wal.path = some (logImage (rs ++ []) ++ t) := by rwa [List.append_nil]
  rcases henc : r.encode with e | b
  · rw [append_run_error henc]
    exact ⟨[], t, hsame, by simp, ht, .inl, fun h => by cases h⟩
  obtain ⟨hdisk, hok⟩ := append_run hd henc hl
  have himg : b = r.image := (Record.encode_eq_ok henc).2.2
  have hpos : 0 < b.length := by
    rw [himg]
    exact List.length_pos_of_ne_nil Record.image_ne_nil
  have hwritten : written (r, l) = bytesWritten b.length l := by simp only [written, henc]
  have hle : bytesWritten b.length l ≤ b.length := bytesWritten_le
  rw [hdisk]
  by_cases hzero : bytesWritten b.length l = 0
  · rw [hzero, List.take_zero, Disk.append_nil]
    refine ⟨[], t, hsame, by simp, ht, .inl, fun h => ?_⟩
    have := (hok h).1
    omega
  have hnil : t = [] := by
    by_contra h
    exact hzero (hwritten ▸ hsilent h)
  subst hnil
  rw [List.append_nil] at hd hsame
  by_cases hfits : (logImage rs ++ b.take (bytesWritten b.length l)).length ≤ maxFileLen
  · rw [Disk.read_append_self hd hfits]
    by_cases hall : bytesWritten b.length l = b.length
    · refine ⟨[r.stored], [], ?_, ?_, torn_nil, by simp, fun _ => rfl⟩
      · rw [hall, List.take_length, logImage_logged henc, List.append_nil]
      · simpa using Record.valid_stored henc
    · refine ⟨[], b.take (bytesWritten b.length l), by rw [List.append_nil], by simp,
        ⟨r.stored, Record.valid_stored henc, bytesWritten b.length l, ?_, ?_⟩,
        fun _ => .inr ⟨?_, ?_⟩, fun h => absurd (hok h).1 hall⟩
      · rw [r.image_stored, ← himg]
        omega
      · rw [r.image_stored, ← himg]
      · omega
      · rw [hwritten, ← himg]
        omega
  · rw [Disk.append_of_lt hd (by omega)]
    refine ⟨[], [], by rw [List.append_nil]; exact hsame, by simp, torn_nil, by simp, fun h => ?_⟩
    obtain ⟨hall, hfull⟩ := hok h
    rw [hall, List.take_length] at hfits
    rw [List.append_nil] at hfull
    exact absurd hfull hfits

/-- **The log of a run.** Behind a part of a record nothing is written: then the log is the records
from before, others with the acknowledged ones among them in order, and a torn tail. -/
theorem appends_log : ∀ (calls : List (Record × List Fault)) (d : Disk) (rs : List Record)
    (t : Bytes), d.read wal.path = some (logImage rs ++ t) → (∀ r ∈ rs, r.Valid) → Torn t →
    (t ≠ [] → ∀ c ∈ calls, written c = 0) →
    (calls.Pairwise fun a b => LeavesPart a → written b = 0) →
    (∀ c ∈ calls, ∀ f ∈ c.2, NoCrash f) →
    ∃ rs' t', (wal.appends calls d).2.read wal.path = some (logImage (rs ++ rs') ++ t') ∧
      (∀ r ∈ rs ++ rs', r.Valid) ∧ Torn t' ∧
      ((wal.appends calls d).1.map Record.stored).Sublist rs'
  | [], d, rs, t, hd, hrs, ht, _, _, _ =>
    ⟨[], t, by rw [List.append_nil]; exact hd, by simpa using hrs, ht, .slnil⟩
  | (r, l) :: calls, d, rs, t, hd, hrs, ht, hsilent, hpair, hcrash => by
    rw [List.pairwise_cons] at hpair
    obtain ⟨new, t₁, hd₁, hnew, ht₁, hpart, hok⟩ := append_log hd ht
      (fun h => hsilent h _ List.mem_cons_self) (hcrash _ List.mem_cons_self)
    have hrs₁ : ∀ r ∈ rs ++ new, r.Valid := fun x hx => (List.mem_append.mp hx).elim (hrs x) (hnew x)
    obtain ⟨rs', t', hd', hvalid, ht', hsub⟩ := appends_log calls _ (rs ++ new) t₁ hd₁ hrs₁ ht₁
      (fun h c hc => (hpart h).elim (fun h => hsilent h c (List.mem_cons_of_mem _ hc))
        (hpair.1 c hc)) hpair.2 fun c hc => hcrash c (List.mem_cons_of_mem _ hc)
    rw [List.append_assoc] at hd' hvalid
    refine ⟨new ++ rs', t', ?_⟩
    rcases hrun : (wal.append r).run d l with ⟨_ | _ | _, d₁⟩ <;> rw [hrun] at hd' hsub hok <;>
      simp only [Wal.appends, hrun]
    · rw [hok rfl]
      rw [hok rfl] at hd' hvalid
      exact ⟨hd', hvalid, ht', hsub.cons_cons _⟩
    · exact ⟨hd', hvalid, ht', hsub.trans (List.sublist_append_right _ _)⟩
    · exact ⟨hd', hvalid, ht', hsub.trans (List.sublist_append_right _ _)⟩

end StoneKV
