import StoneKV.SegmentWrite
import StoneKV.Lib.Layers

/-!
# Merging segments

* `compactAll`: reads segments from the oldest to the newest into one map, drops the tombstones and
  writes the rest.
* `liveEntries`: the entries that it writes.
* **`wp_compactAll`**: the output has the live entries of a search from the newest to the oldest, and
  the numbers that are reported are those of the inputs and of the output.
-/

namespace StoneKV

open FaultProg Layers

structure CompactionBuildStats where
  segmentsRead : ℕ
  recordsBefore : ℕ
  liveRecordsAfter : ℕ
  bytesBefore : ℕ
  bytesAfter : ℕ
  deriving DecidableEq, Repr

/-- The map of `compact_all`. -/
abbrev Merged : Type := Std.ExtTreeMap Key (Option Val) compare

/-- One turn of the inner loop. -/
def mergeRecord (merged : Merged) (record : Record) : Merged :=
  match record.op with
  | .set => merged.insert record.key (some record.val)
  | .delete => merged.insert record.key none

/-- The loop over the inputs, the first of which has number `index`. -/
def mergeInputs : (index : ℕ) → List Path → Merged → (recordsBefore bytesBefore : ℕ) →
    Io (Merged × ℕ × ℕ)
  | _, [], merged, recordsBefore, bytesBefore => return (merged, recordsBefore, bytesBefore)
  | index, path :: paths, merged, recordsBefore, bytesBefore => do
    let len ← Fs.metadataLen path
    let bytesBefore := saturatingAdd bytesBefore len
    let generation := index + 1
    let reader ← SegmentReader.open path generation
    let records ← reader.iterAll
    let recordsBefore := saturatingAdd recordsBefore records.length
    mergeInputs (index + 1) paths (records.foldl mergeRecord merged) recordsBefore bytesBefore

def compactAll (inputPathsOldestToNewest : List Path) (outputTmpPath : Path) :
    Io CompactionBuildStats := do
  let (merged, recordsBefore, bytesBefore) ← mergeInputs 0 inputPathsOldestToNewest ∅ 0 0
  let merged := merged.filter fun _ value => value.isSome
  let liveRecordsAfter := merged.size
  if ← Fs.pathExists outputTmpPath then Fs.removeFile outputTmpPath
  let writeStats ← SegmentWriter.write outputTmpPath merged.toList
  return ⟨inputPathsOldestToNewest.length, recordsBefore, liveRecordsAfter, bytesBefore,
    writeStats.fileBytes⟩

/-! ## The merged map -/

/-- The layer of a list of entries. -/
def layer (es : List Entry) : Layer Key Val := fun k => es.lookup k

/-- The map after the inputs `ess`, the oldest first. -/
def mergeAll (ess : List (List Entry)) (merged : Merged) : Merged :=
  ess.foldl (fun m es => (es.map toRecord).foldl mergeRecord m) merged

/-- The entries of the output for the inputs `ess`, the oldest first. -/
def liveEntries (ess : List (List Entry)) : List Entry :=
  ((mergeAll ess ∅).filter fun _ value => value.isSome).toList

section Merge

variable {ess : List (List Entry)} {es : List Entry} {m : Merged} {e : Entry} {k : Key}

theorem mergeRecord_toRecord : mergeRecord m (toRecord e) = m.insert e.1 e.2 := by
  obtain ⟨k, _ | v⟩ := e <;> rfl

theorem getElem?_merge (h : Ascending es) :
    ((es.map toRecord).foldl mergeRecord m)[k]? = (layer es k).or m[k]? := by
  induction es generalizing m with
  | nil => simp [layer]
  | cons e es ih =>
    rw [List.map_cons, List.foldl_cons, mergeRecord_toRecord, ih h.tail, layer, layer,
      List.lookup_cons, Std.ExtTreeMap.getElem?_insert]
    by_cases hk : k = e.1
    · subst hk
      have hnone : es.lookup e.1 = none := by
        rw [lookup_eq_none]
        intro e' he' heq
        have hlt := (List.pairwise_cons.mp h).1 e' he'
        rw [heq] at hlt
        exact compare_ne_lt_self hlt
      simp [hnone]
    · have hne : compare e.1 k ≠ .eq := fun hc => hk (Std.LawfulEqCmp.eq_of_compare hc).symm
      simp [beq_eq_false_iff_ne.mpr hk, hne]

/-- **Forward and backward.** Merging from the oldest on is searching from the newest on. -/
theorem getElem?_mergeAll (h : ∀ es ∈ ess, Ascending es) :
    (mergeAll ess m)[k]? = (find (ess.reverse.map layer) k).or m[k]? := by
  induction ess generalizing m with
  | nil => simp [mergeAll]
  | cons es ess ih =>
    rw [mergeAll, List.foldl_cons, ← mergeAll, ih fun x hx => h x (List.mem_cons_of_mem _ hx),
      getElem?_merge (h es List.mem_cons_self), List.reverse_cons, List.map_append, find_append,
      Option.or_assoc, List.map_singleton, find_singleton]

theorem ascending_liveEntries : Ascending (liveEntries ess) := Std.ExtTreeMap.ordered_keys_toList

theorem mem_liveEntries (h : ∀ es ∈ ess, Ascending es) {v : Option Val} :
    (k, v) ∈ liveEntries ess ↔ find (ess.reverse.map layer) k = some v ∧ v.isSome := by
  unfold liveEntries
  rw [Std.ExtTreeMap.mem_toList_iff_getElem?_eq_some, Std.ExtTreeMap.getElem?_filter',
    getElem?_mergeAll h]
  simp [Option.filter_eq_some_iff]

theorem layer_liveEntries (h : ∀ es ∈ ess, Ascending es) :
    layer (liveEntries ess) = live (find (ess.reverse.map layer)) := by
  funext k
  rw [layer, live]
  rcases hl : (liveEntries ess).lookup k with _ | v
  · rw [lookup_eq_none] at hl
    rcases hf : find (ess.reverse.map layer) k with _ | v
    · rfl
    · cases v with
      | none => rfl
      | some v => exact absurd rfl (hl (k, some v) ((mem_liveEntries h).mpr ⟨hf, rfl⟩))
  · have hm := (mem_liveEntries h).mp ((lookup_eq_some ascending_liveEntries).mp hl)
    rw [hm.1, Option.filter_some, if_pos hm.2]

theorem valid_liveEntries (h : ∀ es ∈ ess, Ascending es)
    (hv : ∀ es ∈ ess, ∀ e ∈ es, (toRecord e).Valid) :
    ∀ e ∈ liveEntries ess, (toRecord e).Valid := by
  rintro ⟨k, v⟩ he
  have hf := ((mem_liveEntries h).mp he).1
  obtain ⟨l, hl, hk⟩ := List.exists_of_findSome?_eq_some hf
  obtain ⟨es, hes, rfl⟩ := List.mem_map.mp hl
  rw [List.mem_reverse] at hes
  exact hv es hes _ ((lookup_eq_some (h es hes)).mp hk)

end Merge

/-! ## The calls -/

section Calls

variable {A : Fault → Prop} {d : Disk} {out : Path}

/-- The inputs hold the entries `ess`. -/
def Inputs (d : Disk) (paths : List Path) (ess : List (List Entry)) : Prop :=
  List.Forall₂ (fun p es => ∃ b, d.read p = some b ∧ Faithful p b es) paths ess

theorem Inputs.ascending {paths : List Path} {ess : List (List Entry)} (h : Inputs d paths ess) :
    ∀ es ∈ ess, Ascending es := by
  induction h with
  | nil => simp
  | cons hp _ ih =>
    obtain ⟨b, -, hb⟩ := hp
    simpa using ⟨hb.ascending, ih⟩

theorem Inputs.valid {paths : List Path} {ess : List (List Entry)} (h : Inputs d paths ess) :
    ∀ es ∈ ess, ∀ e ∈ es, (toRecord e).Valid := by
  induction h with
  | nil => simp
  | cons hp _ ih =>
    obtain ⟨b, -, hb⟩ := hp
    rintro es (_ | ⟨_, hes⟩)
    · exact hb.valid
    · exact ih es hes

/-- The number of records in `ess`. -/
def recordCount (ess : List (List Entry)) : ℕ := (ess.map List.length).sum

/-- The bytes of the files at `paths`. -/
def bytesOf (d : Disk) (paths : List Path) : ℕ :=
  (paths.map fun p => ((d.read p).getD []).length).sum

theorem saturatingAdd_assoc {a b c : ℕ} :
    saturatingAdd (saturatingAdd a b) c = saturatingAdd a (b + c) := by
  unfold saturatingAdd
  omega

theorem wp_mergeInputs {Q : Outcome StoneError (Merged × ℕ × ℕ) → Disk → Prop} {paths : List Path}
    {ess : List (List Entry)} (h : Inputs d paths ess) (i : ℕ) (m : Merged) (n k : ℕ)
    (hok : Q (.ok (mergeAll ess m, saturatingAdd n (recordCount ess),
      saturatingAdd k (bytesOf d paths))) d)
    (hn : n < u64Size) (hk : k < u64Size) (herr : CanFail A → Q (.err (.io .other)) d) (hcr : Q .crash d) :
    wp A (mergeInputs i paths m n k) Q d := by
  induction h generalizing i m n k with
  | nil =>
    have hsat : ∀ {a}, a < u64Size → saturatingAdd a 0 = a := fun h => by
      unfold saturatingAdd
      omega
    simp only [recordCount, bytesOf, List.map_nil, List.sum_nil, hsat hn, hsat hk] at hok
    exact wp_pure hok
  | @cons p es paths ess hp _ ih =>
    obtain ⟨b, hb, hf⟩ := hp
    have hlt : ∀ {a b}, saturatingAdd a b < u64Size := by
      unfold saturatingAdd u64Size
      omega
    refine wp_bind (Fs.wp_metadataLen (fun b' hb' => ?_) (fun h => by rw [hb] at h; cases h)
      (fun n hf => herr ⟨n, hf⟩) fun _ _ => hcr)
    rw [hb] at hb'
    cases hb'
    refine wp_bind (wp_bind (Fs.wp_readFile (fun b' hb' => ?_) (fun h => by rw [hb] at h; cases h)
      (fun n hf => herr ⟨n, hf⟩) fun _ _ => hcr))
    rw [hb] at hb'
    cases hb'
    obtain ⟨r, ho, hr⟩ := hf (i + 1)
    rw [Outcome.andThen, ho]
    refine wp_ret (wp_bind (Fs.wp_reads (fun rs hrs => ?_) (fun e he => ?_)
      (fun n hf => herr ⟨n, hf⟩) fun _ _ => hcr))
    · rw [hr.iterAllIn] at hrs
      cases hrs
      refine ih _ _ _ _ ?_ hlt hlt
      rw [saturatingAdd_assoc, saturatingAdd_assoc, List.length_map]
      simp only [bytesOf, recordCount, List.map_cons, List.sum_cons, hb, Option.getD_some] at hok
      exact hok
    · rw [hr.iterAllIn] at he
      cases he

/-- **Merging segments.** The output holds the live entries of the inputs. -/
theorem wp_compactAll {Q : Outcome StoneError CompactionBuildStats → Disk → Prop}
    {paths : List Path} {ess : List (List Entry)} (h : Inputs d paths ess)
    (hok : ∀ d', d.Touched out d' → d'.read out = some (segmentImage (liveEntries ess)) →
      Q (.ok ⟨paths.length, saturatingAdd 0 (recordCount ess), (liveEntries ess).length,
        saturatingAdd 0 (bytesOf d paths), (segmentImage (liveEntries ess)).length⟩) d')
    (herr : ∀ i, Fs.MayFail A (maxFileLen < (segmentImage (liveEntries ess)).length) i →
      ∀ d', d.Touched out d' → Q (.err (.io i)) d')
    (hcr : ∀ d', d.Touched out d' → Q .crash d') : wp A (compactAll paths out) Q d := by
  refine wp_bind (wp_mergeInputs h 0 ∅ 0 0 ?_ (by decide) (by decide)
    (fun h => herr _ (.inr h) _ Disk.touched_self) (hcr _ Disk.touched_self))
  have hwrite : ∀ d', d.Touched out d' → wp A (do
      let writeStats ← SegmentWriter.write out (liveEntries ess)
      return (⟨paths.length, saturatingAdd 0 (recordCount ess), (liveEntries ess).length,
        saturatingAdd 0 (bytesOf d paths), writeStats.fileBytes⟩ : CompactionBuildStats)) Q d' := by
    intro d' ht
    refine wp_bind (SegmentWriter.wp_write ascending_liveEntries
      (valid_liveEntries h.ascending h.valid) (fun d'' ht' hread => ?_)
      (fun _ hi _ ht' => herr _ hi _ (ht.trans ht')) fun _ ht' => hcr _ (ht.trans ht'))
    exact wp_pure (hok _ (ht.trans ht') hread)
  have hsize : ((mergeAll ess ∅).filter fun _ value => value.isSome).size =
      (liveEntries ess).length := Std.ExtTreeMap.length_toList.symm
  dsimp only [Outcome.andThen]
  rw [hsize]
  refine wp_bind (Fs.wp_pathExists ?_ (fun _ => ?_) fun _ _ => hcr _ Disk.touched_self)
  · dsimp only [Outcome.andThen]
    split_ifs with hex
    · exact wp_bind (Fs.wp_removeFile (fun _ => hwrite _ Disk.touched_erase)
        (fun h => by rw [h] at hex; cases hex)
        (fun _ hf => herr _ (Fs.mayFail_of hf) _ Disk.touched_self)
        fun _ _ => hcr _ Disk.touched_self)
    · exact hwrite _ Disk.touched_self
  · exact hwrite _ Disk.touched_self

end Calls

end StoneKV
