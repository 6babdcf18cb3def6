import StoneKV.SegmentFormat

/-!
# What the writer writes

* `writerAfter path es`: the writer once it has written the entries `es`.
* `SegmentWriter.wp_writeEntry`, `wp_writeIndex`: one turn of each loop.
* **`SegmentWriter.wp_write`**: the writer leaves `segmentImage es`, or fails with an I/O error and
  has touched no other file.
* `SegmentWriter.Accepts w es`: the entries that it writes are in order and have encodings.
-/

namespace StoneKV

open FaultProg

/-- The header and the records of a segment. -/
def headImage (es : List Entry) : Bytes := SEGMENT_MAGIC ++ [SEGMENT_VERSION] ++ recordsImage es

/-- The writer after the entries `es`. -/
def writerAfter (path : Path) (es : List Entry) : SegmentWriter :=
  ⟨path, (headImage es).length, sparseIndexOf 0 SEGMENT_HEADER_SIZE es, es.length,
    es.getLast?.map Prod.fst⟩

variable {es pre : List Entry} {e : Entry}

theorem length_headImage : (headImage es).length = SEGMENT_HEADER_SIZE + (recordsImage es).length := by
  rw [headImage, List.length_append]
  rfl

theorem headImage_append : headImage (pre ++ [e]) = headImage pre ++ (toRecord e).image := by
  rw [headImage, headImage, recordsImage_append, recordsImage_cons, recordsImage_nil,
    List.append_nil, ← List.append_assoc]

theorem length_headImage_le : (headImage pre).length ≤ (headImage (pre ++ es)).length := by
  rw [length_headImage, length_headImage, recordsImage_append, List.length_append]
  omega

theorem sparseIndexOf_append (n offset : ℕ) : sparseIndexOf n offset (pre ++ [e]) =
    sparseIndexOf n offset pre ++ (if (n + pre.length) % SPARSE_INDEX_INTERVAL = 0 then
      [⟨e.1, offset + (recordsImage pre).length⟩] else []) := by
  induction pre generalizing n offset with
  | nil => simp [sparseIndexOf]
  | cons e' pre ih =>
    rw [List.cons_append, sparseIndexOf, sparseIndexOf, ih, List.append_assoc, recordsImage_cons,
      List.length_append, List.length_cons, Nat.add_assoc offset, Nat.add_right_comm n,
      Nat.add_assoc n]

theorem segmentImage_eq : segmentImage es = headImage es ++
    indexImage (sparseIndexOf 0 SEGMENT_HEADER_SIZE es) ++
    (toLe 8 (headImage es).length ++ SEGMENT_MAGIC) := by
  rw [length_headImage]
  rfl

theorem valid_of_encode {b : Bytes} (h : (toRecord e).encode = .ok b) : (toRecord e).Valid := by
  obtain ⟨hk, hv, -⟩ := Record.encode_eq_ok h
  obtain ⟨k, _ | v⟩ := e
  · exact Record.valid_newDelete hk
  · exact Record.valid_newSet hk hv

namespace SegmentWriter

variable {A : Fault → Prop} {d : Disk} {path : Path}

theorem wp_create {Q : Outcome StoneError SegmentWriter → Disk → Prop}
    (hok : ∀ h, Q (.ok (writerAfter path [])) (d.put path (headImage []) h))
    (herr : ∀ i, Fs.MayFail A (maxFileLen < (headImage []).length) i →
      ∀ d', d.Touched path d' → Q (.err (.io i)) d')
    (hcr : ∀ d', d.Touched path d' → Q .crash d') : wp A (create path) Q d := by
  have hmain : wp A (do
      Fs.createTruncate path
      Fs.writeAll path SEGMENT_MAGIC
      Fs.writeAll path [SEGMENT_VERSION]
      return (⟨path, SEGMENT_HEADER_SIZE, [], 0, none⟩ : SegmentWriter)) Q d := by
    refine wp_bind (Fs.wp_createTruncate ?_ (fun _ hf => herr _ (Fs.mayFail_of hf) _ Disk.touched_self)
      fun _ _ => hcr _ Disk.touched_self)
    refine wp_bind (Fs.wp_writeAll_put (fun h => ?_)
      (fun i hi => herr i (hi.mono fun hb => absurd hb (by decide))) hcr)
    exact wp_bind (Fs.wp_writeAll_put (fun h => wp_pure (hok h)) herr hcr)
  unfold create
  split_ifs
  · exact wp_bind (Fs.wp_touch hmain (fun _ hf => herr _ (Fs.mayFail_of hf) _ Disk.touched_self)
      fun _ _ => hcr _ Disk.touched_self)
  · exact hmain

/-- **One entry.** -/
theorem wp_writeEntry {Q : Outcome StoneError SegmentWriter → Disk → Prop}
    (hasc : Ascending (pre ++ [e])) (he : (toRecord e).Valid)
    {h : (headImage pre).length ≤ maxFileLen}
    (hok : ∀ h, Q (.ok (writerAfter path (pre ++ [e]))) (d.put path (headImage (pre ++ [e])) h))
    (herr : ∀ i, Fs.MayFail A (maxFileLen < (headImage (pre ++ [e])).length) i →
      ∀ d', d.Touched path d' → Q (.err (.io i)) d')
    (hcr : ∀ d', d.Touched path d' → Q .crash d') :
    wp A ((writerAfter path pre).writeEntry e) Q (d.put path (headImage pre) h) := by
  have hlast : ¬ ((writerAfter path pre).lastKey.any
      fun previous => (compare e.1 previous).isLE) = true := by
    rcases List.eq_nil_or_concat pre with rfl | ⟨init, l, rfl⟩
    · simp [writerAfter]
    · have hlt := (List.pairwise_append.mp hasc).2.2 l (by simp) e (by simp)
      rw [← Std.OrientedCmp.gt_iff_lt] at hlt
      simp [writerAfter, hlt]
  unfold writeEntry
  rw [rejectIf_of_not hlast, he.encode_eq]
  refine wp_bind (wp_ret (wp_bind (wp_ret ?_)))
  rw [headImage_append] at herr
  refine wp_bind (Fs.wp_writeAll_put (fun h' => ?_) herr hcr)
  have hadd : checkedAdd (writerAfter path pre).currentOffset (toRecord e).image.length =
      some (headImage (pre ++ [e])).length := by
    rw [headImage_append, List.length_append]
    rw [List.length_append] at h'
    exact checkedAdd_of_lt (by
      simp only [writerAfter]
      unfold maxFileLen at h'
      unfold u64Size
      omega)
  rw [hadd]
  refine wp_bind (wp_ret (wp_pure ?_))
  have hnext := hok (headImage_append ▸ h')
  simp only [headImage_append] at hnext
  have hwriter : writerAfter path (pre ++ [e]) = ⟨path, (headImage (pre ++ [e])).length,
      if pre.length % SPARSE_INDEX_INTERVAL = 0
      then sparseIndexOf 0 SEGMENT_HEADER_SIZE pre ++ [⟨e.1, (headImage pre).length⟩]
      else sparseIndexOf 0 SEGMENT_HEADER_SIZE pre, pre.length + 1, some e.1⟩ := by
    simp only [writerAfter, sparseIndexOf_append, List.length_append, List.length_singleton,
      List.getLast?_concat, Option.map_some, Nat.zero_add, length_headImage]
    split_ifs <;> simp
  rw [hwriter] at hnext
  exact hnext

/-- **All entries.** -/
theorem wp_writeAll {Q : Outcome StoneError SegmentWriter → Disk → Prop} :
    ∀ (es pre : List Entry) {h : (headImage pre).length ≤ maxFileLen}, Ascending (pre ++ es) →
    (∀ e ∈ es, (toRecord e).Valid) →
    (∀ h, Q (.ok (writerAfter path (pre ++ es))) (d.put path (headImage (pre ++ es)) h)) →
    (∀ i, Fs.MayFail A (maxFileLen < (headImage (pre ++ es)).length) i →
      ∀ d', d.Touched path d' → Q (.err (.io i)) d') →
    (∀ d', d.Touched path d' → Q .crash d') →
    wp A ((writerAfter path pre).writeAll es) Q (d.put path (headImage pre) h)
  | [], pre, h, _, _, hok, _, _ => by
    simp only [List.append_nil] at hok
    exact wp_pure (hok h)
  | e :: es, pre, h, hasc, hes, hok, herr, hcr => by
    have hcat : pre ++ e :: es = pre ++ [e] ++ es := by simp
    rw [hcat] at hasc hok herr
    refine wp_bind (wp_writeEntry (List.pairwise_append.mp hasc).1 (hes e List.mem_cons_self)
      (fun h => ?_) (fun i hi => herr i (hi.mono fun hb => hb.trans_le length_headImage_le)) hcr)
    exact wp_writeAll es (pre ++ [e]) hasc (fun x hx => hes x (List.mem_cons_of_mem _ hx)) hok
      herr hcr

/-- **The index.** -/
theorem wp_writeIndex {Q : Outcome StoneError ℕ → Disk → Prop} :
    ∀ (is : List SparseIndexEntry) (a : Bytes) {h : a.length ≤ maxFileLen},
    (∀ i ∈ is, i.key.length < 2 ^ 32) →
    (∀ h, Q (.ok (a ++ indexImage is).length) (d.put path (a ++ indexImage is) h)) →
    (∀ i, Fs.MayFail A (maxFileLen < (a ++ indexImage is).length) i →
      ∀ d', d.Touched path d' → Q (.err (.io i)) d') →
    (∀ d', d.Touched path d' → Q .crash d') →
    wp A (writeIndex path a.length is) Q (d.put path a h)
  | [], a, h, _, hok, _, _ => by
    simp only [indexImage, List.flatMap_nil, List.append_nil] at hok
    exact wp_pure (hok h)
  | i :: is, a, h, his, hok, herr, hcr => by
    have hcat : a ++ indexImage (i :: is) =
        a ++ toLe 4 i.key.length ++ i.key ++ toLe 8 i.fileOffset ++ indexImage is := by
      simp [indexImage_cons, indexEntryImage]
    rw [hcat] at hok herr
    unfold writeIndex writeIndexEntry
    rw [tryU32_of_lt (his i List.mem_cons_self)]
    refine wp_bind (wp_bind (wp_ret ?_))
    have herr' : ∀ b c : Bytes, b ++ c = a ++ toLe 4 i.key.length ++ i.key ++ toLe 8 i.fileOffset →
        ∀ x, Fs.MayFail A (maxFileLen < b.length) x → ∀ d', d.Touched path d' →
          Q (.err (.io x)) d' := fun b c hbc x hx => herr x (hx.mono fun hb => by
      rw [← hbc, List.length_append, List.length_append]
      omega)
    refine wp_bind (Fs.wp_writeAll_put (fun h₁ => ?_)
      (herr' _ (i.key ++ toLe 8 i.fileOffset) (by simp)) hcr)
    refine wp_bind (Fs.wp_writeAll_put (fun h₂ => ?_) (herr' _ (toLe 8 i.fileOffset) rfl) hcr)
    refine wp_bind (Fs.wp_writeAll_put (fun h₃ => ?_) (herr' _ [] (List.append_nil _)) hcr)
    have hlen : (a ++ toLe 4 i.key.length ++ i.key ++ toLe 8 i.fileOffset).length =
        a.length + 4 + i.key.length + 8 := by
      simp only [List.length_append, length_toLe]
    have hadd : (checkedAdd a.length 4 >>= (checkedAdd · i.key.length) >>= (checkedAdd · 8)) =
        some (a ++ toLe 4 i.key.length ++ i.key ++ toLe 8 i.fileOffset).length := by
      have hsize : u64Size = 2 ^ 64 := rfl
      have hfmax : maxFileLen = 2 ^ 63 - 1 := rfl
      rw [hlen] at h₃ ⊢
      simp (disch := omega) only [checkedAdd_of_lt, Option.bind_eq_bind, Option.bind_some]
    rw [hadd]
    refine wp_ret (wp_writeIndex is _ (fun j hj => his j (List.mem_cons_of_mem _ hj)) hok herr hcr)

theorem wp_finish {Q : Outcome StoneError SegmentWriteStats → Disk → Prop}
    (hes : ∀ e ∈ es, (toRecord e).Valid) {h : (headImage es).length ≤ maxFileLen}
    (hok : ∀ h, Q (.ok ⟨es.length, (segmentImage es).length,
      (sparseIndexOf 0 SEGMENT_HEADER_SIZE es).length⟩) (d.put path (segmentImage es) h))
    (herr : ∀ i, Fs.MayFail A (maxFileLen < (segmentImage es).length) i →
      ∀ d', d.Touched path d' → Q (.err (.io i)) d')
    (hcr : ∀ d', d.Touched path d' → Q .crash d') :
    wp A (writerAfter path es).finish Q (d.put path (headImage es) h) := by
  have hkeys : ∀ i ∈ sparseIndexOf 0 SEGMENT_HEADER_SIZE es, i.key.length < 2 ^ 32 := by
    intro i hi
    obtain ⟨pre, e, post, rfl, hk, -⟩ := mem_sparseIndexOf hi
    have := (hes e (by simp)).key_le
    rw [toRecord_key, ← hk] at this
    unfold Record.MAX_FIELD_LEN at this
    omega
  unfold finish writerAfter
  dsimp only
  have hcat : headImage es ++ indexImage (sparseIndexOf 0 SEGMENT_HEADER_SIZE es) ++
      toLe 8 (headImage es).length ++ SEGMENT_MAGIC = segmentImage es := by
    rw [segmentImage_eq, List.append_assoc _ (toLe 8 _)]
  have herr' : ∀ b c : Bytes, b ++ c = segmentImage es →
      ∀ x, Fs.MayFail A (maxFileLen < b.length) x → ∀ d', d.Touched path d' →
        Q (.err (.io x)) d' := fun b c hbc x hx => herr x (hx.mono fun hb => by
    rw [← hbc, List.length_append]
    omega)
  refine wp_bind (wp_writeIndex _ _ hkeys (fun h₁ => ?_) (herr' _ _ segmentImage_eq.symm) hcr)
  refine wp_bind (Fs.wp_writeAll_put (fun h₂ => ?_) (herr' _ _ hcat) hcr)
  refine wp_bind (Fs.wp_writeAll_put (fun h₃ => ?_) (herr' _ [] (by rw [List.append_nil, hcat])) hcr)
  have hadd : checkedAdd (headImage es ++ indexImage (sparseIndexOf 0 SEGMENT_HEADER_SIZE es)).length
      SEGMENT_FOOTER_SIZE = some (segmentImage es).length := by
    have hm : SEGMENT_MAGIC.length = 4 := rfl
    have h12 : SEGMENT_FOOTER_SIZE = 12 := rfl
    have hsize : u64Size = 2 ^ 64 := rfl
    have hfmax : maxFileLen = 2 ^ 63 - 1 := rfl
    rw [← hcat]
    simp only [List.length_append, length_toLe, hm, h12] at h₃ ⊢
    rw [checkedAdd_of_lt (by omega)]
  dsimp only [Outcome.andThen]
  rw [hadd]
  refine wp_bind (wp_ret ?_)
  refine wp_bind (Fs.wp_touch ?_ (fun _ hf => herr _ (Fs.mayFail_of hf) _ Disk.touched_put)
    fun _ _ => hcr _ Disk.touched_put)
  refine wp_bind (Fs.wp_touch ?_ (fun _ hf => herr _ (Fs.mayFail_of hf) _ Disk.touched_put)
    fun _ _ => hcr _ Disk.touched_put)
  refine wp_bind (Fs.wp_metadataLen (fun b hb => ?_)
    (fun h => by rw [Disk.read_put, if_pos rfl] at h; cases h)
    (fun _ hf => herr _ (Fs.mayFail_of hf) _ Disk.touched_put) fun _ _ => hcr _ Disk.touched_put)
  have hb' : b = segmentImage es := by
    rw [Disk.read_put, if_pos rfl, hcat] at hb
    cases hb
    rfl
  subst hb'
  rw [Outcome.andThen, rejectIf_of_not (not_not.mpr rfl)]
  refine wp_bind (wp_ret (wp_pure ?_))
  have hlast := hok (hcat ▸ h₃)
  simp only [← hcat] at hlast ⊢
  exact hlast

/-- **Writing a segment.** -/
theorem wp_write {Q : Outcome StoneError SegmentWriteStats → Disk → Prop} (hasc : Ascending es)
    (hes : ∀ e ∈ es, (toRecord e).Valid)
    (hok : ∀ d', d.Touched path d' → d'.read path = some (segmentImage es) →
      Q (.ok ⟨es.length, (segmentImage es).length,
        (sparseIndexOf 0 SEGMENT_HEADER_SIZE es).length⟩) d')
    (herr : ∀ i, Fs.MayFail A (maxFileLen < (segmentImage es).length) i →
      ∀ d', d.Touched path d' → Q (.err (.io i)) d')
    (hcr : ∀ d', d.Touched path d' → Q .crash d') : wp A (write path es) Q d := by
  have herr' : ∀ es', (headImage es').length ≤ (segmentImage es).length →
      ∀ i, Fs.MayFail A (maxFileLen < (headImage es').length) i → ∀ d', d.Touched path d' →
        Q (.err (.io i)) d' := fun es' hle i hi => herr i (hi.mono fun hb => hb.trans_le hle)
  have hle : (headImage es).length ≤ (segmentImage es).length := by
    rw [segmentImage_eq, List.append_assoc, List.length_append]
    exact Nat.le_add_right _ _
  refine wp_bind (wp_create (fun h => ?_) (herr' [] (length_headImage_le.trans hle)) hcr)
  refine wp_bind (wp_writeAll es [] hasc hes (fun h => ?_) (herr' es hle) hcr)
  refine wp_finish hes (fun h => hok _ Disk.touched_put ?_) herr hcr
  rw [Disk.read_put, if_pos rfl]

/-! ### What the writer demands -/

/-- The entries come in the order of their keys, after the last one, and have encodings. -/
def Accepts (w : SegmentWriter) (es : List Entry) : Prop :=
  Ascending es ∧ (∀ e ∈ es, (toRecord e).Valid) ∧
    ∀ k, w.lastKey = some k → ∀ e ∈ es, compare k e.1 = .lt

theorem wp_writeEntry_accepts (w : SegmentWriter) (e : Entry) (d : Disk) :
    wp A (w.writeEntry e) (fun o _ => ∀ w', o = .ok w' → (toRecord e).Valid ∧
      w'.lastKey = some e.1 ∧ ∀ k, w.lastKey = some k → compare k e.1 = .lt) d := by
  unfold writeEntry
  refine wp_bind (wp_ofExcept (fun _ hrej => ?_) fun _ _ _ h => by cases h)
  refine wp_bind (wp_ofExcept (fun b hb => ?_) fun _ _ _ h => by cases h)
  have hlast : ∀ k, w.lastKey = some k → compare k e.1 = .lt := fun k hk => by
    have hle := rejectIf_eq_ok.mp hrej
    rw [hk, Option.any_some, Ordering.isLE_iff_ne_gt, not_not] at hle
    exact Std.OrientedCmp.gt_iff_lt.mp hle
  refine FaultProg.wp.bind (wp_of_forall fun _ _ => trivial) (fun _ _ _ => ?_)
    (fun _ _ _ _ h => by cases h) fun _ _ _ h => by cases h
  refine wp_bind (wp_ofExcept (fun n _ => wp_pure ?_) fun _ _ _ h => by cases h)
  rintro w' ⟨⟩
  exact ⟨valid_of_encode hb, rfl, hlast⟩

/-- **Only entries in order are written.** -/
theorem wp_writeAll_accepts (es : List Entry) (w : SegmentWriter) (d : Disk) :
    wp A (w.writeAll es) (fun o _ => ∀ w', o = .ok w' → w.Accepts es) d := by
  induction es generalizing w d with
  | nil => exact wp_pure fun _ _ => ⟨.nil, List.forall_mem_nil _, fun _ _ => List.forall_mem_nil _⟩
  | cons e es ih =>
    refine FaultProg.wp.bind (wp_writeEntry_accepts w e d) (fun w' d' h => ?_)
      (fun _ _ _ _ h => by cases h) fun _ _ _ h => by cases h
    obtain ⟨he, hlast', hlast⟩ := h w' rfl
    refine (ih w' d').mono fun o _ hes w'' ho => ?_
    obtain ⟨hasc, hvalid, hafter⟩ := hes w'' ho
    have hgt := hafter e.1 hlast'
    refine ⟨List.pairwise_cons.mpr ⟨hgt, hasc⟩, List.forall_mem_cons.mpr ⟨he, hvalid⟩, ?_⟩
    intro k hk
    have hk' := hlast k hk
    exact List.forall_mem_cons.mpr ⟨hk', fun e' he' => Std.TransCmp.lt_trans hk' (hgt e' he')⟩

end SegmentWriter

end StoneKV
