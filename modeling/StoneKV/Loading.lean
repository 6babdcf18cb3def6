import StoneKV.Directory

/-!
# Loading the segments

* `Discovered d dir xs`: `xs` are the segments in the directory `dir`, the newest first.
* `Loadable d dir`: nothing in `dir` keeps the segments from being loaded.
* **`wp_loadSegments`**: they are opened, or something does, or a call fails.
-/

namespace StoneKV

open FaultProg

/-! ## The files -/

section Discover

variable {dir : Path} {names : List Name} {n : Name} {g : ℕ} {p : Path} {xs : List (ℕ × Path)}

/-- The segment of a file name. -/
def segmentOf (dir : Path) (n : Name) : Option (ℕ × Path) :=
  (parseSegmentGeneration n).map fun g => (g, dir ++ [n])

theorem segmentOf_eq_some : segmentOf dir n = some (g, p) ↔
    parseSegmentGeneration n = some g ∧ p = dir ++ [n] := by
  unfold segmentOf
  rw [Option.map_eq_some_iff]
  constructor
  · rintro ⟨g', h, heq⟩
    cases heq
    exact ⟨h, rfl⟩
  · rintro ⟨h, rfl⟩
    exact ⟨g, h, rfl⟩

/-- The name starts and ends like the name of a segment. -/
def LooksLikeSegment (n : Name) : Prop :=
  (SEGMENT_PREFIX.isPrefixOf n && SEGMENT_SUFFIX.isSuffixOf n) = true

theorem looksLikeSegment_of_parse (h : parseSegmentGeneration n = some g) : LooksLikeSegment n := by
  obtain ⟨ds, -, rfl, -⟩ := parse_eq_some h
  rw [LooksLikeSegment, Bool.and_eq_true, List.isPrefixOf_iff_prefix, List.isSuffixOf_iff_suffix]
  exact ⟨⟨ds ++ SEGMENT_SUFFIX, by rw [List.append_assoc]⟩, List.suffix_append _ _⟩

/-- A name that looks like one of a segment has a generation, or the search fails. -/
theorem discover_eq : (∀ n ∈ names, LooksLikeSegment n → (parseSegmentGeneration n).isSome) →
    discover dir names = .ok (names.filterMap (segmentOf dir)) := by
  induction names with
  | nil => exact fun _ => rfl
  | cons n names ih =>
    intro h
    have hrest := ih fun x hx => h x (List.mem_cons_of_mem _ hx)
    rw [discover, List.filterMap_cons]
    split_ifs with hn
    · obtain ⟨g, hg⟩ := Option.isSome_iff_exists.mp (h n List.mem_cons_self hn)
      dsimp only
      rw [hg, okOr_some, ok_bind, hrest, segmentOf, hg]
      rfl
    · have hnone : parseSegmentGeneration n = none := by
        rcases hp : parseSegmentGeneration n with _ | g
        · rfl
        · exact absurd (looksLikeSegment_of_parse hp) hn
      rw [hrest, segmentOf, hnone]
      rfl

theorem discover_eq_error {e : StoneError} (h : discover dir names = .error e) :
    ∃ n ∈ names, LooksLikeSegment n ∧ parseSegmentGeneration n = none := by
  by_contra hall
  simp only [not_exists, not_and] at hall
  rw [discover_eq fun n hn hl => Option.isSome_iff_ne_none.mpr (hall n hn hl)] at h
  cases h

/-- What is found is what the names say. -/
theorem discover_eq_ok : ∀ {names : List Name} {xs : List (ℕ × Path)},
    discover dir names = .ok xs → xs = names.filterMap (segmentOf dir)
  | [], xs, h => by
    cases h
    rfl
  | n :: names, xs, h => by
    rw [discover] at h
    rw [List.filterMap_cons]
    split_ifs at h with hn
    · simp only [bind_eq_ok, okOr_eq_ok] at h
      obtain ⟨g, hg, ys, hys, hret⟩ := h
      cases hret
      rw [segmentOf, hg, discover_eq_ok hys]
      rfl
    · have hnone : parseSegmentGeneration n = none := by
        rcases hp : parseSegmentGeneration n with _ | g
        · rfl
        · exact absurd (looksLikeSegment_of_parse hp) hn
      rw [segmentOf, hnone, discover_eq_ok h]
      rfl

/-! ## Their order -/

theorem pairwise_of_duplicate_none : ∀ {xs : List (ℕ × Path)},
    xs.Pairwise (fun a b => b.1 ≤ a.1) → duplicateGeneration xs = none →
    xs.Pairwise fun a b => b.1 < a.1
  | [], _, _ => .nil
  | [_], _, _ => List.pairwise_singleton _ _
  | a :: b :: xs, h, hd => by
    rw [duplicateGeneration] at hd
    split_ifs at hd with hab
    have htail := pairwise_of_duplicate_none h.tail hd
    have hlt : b.1 < a.1 := by
      have := (List.pairwise_cons.mp h).1 b List.mem_cons_self
      omega
    refine List.pairwise_cons.mpr ⟨?_, htail⟩
    rintro x (_ | ⟨_, hx⟩)
    · exact hlt
    · exact ((List.pairwise_cons.mp htail).1 x hx).trans hlt

theorem duplicate_none_of_nodup : ∀ {xs : List (ℕ × Path)}, (xs.map Prod.fst).Nodup →
    duplicateGeneration xs = none
  | [], _ => rfl
  | [_], _ => rfl
  | a :: b :: xs, h => by
    rw [List.map_cons, List.nodup_cons] at h
    rw [duplicateGeneration, if_neg fun hab => h.1 (by simp [hab])]
    exact duplicate_none_of_nodup h.2

end Discover

/-! ## Opening them -/

/-- The segments in `dir` are `xs`, the newest first. -/
structure Discovered (d : Disk) (dir : Path) (xs : List (ℕ × Path)) : Prop where
  decreasing : xs.Pairwise fun a b => b.1 < a.1
  mem : ∀ g p, (g, p) ∈ xs ↔
    ∃ n, (d.read (dir ++ [n])).isSome ∧ parseSegmentGeneration n = some g ∧ p = dir ++ [n]

/-- The reader of a discovered segment. -/
def Opens (d : Disk) (x : ℕ × Path) (r : SegmentReader) : Prop :=
  ∃ b, d.read x.2 = some b ∧ SegmentReader.openIn x.2 x.1 b = .ok r

/-- Every file in `dir` that looks like a segment is one of its own generation, and opens. -/
structure Loadable (d : Disk) (dir : Path) : Prop where
  parse : ∀ n, (d.read (dir ++ [n])).isSome → LooksLikeSegment n →
    (parseSegmentGeneration n).isSome
  unique : ∀ n n' g, (d.read (dir ++ [n])).isSome → (d.read (dir ++ [n'])).isSome →
    parseSegmentGeneration n = some g → parseSegmentGeneration n' = some g → n = n'
  below : ∀ n g, (d.read (dir ++ [n])).isSome → parseSegmentGeneration n = some g →
    g + 1 < u64Size
  opens : ∀ n g b, d.read (dir ++ [n]) = some b → parseSegmentGeneration n = some g →
    ∃ r, SegmentReader.openIn (dir ++ [n]) g b = .ok r

section Load

variable {A : Fault → Prop} {d : Disk} {dir : Path}

theorem wp_openSegments {Q : Outcome StoneError (List SegmentReader) → Disk → Prop} :
    ∀ (xs : List (ℕ × Path)), (∀ rs, List.Forall₂ (Opens d) xs rs → Q (.ok rs) d) →
    (∀ e, (∃ x ∈ xs, ∀ r, ¬ Opens d x r) ∨ CanFail A → Q (.err e) d) → Q .crash d →
    wp A (openSegments xs) Q d
  | [], hok, _, _ => wp_pure (hok [] .nil)
  | (g, p) :: xs, hok, herr, hcr => by
    have hbad : ∀ e, (∀ r, ¬ Opens d (g, p) r) → Q (.err e) d := fun e h =>
      herr e (.inl ⟨_, List.mem_cons_self, h⟩)
    refine wp_bind (SegmentReader.wp_open (fun b r hb hr => ?_) (fun b e hb he => ?_) (fun hn => ?_)
      (fun n hn => herr _ (.inr ⟨n, hn⟩)) hcr)
    · refine wp_bind (wp_openSegments xs (fun rs hrs => wp_pure (hok _ (.cons ⟨b, hb, hr⟩ hrs)))
        (fun e he => herr e (he.imp_left ?_)) hcr)
      rintro ⟨x, hx, h⟩
      exact ⟨x, List.mem_cons_of_mem _ hx, h⟩
    · refine hbad e ?_
      rintro r ⟨b', hb', hr⟩
      rw [hb] at hb'
      cases hb'
      rw [he] at hr
      cases hr
    · refine hbad _ ?_
      rintro r ⟨b, hb, -⟩
      rw [hn] at hb
      cases hb

theorem mem_discovered {names : List Name} (hnames : names = d.list dir) {g : ℕ} {p : Path} :
    (g, p) ∈ (names.filterMap (segmentOf dir)).insertionSort (fun a b => b.1 ≤ a.1) ↔
      ∃ n, (d.read (dir ++ [n])).isSome ∧ parseSegmentGeneration n = some g ∧ p = dir ++ [n] := by
  rw [List.mem_insertionSort, List.mem_filterMap, hnames]
  simp only [Disk.mem_list, segmentOf_eq_some]

theorem Loadable.nodup (h : Loadable d dir) :
    (((d.list dir).filterMap (segmentOf dir)).map Prod.fst).Nodup := by
  rw [List.Nodup, List.pairwise_map, List.pairwise_filterMap]
  refine Disk.nodup_list.imp_of_mem ?_
  rintro n n' hn hn' hne ⟨g, p⟩ hgp ⟨g', p'⟩ hgp' heq
  obtain rfl : g = g' := heq
  exact hne (h.unique n n' g (Disk.mem_list.mp hn) (Disk.mem_list.mp hn')
    (segmentOf_eq_some.mp hgp).1 (segmentOf_eq_some.mp hgp').1)

/-- **Loading.** -/
theorem wp_loadSegments {Q : Outcome StoneError (List SegmentReader × ℕ) → Disk → Prop}
    (hok : ∀ xs rs next, Discovered d dir xs → List.Forall₂ (Opens d) xs rs →
      nextGeneration xs = .ok next → Q (.ok (rs, next)) d)
    (herr : ∀ e, ¬ Loadable d dir ∨ CanFail A → Q (.err e) d) (hcr : Q .crash d) :
    wp A (loadSegments dir) Q d := by
  refine wp_bind (Fs.wp_readDir ?_ (fun n hn => herr _ (.inr ⟨n, hn⟩)) fun _ _ => hcr)
  refine wp_bind (wp_ofExcept (fun found hfound => ?_) fun e he => herr e (.inl fun h => ?_))
  · obtain rfl := discover_eq_ok hfound
    generalize hxs : ((d.list dir).filterMap (segmentOf dir)).insertionSort
      (fun a b => b.1 ≤ a.1) = xs
    have hmem : ∀ g p, (g, p) ∈ xs ↔
        ∃ n, (d.read (dir ++ [n])).isSome ∧ parseSegmentGeneration n = some g ∧ p = dir ++ [n] :=
      fun g p => hxs ▸ mem_discovered rfl
    have hsorted : xs.Pairwise fun a b => b.1 ≤ a.1 := hxs ▸ List.pairwise_insertionSort _ _
    have hperm : xs.Perm ((d.list dir).filterMap (segmentOf dir)) := hxs ▸ List.perm_insertionSort _ _
    dsimp only [Outcome.andThen]
    rw [hxs]
    rcases hdup : duplicateGeneration xs with _ | g
    · have hdisc : Discovered d dir xs := ⟨pairwise_of_duplicate_none hsorted hdup, hmem⟩
      refine wp_bind (wp_ofExcept (fun next hnext => ?_) fun e he => herr e (.inl fun h => ?_))
      · refine wp_bind (wp_openSegments xs (fun rs hrs => wp_pure (hok xs rs next hdisc hrs hnext))
          (fun e he => herr e (he.imp_left ?_)) hcr)
        rintro ⟨⟨g, p⟩, hx, hnone⟩ h
        obtain ⟨n, hn, hg, rfl⟩ := (hmem g p).mp hx
        obtain ⟨b, hb⟩ := Option.isSome_iff_exists.mp hn
        obtain ⟨r, hr⟩ := h.opens n g b hb hg
        exact hnone r ⟨b, hb, hr⟩
      · unfold nextGeneration at he
        rcases xs with _ | ⟨⟨g, p⟩, xs⟩
        · cases he
        · obtain ⟨n, hn, hg, -⟩ := (hmem g p).mp List.mem_cons_self
          have hlt := h.below n g hn hg
          simp only [List.head?_cons, checkedAdd_of_lt hlt, okOr_some] at he
          cases he
    · refine wp_throw (herr _ (.inl fun h => ?_))
      rw [duplicate_none_of_nodup ((hperm.map Prod.fst).nodup_iff.mpr h.nodup)] at hdup
      cases hdup
  · obtain ⟨n, hn, hl, hp⟩ := discover_eq_error he
    have := h.parse n (Disk.mem_list.mp hn) hl
    rw [hp] at this
    cases this

end Load

end StoneKV
