import StoneKV.Names

/-!
# The marker of a compaction

The marker names the generation that a compaction writes and the generations that it replaces.

* `writeCompactionMarker`: writes it under a temporary name and moves it into place.
* `readCompactionMarker`: reads and checks it.
* **`parseMarker_text`**: what is written is read back; **`valid_of_parseMarker`**: what is read is
  the marker of a compaction.
* **`wp_writeCompactionMarker`**: the marker is in place, or only its temporary file is touched.
-/

namespace StoneKV

open FaultProg

structure CompactionMarker where
  outputGeneration : ℕ
  oldGenerations : List ℕ
  deriving DecidableEq, Repr

/-- The bytes of a text. -/
def utf8 (text : List Char) : Bytes := text.flatMap String.utf8EncodeChar

/-- Run `m` and drop its error. -/
def ignore (m : Io Unit) : Io Unit := do
  let _result ← m.attempt
  return ()

/-- `writeln!`. -/
def writeln (path : Path) (line : List Char) : Io Unit := Fs.writeAll path (utf8 (line ++ ['\n']))

def OUTPUT_PREFIX : List Char := "output=".toList
def OLD_PREFIX : List Char := "old=".toList

/-- The lines of the replaced generations. -/
def writeOldLines (path : Path) : List ℕ → Io Unit
  | [] => return ()
  | generation :: generations => do
    writeln path (OLD_PREFIX ++ decimal generation)
    writeOldLines path generations

/-- The closure of `write_compaction_marker`. -/
def writeMarkerFile (tempMarkerPath markerPath : Path) (outputGeneration : ℕ)
    (oldGenerations : List ℕ) : Io Unit := do
  Fs.createTruncate tempMarkerPath
  writeln tempMarkerPath COMPACTION_MARKER_MAGIC
  writeln tempMarkerPath (OUTPUT_PREFIX ++ decimal outputGeneration)
  writeOldLines tempMarkerPath oldGenerations
  Fs.touch
  Fs.touch
  Fs.rename tempMarkerPath markerPath

/-- What follows the checks in `write_compaction_marker`. -/
def installMarker (tempMarkerPath markerPath : Path) (outputGeneration : ℕ)
    (oldGenerations : List ℕ) : Io Unit := do
  let result ← (writeMarkerFile tempMarkerPath markerPath outputGeneration oldGenerations).attempt
  match result with
  | .ok () => return ()
  | .error e =>
    ignore (Fs.removeFile tempMarkerPath)
    Prog.throw e

def writeCompactionMarker (segmentsDir : Path) (outputGeneration : ℕ) (oldGenerations : List ℕ) :
    Io Unit := do
  let markerPath := segmentsDir ++ [COMPACTION_MARKER_FILE]
  let tempMarkerPath := segmentsDir ++ [COMPACTION_MARKER_TEMP_FILE]
  if ← Fs.pathExists markerPath then
    Prog.throw (.other s!"compaction marker already exists: {display markerPath}")
  if ← Fs.pathExists tempMarkerPath then Fs.removeFile tempMarkerPath
  installMarker tempMarkerPath markerPath outputGeneration oldGenerations

/-- The error of a marker that is already there. -/
def markerExists (markerPath : Path) : StoneError :=
  .other s!"compaction marker already exists: {display markerPath}"

/-! ## Reading -/

/-- The lines of a text that goes on after `line`. -/
def linesFrom (line : List Char) : List Char → List (List Char)
  | [] => if line.isEmpty then [] else [line]
  | c :: text =>
    if c = '\n' then (stripSuffix ['\r'] line).getD line :: linesFrom [] text
    else linesFrom (line ++ [c]) text

/-- The lines of a text, without their ends. -/
def lines (text : List Char) : List (List Char) := linesFrom [] text

/-- The characters that `trim` removes. -/
def isWhiteSpace (c : Char) : Bool :=
  let n := c.toNat
  (0x9 ≤ n && n ≤ 0xD) || n = 0x20 || n = 0x85 || n = 0xA0 || n = 0x1680 ||
    (0x2000 ≤ n && n ≤ 0x200A) || n = 0x2028 || n = 0x2029 || n = 0x202F || n = 0x205F || n = 0x3000

/-- The loop over the lines after the header. -/
def parseLines : List (List Char) → Option ℕ → List ℕ → Except StoneError (Option ℕ × List ℕ)
  | [], outputGeneration, oldGenerations => return (outputGeneration, oldGenerations)
  | line :: rest, outputGeneration, oldGenerations =>
    if line.all isWhiteSpace then parseLines rest outputGeneration oldGenerations
    else match stripPrefix OUTPUT_PREFIX line with
    | some value => do
      rejectIf outputGeneration.isSome
        (.other "duplicate output generation in compaction marker")
      let generation ← okOr (parseU64 value)
        (.other s!"invalid output generation in compaction marker: {String.ofList value}")
      parseLines rest (some generation) oldGenerations
    | none =>
      match stripPrefix OLD_PREFIX line with
      | some value => do
        let generation ← okOr (parseU64 value)
          (.other s!"invalid old generation in compaction marker: {String.ofList value}")
        rejectIf (generation ∈ oldGenerations)
          (.other s!"duplicate old generation {generation} in compaction marker")
        parseLines rest outputGeneration (oldGenerations ++ [generation])
      | none => .error (.other s!"unknown line in compaction marker: {String.ofList line}")

/-- What `read_compaction_marker` makes of the text of the file. -/
def parseMarker (markerPath : Path) (contents : List Char) : Except StoneError CompactionMarker := do
  let allLines := lines contents
  rejectIf (allLines.head? ≠ some COMPACTION_MARKER_MAGIC)
    (.other s!"invalid compaction marker header: {display markerPath}")
  let (output, oldGenerations) ← parseLines allLines.tail none []
  let outputGeneration ← okOr output (.other "compaction marker missing output generation")
  rejectIf (oldGenerations.length < 2)
    (.other "compaction marker must contain at least two old segments")
  rejectIf (outputGeneration ∈ oldGenerations)
    (.other "compaction output generation is also listed as an old generation")
  rejectIf (oldGenerations.any fun generation => generation ≥ outputGeneration)
    (.other "compaction output generation must be newer than every replaced generation")
  return ⟨outputGeneration, oldGenerations⟩

/-- What `read_to_string` and the parser make of the bytes of the file. -/
def parseMarkerBytes (markerPath : Path) (bytes : Bytes) : Except StoneError CompactionMarker :=
  match bytes.toByteArray.utf8Decode? with
  | none => .error (.io .invalidData)
  | some contents => parseMarker markerPath contents.toList

def readCompactionMarker (markerPath : Path) : Io CompactionMarker := do
  let bytes ← Fs.readFile markerPath
  Prog.ofExcept (parseMarkerBytes markerPath bytes)

/-! ## The text of a marker -/

/-- The text of a marker. -/
def markerText (m : CompactionMarker) : List Char :=
  (COMPACTION_MARKER_MAGIC ++ ['\n']) ++ (OUTPUT_PREFIX ++ decimal m.outputGeneration ++ ['\n']) ++
    m.oldGenerations.flatMap fun g => OLD_PREFIX ++ decimal g ++ ['\n']

/-- The generations of a marker are what a compaction replaces by what. -/
structure CompactionMarker.Valid (m : CompactionMarker) : Prop where
  output_lt : m.outputGeneration < u64Size
  two_le : 2 ≤ m.oldGenerations.length
  nodup : m.oldGenerations.Nodup
  old_lt : ∀ g ∈ m.oldGenerations, g < m.outputGeneration

section Text

variable {text line : List Char} {m : CompactionMarker} {n : ℕ}

theorem utf8_append (s t : List Char) : utf8 (s ++ t) = utf8 s ++ utf8 t := List.flatMap_append

theorem utf8Decode?_utf8 (s : List Char) : (utf8 s).toByteArray.utf8Decode? = some s.toArray :=
  List.utf8Decode?_utf8Encode

theorem linesFrom_append (h : ∀ c ∈ line, c ≠ '\n') (l : List Char) :
    linesFrom l (line ++ '\n' :: text) =
      (stripSuffix ['\r'] (l ++ line)).getD (l ++ line) :: lines text := by
  induction line generalizing l with
  | nil => simp [linesFrom, lines]
  | cons c line ih =>
    rw [List.cons_append, linesFrom, if_neg (h c List.mem_cons_self),
      ih (fun x hx => h x (List.mem_cons_of_mem _ hx))]
    simp

/-- A line without line ends in it is read back. -/
theorem lines_append (h : ∀ c ∈ line, c ≠ '\n' ∧ c ≠ '\r') :
    lines (line ++ ['\n'] ++ text) = line :: lines text := by
  have hr : stripSuffix ['\r'] line = none := by
    rcases hs : stripSuffix ['\r'] line with _ | t
    · rfl
    · rw [stripSuffix_eq_some] at hs
      exact absurd rfl (h '\r' (by simp [hs])).2
  have : linesFrom [] (line ++ '\n' :: text) = _ := linesFrom_append (fun c hc => (h c hc).1) []
  rw [List.append_assoc]
  simpa [lines, hr] using this

theorem not_lineEnd_of_isDigit {c : Char} (h : c.isDigit) : c ≠ '\n' ∧ c ≠ '\r' := by
  constructor <;> rintro rfl <;> exact absurd h (by decide)

theorem not_lineEnd_of_all {p : List Char} (h : p.all (fun c => c != '\n' && c != '\r') = true) :
    ∀ c ∈ p, c ≠ '\n' ∧ c ≠ '\r' := by
  simpa using h

theorem not_lineEnd_decimal {p : List Char} (hp : ∀ c ∈ p, c ≠ '\n' ∧ c ≠ '\r') :
    ∀ c ∈ p ++ decimal n, c ≠ '\n' ∧ c ≠ '\r' := by
  intro c hc
  rcases List.mem_append.mp hc with h | h
  · exact hp c h
  · exact not_lineEnd_of_isDigit (isDigit_decimal h)

theorem lines_old (gs : List ℕ) :
    lines (gs.flatMap fun g => OLD_PREFIX ++ decimal g ++ ['\n']) =
      gs.map fun g => OLD_PREFIX ++ decimal g := by
  induction gs with
  | nil => rfl
  | cons g gs ih =>
    rw [List.flatMap_cons, lines_append (not_lineEnd_decimal (not_lineEnd_of_all rfl)), ih,
      List.map_cons]

theorem parseLines_old : ∀ (gs olds : List ℕ), (olds ++ gs).Nodup → (∀ g ∈ gs, g < u64Size) →
    parseLines (gs.map fun g => OLD_PREFIX ++ decimal g) (some n) olds = .ok (some n, olds ++ gs)
  | [], olds, _, _ => by rw [List.append_nil]; rfl
  | g :: gs, olds, hnd, hlt => by
    have hws : ¬ (OLD_PREFIX ++ decimal g).all isWhiteSpace = true := by
      rw [List.all_append]
      simp [show OLD_PREFIX.all isWhiteSpace = false by decide]
    have hout : stripPrefix OUTPUT_PREFIX (OLD_PREFIX ++ decimal g) = none := rfl
    have hmem : g ∉ olds := fun hg =>
      (List.disjoint_of_nodup_append hnd) hg List.mem_cons_self
    rw [List.map_cons, parseLines, if_neg hws, hout, stripPrefix_append]
    dsimp only
    rw [parseU64_decimal (hlt g List.mem_cons_self), okOr_some, ok_bind, rejectIf_of_not hmem,
      ok_bind, parseLines_old gs (olds ++ [g]) (by simpa using hnd)
        fun x hx => hlt x (List.mem_cons_of_mem _ hx)]
    simp

/-- **Round trip.** A valid marker is read back from its text. -/
theorem parseMarker_text (h : m.Valid) (path : Path) : parseMarker path (markerText m) = .ok m := by
  have hlines : lines (markerText m) = COMPACTION_MARKER_MAGIC ::
      (OUTPUT_PREFIX ++ decimal m.outputGeneration) ::
        m.oldGenerations.map fun g => OLD_PREFIX ++ decimal g := by
    rw [markerText, List.append_assoc, lines_append (not_lineEnd_of_all rfl),
      lines_append (not_lineEnd_decimal (not_lineEnd_of_all rfl)), lines_old]
  have hws : ¬ (OUTPUT_PREFIX ++ decimal m.outputGeneration).all isWhiteSpace = true := by
    rw [List.all_append]
    simp [show OUTPUT_PREFIX.all isWhiteSpace = false by decide]
  have hparse : parseLines ((OUTPUT_PREFIX ++ decimal m.outputGeneration) ::
      m.oldGenerations.map fun g => OLD_PREFIX ++ decimal g) none [] =
        .ok (some m.outputGeneration, m.oldGenerations) := by
    rw [parseLines, if_neg hws, stripPrefix_append]
    dsimp only
    rw [rejectIf_of_not (by simp), ok_bind, parseU64_decimal h.output_lt, okOr_some, ok_bind,
      parseLines_old _ [] h.nodup fun g hg => (h.old_lt g hg).trans h.output_lt]
    rfl
  unfold parseMarker
  simp only [hlines, List.head?_cons, List.tail_cons]
  rw [rejectIf_of_not (not_not.mpr rfl), ok_bind, hparse, ok_bind]
  dsimp only
  rw [okOr_some, ok_bind, rejectIf_of_not (by have := h.two_le; omega), ok_bind,
    rejectIf_of_not fun hm => lt_irrefl _ (h.old_lt _ hm), ok_bind, rejectIf_of_not, ok_bind]
  · rfl
  · simp only [List.any_eq_true, decide_eq_true_eq, not_exists, not_and, not_le]
    exact fun g hg => h.old_lt g hg

theorem parseMarkerBytes_text (h : m.Valid) (path : Path) :
    parseMarkerBytes path (utf8 (markerText m)) = .ok m := by
  unfold parseMarkerBytes
  rw [utf8Decode?_utf8]
  exact parseMarker_text h path

/-- Lines that are read give 64-bit generations, the old ones without repetition. -/
theorem parseLines_eq_ok : ∀ {ls : List (List Char)} {output output' : Option ℕ}
    {olds olds' : List ℕ}, parseLines ls output olds = .ok (output', olds') →
    (∀ n ∈ output, n < u64Size) → olds.Nodup → (∀ n ∈ output', n < u64Size) ∧ olds'.Nodup
  | [], _, _, _, _, h, hout, hnd => by
    rw [parseLines] at h
    cases h
    exact ⟨hout, hnd⟩
  | line :: ls, output, output', olds, olds', h, hout, hnd => by
    rw [parseLines] at h
    split_ifs at h with hblank
    · exact parseLines_eq_ok h hout hnd
    · split at h
      · obtain ⟨_, -, h⟩ := bind_eq_ok.mp h
        obtain ⟨n, hn, h⟩ := bind_eq_ok.mp h
        refine parseLines_eq_ok h ?_ hnd
        rintro _ ⟨⟩
        exact parseU64_lt (okOr_eq_ok.mp hn)
      · split at h
        · obtain ⟨g, -, h⟩ := bind_eq_ok.mp h
          obtain ⟨_, hg, h⟩ := bind_eq_ok.mp h
          refine parseLines_eq_ok h hout ?_
          rw [rejectIf_eq_ok] at hg
          rw [List.nodup_append]
          refine ⟨hnd, List.nodup_singleton g, fun a ha b hb hab => hg ?_⟩
          rwa [hab, List.mem_singleton.mp hb] at ha
        · cases h

/-- **Checks.** What is read is the marker of a compaction. -/
theorem valid_of_parseMarker {path : Path} (h : parseMarker path text = .ok m) : m.Valid := by
  unfold parseMarker at h
  obtain ⟨_, -, h⟩ := bind_eq_ok.mp h
  obtain ⟨⟨output, olds⟩, hlines, h⟩ := bind_eq_ok.mp h
  obtain ⟨out, hout, h⟩ := bind_eq_ok.mp h
  obtain ⟨_, htwo, h⟩ := bind_eq_ok.mp h
  obtain ⟨_, -, h⟩ := bind_eq_ok.mp h
  obtain ⟨_, hold, h⟩ := bind_eq_ok.mp h
  cases h
  rw [rejectIf_eq_ok] at htwo hold
  have hparts := parseLines_eq_ok hlines nofun List.nodup_nil
  refine ⟨hparts.1 out (okOr_eq_ok.mp hout), Nat.le_of_not_lt htwo, hparts.2, fun g hg => ?_⟩
  by_contra hlt
  exact hold (List.any_eq_true.mpr ⟨g, hg, decide_eq_true (Nat.le_of_not_lt hlt)⟩)

theorem valid_of_parseMarkerBytes {path : Path} {b : Bytes}
    (h : parseMarkerBytes path b = .ok m) : m.Valid := by
  unfold parseMarkerBytes at h
  split at h
  · cases h
  · exact valid_of_parseMarker h

end Text

/-! ## Writing the marker -/

section Write

variable {A : Fault → Prop} {d : Disk} {dir : Path} {p : Path}

theorem wp_ignore {m : Io Unit} {Q : Outcome StoneError Unit → Disk → Prop}
    (h : wp A m (fun o d => match o with
      | .crash => Q .crash d
      | _ => Q (.ok ()) d) d) : wp A (ignore m) Q d := by
  refine wp_bind (wp_attempt (h.mono ?_))
  rintro (_ | _ | _) d' hd'
  · exact wp_pure hd'
  · exact wp_pure hd'
  · exact hd'

/-- A removal whose result is dropped. -/
theorem wp_ignore_removeFile {Q : Outcome StoneError Unit → Disk → Prop}
    (hok : (d.read p).isSome → Q (.ok ()) (d.erase p)) (hnone : d.read p = none → Q (.ok ()) d)
    (hfail : CanFail A → Q (.ok ()) d) (hcr : Q .crash d) :
    wp A (ignore (Fs.removeFile p)) Q d :=
  wp_ignore (Fs.wp_removeFile hok hnone (fun n hn => hfail ⟨n, hn⟩) fun _ _ => hcr)

theorem wp_writeOldLines {Q : Outcome StoneError Unit → Disk → Prop} :
    ∀ (gs : List ℕ) (a : List Char) {h : (utf8 a).length ≤ maxFileLen},
    (∀ h, Q (.ok ()) (d.put p (utf8 (a ++ gs.flatMap fun g => OLD_PREFIX ++ decimal g ++ ['\n'])) h)) →
    (∀ i, Fs.MayFail A (maxFileLen <
        (utf8 (a ++ gs.flatMap fun g => OLD_PREFIX ++ decimal g ++ ['\n'])).length) i →
      ∀ d', d.Touched p d' → Q (.err (.io i)) d') →
    (∀ d', d.Touched p d' → Q .crash d') →
    wp A (writeOldLines p gs) Q (d.put p (utf8 a) h)
  | [], a, h, hok, _, _ => by
    simp only [List.flatMap_nil, List.append_nil] at hok
    exact wp_pure (hok h)
  | g :: gs, a, h, hok, herr, hcr => by
    have hcat : a ++ ((g :: gs).flatMap fun g => OLD_PREFIX ++ decimal g ++ ['\n']) =
        a ++ (OLD_PREFIX ++ decimal g ++ ['\n']) ++
          gs.flatMap fun g => OLD_PREFIX ++ decimal g ++ ['\n'] := by
      rw [List.flatMap_cons, ← List.append_assoc]
    rw [hcat] at hok herr
    refine wp_bind (Fs.wp_writeAll_put (fun h' => ?_) (fun i hi => herr i (hi.mono fun hb => ?_))
      hcr)
    · simp only [← utf8_append] at h' ⊢
      exact wp_writeOldLines gs _ hok herr hcr
    · rw [← utf8_append] at hb
      rw [utf8_append, List.length_append]
      omega

/-- `d'` is `d` with the text of `m` as its marker, but for the temporary file. -/
def Marked (d : Disk) (temp marker : Path) (m : CompactionMarker) (d' : Disk) : Prop :=
  ∀ q ≠ temp, d'.read q = if q = marker then some (utf8 (markerText m)) else d.read q

variable {temp marker : Path} {m : CompactionMarker} {Q : Outcome StoneError Unit → Disk → Prop}

theorem wp_writeMarkerFile (hok : ∀ d', Marked d temp marker m d' → Q (.ok ()) d')
    (herr : ∀ i, Fs.MayFail A (maxFileLen < (utf8 (markerText m)).length) i →
      ∀ d', d.Touched temp d' → Q (.err (.io i)) d')
    (hcr : ∀ d', d.Touched temp d' → Q .crash d') :
    wp A (writeMarkerFile temp marker m.outputGeneration m.oldGenerations) Q d := by
  refine wp_bind (Fs.wp_createTruncate ?_ (fun _ hf => herr _ (Fs.mayFail_of hf) _ Disk.touched_self)
    fun _ _ => hcr _ Disk.touched_self)
  change wp A _ Q (d.put temp (utf8 []) _)
  have htext : utf8 (markerText m) = utf8 [] ++ utf8 (COMPACTION_MARKER_MAGIC ++ ['\n']) ++
      utf8 (OUTPUT_PREFIX ++ decimal m.outputGeneration ++ ['\n']) ++
        utf8 (m.oldGenerations.flatMap fun g => OLD_PREFIX ++ decimal g ++ ['\n']) := by
    rw [markerText, utf8_append, utf8_append]
    rfl
  refine wp_bind (Fs.wp_writeAll_put (fun h => ?_) (fun i hi => herr i (hi.mono fun hb => ?_)) hcr)
  swap
  · rw [htext, List.length_append, List.length_append]
    omega
  refine wp_bind (Fs.wp_writeAll_put (fun h => ?_) (fun i hi => herr i (hi.mono fun hb => ?_)) hcr)
  swap
  · rw [htext, List.length_append]
    omega
  simp only [← utf8_append] at h ⊢
  refine wp_bind (wp_writeOldLines _ _ (fun h => ?_) herr hcr)
  refine wp_bind (Fs.wp_touch ?_ (fun _ hf => herr _ (Fs.mayFail_of hf) _ Disk.touched_put)
    fun _ _ => hcr _ Disk.touched_put)
  refine wp_bind (Fs.wp_touch ?_ (fun _ hf => herr _ (Fs.mayFail_of hf) _ Disk.touched_put)
    fun _ _ => hcr _ Disk.touched_put)
  refine Fs.wp_rename (fun b hb => hok _ fun q hq => ?_)
    (fun h => by rw [Disk.read_put, if_pos rfl] at h; cases h)
    (fun _ hf => herr _ (Fs.mayFail_of hf) _ Disk.touched_put) fun _ _ => hcr _ Disk.touched_put
  rw [Disk.read_put, if_pos rfl] at hb
  cases hb
  rw [Disk.read_put, Disk.read_erase, if_neg hq, Disk.read_put, if_neg hq]
  rfl

theorem wp_installMarker (hok : ∀ d', Marked d temp marker m d' → Q (.ok ()) d')
    (herr : ∀ i, Fs.MayFail A (maxFileLen < (utf8 (markerText m)).length) i →
      ∀ d', d.Touched temp d' → Q (.err (.io i)) d')
    (hcr : ∀ d', d.Touched temp d' → Q .crash d') :
    wp A (installMarker temp marker m.outputGeneration m.oldGenerations) Q d := by
  refine wp_bind (wp_attempt (wp_writeMarkerFile (fun d' h => wp_pure (hok d' h))
    (fun i hi d' h => ?_) hcr))
  refine wp_bind (wp_ignore_removeFile (fun _ => ?_) (fun _ => ?_) (fun _ => ?_) (hcr _ h))
  · exact wp_throw (herr _ hi _ (h.trans Disk.touched_erase))
  · exact wp_throw (herr _ hi _ h)
  · exact wp_throw (herr _ hi _ h)

/-- **Writing the marker.** There was one and nothing happens; or it is moved into place; or only
the temporary file is touched. -/
theorem wp_writeCompactionMarker (hmarker : marker = dir ++ [COMPACTION_MARKER_FILE])
    (htemp : temp = dir ++ [COMPACTION_MARKER_TEMP_FILE])
    (hold : (d.read marker).isSome → Q (.err (markerExists marker)) d)
    (hok : d.read marker = none ∨ A .deny → ∀ d', Marked d temp marker m d' → Q (.ok ()) d')
    (herr : d.read marker = none ∨ A .deny →
      ∀ i, Fs.MayFail A (maxFileLen < (utf8 (markerText m)).length) i →
      ∀ d', d.Touched temp d' → Q (.err (.io i)) d')
    (hcr : ∀ d', d.Touched temp d' → Q .crash d') :
    wp A (writeCompactionMarker dir m.outputGeneration m.oldGenerations) Q d := by
  subst hmarker htemp
  have hinstall : d.read (dir ++ [COMPACTION_MARKER_FILE]) = none ∨ A .deny →
      ∀ d', d.Touched (dir ++ [COMPACTION_MARKER_TEMP_FILE]) d' →
      wp A (installMarker (dir ++ [COMPACTION_MARKER_TEMP_FILE]) (dir ++ [COMPACTION_MARKER_FILE])
        m.outputGeneration m.oldGenerations) Q d' := fun hA d' ht =>
    wp_installMarker (fun d'' h => hok hA d'' fun q hq => by rw [h q hq, ht q hq])
      (fun i hi d'' h => herr hA i hi d'' (ht.trans h)) fun d'' h => hcr d'' (ht.trans h)
  have hrest : d.read (dir ++ [COMPACTION_MARKER_FILE]) = none ∨ A .deny → wp A (do
      if ← Fs.pathExists (dir ++ [COMPACTION_MARKER_TEMP_FILE]) then
        Fs.removeFile (dir ++ [COMPACTION_MARKER_TEMP_FILE])
      installMarker (dir ++ [COMPACTION_MARKER_TEMP_FILE]) (dir ++ [COMPACTION_MARKER_FILE])
        m.outputGeneration m.oldGenerations) Q d := by
    intro hA
    refine wp_bind (Fs.wp_pathExists ?_ (fun _ => hinstall hA d Disk.touched_self)
      fun _ _ => hcr _ Disk.touched_self)
    dsimp only [Outcome.andThen]
    split_ifs with hex
    · exact wp_bind (Fs.wp_removeFile (fun _ => hinstall hA _ Disk.touched_erase)
        (fun h => by rw [h] at hex; cases hex)
        (fun _ hf => herr hA _ (Fs.mayFail_of hf) _ Disk.touched_self) fun _ _ => hcr _ Disk.touched_self)
    · exact hinstall hA d Disk.touched_self
  unfold writeCompactionMarker
  refine wp_bind (Fs.wp_pathExists ?_ (fun hn => hrest (.inr hn))
    fun _ _ => hcr _ Disk.touched_self)
  dsimp only [Outcome.andThen]
  split_ifs with hex
  · exact wp_bind (wp_throw (hold hex))
  · exact hrest (.inl (Option.not_isSome_iff_eq_none.mp hex))

end Write

end StoneKV
