import GoExcerpt.Config
import GoExcerpt.Proofs.Toml.Documents
import GoExcerpt.Proofs.WrittenFiles

/-!
# `Proofs.SavedSettings` — settings are loaded as they were saved

The text of settings is a document of three sections (`render_eq_ok`), so it is read back as the table of
these sections, and each section gives its settings back, the optional text included (`parse_render`). Files
being read from where they were written, settings are loaded as they were saved (`load_save`), apart from
numbers that cannot be written and a size limit of zero, which is not taken back.
-/

namespace GoExcerpt.Config

open Toml (Value Line Section BareKey)

/-! ## Lines -/

def numberLine (key : String) (bare : BareKey key) (n : Nat) (h : n ≤ maxNumber) : Line :=
  ⟨key, Toml.writeNat n, .integer n, bare, Toml.written_writeNat h⟩

def flagLine (key : String) (bare : BareKey key) (b : Bool) : Line :=
  ⟨key, Toml.writeBool b, .boolean b, bare, Toml.written_writeBool b⟩

def textLine (key : String) (bare : BareKey key) (s : String) : Line :=
  ⟨key, Toml.writeString s.toList, .string s, bare, Toml.written_writeString s⟩

def textsLine (key : String) (bare : BareKey key) (items : List String) : Line :=
  ⟨key, Toml.writeStrings (items.map String.toList), .array (items.map .string), bare,
    Toml.written_writeStrings items⟩

/-! ## Sections -/

def traversalSection (t : Traversal) (hdepth : t.depth ≤ maxNumber)
    (hexcluded : t.excludeRootDepth ≤ maxNumber) : Section where
  name := "traversal"
  lines := [numberLine "depth" (by decide) t.depth hdepth,
    numberLine "exclude_root_depth" (by decide) t.excludeRootDepth hexcluded]
  bare := by decide
  distinct := by
    show ["depth", "exclude_root_depth"].Nodup
    decide

def outputSection (o : Output) : Section where
  name := "output"
  lines := [flagLine "code_only" (by decide) o.codeOnly, flagLine "exclude_root" (by decide) o.excludeRoot]
    ++ o.fenceInfo.toList.map (textLine "fence_info" (by decide))
    ++ [flagLine "qualified_headers" (by decide) o.qualifiedHeaders]
  bare := by decide
  distinct := by
    cases o.fenceInfo with
    | none =>
        show ["code_only", "exclude_root", "qualified_headers"].Nodup
        decide
    | some info =>
        show ["code_only", "exclude_root", "fence_info", "qualified_headers"].Nodup
        decide

def loadingSection (l : Loading) (hsize : l.maxFileSize ≤ maxNumber) : Section where
  name := "loading"
  lines := [flagLine "include_tests" (by decide) l.includeTests,
    textsLine "ignore_patterns" (by decide) l.ignorePatterns,
    numberLine "max_file_size" (by decide) l.maxFileSize hsize,
    flagLine "enter_module_dir" (by decide) l.enterModuleDir]
  bare := by decide
  distinct := by
    show ["include_tests", "ignore_patterns", "max_file_size", "enter_module_dir"].Nodup
    decide

variable {t : Traversal} {o : Output} {l : Loading}

theorem renderTraversal_eq (hdepth : t.depth ≤ maxNumber) (hexcluded : t.excludeRootDepth ≤ maxNumber) :
    renderTraversal t = (traversalSection t hdepth hexcluded).text := by
  simp [renderTraversal, Section.text, traversalSection, numberLine]

theorem renderOutput_eq (o : Output) : renderOutput o = (outputSection o).text := by
  obtain ⟨codeOnly, excludeRoot, fenceInfo, qualifiedHeaders⟩ := o
  cases fenceInfo with
  | none => simp [renderOutput, Section.text, outputSection, flagLine]
  | some info => simp [renderOutput, Section.text, outputSection, flagLine, textLine]

theorem renderLoading_eq (hsize : l.maxFileSize ≤ maxNumber) :
    renderLoading l = (loadingSection l hsize).text := by
  simp [renderLoading, Section.text, loadingSection, flagLine, textsLine, numberLine]

/-! ## Settings from sections -/

theorem natOf_natCast (n : Nat) : natOf (.integer n) = some n := by
  show (if (n : Int) < 0 then none else some (n : Int).toNat) = some n
  rw [if_neg (by omega), Int.toNat_natCast]

theorem stringsOf_map (items : List String) : stringsOf (.array (items.map .string)) = some items := by
  show (items.map Value.string).mapM stringOf = some items
  induction items with
  | nil => rfl
  | cons item items ih =>
      rw [List.map_cons, List.mapM_cons, ih]
      rfl

theorem traversalOf_section (hdepth : t.depth ≤ maxNumber) (hexcluded : t.excludeRootDepth ≤ maxNumber) :
    traversalOf (.table .header (traversalSection t hdepth hexcluded).entries) = some t := by
  show (natOf (.integer t.depth)).bind (fun depth => (natOf (.integer t.excludeRootDepth)).bind
    fun excludeRootDepth => some { depth, excludeRootDepth }) = some t
  rw [natOf_natCast, natOf_natCast]
  rfl

theorem outputOf_section (o : Output) : outputOf (.table .header (outputSection o).entries) = some o := by
  obtain ⟨codeOnly, excludeRoot, fenceInfo, qualifiedHeaders⟩ := o
  cases fenceInfo with
  | none => rfl
  | some info => rfl

theorem loadingOf_section (hsize : l.maxFileSize ≤ maxNumber) :
    loadingOf (.table .header (loadingSection l hsize).entries) = some l := by
  show (stringsOf (.array (l.ignorePatterns.map .string))).bind (fun ignorePatterns =>
    (natOf (.integer l.maxFileSize)).bind fun maxFileSize =>
      some { l with ignorePatterns, maxFileSize }) = some l
  rw [stringsOf_map, natOf_natCast]
  rfl

/-! ## The whole file -/

variable {c : Config}

/-- Whether all numbers of the settings can be written. -/
def InRange (c : Config) : Prop :=
  c.traversal.depth ≤ Nat.pow 2 63 - 1 ∧ c.traversal.excludeRootDepth ≤ Nat.pow 2 63 - 1 ∧
    c.loading.maxFileSize ≤ Nat.pow 2 63 - 1

instance (c : Config) : Decidable c.InRange := inferInstanceAs (Decidable (_ ∧ _ ∧ _))

theorem isWritable_iff : c.isWritable = true ↔ c.InRange := by
  simp only [isWritable, Bool.and_eq_true, decide_eq_true_eq, and_assoc]
  exact Iff.rfl

/-- The sections of settings whose numbers can be written. -/
def sections (c : Config) (h : c.InRange) : List Section :=
  [traversalSection c.traversal (show _ ≤ maxNumber from h.1) (show _ ≤ maxNumber from h.2.1),
    outputSection c.output, loadingSection c.loading (show _ ≤ maxNumber from h.2.2)]

theorem render_eq_ok (h : c.InRange) : c.render = .ok (String.ofList (Toml.sectionsText (c.sections h))) := by
  have hdepth : c.traversal.depth ≤ maxNumber := h.1
  have hexcluded : c.traversal.excludeRootDepth ≤ maxNumber := h.2.1
  have hsize : c.loading.maxFileSize ≤ maxNumber := h.2.2
  unfold render
  rw [if_pos (isWritable_iff.mpr h), renderTraversal_eq hdepth hexcluded, renderOutput_eq,
    renderLoading_eq hsize]
  simp [Toml.sectionsText, sections]

theorem ofDocument_sections (h : c.InRange) :
    ofDocument (.table .header (Toml.tablesOf (c.sections h))) = some c := by
  have hdepth : c.traversal.depth ≤ maxNumber := h.1
  have hexcluded : c.traversal.excludeRootDepth ≤ maxNumber := h.2.1
  have hsize : c.loading.maxFileSize ≤ maxNumber := h.2.2
  show (traversalOf (.table .header (traversalSection c.traversal hdepth hexcluded).entries)).bind
    (fun traversal => (outputOf (.table .header (outputSection c.output).entries)).bind fun output =>
      (loadingOf (.table .header (loadingSection c.loading hsize).entries)).bind fun loading =>
        some { traversal, output, loading }) = some c
  rw [traversalOf_section, outputOf_section, loadingOf_section]
  rfl

/-- **The text of settings is read as these settings.** -/
theorem parse_render (h : c.InRange) : ∃ text, c.render = .ok text ∧ parse text = c.validate := by
  have hnames : ((c.sections h).map Section.name).Nodup := by
    show ["traversal", "output", "loading"].Nodup
    decide
  refine ⟨_, render_eq_ok h, ?_⟩
  unfold parse
  rw [Toml.read_sections _ hnames, Option.bind_some, ofDocument_sections h]

/-- Settings whose numbers can be written are saved wherever a file can be, and are read from there. -/
theorem parse_of_save (h : c.InRange) {fs : FileSystem} {path : String} (hpath : fs.CanWrite path) :
    ∃ after, c.save fs path = .ok after ∧ load after path = c.validate.mapError Fault.config := by
  obtain ⟨text, hrender, hparse⟩ := parse_render h
  obtain ⟨after, hafter⟩ := hpath.exists_writeText text
  refine ⟨after, ?_, ?_⟩
  · unfold save
    rw [hrender]
    show (fs.writeText path text).mapError Fault.os = _
    rw [hafter]
    rfl
  · unfold load
    rw [FileSystem.readText_of_writeText hafter]
    show (parse text).mapError Fault.config = _
    rw [hparse]

/-- The files after settings have been saved, or could not be. -/
def filesAfterSave (c : Config) (fs : FileSystem) (path : String) : FileSystem :=
  match c.save fs path with
  | .ok after => after
  | .error _ => fs

/-- **Settings are loaded as they were saved.** A number of more than 63 bits is refused before anything is
written, and a size limit of zero is written but not taken back. -/
theorem load_save (c : Config) (fs : FileSystem) (path : String) :
    (c.InRange → 0 < c.loading.maxFileSize → fs.CanWrite path →
      ∃ after, c.save fs path = .ok after ∧ load after path = .ok c) ∧
    (¬ c.InRange → c.save fs path = .error (.config .unwritable) ∧ c.filesAfterSave fs path = fs) ∧
    (c.InRange → c.loading.maxFileSize = 0 → fs.CanWrite path →
      ∃ after, c.save fs path = .ok after ∧ load after path = .error (.config .zeroFileSize)) := by
  refine ⟨fun h hsize hpath => ?_, fun h => ?_, fun h hsize hpath => ?_⟩
  · obtain ⟨after, hsave, hload⟩ := parse_of_save h hpath
    have hvalid : c.validate = .ok c := if_neg (by omega)
    exact ⟨after, hsave, by rw [hload, hvalid]; rfl⟩
  · have hrender : c.render = .error .unwritable := if_neg fun hwritable => h (isWritable_iff.mp hwritable)
    have hsave : c.save fs path = .error (.config .unwritable) := by
      unfold save
      rw [hrender]
      rfl
    refine ⟨hsave, ?_⟩
    unfold filesAfterSave
    rw [hsave]
  · obtain ⟨after, hsave, hload⟩ := parse_of_save h hpath
    have hvalid : c.validate = .error .zeroFileSize := if_pos hsize
    exact ⟨after, hsave, by rw [hload, hvalid]; rfl⟩

/-- Settings with texts that need every form a string can be written in, and the largest number. -/
def quoted : Config where
  traversal := { depth := Nat.pow 2 63 - 1 }
  output := { fenceInfo := some "go \"\"\"\n'''\u0001", qualifiedHeaders := true }
  loading :=
    { ignorePatterns := ["plain", "a \"b\"", "it's \"c\"", "\n'\"\"'", "d\\'''\t\n", "\u007F", "", "𝄞"] }

theorem canWrite_empty : FileSystem.CanWrite ⟨.dir [], []⟩ "callslice.toml" := by
  have hok : (FileSystem.writeText ⟨.dir [], []⟩ "callslice.toml" "").toBool = true := by decide +kernel
  cases hwrite : FileSystem.writeText ⟨.dir [], []⟩ "callslice.toml" "" with
  | error e =>
      rw [hwrite] at hok
      cases hok
  | ok after => exact ⟨"", after, hwrite⟩

theorem load_save_quoted :
    (∃ after, quoted.save ⟨.dir [], []⟩ "callslice.toml" = .ok after ∧
      load after "callslice.toml" = .ok quoted) ∧
    save { traversal := { depth := Nat.pow 2 63 } } ⟨.dir [], []⟩ "callslice.toml" = .error (.config .unwritable) ∧
    (∃ after, save { loading := { maxFileSize := 0 } } ⟨.dir [], []⟩ "callslice.toml" = .ok after ∧
      load after "callslice.toml" = .error (.config .zeroFileSize)) := by
  refine ⟨(load_save quoted _ _).1 ?_ ?_ canWrite_empty, ((load_save _ _ _).2.1 ?_).1,
    (load_save _ _ _).2.2 ?_ rfl canWrite_empty⟩
  · decide
  · decide
  · decide
  · decide

end GoExcerpt.Config
