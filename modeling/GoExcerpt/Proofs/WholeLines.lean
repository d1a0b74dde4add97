import GoExcerpt.Proofs.Listed
import GoExcerpt.Proofs.SourceText

/-!
# `Proofs.WholeLines` — the text of a declaration is one run of lines

The documentation of a declaration and the declaration itself follow one another in its file without a gap, so
what is copied are the lines from the first of them to the last (`excerptOf_lines`), and the text that the
declaration was read from is among them. Loading has no fault that is about the text of a function
(`Untold.load`), and a walk meets none as long as the files stay as they were read, so no extraction ends in
one (`untold_extract`).
-/

namespace GoExcerpt

/-! ## Lines of a declaration -/

/-- From the first line of the documentation, or of the declaration if there is none, to its last line. -/
def Declaration.lines (d : Declaration) : LineRange := ⟨(d.doc.head?.getD d.span).start, d.span.stop⟩

namespace FileScope

variable {f : FileScope} {types : TypeEnv} {path text : String} {d : Declaration}

/-- The ranges of a declaration are lines of its file. -/
theorem fits_of_mem_ranges (h : d ∈ (f.unitOf types path (SourceFile.parse text).root).functions)
    {r : LineRange} (hr : r ∈ d.ranges) : r.fits (Text.splitOn '\n' text.toList).length = true := by
  obtain ⟨earlier, node, later, hroot, -, hd⟩ := mem_unitOf.mp h
  obtain ⟨-, hdoc, hspan, -⟩ := declaration?_eq_some.mp hd
  have hplaced : ∀ t ∈ earlier ++ node :: later, SourceFile.WellPlaced text t := by
    rw [← hroot]
    exact fun t ht => SourceFile.wellPlaced_of_mem_parse ht
  unfold Declaration.ranges at hr
  rw [hdoc, hspan] at hr
  rcases List.mem_append.mp hr with hr | hr
  · rcases LineRange.mem_docLines hr with hr | ⟨t, ht, rfl⟩
    · exact absurd hr List.not_mem_nil
    · exact LineRange.fits_ofTree (hplaced t (List.mem_append_left _ (List.mem_reverse.mp ht)))
  · obtain rfl := List.mem_singleton.mp hr
    exact LineRange.fits_ofTree (hplaced node (by simp))

/-- The ranges of a declaration follow one another. -/
theorem isChain_ranges {root : Tree} (h : d ∈ (f.unitOf types path root).functions) :
    d.ranges.IsChain LineRange.Follows := by
  obtain ⟨earlier, node, later, -, -, hd⟩ := mem_unitOf.mp h
  obtain ⟨-, hdoc, hspan, -⟩ := declaration?_eq_some.mp hd
  unfold Declaration.ranges
  rw [hdoc, hspan]
  exact LineRange.isChain_docLines (.singleton _) rfl

/-- **What is copied for a declaration are its lines,** from the first of its documentation on. -/
theorem excerptOf_lines (h : d ∈ (f.unitOf types path (SourceFile.parse text).root).functions) :
    d.excerptOf text = .ok (String.ofList (d.lines.copy (Text.splitOn '\n' text.toList))) := by
  unfold Declaration.excerptOf Declaration.ranges
  rw [LineRange.copyAll_concat (fun r hr => fits_of_mem_ranges h hr) (isChain_ranges h)]
  rfl

/-- The lines of the declaration itself come last. -/
theorem copy_span_suffix (h : d ∈ (f.unitOf types path (SourceFile.parse text).root).functions) :
    d.span.copy (Text.splitOn '\n' text.toList) <:+ d.lines.copy (Text.splitOn '\n' text.toList) := by
  have hfits : ∀ r ∈ d.ranges, 1 ≤ r.start ∧ r.start ≤ r.stop ∧ r.stop ≤ _ :=
    fun r hr => LineRange.le_of_fits (fits_of_mem_ranges h hr)
  have hspan := hfits d.span (by simp [Declaration.ranges])
  have hfirst : d.doc.head?.getD d.span ∈ d.ranges := by
    unfold Declaration.ranges
    cases d.doc with
    | nil => simp
    | cons r doc => simp
  refine LineRange.copy_suffix (hfits _ hfirst).1 ?_ hspan.2.1
  refine LineRange.start_le_of_isChain (fun r hr => (hfits r ?_).2.1) (isChain_ranges h)
  exact List.mem_append_left _ hr

/-- **The text that a declaration was read from is copied with its lines.** -/
theorem exists_covers_infix (h : d ∈ (f.unitOf types path (SourceFile.parse text).root).functions) :
    ∃ earlier node later own, (SourceFile.parse text).root.named = earlier ++ node :: later ∧
      f.declaration? types path node earlier.reverse = some d ∧ node.Covers text.toList own ∧
      own <:+: d.lines.copy (Text.splitOn '\n' text.toList) := by
  obtain ⟨earlier, node, later, hroot, -, hd⟩ := mem_unitOf.mp h
  have hnode : node ∈ (SourceFile.parse text).root.named := by
    rw [hroot]
    exact List.mem_append_right _ List.mem_cons_self
  obtain ⟨own, hown⟩ := SourceFile.exists_covers_of_mem_parse hnode
  refine ⟨earlier, node, later, own, hroot, hd, hown, ?_⟩
  obtain ⟨-, -, hspan, -⟩ := declaration?_eq_some.mp hd
  exact (hspan ▸ LineRange.infix_copy_ofTree hown).trans (copy_span_suffix h).isInfix

end FileScope

/-! ## Faults about texts of functions -/

/-- Whether a fault is about the text of a function. -/
def Fault.isSource : Fault → Bool
  | .source .. => true
  | _ => false

/-- A computation that does not fail for the text of a function. -/
def Untold {α : Type} (x : Except Fault α) : Prop := ∀ fault, x = .error fault → fault.isSource = false

namespace Untold

variable {α β : Type}

theorem ok (a : α) : Untold (.ok a : Except Fault α) := fun _ h => nomatch h

theorem error {fault : Fault} (h : fault.isSource = false) : Untold (.error fault : Except Fault α) := by
  rintro _ ⟨rfl⟩
  exact h

theorem bind {x : Except Fault α} {f : α → Except Fault β} (hx : Untold x) (hf : ∀ a, Untold (f a)) :
    Untold (x >>= f) := by
  cases x with
  | error fault => exact error (hx fault rfl)
  | ok a => exact hf a

theorem mapError {ε : Type} {x : Except ε α} {f : ε → Fault} (hf : ∀ e, (f e).isSource = false) :
    Untold (x.mapError f) := by
  cases x with
  | error e => exact error (hf e)
  | ok a => exact ok a

theorem foldlM {xs : List α} {f : β → α → Except Fault β} (hf : ∀ b a, Untold (f b a)) (b : β) :
    Untold (xs.foldlM f b) := by
  induction xs generalizing b with
  | nil => exact ok b
  | cons a xs ih =>
      rw [List.foldlM_cons]
      exact (hf b a).bind ih

theorem readWithin (limit : Nat) (path : String) (e : Entry) : Untold (Load.readWithin limit path e) := by
  unfold Load.readWithin
  split
  next => exact error rfl
  next =>
    split
    next => exact ok none
    next =>
      split
      next => exact ok _
      next => exact error rfl

theorem step (l : Loading) (root modulePath : String) (tree : Entry) (groups : List Load.Pending)
    (names : List String) : Untold (Load.step l root modulePath tree groups names) := by
  unfold Load.step
  split
  next => exact ok groups
  next e _ =>
    refine bind ?_ fun accepted => ?_
    · refine (readWithin l.maxFileSize _ e).bind fun text => ?_
      split
      next => exact ok none
      next =>
        split
        next => exact ok none
        next => exact ok _
    · split
      next => exact ok groups
      next => exact mapError fun _ => rfl

theorem packagesIn (fs : FileSystem) (l : Loading) (dir : String) (m : Manifest) :
    Untold (Load.packagesIn fs l dir m) := by
  refine bind (mapError fun _ => rfl) fun rules => ?_
  refine (foldlM (step l dir m.modulePath _) []).bind fun groups => ?_
  split
  next => exact error rfl
  next => exact ok _

theorem manifest (fs : FileSystem) (dir : String) : Untold (Load.manifest fs dir) := by
  refine bind (mapError fun _ => rfl) fun text => ?_
  unfold Manifest.parse
  dsimp only
  split
  next => exact ok _
  next => exact error rfl

theorem read (c : Config) (fs : FileSystem) (root : String) : Untold (GoModule.read c fs root) := by
  refine (manifest fs root).bind fun m => ?_
  refine (packagesIn fs c.loading root m).bind fun packages => ?_
  exact ok _

/-- **Loading does not fail for the text of a function.** -/
theorem load (c : Config) (fs : FileSystem) (dir : String) : Untold (GoModule.load c fs dir).1 := by
  unfold GoModule.load
  split
  next => exact error rfl
  next root _ =>
    split
    next =>
      unfold GoModule.readInside
      have hstart : Untold (Detour.start fs root) := by
        refine bind (mapError fun _ => rfl) fun home => ?_
        refine bind (mapError fun _ => rfl) fun inside => ?_
        exact ok _
      split
      next fault hfault => exact error (hstart fault hfault)
      next detour inside _ =>
        split
        next fault hfault => exact error (read c inside root fault hfault)
        next =>
          have hfinish : Untold (detour.finish inside) := mapError fun _ => rfl
          split
          next fault hfault => exact error (hfinish fault hfault)
          next => exact ok _
    next => exact read c fs root

theorem locate (i : Index) (ps : List Package) (s : Selector) : Untold (i.locate ps s) := by
  unfold Index.locate
  dsimp only
  split
  next => exact ok _
  next => exact error rfl

end Untold

/-- **No extraction fails for the text of a function** as long as the files stay as they were read. -/
theorem untold_extract {fs : FileSystem} (hfs : fs.wellFormed = true) (c : Config) (r : Request) :
    Untold (extract c r fs).1 := by
  unfold extract
  cases hload : GoModule.load c fs r.dir with
  | mk result after =>
      cases result with
      | error fault => exact Untold.error (Untold.load c fs r.dir fault (congrArg Prod.fst hload))
      | ok m =>
          obtain ⟨rfl, place, tree, htree, hpackages⟩ := GoModule.exists_of_load hfs hload
          refine (Untold.locate _ _ _).bind fun entry => ?_
          -- all that the walk may reach comes from a file that is still there
          obtain ⟨collected, hrun⟩ := Walk.exists_run
            (w := ⟨after, m.index, r.excludeRoot.getD c.output.excludeRoot⟩) entry
            (c.budget (r.excludeRoot.getD c.output.excludeRoot) r.depth) fun key e he => by
              obtain ⟨-, hp, -, u, hu, hpath, hd⟩ := Index.exists_of_get?_build he
              exact hpath ▸ Load.exists_excerpt hfs htree hpackages hp hu hd
          show Untold ((Walk.run _ _ _).bind _)
          rw [hrun]
          exact Untold.ok _

/-! ## One run of lines -/

/-- **What is copied for a declaration is one run of whole lines of its file,** from the first line of its
    documentation to its last, and has the text of the declaration in it; so no extraction fails because lines
    cannot be copied. -/
theorem excerpt_whole_lines :
    (∀ (f : FileScope) (types : TypeEnv) (path text : String) (d : Declaration) (fs : FileSystem),
      d ∈ (f.unitOf types path (SourceFile.parse text).root).functions → fs.readText path = .ok text →
        (∀ r ∈ d.ranges, 1 ≤ r.start ∧ r.start ≤ r.stop ∧ r.stop ≤ text.toList.count '\n' + 1) ∧
        d.ranges.IsChain LineRange.Follows ∧
        d.excerpt fs path = .ok (String.ofList (d.lines.copy (Text.splitOn '\n' text.toList))) ∧
        ∃ earlier node later own, (SourceFile.parse text).root.named = earlier ++ node :: later ∧
          f.declaration? types path node earlier.reverse = some d ∧ node.Covers text.toList own ∧
          own <:+: d.lines.copy (Text.splitOn '\n' text.toList)) ∧
    ∀ (c : Config) (r : Request) (fs : FileSystem) (path : String) (reason : ExcerptFault),
      fs.wellFormed = true → (extract c r fs).1 ≠ .error (.source path reason) := by
  constructor
  · intro f types path text d fs hd htext
    refine ⟨fun r hr => ?_, FileScope.isChain_ranges hd, ?_, FileScope.exists_covers_infix hd⟩
    · rw [← Text.length_splitOn]
      exact LineRange.le_of_fits (FileScope.fits_of_mem_ranges hd hr)
    · unfold Declaration.excerpt
      rw [htext]
      show (d.excerptOf text).mapError _ = _
      rw [FileScope.excerptOf_lines hd]
      rfl
  · intro c r fs path reason hfs hfault
    exact Bool.noConfusion (untold_extract hfs c r _ hfault)

/-- A function with two comments above it, the second over two lines, in a file without a line feed at its
    end. -/
def documented : String :=
  "package m\n\nvar x int // not about A\n// A calls B.\n/* twice\n*/\nfunc A() \x7b\n\tB()\n\tB()\n\x7d\n\nfunc B() \x7b\x7d"

/-- What is read for this function. -/
def documentedA : Declaration where
  id := .function "m" "A"
  doc := [⟨4, 4⟩, ⟨5, 6⟩]
  span := ⟨7, 10⟩
  calls := some [⟨some (.function "m" "B"), 8⟩, ⟨some (.function "m" "B"), 9⟩]

theorem excerpt_whole_lines_documented :
    documentedA ∈ ((Load.scopeOf [] "m" ⟨"/a.go", SourceFile.parse documented⟩).unitOf TypeEnv.empty "/a.go"
      (SourceFile.parse documented).root).functions ∧
    (⟨.dir [("a.go", .file documented.toUTF8)], []⟩ : FileSystem).readText "/a.go" = .ok documented ∧
    documentedA.ranges.IsChain LineRange.Follows ∧
    documentedA.excerpt ⟨.dir [("a.go", .file documented.toUTF8)], []⟩ "/a.go"
      = .ok "// A calls B.\n/* twice\n*/\nfunc A() \x7b\n\tB()\n\tB()\n\x7d\n" ∧
    ∀ (c : Config) (r : Request) (path : String) (reason : ExcerptFault),
      (extract c r ⟨.dir [("a.go", .file documented.toUTF8)], []⟩).1 ≠ .error (.source path reason) := by
  have hmem : documentedA ∈ ((Load.scopeOf [] "m" ⟨"/a.go", SourceFile.parse documented⟩).unitOf
      TypeEnv.empty "/a.go" (SourceFile.parse documented).root).functions := by decide +kernel
  have htext : (⟨.dir [("a.go", .file documented.toUTF8)], []⟩ : FileSystem).readText "/a.go"
      = .ok documented := by decide +kernel
  obtain ⟨hlines, hfaults⟩ := excerpt_whole_lines
  obtain ⟨-, hchain, hexcerpt, -⟩ := hlines _ TypeEnv.empty "/a.go" documented documentedA _ hmem htext
  refine ⟨hmem, htext, hchain, hexcerpt.trans ?_, fun c r path reason => ?_⟩
  · decide +kernel
  · exact hfaults c r _ path reason (by decide +kernel)

end GoExcerpt
