import GoExcerpt.Main
import GoExcerpt.Proofs.Entering
import GoExcerpt.Proofs.WrittenFiles

/-!
# `Proofs.Runs` — a run does all it was asked for, or nothing

A run of a command ends in one of two ways. Either it fails, and then it has printed nothing and left the files
and the working directory as they were; or it succeeds, and then the only file that may differ is the one the
command was to write (`execute_allOrNothing`).

Two things can change on the way. Loading a module may enter another directory, and `GoModule.load_snd` says that
it comes back on every way out. Writing a file changes the tree, and `FileSystem.Wrote` says that it does so in
one place: `Entry.content?_put` follows the names of any other place and finds there what was there before.
-/

namespace GoExcerpt

/-! ## Writing one file -/

/-- What is seen of an entry without looking further: the content of a file, and nothing of a directory. -/
def Entry.content? : Entry → Option ByteArray
  | file content => some content
  | dir _ => none

/-- What stands at a place: nothing, a directory, or a file with its content. -/
def FileSystem.held (fs : FileSystem) (place : List String) : Option (Option ByteArray) :=
  (fs.tree.find? place).map Entry.content?

namespace Entry

/-- Beside a new name everything in a directory is what it was. -/
theorem find?_setChild_of_ne {name other : String} (h : other ≠ name) (new : Entry)
    (entries : List (String × Entry)) (names : List String) :
    (dir (setChild name new entries)).find? (other :: names) = (dir entries).find? (other :: names) := by
  rw [find?_cons, find?_cons, lookup_setChild_of_ne h]

/-- Below a new name is what is below the new entry. -/
theorem find?_setChild_self (name : String) (new : Entry) (entries : List (String × Entry))
    (names : List String) : (dir (setChild name new entries)).find? (name :: names) = new.find? names := by
  rw [find?_cons, lookup_setChild_self, Option.bind_some]

/-- Nothing is below a place where no directory stands. -/
theorem find?_below {t : Entry} {name : String} {names : List String}
    (h : ∀ entries, t ≠ dir entries) : t.find? (name :: names) = none := by
  cases t with
  | file content => rfl
  | dir entries => exact absurd rfl (h entries)

/-- A file under a name where no directory stands changes no other place in its directory, nor below. -/
theorem content?_setChild {entries : List (String × Entry)} {last : String} (content : ByteArray)
    (hfree : ∀ own, entries.lookup last ≠ some (dir own)) {other : List String} (hother : other ≠ [last]) :
    ((dir (setChild last (file content) entries)).find? other).map content?
      = ((dir entries).find? other).map content? := by
  cases other with
  | nil => rfl
  | cons name names =>
      by_cases hname : name = last
      · subst hname
        -- `other` goes on below the file itself, where nothing is now and nothing was before
        obtain ⟨next, names, rfl⟩ : ∃ next rest, names = next :: rest :=
          List.exists_cons_of_ne_nil fun hnil => hother (by rw [hnil])
        rw [find?_setChild_self, find?_cons]
        cases hlookup : entries.lookup name with
        | none => rfl
        | some sub =>
            have hsub : ∀ own, sub ≠ dir own := by
              rintro own rfl
              exact hfree own hlookup
            show _ = Option.map content? (sub.find? (next :: names))
            rw [find?_below hsub]
            rfl
      · rw [find?_setChild_of_ne hname]

/-- **A file put into a directory changes no other place.** The directories on the way are rebuilt, so the
    induction is along the way: at each of them `other` ends there, turns off the way, or goes on along it. -/
theorem content?_put {t : Entry} {place : List String} {last : String} (content : ByteArray)
    (hplace : ∃ entries, t.find? place = some (dir entries))
    (hfree : ∀ entries, t.find? (place ++ [last]) ≠ some (dir entries)) {other : List String}
    (hother : other ≠ place ++ [last]) :
    ((t.put (place ++ [last]) (file content)).find? other).map content? = (t.find? other).map content? := by
  induction place generalizing t other with
  | nil =>
      obtain ⟨entries, hentries⟩ := hplace
      obtain rfl := Option.some.inj hentries
      apply content?_setChild content _ hother
      intro own hlookup
      apply hfree own
      rw [List.nil_append, find?_cons, hlookup]
      rfl
  | cons first place ih =>
      obtain ⟨entries, hentries⟩ := hplace
      obtain ⟨sub, hsub, hbelow⟩ := Option.bind_eq_some_iff.mp hentries
      cases t with
      | file _ => cases hsub
      | dir own =>
          have hlookup : own.lookup first = some sub := hsub
          cases other with
          | nil => rfl
          | cons name names =>
              show ((dir (setChild first (put ((own.lookup first).getD _) _ _) own)).find?
                (name :: names)).map content? = _
              by_cases hname : name = first
              · subst hname
                rw [find?_setChild_self, find?_cons, hlookup]
                apply ih ⟨entries, hbelow⟩
                · intro inner hinner
                  apply hfree inner
                  rw [List.cons_append, find?_cons, hlookup]
                  exact hinner
                · rintro rfl
                  exact hother rfl
              · rw [find?_setChild_of_ne hname]

end Entry

namespace FileSystem

variable {fs after : FileSystem} {path text : String} {place : List String} {last : String}

/-- **What writing a text in one place does:** the file there has this text, and all else is as before. -/
structure Wrote (fs : FileSystem) (place : List String) (text : String) (after : FileSystem) : Prop where
  written : after.held place = some (some text.toUTF8)
  others : ∀ other, other ≠ place → after.held other = fs.held other
  stayed : after.cwd = fs.cwd

/-- A path that asks for a directory leads to one. -/
theorem exists_dir_of_follow {tree : Entry} {pieces start : List String}
    (h : follow tree start (pieces ++ ["."]) = .ok place) :
    ∃ entries, tree.find? place = some (.dir entries) := by
  induction pieces generalizing start with
  | nil => exact (follow_dot_eq_ok.mp h).2
  | cons piece pieces ih =>
      obtain ⟨entries, -, hstep⟩ := follow_cons_eq_ok.mp h
      rcases hstep with ⟨-, hrest⟩ | ⟨-, hrest⟩ | ⟨-, -, -, hrest⟩
      · exact ih hrest
      · exact ih hrest
      · exact ih hrest

/-- Where a path means nothing, nothing stands at the place it has for a file. -/
theorem Target.held_eq_none (ht : fs.Target path place last) (h : fs.pathExists path = false) :
    fs.held (place ++ [last]) = none := by
  unfold held
  cases hfound : fs.tree.find? (place ++ [last]) with
  | none => rfl
  | some e =>
      have hentry : fs.entry path = .ok e := by
        unfold entry
        rw [ht.locate_eq hfound]
        simp only [bind, Except.bind, hfound]
      unfold pathExists at h
      rw [hentry] at h
      cases h

/-- **Writing changes one place, which the path means afterwards.** If the path meant nothing before, nothing was
    at that place. -/
theorem exists_wrote (h : fs.writeText path text = .ok after) :
    ∃ place, after.locate path = .ok place ∧ fs.Wrote place text after ∧
      (fs.pathExists path = false → fs.held place = none) := by
  obtain ⟨place, last, ht, rfl⟩ := writeText_eq_ok.mp h
  refine ⟨place ++ [last], ht.locate_put _, ⟨?_, ?_, rfl⟩, ht.held_eq_none⟩
  · show (Entry.find? _ _).map Entry.content? = _
    rw [Entry.find?_put]
    rfl
  · intro other hother
    exact Entry.content?_put _ (exists_dir_of_follow ht.reached) ht.free hother

end FileSystem

/-! ## Loading a module -/

section

variable {fs : FileSystem} (hfs : fs.wellFormed = true)

include hfs

/-- **Loading a module leaves the file system as it was,** whether it succeeds or fails. -/
theorem GoModule.load_snd (c : Config) (dir : String) : (load c fs dir).2 = fs := by
  unfold load
  split
  next => rfl
  next root _ =>
    split
    next =>
      unfold readInside
      split
      next => rfl
      next detour inside hstart =>
        have hback : detour.finish inside = .ok fs := (Detour.finish_start hfs hstart).2
        split
        next =>
          show detour.abandon inside = fs
          unfold Detour.abandon
          rw [hback]
        next => rw [hback]
    next => rfl

theorem extract_snd (c : Config) (r : Request) : (extract c r fs).2 = fs := by
  rw [extract_of_load_eq (Prod.ext rfl (GoModule.load_snd hfs c r.dir))]

theorem list_snd (c : Config) (dir : String) (package : Option String) :
    (list c dir package fs).2 = fs := by
  rw [list_of_load_eq (Prod.ext rfl (GoModule.load_snd hfs c dir))]

end

/-! ## Whole runs -/

namespace CommandLine

open Program (target)

/-- What a run prints. It prints all at once and at its end, so nothing if it failed before. -/
def Outcome.stdout : Outcome → String
  | .printed text => text
  | .failed _ | .usage _ => ""

/-- What a command has to write: the document that was asked for, or the default settings. -/
inductive Produces (i : Invocation) (fs : FileSystem) (text : String) : Prop where
  | document {function dir : String} {package : Option String} {excludeRoot codeOnly : Bool}
      {depth : Option Nat} {output : Option String} {config : Config}
      (hcommand : i.command = .extract function dir package excludeRoot codeOnly depth output)
      (hconfig : Config.loadFor fs i.config dir = .ok config)
      (htext : (extract config
        { dir, function, package, depth,
          excludeRoot := if excludeRoot then some true else none,
          codeOnly := if codeOnly then some true else none } fs).1 = .ok text)
  | settings {dir : String} {force : Bool} (hcommand : i.command = .init dir force)
      (htext : Config.render {} = .ok text)

/-- **How a run may end:** it fails and changes nothing, it prints and changes nothing, or it writes its file. -/
inductive Ends (i : Invocation) (fs : FileSystem) : Outcome × FileSystem → Prop where
  | failed (reason : RunFault) : Ends i fs (.failed reason, fs)
  | printed (text : String) (hnone : target i.command = none) : Ends i fs (.printed text, fs)
  | wrote {path text : String} {after : FileSystem} (hpath : target i.command = some path)
      (htext : Produces i fs text) (hafter : fs.writeText path text = .ok after)
      (hnew : ∀ dir, i.command = .init dir false → fs.pathExists path = false) :
      Ends i fs (.printed "", after)

variable {i : Invocation} {fs : FileSystem}

/-- A document is printed, or written to the file that was named for it. -/
theorem ends_deliver {function dir document : String} {package : Option String} {excludeRoot codeOnly : Bool}
    {depth : Option Nat} {output : Option String}
    (hcommand : i.command = .extract function dir package excludeRoot codeOnly depth output)
    (hdocument : Produces i fs document) : Ends i fs (deliver document output fs) := by
  have htarget : target i.command = output := by
    rw [hcommand]
    rfl
  unfold deliver
  cases output with
  | none => exact .printed _ htarget
  | some path =>
      dsimp only
      cases hwrite : fs.writeText path document with
      | error cause => exact .failed _
      | ok after =>
          refine .wrote htarget hdocument hwrite fun other hinit => ?_
          rw [hcommand] at hinit
          cases hinit

/-- Settings are written unless there are some that are to be kept. -/
theorem ends_init {dir : String} {force : Bool} (hcommand : i.command = .init dir force) :
    Ends i fs (execute i fs) := by
  have htarget : target i.command = some (Path.join dir Config.defaultFileName) := by
    rw [hcommand]
    rfl
  unfold execute
  rw [hcommand]
  dsimp only
  split
  next => exact .failed _
  next hallowed =>
    cases hsave : Config.save {} fs (Path.join dir Config.defaultFileName) with
    | error fault => exact .failed _
    | ok after =>
        unfold Config.save at hsave
        obtain ⟨text, hrender, hsave⟩ := bind_eq_ok hsave
        have htext : Config.render {} = .ok text := mapError_eq_ok hrender
        refine .wrote htarget (.settings hcommand htext) (mapError_eq_ok hsave) ?_
        intro other hinit
        obtain ⟨-, rfl⟩ := Command.init.inj (hcommand.symm.trans hinit)
        simpa using hallowed

/-- **A run ends in one of these ways.** -/
theorem ends_execute (i : Invocation) (hfs : fs.wellFormed = true) : Ends i fs (execute i fs) := by
  cases hcommand : i.command with
  | extract function dir package excludeRoot codeOnly depth output =>
      unfold execute
      rw [hcommand]
      dsimp only
      cases hconfig : Config.loadFor fs i.config dir with
      | error fault => exact .failed _
      | ok config =>
          dsimp only
          generalize hrequest : Request.mk dir function package _ _ depth = request
          have hsnd := extract_snd hfs config request
          cases hextract : extract config request fs with
          | mk result later =>
              rw [hextract] at hsnd
              obtain rfl := hsnd
              cases result with
              | error fault => exact .failed _
              | ok document =>
                  apply ends_deliver hcommand
                  apply Produces.document hcommand hconfig
                  rw [hrequest, hextract]
  | list dir package json =>
      have htarget : target i.command = none := by
        rw [hcommand]
        rfl
      unfold execute
      rw [hcommand]
      dsimp only
      cases hconfig : Config.loadFor fs i.config dir with
      | error fault => exact .failed _
      | ok config =>
          dsimp only
          have hsnd := list_snd hfs config dir package
          cases hlist : list config dir package fs with
          | mk result later =>
              rw [hlist] at hsnd
              obtain rfl := hsnd
              cases result with
              | error fault => exact .failed _
              | ok rows => exact .printed _ htarget
  | init dir force => exact ends_init hcommand

/-- **A run does all or nothing.** Where all names are names of files, a command either fails, and then it has printed
nothing, and the files and the working directory are as before; or it succeeds. Then nothing has changed if it had no
file to write; and otherwise that file holds the document that extraction gives, or the default settings, while
everything else is as before. Unless it was told to overwrite, the command that writes settings changes nothing that
was there. -/
theorem execute_allOrNothing (i : Invocation) (hfs : fs.wellFormed = true) :
    ((∃ reason, (execute i fs).1 = .failed reason) ∧ (execute i fs).1.stdout = "" ∧ (execute i fs).2 = fs ∨
      (∃ text, (execute i fs).1 = .printed text) ∧
        (target i.command = none → (execute i fs).2 = fs) ∧
        ∀ path, target i.command = some path → ∃ place text, Produces i fs text ∧
          (execute i fs).2.locate path = .ok place ∧ fs.Wrote place text (execute i fs).2) ∧
    (∀ dir, i.command = .init dir false → ∀ place, fs.held place ≠ none →
      (execute i fs).2.held place = fs.held place) := by
  have hends := ends_execute i hfs
  generalize execute i fs = ended at hends ⊢
  cases hends with
  | failed reason => exact ⟨.inl ⟨⟨reason, rfl⟩, rfl, rfl⟩, fun _ _ _ _ => rfl⟩
  | printed text hnone =>
      refine ⟨.inr ⟨⟨text, rfl⟩, fun _ => rfl, fun path hpath => ?_⟩, fun _ _ _ _ => rfl⟩
      rw [hnone] at hpath
      cases hpath
  | wrote hpath htext hafter hnew =>
      obtain ⟨place, hlocate, hwrote, hfree⟩ := FileSystem.exists_wrote hafter
      refine ⟨.inr ⟨⟨"", rfl⟩, fun hnone => ?_, fun other hother => ?_⟩, fun dir hinit other hheld => ?_⟩
      · rw [hnone] at hpath
        cases hpath
      · obtain rfl := Option.some.inj (hpath.symm.trans hother)
        exact ⟨place, _, htext, hlocate, hwrote⟩
      · apply hwrote.others
        rintro rfl
        exact hheld (hfree (hnew dir hinit))

/-- A document that is written to a file. -/
def toFile : Invocation where
  command := .extract "Z" "/" (some "z") false false none (some "z/z.md")
  config := none

theorem execute_allOrNothing_toFile : twoPackages.wellFormed = true ∧
    ∃ place text, Produces toFile twoPackages text ∧ (execute toFile twoPackages).2.locate "z/z.md" = .ok place ∧
      twoPackages.Wrote place text (execute toFile twoPackages).2 := by
  have hfs : twoPackages.wellFormed = true := by decide +kernel
  have hconfig : Config.loadFor twoPackages none "/" = .ok {} := by decide +kernel
  have hdocument : extractFrom {} { dir := "/", function := "Z", package := some "z" } twoPackages
      twoPackagesRead = .ok "```\nfunc Z() \x7b\x7d\n```" := by decide +kernel
  have hextract : extract {} { dir := "/", function := "Z", package := some "z" } twoPackages
      = (.ok "```\nfunc Z() \x7b\x7d\n```", twoPackages) := by
    rw [extract_of_load_eq load_twoPackages]
    exact congrArg (·, twoPackages) hdocument
  have hended : (execute toFile twoPackages).1 = .printed "" := by
    unfold execute toFile
    simp only [hconfig, Bool.false_eq_true, if_false, hextract]
    decide +kernel
  refine ⟨hfs, ?_⟩
  rcases (execute_allOrNothing toFile hfs).1 with ⟨⟨reason, hfailed⟩, -⟩ | ⟨-, -, hwrote⟩
  · rw [hended] at hfailed
    cases hfailed
  · exact hwrote _ rfl

end CommandLine
end GoExcerpt
