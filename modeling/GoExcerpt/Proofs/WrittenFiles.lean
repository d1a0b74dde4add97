import GoExcerpt.Proofs.Places

/-!
# `Proofs.WrittenFiles` — a file is read back as it was written

`FileSystem.Target` says at which place a path puts a file, and `writeText_eq_ok` that writing succeeds just
there, whatever the text. A file put in a place where no directory stands leaves every directory with the names
it had (`Entry.dirsKept_put`), so the path that led to the place before leads to it afterwards
(`Target.locate_put`), and the text is found there (`readText_of_writeText`).
-/

namespace GoExcerpt

namespace Entry

/-- Whether the directories of a tree are directories of another, with no name missing. -/
def DirsKept (t t' : Entry) : Prop :=
  ∀ names entries, t.find? names = some (.dir entries) →
    ∃ entries', t'.find? names = some (.dir entries') ∧
      ∀ name, (entries.lookup name).isSome = true → (entries'.lookup name).isSome = true

theorem find?_cons (name : String) (names : List String) (entries : List (String × Entry)) :
    (dir entries).find? (name :: names) = (entries.lookup name).bind (find? names) := rfl

/-- No names lead from a file to a directory. -/
theorem find?_file_ne_dir (content : ByteArray) (names : List String) (entries : List (String × Entry)) :
    (file content).find? names ≠ some (dir entries) := by
  intro h
  cases names with
  | nil => cases h
  | cons _ _ => cases h

/-- **What is put where no directory stands takes nothing from the directories.** -/
theorem dirsKept_put (t new : Entry) (names : List String)
    (h : ∀ entries, t.find? names ≠ some (.dir entries)) : DirsKept t (t.put names new) := by
  induction names generalizing t with
  | nil =>
      cases t with
      | dir entries => exact absurd rfl (h entries)
      | file content => exact fun place entries hfound => absurd hfound (find?_file_ne_dir _ _ _)
  | cons name names ih =>
      intro place entries hfound
      cases t with
      | file content => exact absurd hfound (find?_file_ne_dir _ _ _)
      | dir own =>
          cases place with
          | nil =>
              cases hfound
              refine ⟨_, rfl, fun other hother => ?_⟩
              by_cases hname : other = name
              · rw [hname, lookup_setChild_self]
                rfl
              · rw [lookup_setChild_of_ne hname]
                exact hother
          | cons other place =>
              rw [find?_cons] at hfound
              show ∃ entries', ((dir _).find? (other :: place)) = _ ∧ _
              rw [find?_cons]
              by_cases hname : other = name
              · subst hname
                obtain ⟨sub, hsub, hfound⟩ := Option.bind_eq_some_iff.mp hfound
                rw [lookup_setChild_self, hsub]
                refine ih sub (fun entries heq => h entries ?_) place entries hfound
                rw [find?_cons, hsub]
                exact heq
              · rw [lookup_setChild_of_ne hname]
                exact ⟨entries, hfound, fun _ h => h⟩

end Entry

namespace FileSystem

variable {fs : FileSystem} {path : String} {place : List String} {last : String}

/-- Where a path puts a file: the directory, and the name in it. -/
structure Target (fs : FileSystem) (path : String) (place : List String) (last : String) : Prop where
  notEmpty : path ≠ ""
  notClosed : path.endsWith "/" = false
  ends : ((Text.pieces '/' path).filter (· ≠ "")).getLast? = some last
  reached : follow fs.tree (if Path.isAbsolute path then [] else fs.cwd)
    (((Text.pieces '/' path).filter (· ≠ "")).dropLast ++ ["."]) = .ok place
  plain : last ≠ "." ∧ last ≠ ".."
  free : ∀ entries, fs.tree.find? (place ++ [last]) ≠ some (.dir entries)
  short : last.utf8ByteSize ≤ maxNameLength

/-- A file is written at the place its path has for it. -/
theorem Target.writeText_eq (ht : fs.Target path place last) (text : String) :
    fs.writeText path text
      = .ok { fs with tree := fs.tree.put (place ++ [last]) (.file text.toUTF8) } := by
  have hdots : ¬ (decide (last = ".") || decide (last = "..")) = true := by
    simpa using ht.plain
  unfold writeText
  rw [if_neg ht.notEmpty]
  dsimp only
  rw [ht.ends]
  dsimp only
  rw [ht.reached]
  dsimp only [bind, Except.bind]
  rw [if_neg hdots, ht.notClosed]
  split
  next hfound => exact absurd hfound (ht.free _)
  next => exact if_neg (Nat.not_lt.mpr ht.short)
  next => exact if_neg (Nat.not_lt.mpr ht.short)

/-- A path that a file was written to has a place for it. -/
theorem exists_target {text : String} {after : FileSystem} (h : fs.writeText path text = .ok after) :
    ∃ place last, fs.Target path place last ∧
      after = { fs with tree := fs.tree.put (place ++ [last]) (.file text.toUTF8) } := by
  unfold writeText at h
  by_cases hempty : path = ""
  · rw [if_pos hempty] at h
    cases h
  rw [if_neg hempty] at h
  dsimp only at h
  cases hends : ((Text.pieces '/' path).filter (· ≠ "")).getLast? with
  | none =>
      rw [hends] at h
      cases h
  | some last =>
      rw [hends] at h
      cases hreached : follow fs.tree (if Path.isAbsolute path then [] else fs.cwd)
          (((Text.pieces '/' path).filter (· ≠ "")).dropLast ++ ["."]) with
      | error e =>
          rw [hreached] at h
          cases h
      | ok place =>
          rw [hreached] at h
          dsimp only [bind, Except.bind] at h
          by_cases hdots : (decide (last = ".") || decide (last = "..")) = true
          · rw [if_pos hdots] at h
            cases h
          rw [if_neg hdots] at h
          have hplain : last ≠ "." ∧ last ≠ ".." := by simpa using hdots
          -- a file may stand there or nothing, and both are written alike
          obtain ⟨hclosed, hfree, h⟩ : path.endsWith "/" = false ∧
              (∀ entries, fs.tree.find? (place ++ [last]) ≠ some (.dir entries)) ∧
              (if last.utf8ByteSize > maxNameLength then .error .nameTooLong
                else .ok { fs with tree := fs.tree.put (place ++ [last]) (.file text.toUTF8) })
                  = (.ok after : Except OsFault FileSystem) := by
            split at h
            next => cases h
            next hfound =>
              split at h
              next => cases h
              next hclosed => exact ⟨Bool.eq_false_iff.mpr hclosed, fun _ => by simp [hfound], h⟩
            next hfound =>
              split at h
              next => cases h
              next hclosed => exact ⟨Bool.eq_false_iff.mpr hclosed, fun _ => by simp [hfound], h⟩
          split at h
          next => cases h
          next hshort =>
            exact ⟨place, last, ⟨hempty, hclosed, hends, hreached, hplain, hfree, Nat.le_of_not_lt hshort⟩,
              (Except.ok.inj h).symm⟩

/-- **Writing succeeds just where a path has a place for a file,** whatever the text. -/
theorem writeText_eq_ok {text : String} {after : FileSystem} :
    fs.writeText path text = .ok after ↔ ∃ place last, fs.Target path place last ∧
      after = { fs with tree := fs.tree.put (place ++ [last]) (.file text.toUTF8) } := by
  constructor
  · exact exists_target
  · rintro ⟨place, last, ht, rfl⟩
    exact ht.writeText_eq text

/-- Whether some text can be written to a file. -/
def CanWrite (fs : FileSystem) (path : String) : Prop := ∃ text after, fs.writeText path text = .ok after

/-- Whether a file can be written does not depend on what is written. -/
theorem CanWrite.exists_writeText (h : fs.CanWrite path) (text : String) :
    ∃ after, fs.writeText path text = .ok after := by
  obtain ⟨other, after, hwrite⟩ := h
  obtain ⟨place, last, ht, -⟩ := writeText_eq_ok.mp hwrite
  exact ⟨_, writeText_eq_ok.mpr ⟨place, last, ht, rfl⟩⟩

/-- A step along a path that leads on. -/
theorem follow_cons_eq_ok {tree : Entry} {start pieces : List String} {piece : String} :
    follow tree start (piece :: pieces) = .ok place ↔ ∃ entries, tree.find? start = some (.dir entries) ∧
      ((piece = "." ∧ follow tree start pieces = .ok place) ∨
       (piece = ".." ∧ follow tree start.dropLast pieces = .ok place) ∨
       (piece ≠ "." ∧ piece ≠ ".." ∧ (entries.lookup piece).isSome = true ∧
          follow tree (start ++ [piece]) pieces = .ok place)) := by
  rw [follow]
  cases tree.find? start with
  | none => simp
  | some e =>
      cases e with
      | file content => simp
      | dir entries =>
          have hfound : ∀ {p : List (String × Entry) → Prop},
              (∃ own, some (Entry.dir entries) = some (Entry.dir own) ∧ p own) ↔ p entries := by
            simp
          rw [hfound]
          dsimp only
          by_cases hdot : piece = "."
          · rw [if_pos hdot]
            simp [hdot]
          · rw [if_neg hdot]
            by_cases hdots : piece = ".."
            · rw [if_pos hdots]
              simp [hdots]
            · rw [if_neg hdots]
              by_cases hlookup : (entries.lookup piece).isSome = true
              · rw [if_pos hlookup]
                simp only [hdot, hdots, hlookup, false_and, false_or, ne_eq, not_false_eq_true, true_and]
              · rw [if_neg hlookup]
                simp only [hdot, hdots, hlookup, false_and, false_or]
                split
                next => simp
                next => simp

/-- A dot at the end of a path asks for a directory. -/
theorem follow_dot_eq_ok {tree : Entry} {start : List String} :
    follow tree start ["."] = .ok place ↔
      start = place ∧ ∃ entries, tree.find? place = some (.dir entries) := by
  constructor
  · intro h
    obtain ⟨entries, hdir, hstep⟩ := follow_cons_eq_ok.mp h
    rcases hstep with ⟨-, hrest⟩ | ⟨hne, -⟩ | ⟨hne, -⟩
    · rw [follow, if_pos (by rw [hdir]; rfl)] at hrest
      obtain rfl := Except.ok.inj hrest
      exact ⟨rfl, entries, hdir⟩
    · exact absurd hne (by decide)
    · exact absurd rfl hne
  · rintro ⟨rfl, entries, hdir⟩
    exact follow_cons_eq_ok.mpr ⟨entries, hdir, .inl ⟨rfl, by rw [follow, if_pos (by rw [hdir]; rfl)]⟩⟩

/-- A way to a directory is still one where the directories have kept their names. -/
theorem follow_of_dirsKept {tree tree' : Entry} (hkept : Entry.DirsKept tree tree')
    {pieces start : List String} (h : follow tree start (pieces ++ ["."]) = .ok place) :
    follow tree' start (pieces ++ ["."]) = .ok place := by
  induction pieces generalizing start with
  | nil =>
      obtain ⟨hstart, entries, hdir⟩ := follow_dot_eq_ok.mp h
      obtain ⟨entries', hdir', -⟩ := hkept place entries hdir
      exact follow_dot_eq_ok.mpr ⟨hstart, entries', hdir'⟩
  | cons piece pieces ih =>
      obtain ⟨entries, hdir, hstep⟩ := follow_cons_eq_ok.mp h
      obtain ⟨entries', hdir', hnames⟩ := hkept start entries hdir
      refine follow_cons_eq_ok.mpr ⟨entries', hdir', ?_⟩
      rcases hstep with ⟨rfl, hrest⟩ | ⟨rfl, hrest⟩ | ⟨hdot, hdots, hlookup, hrest⟩
      · exact .inl ⟨rfl, ih hrest⟩
      · exact .inr (.inl ⟨rfl, ih hrest⟩)
      · exact .inr (.inr ⟨hdot, hdots, hnames piece hlookup, ih hrest⟩)

/-- A way to a directory, and the name of something in it, lead to that. -/
theorem follow_name {tree e : Entry} (hfound : tree.find? (place ++ [last]) = some e)
    (hplain : last ≠ "." ∧ last ≠ "..") {pieces start : List String}
    (h : follow tree start (pieces ++ ["."]) = .ok place) :
    follow tree start (pieces ++ [last]) = .ok (place ++ [last]) := by
  induction pieces generalizing start with
  | nil =>
      obtain ⟨rfl, entries, hdir⟩ := follow_dot_eq_ok.mp h
      rw [List.nil_append]
      refine follow_cons_eq_ok.mpr ⟨entries, hdir, .inr (.inr ⟨hplain.1, hplain.2, ?_, ?_⟩)⟩
      · have hlookup : (entries.lookup last).bind (Entry.find? []) = some e := by
          rw [Entry.find?_append, hdir] at hfound
          exact hfound
        obtain ⟨sub, hsub, -⟩ := Option.bind_eq_some_iff.mp hlookup
        rw [hsub]
        rfl
      · rw [follow, if_pos (by rw [hfound]; rfl)]
  | cons piece pieces ih =>
      obtain ⟨entries, hdir, hstep⟩ := follow_cons_eq_ok.mp h
      refine follow_cons_eq_ok.mpr ⟨entries, hdir, ?_⟩
      rcases hstep with ⟨rfl, hrest⟩ | ⟨rfl, hrest⟩ | ⟨hdot, hdots, hlookup, hrest⟩
      · exact .inl ⟨rfl, ih hrest⟩
      · exact .inr (.inl ⟨rfl, ih hrest⟩)
      · exact .inr (.inr ⟨hdot, hdots, hlookup, ih hrest⟩)

/-- The path of a file is followed through its directory to its name. -/
theorem Target.piecesOf_eq (ht : fs.Target path place last) :
    piecesOf path = ((Text.pieces '/' path).filter (· ≠ "")).dropLast ++ [last] := by
  unfold piecesOf
  rw [ht.notClosed, if_neg (by decide), List.append_nil]
  obtain ⟨pieces, hpieces⟩ := List.getLast?_eq_some_iff.mp ht.ends
  rw [hpieces, List.dropLast_concat]

/-- A path means what stands at its place. -/
theorem Target.locate_eq (ht : fs.Target path place last) {e : Entry}
    (hfound : fs.tree.find? (place ++ [last]) = some e) : fs.locate path = .ok (place ++ [last]) := by
  unfold locate
  rw [if_neg ht.notEmpty, ht.piecesOf_eq]
  exact follow_name hfound ht.plain ht.reached

/-- **The way to the place of a file leads there when the file has been put.** -/
theorem Target.locate_put (ht : fs.Target path place last) (new : Entry) :
    locate { fs with tree := fs.tree.put (place ++ [last]) new } path = .ok (place ++ [last]) := by
  unfold locate
  rw [if_neg ht.notEmpty, ht.piecesOf_eq]
  exact follow_name (Entry.find?_put ..) ht.plain
    (follow_of_dirsKept (Entry.dirsKept_put _ _ _ ht.free) ht.reached)

/-- **A text is read from where it was written.** -/
theorem readText_of_writeText {text : String} {after : FileSystem} (h : fs.writeText path text = .ok after) :
    after.readText path = .ok text := by
  obtain ⟨place, last, ht, rfl⟩ := writeText_eq_ok.mp h
  have htext : String.fromUTF8? text.toUTF8 = some text := dif_pos text.isValidUTF8
  unfold readText entry
  rw [ht.locate_put]
  simp only [bind, Except.bind, Entry.find?_put, htext]

end FileSystem
end GoExcerpt
