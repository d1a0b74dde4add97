import GoExcerpt.Proofs.Places
import Mathlib.Data.List.Induction

/-!
# `Proofs.Detours` — detours inside detours

A `Trip` is a process whose detours lie inside one another: it enters directories, leaves the latest stay
that is not over, by `finish` or by `abandon`, and meanwhile directories may vanish. Whoever holds a stay lets
go of it in the end, after `finish` too, so a stay notes that it is over and is then let go of without effect
(`Trip.letGo_ended`).

What a move does is said once, in `move_enter` and `move_leave`; what every move keeps is `Trip.Sound`. The
stays below the latest one are untouched as long as it lasts (`Sound.suffix_run`), so leaving it leads to where
it was entered from, if that is still there (`Lasts.leavesTo`, `run_nested`).
-/

namespace GoExcerpt

open FileSystem (absolute)

/-! ## Trips -/

/-- A detour in the hands of someone who will let go of it. -/
structure Stay where
  detour : Detour
  /-- how many stays began before it -/
  number : Nat
  /-- whether it has been finished, so that letting go of it does nothing more -/
  ended : Bool := false
deriving DecidableEq, Repr

/-- A process with the stays that are not over. -/
structure Trip where
  fs : FileSystem
  /-- latest first -/
  stays : List Stay := []
  /-- how many stays have begun -/
  begun : Nat := 0
  /-- the number of a stay for each time that going back from it was tried -/
  returns : List Nat := []

/-- What may happen on a trip. -/
inductive Move where
  | enter (dir : String)
  | finish
  | abandon
  /-- what stands at a place vanishes, with all below it -/
  | remove (place : List String)
deriving DecidableEq, Repr

/-- Whether a move takes nothing away. -/
def Move.spares : Move → Bool
  | remove _ => false
  | _ => true

namespace Trip

/-- Lets go of a stay: it goes back, in silence, unless it is over. -/
def letGo (t : Trip) (s : Stay) : Trip :=
  if s.ended then t
  else { t with fs := s.detour.abandon t.fs, returns := t.returns ++ [s.number] }

/-- Goes back from a stay and says what went wrong. The stay is over, and is let go of. -/
def finish (t : Trip) (s : Stay) : Trip × Option Fault :=
  let ended := { s with ended := true }
  let tried := { t with returns := t.returns ++ [s.number] }
  match s.detour.finish t.fs with
  | .ok back => (letGo { tried with fs := back } ended, none)
  | .error fault => (letGo tried ended, some fault)

/-- Begins one more stay. -/
def entered (t : Trip) (detour : Detour) (inside : FileSystem) : Trip :=
  { t with fs := inside, stays := ⟨detour, t.begun, false⟩ :: t.stays, begun := t.begun + 1 }

/-- One move, with the fault that is reported if there is one. Nothing is left where no stay is. -/
def move (t : Trip) : Move → Trip × Option Fault
  | .enter dir =>
      match Detour.start t.fs dir with
      | .ok (detour, inside) => (t.entered detour inside, none)
      | .error fault => (t, some fault)
  | .finish =>
      match t.stays with
      | s :: rest => finish { t with stays := rest } s
      | [] => (t, none)
  | .abandon =>
      match t.stays with
      | s :: rest => (letGo { t with stays := rest } s, none)
      | [] => (t, none)
  | .remove place => ({ t with fs := { t.fs with tree := t.fs.tree.erase place } }, none)

/-- Where moves lead. -/
def run (t : Trip) (moves : List Move) : Trip := moves.foldl (fun t m => (t.move m).1) t

end Trip

/-! ## What vanishes -/

namespace Entry

theorem isDir_erase (names : List String) {t : Entry} (h : t.isDir = true) :
    (t.erase names).isDir = true := by
  cases t with
  | file content => cases h
  | dir entries =>
      match names with
      | [] => rfl
      | [_] => rfl
      | _ :: _ :: _ =>
          rw [erase]
          split
          next => rfl
          next => rfl
          · exact List.cons_ne_nil _ _

theorem wellNamedAll_filter {entries : List (String × Entry)} (h : wellNamedAll entries = true)
    (keep : String × Entry → Bool) : wellNamedAll (entries.filter keep) = true := by
  induction entries with
  | nil => rfl
  | cons first rest ih =>
      obtain ⟨name, e⟩ := first
      obtain ⟨hname, he, hrest⟩ := wellNamedAll_cons.mp h
      rw [List.filter_cons]
      split
      next => exact wellNamedAll_cons.mpr ⟨hname, he, ih hrest⟩
      next => exact ih hrest

theorem wellNamedAll_setChild {entries : List (String × Entry)} (h : wellNamedAll entries = true)
    {name : String} {new : Entry} (hname : isFileName name = true) (hnew : new.wellNamed = true) :
    wellNamedAll (setChild name new entries) = true := by
  induction entries with
  | nil => exact wellNamedAll_cons.mpr ⟨hname, hnew, rfl⟩
  | cons first rest ih =>
      obtain ⟨n, old⟩ := first
      obtain ⟨hn, hold, hrest⟩ := wellNamedAll_cons.mp h
      rw [setChild]
      split
      next => exact wellNamedAll_cons.mpr ⟨hn, hnew, hrest⟩
      next => exact wellNamedAll_cons.mpr ⟨hn, hold, ih hrest⟩

/-- What is taken away spoils no name. -/
theorem wellNamed_erase (names : List String) {t : Entry} (h : t.wellNamed = true) :
    (t.erase names).wellNamed = true := by
  induction names generalizing t with
  | nil => exact h
  | cons name names ih =>
      cases t with
      | file content => cases names <;> exact h
      | dir entries =>
          cases names with
          | nil => exact wellNamedAll_filter h _
          | cons next later =>
              rw [erase]
              · split
                next sub hsub =>
                  obtain ⟨hname, hwell⟩ := wellNamed_of_lookup h hsub
                  exact wellNamedAll_setChild h hname (ih hwell)
                next => exact h
              · exact List.cons_ne_nil _ _

end Entry

namespace FileSystem

variable {fs : FileSystem} {names : List String}

theorem wellFormed_erase (h : fs.wellFormed = true) (place : List String) :
    wellFormed { fs with tree := fs.tree.erase place } = true := by
  obtain ⟨hdir, hwell⟩ := Bool.and_eq_true_iff.mp h
  exact Bool.and_eq_true_iff.mpr ⟨Entry.isDir_erase place hdir, Entry.wellNamed_erase place hwell⟩

/-- Names are followed to the place they make or nowhere. -/
theorem eq_of_follow_names {tree : Entry} {place found : List String}
    (hnames : ∀ name ∈ names, isFileName name = true) (h : follow tree place names = .ok found) :
    found = place ++ names := by
  obtain ⟨e, he⟩ := exists_of_follow h
  induction names generalizing place with
  | nil =>
      rw [follow] at h
      split at h
      next =>
        obtain rfl := Except.ok.inj h
        exact (List.append_nil _).symm
      next => cases h
  | cons name names ih =>
      obtain ⟨-, -, hhere, hup⟩ := isFileName_iff.mp (hnames name List.mem_cons_self)
      rw [follow] at h
      simp only [hhere, hup, if_false] at h
      split at h
      next => cases h
      next => cases h
      next =>
        split at h
        next =>
          rw [ih (fun n hn => hnames n (List.mem_cons_of_mem _ hn)) h, List.append_assoc]
          rfl
        next => split at h <;> cases h

/-- Whether a directory stands at a place. -/
def HasDir (fs : FileSystem) (names : List String) : Prop :=
  ∃ entries, fs.tree.find? names = some (.dir entries)

/-- **A place where no directory stands, or no longer, cannot be entered.** -/
theorem exists_changeDir_error (hfs : fs.wellFormed = true)
    (hnames : ∀ name ∈ names, isFileName name = true) (h : ¬ fs.HasDir names) :
    ∃ cause, fs.changeDir (absolute names) = .error cause := by
  have hne : names ≠ [] := by
    rintro rfl
    obtain ⟨hdir, -⟩ := Bool.and_eq_true_iff.mp hfs
    cases htree : fs.tree with
    | file content =>
        rw [htree] at hdir
        cases hdir
    | dir entries => exact h ⟨entries, congrArg some htree⟩
  unfold changeDir
  rw [locate_absolute_eq hnames hne]
  cases hfollow : follow fs.tree [] names with
  | error cause => exact ⟨cause, rfl⟩
  | ok found =>
      obtain rfl := eq_of_follow_names hnames hfollow
      simp only [bind, Except.bind]
      split
      next entries hfound => exact absurd ⟨entries, hfound⟩ h
      next => exact ⟨_, rfl⟩
      next => exact ⟨_, rfl⟩

end FileSystem

/-! ## Single moves -/

namespace Trip

variable {t : Trip} {s : Stay} {rest : List Stay} {place : List String}

/-- A stay that is over is let go of without effect. -/
theorem letGo_ended (t : Trip) (h : s.ended = true) : t.letGo s = t := if_pos h

/-- **Entering begins one more stay, or changes nothing and says why.** -/
theorem move_enter (t : Trip) (dir : String) :
    (∃ detour inside, Detour.start t.fs dir = .ok (detour, inside) ∧
      t.move (.enter dir) = (t.entered detour inside, none)) ∨
    ∃ fault, t.move (.enter dir) = (t, some fault) := by
  cases hstart : Detour.start t.fs dir with
  | error fault =>
      refine .inr ⟨fault, ?_⟩
      simp only [move, hstart]
  | ok pair =>
      obtain ⟨detour, inside⟩ := pair
      refine .inl ⟨detour, inside, rfl, ?_⟩
      simp only [move, hstart]

/-- The trip after the latest stay has been left. -/
def left (t : Trip) (s : Stay) (rest : List Stay) : Trip :=
  { t with fs := s.detour.abandon t.fs, stays := rest, returns := t.returns ++ [s.number] }

/-- What finishing a detour reports. -/
def report (t : Trip) (s : Stay) : Option Fault :=
  match s.detour.finish t.fs with
  | .ok _ => none
  | .error fault => some fault

/-- **By finishing or by abandoning, the latest stay is left in the same way,** and going back is tried once;
    only finishing reports. -/
theorem move_leave (h : t.stays = s :: rest) (hs : s.ended = false) :
    t.move .finish = (t.left s rest, t.report s) ∧ t.move .abandon = (t.left s rest, none) := by
  constructor
  · show (match t.stays with
      | s :: rest => finish { t with stays := rest } s
      | [] => (t, none)) = _
    rw [h]
    dsimp only
    unfold finish left report Detour.abandon
    cases hfinish : s.detour.finish t.fs with
    | ok back =>
        dsimp only
        rw [letGo_ended _ rfl]
    | error fault =>
        dsimp only
        rw [letGo_ended _ rfl]
  · show (match t.stays with
      | s :: rest => (letGo { t with stays := rest } s, none)
      | [] => (t, none)) = _
    rw [h]
    dsimp only
    unfold letGo
    rw [if_neg (by rw [hs]; exact Bool.false_ne_true)]
    rfl

/-- Where there is no stay, nothing is left. -/
theorem move_leave_nil (h : t.stays = []) :
    t.move .finish = (t, none) ∧ t.move .abandon = (t, none) := by
  unfold move
  rw [h]
  exact ⟨rfl, rfl⟩

/-! ## What every move keeps -/

/-- **What holds on every trip:** no stay is over before it is left, each remembers a place, and going back has
    been tried once from every stay that has been left and from no other. -/
structure Sound (t : Trip) : Prop where
  files : t.fs.wellFormed = true
  stays : ∀ s ∈ t.stays, s.ended = false ∧
    ∃ names, (∀ name ∈ names, isFileName name = true) ∧ s.detour.home = absolute names
  numbers : (t.returns ++ t.stays.map Stay.number).Perm (List.range t.begun)

theorem sound_start {fs : FileSystem} (hfs : fs.wellFormed = true) : Sound { fs } where
  files := hfs
  stays := fun _ h => absurd h List.not_mem_nil
  numbers := List.Perm.refl _

/-- **All that a move can do:** begin a stay, leave the latest one, take something away, or nothing. -/
theorem Sound.move_cases (h : t.Sound) (m : Move) :
    (∃ dir detour inside, m = .enter dir ∧ Detour.start t.fs dir = .ok (detour, inside) ∧
      t.move m = (t.entered detour inside, none)) ∨
    (∃ s rest, t.stays = s :: rest ∧ (t.move m).1 = t.left s rest) ∨
    (∃ place, m = .remove place ∧
      (t.move m).1 = { t with fs := { t.fs with tree := t.fs.tree.erase place } }) ∨
    (t.move m).1 = t := by
  cases m with
  | enter dir =>
      rcases t.move_enter dir with ⟨detour, inside, hstart, hmove⟩ | ⟨fault, hmove⟩
      · exact .inl ⟨dir, detour, inside, rfl, hstart, hmove⟩
      · exact .inr (.inr (.inr (by rw [hmove])))
  | finish =>
      cases hstays : t.stays with
      | nil => exact .inr (.inr (.inr (by rw [(move_leave_nil hstays).1])))
      | cons s rest =>
          have hs := (h.stays s (hstays ▸ List.mem_cons_self)).1
          exact .inr (.inl ⟨s, rest, rfl, by rw [(move_leave hstays hs).1]⟩)
  | abandon =>
      cases hstays : t.stays with
      | nil => exact .inr (.inr (.inr (by rw [(move_leave_nil hstays).2])))
      | cons s rest =>
          have hs := (h.stays s (hstays ▸ List.mem_cons_self)).1
          exact .inr (.inl ⟨s, rest, rfl, by rw [(move_leave hstays hs).2]⟩)
  | remove place => exact .inr (.inr (.inl ⟨place, rfl, rfl⟩))

theorem tree_abandon (d : Detour) (fs : FileSystem) : (d.abandon fs).tree = fs.tree := by
  unfold Detour.abandon Detour.finish
  cases hchange : fs.changeDir d.home with
  | error fault => rfl
  | ok there =>
      obtain ⟨names, rfl⟩ := FileSystem.exists_of_changeDir hchange
      rfl

theorem Sound.entered (h : t.Sound) {dir : String} {detour : Detour} {inside : FileSystem}
    (hstart : Detour.start t.fs dir = .ok (detour, inside)) : (t.entered detour inside).Sound := by
  obtain ⟨hhome, ⟨entries, hentries⟩, names, rfl⟩ := Detour.exists_of_start hstart
  have hwell := (Bool.and_eq_true_iff.mp h.files).2
  refine ⟨h.files, fun s hs => ?_, ?_⟩
  · rcases List.mem_cons.mp hs with rfl | hs
    · exact ⟨rfl, t.fs.cwd, (Entry.wellNamed_of_find? hwell hentries).1, hhome⟩
    · exact h.stays s hs
  · show (t.returns ++ t.begun :: t.stays.map Stay.number).Perm (List.range (t.begun + 1))
    rw [List.range_succ]
    exact List.perm_middle.trans ((h.numbers.cons _).trans (List.perm_append_singleton _ _).symm)

theorem Sound.left (h : t.Sound) (hstays : t.stays = s :: rest) : (t.left s rest).Sound where
  files := by
    show ((s.detour.abandon t.fs).tree.isDir && (s.detour.abandon t.fs).tree.wellNamed) = true
    rw [tree_abandon]
    exact h.files
  stays := fun s' hs' => h.stays s' (hstays ▸ List.mem_cons_of_mem _ hs')
  numbers := by
    have hnumbers := h.numbers
    rw [hstays, List.map_cons] at hnumbers
    show (t.returns ++ [s.number] ++ rest.map Stay.number).Perm (List.range t.begun)
    rw [List.append_assoc]
    exact hnumbers

/-- **One move keeps a trip sound.** -/
theorem Sound.move (h : t.Sound) (m : Move) : (t.move m).1.Sound := by
  rcases h.move_cases m with ⟨dir, detour, inside, -, hstart, hmove⟩ | ⟨s, rest, hstays, hmove⟩ |
    ⟨place, -, hmove⟩ | hmove
  · rw [hmove]
    exact h.entered hstart
  · rw [hmove]
    exact h.left hstays
  · rw [hmove]
    exact ⟨FileSystem.wellFormed_erase h.files place, h.stays, h.numbers⟩
  · rw [hmove]
    exact h

theorem Sound.run (h : t.Sound) (moves : List Move) : (t.run moves).Sound := by
  induction moves generalizing t with
  | nil => exact h
  | cons m moves ih => exact ih (h.move m)

/-! ## Stays below the latest one -/

/-- A move begins a stay, leaves the latest one, or leaves the stays alone. -/
theorem Sound.stays_move (h : t.Sound) (m : Move) :
    (∃ dir s, m = .enter dir ∧ (t.move m).2 = none ∧ (t.move m).1.stays = s :: t.stays) ∨
      (∃ s, t.stays = s :: (t.move m).1.stays) ∨ (t.move m).1.stays = t.stays := by
  rcases h.move_cases m with ⟨dir, detour, inside, hm, -, hmove⟩ | ⟨s, rest, hstays, hmove⟩ |
    ⟨place, -, hmove⟩ | hmove
  · exact .inl ⟨dir, _, hm, by rw [hmove], by rw [hmove]; rfl⟩
  · exact .inr (.inl ⟨s, by rw [hmove]; exact hstays⟩)
  · exact .inr (.inr (by rw [hmove]))
  · exact .inr (.inr (by rw [hmove]))

/-- **Stays are untouched as long as there are never fewer of them.** -/
theorem Sound.suffix_run (h : t.Sound) {base : List Stay} (hbase : base <:+ t.stays) {moves : List Move}
    (hkept : ∀ n, base.length ≤ (t.run (moves.take n)).stays.length) : base <:+ (t.run moves).stays := by
  induction moves generalizing t with
  | nil => exact hbase
  | cons m moves ih =>
      refine ih (h.move m) ?_ fun n => hkept (n + 1)
      have hlength : base.length ≤ (t.move m).1.stays.length := hkept 1
      rcases h.stays_move m with ⟨dir, s, -, -, hstays⟩ | ⟨s, hstays⟩ | hstays
      · rw [hstays]
        exact hbase.trans (List.suffix_cons _ _)
      · rw [hstays, List.suffix_cons_iff] at hbase
        rcases hbase with rfl | hbase
        · rw [List.length_cons] at hlength
          omega
        · exact hbase
      · rw [hstays]
        exact hbase

/-- **Whether a stay lasts:** it began by entering `dir` after the moves `before`, and the moves `inner` since
    then have not left it. -/
structure Lasts (t : Trip) (before : List Move) (dir : String) (inner : List Move) : Prop where
  entered : ((t.run before).move (.enter dir)).2 = none
  kept : ∀ n, (t.run before).stays.length < (t.run (before ++ .enter dir :: inner.take n)).stays.length

variable {before inner : List Move} {dir : String}

theorem run_append (t : Trip) (a b : List Move) : t.run (a ++ b) = (t.run a).run b :=
  List.foldl_append

/-- A stay that lasts is still there with those below it, and remembers where it was entered from. -/
theorem Lasts.exists_stay (hl : t.Lasts before dir inner) (h : t.Sound) :
    ∃ s, s :: (t.run before).stays <:+ (t.run (before ++ .enter dir :: inner)).stays ∧
      s.detour.home = absolute (t.run before).fs.cwd ∧
      (t.run before).fs.HasDir (t.run before).fs.cwd := by
  rcases (t.run before).move_enter dir with ⟨detour, inside, hstart, hmove⟩ | ⟨fault, hmove⟩
  · obtain ⟨hhome, hdir, -⟩ := Detour.exists_of_start hstart
    refine ⟨⟨detour, (t.run before).begun, false⟩, ?_, hhome, hdir⟩
    rw [run_append]
    have hsound := (h.run before).move (.enter dir)
    show _ <:+ (((t.run before).move (.enter dir)).1.run inner).stays
    apply hsound.suffix_run
    · rw [hmove]
      exact List.suffix_refl _
    · intro n
      have hkept := hl.kept n
      rw [run_append] at hkept
      exact hkept
  · have hentered := hl.entered
    rw [hmove] at hentered
    cases hentered

/-- One move more does not end a stay that is still there after it. -/
theorem Lasts.snoc (hl : t.Lasts before dir inner) {m : Move}
    (h : (t.run before).stays.length < (t.run (before ++ .enter dir :: (inner ++ [m]))).stays.length) :
    t.Lasts before dir (inner ++ [m]) where
  entered := hl.entered
  kept := by
    intro n
    by_cases hn : n ≤ inner.length
    · rw [List.take_append_of_le_length hn]
      exact hl.kept n
    · rw [List.take_of_length_le (by rw [List.length_append, List.length_singleton]; omega)]
      exact h

/-- **Every stay on a trip began by a move of the trip,** and lasts since then. -/
theorem Sound.exists_lasts (h : t.Sound) (hnone : t.stays = []) (moves : List Move) (s : Stay)
    (rest : List Stay) (hs : s :: rest <:+ (t.run moves).stays) :
    ∃ before dir inner, moves = before ++ .enter dir :: inner ∧ t.Lasts before dir inner ∧
      (t.run before).stays = rest := by
  induction moves using List.reverseRecOn with
  | nil =>
      rw [show (t.run []).stays = [] from hnone] at hs
      exact absurd (List.suffix_nil.mp hs) (List.cons_ne_nil _ _)
  | append_singleton moves m ih =>
      have hrun : t.run (moves ++ [m]) = ((t.run moves).move m).1 := run_append t moves [m]
      -- a stay that was there before the last move has lasted through it
      have hlater : s :: rest <:+ (t.run moves).stays → ∃ before dir inner,
          moves ++ [m] = before ++ .enter dir :: inner ∧ t.Lasts before dir inner ∧
            (t.run before).stays = rest := by
        intro hearlier
        obtain ⟨before, dir, inner, rfl, hl, rfl⟩ := ih hearlier
        have heq : before ++ .enter dir :: inner ++ [m] = before ++ .enter dir :: (inner ++ [m]) := by
          rw [List.append_assoc, List.cons_append]
        rw [heq] at hs ⊢
        exact ⟨before, dir, inner ++ [m], rfl, hl.snoc hs.length_le, rfl⟩
      rw [hrun] at hs
      rcases (h.run moves).stays_move m with ⟨dir, new, rfl, hnew, hstays⟩ | ⟨last, hstays⟩ | hstays
      · rw [hstays, List.suffix_cons_iff] at hs
        rcases hs with heq | hs
        · obtain ⟨rfl, rfl⟩ := List.cons.inj heq
          refine ⟨moves, dir, [], rfl, ⟨hnew, fun n => ?_⟩, rfl⟩
          rw [List.take_nil, hrun, hstays, List.length_cons]
          exact Nat.lt_succ_self _
        · exact hlater hs
      · exact hlater (hstays ▸ hs.trans (List.suffix_cons _ _))
      · exact hlater (hstays ▸ hs)

/-! ## Leaving -/

/-- **Where leaving the latest stay leads.** Finishing and abandoning it leave the same stays and lead to the same
    place: back to `place` if that is still there, and else nowhere, which only finishing reports. -/
structure LeavesTo (t : Trip) (place : List String) (rest : List Stay) : Prop where
  alike : (t.move .finish).1 = (t.move .abandon).1
  stays : (t.move .abandon).1.stays = rest
  silent : (t.move .abandon).2 = none
  back : t.fs.HasDir place →
    (t.move .abandon).1.fs = { t.fs with cwd := place } ∧ (t.move .finish).2 = none
  stuck : ¬ t.fs.HasDir place →
    (t.move .abandon).1.fs = t.fs ∧ ∃ cause, (t.move .finish).2 = some (.workdir (absolute place) cause)

/-- **The latest stay is left for the place that it remembers.** -/
theorem Sound.leavesTo (h : t.Sound) (hstays : t.stays = s :: rest) (hhome : s.detour.home = absolute place)
    (hplace : ∀ name ∈ place, isFileName name = true) : t.LeavesTo place rest := by
  obtain ⟨hfinish, habandon⟩ := move_leave hstays (h.stays s (hstays ▸ List.mem_cons_self)).1
  refine ⟨?_, ?_, ?_, ?_, ?_⟩
  · rw [hfinish, habandon]
  · rw [habandon]
    rfl
  · rw [habandon]
  · rintro ⟨entries, hentries⟩
    have hback : s.detour.finish t.fs = .ok { t.fs with cwd := place } := by
      unfold Detour.finish
      rw [hhome, FileSystem.changeDir_absolute h.files hentries]
      rfl
    rw [hfinish, habandon]
    unfold Trip.left report Detour.abandon
    rw [hback]
    exact ⟨rfl, rfl⟩
  · intro hgone
    obtain ⟨cause, hcause⟩ := FileSystem.exists_changeDir_error h.files hplace hgone
    have hback : s.detour.finish t.fs = .error (.workdir (absolute place) cause) := by
      unfold Detour.finish
      rw [hhome, hcause]
      rfl
    rw [hfinish, habandon]
    unfold Trip.left report Detour.abandon
    rw [hback]
    exact ⟨rfl, cause, rfl⟩

/-- A stay that lasts and is the latest is left for where it was entered from. -/
theorem Lasts.leavesTo (hl : t.Lasts before dir inner) (h : t.Sound)
    (hlevel : (t.run (before ++ .enter dir :: inner)).stays.length = (t.run before).stays.length + 1) :
    (t.run (before ++ .enter dir :: inner)).LeavesTo (t.run before).fs.cwd (t.run before).stays := by
  obtain ⟨s, hs, hhome, entries, hdir⟩ := hl.exists_stay h
  have hplace := (Entry.wellNamed_of_find? (Bool.and_eq_true_iff.mp (h.run before).files).2 hdir).1
  have hstays : s :: (t.run before).stays = (t.run (before ++ .enter dir :: inner)).stays :=
    hs.eq_of_length hlevel.symm
  exact (h.run _).leavesTo hstays.symm hhome hplace

/-! ## Trips on which nothing vanishes -/

theorem Sound.tree_move (h : t.Sound) {m : Move} (hm : m.spares = true) :
    (t.move m).1.fs.tree = t.fs.tree := by
  rcases h.move_cases m with ⟨dir, detour, inside, -, hstart, hmove⟩ | ⟨s, rest, -, hmove⟩ |
    ⟨place, rfl, -⟩ | hmove
  · rw [hmove]
    exact (Detour.finish_start h.files hstart).1
  · rw [hmove]
    exact tree_abandon _ _
  · cases hm
  · rw [hmove]

theorem Sound.tree_run (h : t.Sound) {moves : List Move} (hmoves : ∀ m ∈ moves, m.spares = true) :
    (t.run moves).fs.tree = t.fs.tree := by
  induction moves generalizing t with
  | nil => rfl
  | cons m moves ih =>
      obtain ⟨hm, hmoves⟩ := List.forall_mem_cons.mp hmoves
      exact (ih (h.move m) hmoves).trans (h.tree_move hm)

/-- Where leaving all stays, one after another, would lead. -/
def unwound (t : Trip) : FileSystem := t.stays.foldl (fun fs s => s.detour.abandon fs) t.fs

/-- **As long as nothing vanishes, leaving all stays leads to one and the same place.** -/
theorem Sound.unwound_move (h : t.Sound) {m : Move} (hm : m.spares = true) :
    (t.move m).1.unwound = t.unwound := by
  rcases h.move_cases m with ⟨dir, detour, inside, -, hstart, hmove⟩ | ⟨s, rest, hstays, hmove⟩ |
    ⟨place, rfl, -⟩ | hmove
  · have hback : detour.abandon inside = t.fs := by
      unfold Detour.abandon
      rw [(Detour.finish_start h.files hstart).2]
    rw [hmove]
    show t.stays.foldl _ (detour.abandon inside) = _
    rw [hback]
    rfl
  · rw [hmove]
    unfold unwound
    rw [hstays]
    rfl
  · cases hm
  · rw [hmove]

theorem Sound.unwound_run (h : t.Sound) {moves : List Move} (hmoves : ∀ m ∈ moves, m.spares = true) :
    (t.run moves).unwound = t.unwound := by
  induction moves generalizing t with
  | nil => rfl
  | cons m moves ih =>
      obtain ⟨hm, hmoves⟩ := List.forall_mem_cons.mp hmoves
      exact (ih (h.move m) hmoves).trans (h.unwound_move hm)

/-! ## Whole trips -/

/-- **Detours inside detours lead back.** On any trip:
* an attempt to enter a directory that fails changes nothing;
* every stay that is left was entered by some move and has lasted since then, and it is left for where it was
  entered from, if a directory still stands there; without removals the files and the working directory are then
  as they were just before it was entered;
* going back is tried at most once from each stay, and not before it is left;
* without removals the trip is where it began whenever there is no stay. -/
theorem run_nested (fs : FileSystem) (hfs : fs.wellFormed = true) (moves : List Move) :
    let start : Trip := { fs }
    let t := start.run moves
    (∀ dir fault, (t.move (.enter dir)).2 = some fault → (t.move (.enter dir)).1 = t) ∧
    (∀ s rest, t.stays = s :: rest → ∃ before dir inner, moves = before ++ .enter dir :: inner ∧
      start.Lasts before dir inner ∧ (start.run before).stays = rest) ∧
    (∀ before dir inner, moves = before ++ .enter dir :: inner → start.Lasts before dir inner →
      t.stays.length = (start.run before).stays.length + 1 →
        t.LeavesTo (start.run before).fs.cwd (start.run before).stays ∧
        ((∀ m ∈ inner, m.spares = true) → (t.move .abandon).1.fs = (start.run before).fs)) ∧
    (t.returns ++ t.stays.map Stay.number).Nodup ∧
    ((∀ m ∈ moves, m.spares = true) → t.stays = [] → t.fs = fs) := by
  intro start t
  have hstart : start.Sound := sound_start hfs
  refine ⟨?_, ?_, ?_, ?_, ?_⟩
  · intro dir fault hfault
    rcases t.move_enter dir with ⟨detour, inside, -, hmove⟩ | ⟨fault', hmove⟩
    · rw [hmove] at hfault
      cases hfault
    · rw [hmove]
  · intro s rest hstays
    exact hstart.exists_lasts rfl moves s rest (hstays ▸ List.suffix_refl _)
  · rintro before dir inner hmoves hl hlevel
    have ht : t = start.run (before ++ .enter dir :: inner) := congrArg start.run hmoves
    rw [ht] at hlevel ⊢
    have hleaves := hl.leavesTo hstart hlevel
    refine ⟨hleaves, fun hspares => ?_⟩
    obtain ⟨-, -, -, hdir⟩ := hl.exists_stay hstart
    have htree : (start.run (before ++ .enter dir :: inner)).fs.tree = (start.run before).fs.tree := by
      rw [run_append]
      exact (hstart.run before).tree_run (List.forall_mem_cons.mpr ⟨rfl, hspares⟩)
    have hthere : (start.run (before ++ .enter dir :: inner)).fs.HasDir (start.run before).fs.cwd := by
      unfold FileSystem.HasDir
      rw [htree]
      exact hdir
    rw [(hleaves.back hthere).1]
    show FileSystem.mk (start.run (before ++ .enter dir :: inner)).fs.tree (start.run before).fs.cwd = _
    rw [htree]
  · exact (hstart.run moves).numbers.nodup_iff.mpr List.nodup_range
  · intro hspares hnone
    have hunwound : t.unwound = fs := hstart.unwound_run hspares
    unfold unwound at hunwound
    rw [hnone] at hunwound
    exact hunwound

/-- From one directory into another, after which the first one vanishes. -/
def crossing : List Move := [.enter "a", .enter "../c", .enter "nowhere", .remove ["a"]]

/-- The directories that are crossed. -/
def crossed : FileSystem := ⟨.dir [("a", .dir [("b", .dir [])]), ("c", .dir [])], []⟩

theorem run_nested_crossing :
    crossed.wellFormed = true ∧
    (∃ before dir inner, crossing = before ++ .enter dir :: inner ∧ Lasts { fs := crossed } before dir inner ∧
      (run { fs := crossed } before).stays = [⟨⟨"/"⟩, 0, false⟩]) ∧
    (run { fs := crossed } crossing).LeavesTo ["a"] [⟨⟨"/"⟩, 0, false⟩] ∧
    ¬ (run { fs := crossed } crossing).fs.HasDir ["a"] := by
  have hfs : crossed.wellFormed = true := by decide +kernel
  obtain ⟨-, hbegan, hleaves, -, -⟩ := run_nested crossed hfs crossing
  have hstays : (run { fs := crossed } crossing).stays = [⟨⟨"/a"⟩, 1, false⟩, ⟨⟨"/"⟩, 0, false⟩] := by
    decide +kernel
  have hbefore : (run { fs := crossed } [.enter "a"]).fs.cwd = ["a"] ∧
      (run { fs := crossed } [.enter "a"]).stays = [⟨⟨"/"⟩, 0, false⟩] := by decide +kernel
  have hlasts : Lasts { fs := crossed } [.enter "a"] "../c" [.enter "nowhere", .remove ["a"]] := by
    refine ⟨by decide +kernel, fun n => ?_⟩
    match n with
    | 0 => decide +kernel
    | 1 => decide +kernel
    | n + 2 =>
        show _ < (run { fs := crossed } (.enter "a" :: .enter "../c" :: .enter "nowhere" ::
          .remove ["a"] :: [].take n)).stays.length
        rw [List.take_nil]
        decide +kernel
  have hcrossing := (hleaves _ _ _ rfl hlasts (by decide +kernel)).1
  rw [hbefore.1, hbefore.2] at hcrossing
  refine ⟨hfs, hbegan _ _ hstays, hcrossing, ?_⟩
  rintro ⟨entries, hentries⟩
  have hgone : ((run { fs := crossed } crossing).fs.tree.find? ["a"]).isNone = true := by decide +kernel
  rw [hentries] at hgone
  cases hgone

end Trip
end GoExcerpt
