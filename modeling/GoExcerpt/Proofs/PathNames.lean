import GoExcerpt.Load.Module
import GoExcerpt.Proofs.Places

/-!
# `Proofs.PathNames` — names can be told from paths

A name has no slash in it, so a path made of names determines them: the absolute path of a place
(`absolute_inj`), the path of a file below a directory however that is written (`filePath_inj`), and the import
path of a directory (`importPath_inj`). The mark of external tests spoils this: with it the import path of one
directory is that of another, whose last name ends in the mark (`importPath_marked_iff`).
-/

namespace GoExcerpt

open FileSystem (absolute)

/-! ## Places -/

section

variable {a b : List String}

theorem FileSystem.absolute_inj (ha : ∀ name ∈ a, isFileName name = true)
    (hb : ∀ name ∈ b, isFileName name = true) : absolute a = absolute b ↔ a = b := by
  constructor
  · intro h
    have hempty : a = [] ↔ b = [] := by rw [← endsWith_absolute ha, ← endsWith_absolute hb, h]
    by_cases hne : a = []
    · rw [hne, hempty.mp hne]
    · rw [← piecesOf_absolute ha hne, h, piecesOf_absolute hb (mt hempty.mpr hne)]
  · rintro rfl
    rfl

theorem FileSystem.absolute_ne_empty (a : List String) : absolute a ≠ "" := by
  intro h
  have hlist := congrArg String.toList h
  simp [absolute] at hlist

end

namespace Load

/-! ## Files -/

/-- The path of a directory with the slash that comes before what lies in it. -/
def opened (dir : String) : String :=
  if dir = "" then "" else if dir.endsWith "/" then dir else dir ++ "/"

theorem join_name (dir : String) {name : String} (h : isFileName name = true) :
    Path.join dir name = opened dir ++ name := by
  have hrelative : Path.isAbsolute name = false := Path.isAbsolute_of_not_mem (isFileName_iff.mp h).2.1
  unfold Path.join opened
  rw [hrelative, Bool.false_or]
  by_cases hempty : dir = ""
  · rw [if_pos (by simpa using hempty), if_pos hempty, String.empty_append]
  · rw [if_neg (by simpa using hempty), if_neg hempty]
    split
    next => rfl
    next => rfl

/-- What lies in a directory that is reached by a name comes after a slash. -/
theorem opened_append (dir : String) {name : String} (h : isFileName name = true) :
    opened (opened dir ++ name) = opened dir ++ name ++ "/" := by
  obtain ⟨hempty, hslash, -⟩ := isFileName_iff.mp h
  have hends : ¬ (opened dir ++ name).endsWith "/" = true := by
    rw [FileSystem.endsWith_slash_iff, String.toList_append, List.getLast?_append]
    intro hlast
    cases hname : name.toList.getLast? with
    | none => exact hempty (by simpa using hname)
    | some c =>
        rw [hname] at hlast
        obtain rfl := Option.some.inj hlast
        exact hslash (List.mem_of_getLast? hname)
  have hne : opened dir ++ name ≠ "" := by
    intro habs
    exact hempty (String.append_eq_empty_iff.mp habs).2
  rw [opened, if_neg hne, if_neg hends]

/-- **The path of a file is made of the path of the directory and the names below it.** -/
theorem filePath_eq (dir : String) {names : List String} (h : ∀ name ∈ names, isFileName name = true)
    (hne : names ≠ []) : filePath dir names = opened dir ++ "/".intercalate names := by
  induction names generalizing dir with
  | nil => exact absurd rfl hne
  | cons name rest ih =>
      have hname : isFileName name = true := h name List.mem_cons_self
      show filePath (Path.join dir name) rest = _
      rw [join_name dir hname]
      cases rest with
      | nil =>
          rw [String.intercalate_singleton]
          rfl
      | cons next later =>
          rw [ih (opened dir ++ name) (fun n hn => h n (List.mem_cons_of_mem _ hn)) (List.cons_ne_nil _ _),
            opened_append dir hname, String.intercalate_cons_cons]
          simp only [String.append_assoc]

/-- **Two files below a directory have the same path only if the same names lead to them.** -/
theorem filePath_inj (dir : String) {a b : List String} (ha : ∀ name ∈ a, isFileName name = true)
    (hb : ∀ name ∈ b, isFileName name = true) (hane : a ≠ []) (hbne : b ≠ [])
    (h : filePath dir a = filePath dir b) : a = b := by
  rw [filePath_eq dir ha hane, filePath_eq dir hb hbne, String.append_right_inj] at h
  exact (FileSystem.absolute_inj ha hb).mp (congrArg ("/" ++ ·) h)

/-! ## Import paths -/

/-- The path of a directory below the module directory continues the module path. -/
theorem importPath_eq (modulePath : String) (dir : List String) :
    importPath modulePath dir = if dir = [] then modulePath else modulePath ++ absolute dir := by
  unfold importPath absolute
  by_cases h : dir = []
  · rw [if_pos (by simpa using h), if_pos h]
  · rw [if_neg (by simpa using h), if_neg h, String.append_assoc]

variable {modulePath : String} {a b : List String}

/-- **Two directories have the same import path only if they are the same.** -/
theorem importPath_inj (ha : ∀ name ∈ a, isFileName name = true)
    (hb : ∀ name ∈ b, isFileName name = true) :
    importPath modulePath a = importPath modulePath b ↔ a = b := by
  constructor
  · intro h
    rw [importPath_eq, importPath_eq] at h
    split at h
    next hanil =>
      split at h
      next hbnil => rw [hanil, hbnil]
      next => exact absurd (String.append_eq_left_iff.mp h.symm) (FileSystem.absolute_ne_empty b)
    next hane =>
      split at h
      next => exact absurd (String.append_eq_left_iff.mp h) (FileSystem.absolute_ne_empty a)
      next => exact (FileSystem.absolute_inj ha hb).mp ((String.append_right_inj _).mp h)
  · rintro rfl
    rfl

/-- A directory whose last name is that of another with the mark of external tests. -/
def Marked (a b : List String) : Prop :=
  ∃ above name, a = above ++ [name] ∧ b = above ++ [name ++ "_test"]

theorem absolute_marked (above : List String) (name : String) :
    absolute (above ++ [name ++ "_test"]) = absolute (above ++ [name]) ++ "_test" := by
  rw [FileSystem.absolute_concat, FileSystem.absolute_concat, String.append_assoc]

theorem isFileName_marked {name : String} (h : isFileName name = true) :
    isFileName (name ++ "_test") = true := by
  obtain ⟨-, hslash, -, -⟩ := isFileName_iff.mp h
  have hlength : ∀ other : String, other.length < 5 → name ++ "_test" ≠ other := by
    rintro other hshort rfl
    rw [String.length_append, show "_test".length = 5 from rfl] at hshort
    omega
  refine isFileName_iff.mpr ⟨hlength _ (by decide), ?_, hlength _ (by decide), hlength _ (by decide)⟩
  rw [String.toList_append, List.mem_append]
  rintro (h | h)
  · exact hslash h
  · exact absurd h (by decide)

/-- **With the mark of external tests the import path of a directory is that of another** exactly if the
    other's last name carries the mark. -/
theorem importPath_marked_iff (ha : ∀ name ∈ a, isFileName name = true)
    (hb : ∀ name ∈ b, isFileName name = true) :
    importPath modulePath a ++ "_test" = importPath modulePath b ↔ Marked a b := by
  constructor
  · intro h
    rcases List.eq_nil_or_concat a with rfl | ⟨above, name, rfl⟩
    · -- the module path with the mark is no path of a directory
      exfalso
      rw [importPath_eq, importPath_eq, if_pos rfl] at h
      split at h
      next => exact absurd (String.append_eq_left_iff.mp h) (by decide)
      next =>
        have hhead := congrArg (fun s : String => s.toList.head?) ((String.append_right_inj _).mp h)
        simp [absolute] at hhead
    · rw [List.concat_eq_append] at ha h ⊢
      refine ⟨above, name, rfl, ?_⟩
      have hmarked : ∀ n ∈ above ++ [name ++ "_test"], isFileName n = true := by
        intro n hn
        rcases List.mem_append.mp hn with hn | hn
        · exact ha n (List.mem_append_left _ hn)
        · rw [List.mem_singleton.mp hn]
          exact isFileName_marked (ha name (by simp))
      refine (importPath_inj hb hmarked).mp (h.symm.trans ?_)
      rw [importPath_eq, importPath_eq, if_neg (by simp), if_neg (by simp), absolute_marked,
        String.append_assoc]
  · rintro ⟨above, name, rfl, rfl⟩
    rw [importPath_eq, importPath_eq, if_neg (by simp), if_neg (by simp), absolute_marked,
      String.append_assoc]

end Load
end GoExcerpt
