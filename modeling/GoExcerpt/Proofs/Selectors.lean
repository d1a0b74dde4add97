import GoExcerpt.Proofs.Membership
import GoExcerpt.Proofs.PathSpelling
import Mathlib.Data.List.DropRight

/-!
# `Proofs.Selectors` — what a package selector means

A selector is stripped of what may be written around a path: any number of `./` in front and of slashes at the
end. A path that has neither is *bare* (`Bare`); stripping makes every text bare and leaves a bare one alone
(`bare_strip`, `strip_of_bare`). What a selector means depends on the bare path it selects and on nothing else
(`qualify_eq`, `qualify_of_bare`), and is a member path that means itself (`qualify_stable`). A member path continues,
piece by piece, one of the paths of the manifest (`isMember_iff_pieces`).
-/

namespace GoExcerpt
namespace Manifest

/-! ## Stripping -/

/-- A text without anything around it that a selector may have: neither a `./` in front nor a slash at the end. -/
structure Bare (cs : List Char) : Prop where
  front : ¬ ['.', '/'] <+: cs
  back : cs.getLast? ≠ some '/'

/-- A selector's text without anything around it. -/
def strip (cs : List Char) : List Char := Text.dropEndWhile (· == '/') (dropHere cs)

section

variable {cs : List Char}

theorem front_dropHere (cs : List Char) : ¬ ['.', '/'] <+: dropHere cs := by
  fun_induction dropHere cs with
  | case1 cs ih => exact ih
  | case2 cs h =>
      rintro ⟨rest, hrest⟩
      exact h rest hrest.symm

theorem dropHere_of_front (h : ¬ ['.', '/'] <+: cs) : dropHere cs = cs := by
  unfold dropHere
  split
  next rest => exact absurd ⟨rest, rfl⟩ h
  next => rfl

/-- What is put after a text makes a `./` in front only together with a dot, or alone. -/
theorem front_append {more : List Char} (h : ¬ ['.', '/'] <+: cs) (hmore : ¬ ['.', '/'] <+: more)
    (hdot : cs = ['.'] → more.head? ≠ some '/') : ¬ ['.', '/'] <+: cs ++ more := by
  rintro ⟨rest, hrest⟩
  match cs, hrest with
  | [], hrest => exact hmore ⟨rest, hrest⟩
  | [c], hrest =>
      obtain ⟨hc, hslash⟩ := List.cons.inj hrest
      have hmore : '/' :: rest = more := hslash
      exact hdot (by rw [← hc]) (by rw [← hmore]; rfl)
  | c :: d :: later, hrest =>
      obtain ⟨hc, hrest⟩ := List.cons.inj hrest
      obtain ⟨hd, -⟩ := List.cons.inj hrest
      exact h ⟨later, by rw [← hc, ← hd]; rfl⟩

/-- A slash at the end stays there, unless it makes the text a `./`. -/
theorem dropHere_append_slash (cs : List Char) :
    dropHere (cs ++ ['/']) = if dropHere cs = ['.'] then [] else dropHere cs ++ ['/'] := by
  fun_induction dropHere cs with
  | case1 cs ih => exact ih
  | case2 cs h =>
      split
      next hdot =>
        subst hdot
        rfl
      next hdot =>
        refine dropHere_of_front (front_append ?_ (by decide) fun heq => absurd heq hdot)
        rintro ⟨rest, hrest⟩
        exact h rest hrest.symm

theorem bare_strip (cs : List Char) : Bare (strip cs) where
  front := by
    intro h
    have hprefix : strip cs <+: dropHere cs := List.rdropWhile_prefix _ _
    exact front_dropHere cs (h.trans hprefix)
  back := by
    intro h
    have hne : strip cs ≠ [] := List.ne_nil_of_mem (List.mem_of_getLast? h)
    rw [List.getLast?_eq_some_getLast hne] at h
    exact List.rdropWhile_last_not (· == '/') (dropHere cs) hne (beq_iff_eq.mpr (Option.some.inj h))

theorem strip_of_bare (h : Bare cs) : strip cs = cs := by
  unfold strip
  rw [dropHere_of_front h.front]
  refine List.rdropWhile_eq_self_iff.mpr fun hne hlast => h.back ?_
  rw [List.getLast?_eq_some_getLast hne]
  simpa using hlast

theorem strip_here (cs : List Char) : strip ('.' :: '/' :: cs) = strip cs := rfl

/-- A slash at the end makes no difference, except that it may turn a dot into nothing. -/
theorem strip_append_slash (cs : List Char) :
    strip (cs ++ ['/']) = strip cs ∨ strip cs = ['.'] ∧ strip (cs ++ ['/']) = [] := by
  unfold strip
  rw [dropHere_append_slash]
  by_cases hdot : dropHere cs = ['.']
  · rw [if_pos hdot, hdot]
    exact .inr ⟨rfl, rfl⟩
  · rw [if_neg hdot]
    exact .inl (List.rdropWhile_concat_pos _ _ _ rfl)

end

/-! ## What a selector selects -/

variable {m : Manifest} {path s t : String}

/-- What is selected: a bare path, empty for the module itself. -/
def selected (s : String) : String :=
  let stripped := String.ofList (strip s.toList)
  if stripped = "." then "" else stripped

/-- **A selector means what it selects:** the module if that is nothing, else the path itself if that is a
    member's, else the path below the module. -/
theorem qualify_eq (m : Manifest) (s : String) :
    m.qualify s = if selected s = "" then m.modulePath
      else if m.isMember (selected s) = true then selected s else m.modulePath ++ "/" ++ selected s := by
  unfold qualify selected
  change (if (String.ofList (strip s.toList) == "" || String.ofList (strip s.toList) == ".") = true then m.modulePath
    else if m.isMember (String.ofList (strip s.toList)) = true then String.ofList (strip s.toList)
    else m.modulePath ++ "/" ++ String.ofList (strip s.toList)) = _
  by_cases hdot : String.ofList (strip s.toList) = "."
  · simp [hdot]
  · simp [hdot]

theorem qualify_congr (h : selected s = selected t) : m.qualify s = m.qualify t := by
  rw [qualify_eq, h, ← qualify_eq]

theorem bare_selected (s : String) : Bare (selected s).toList := by
  unfold selected
  dsimp only
  split
  next => exact ⟨by decide, by decide⟩
  next =>
    rw [String.toList_ofList]
    exact bare_strip s.toList

theorem selected_ne_dot (s : String) : selected s ≠ "." := by
  unfold selected
  dsimp only
  split
  next => decide
  next h => exact h

theorem selected_of_bare (h : Bare s.toList) : selected s = if s = "." then "" else s := by
  unfold selected
  rw [strip_of_bare h, String.ofList_toList]

theorem selected_selected (s : String) : selected (selected s) = selected s := by
  rw [selected_of_bare (bare_selected s), if_neg (selected_ne_dot s)]

theorem selected_here (s : String) : selected ("./" ++ s) = selected s := by
  have hlist : ("./" ++ s).toList = '.' :: '/' :: s.toList := by simp
  unfold selected
  rw [hlist, strip_here]

theorem selected_append_slash (s : String) : selected (s ++ "/") = selected s := by
  have hlist : (s ++ "/").toList = s.toList ++ ['/'] := by simp
  unfold selected
  rw [hlist]
  rcases strip_append_slash s.toList with heq | ⟨hdot, hnil⟩
  · rw [heq]
  · rw [hdot, hnil]
    rfl

/-- **What a bare selector means:** the module if it is empty or a dot, itself if it is a member path, else the path
    below the module. -/
theorem qualify_of_bare (h : Bare s.toList) :
    m.qualify s = if s = "" ∨ s = "." then m.modulePath
      else if m.isMember s = true then s else m.modulePath ++ "/" ++ s := by
  rw [qualify_eq, selected_of_bare h]
  by_cases hdot : s = "."
  · rw [if_pos hdot, if_pos rfl, if_pos (.inr hdot)]
  · rw [if_neg hdot]
    refine if_congr ?_ rfl rfl
    exact (or_iff_left hdot).symm

theorem qualify_eq_self (hbare : Bare path.toList) (hmember : m.isMember path = true)
    (hself : path = "" ∨ path = "." → path = m.modulePath) : m.qualify path = path := by
  rw [qualify_of_bare hbare, if_pos hmember]
  split
  next hmodule => exact (hself hmodule).symm
  next => rfl

/-! ## Members -/

/-- **A path is a member exactly if it begins, piece by piece, with a path of the manifest.** -/
theorem isMember_iff_pieces (m : Manifest) (path : String) :
    m.isMember path = true ↔ ∃ root ∈ m.roots, Text.pieces '/' root <+: Text.pieces '/' path := by
  rw [isMember_iff]
  refine exists_congr fun root => and_congr_right fun _ => ?_
  rw [liesUnder_iff, Text.pieces_prefix_iff]
  constructor
  · rintro (heq | ⟨rest, heq⟩)
    · exact .inl (String.toList_inj.mp heq)
    · exact .inr ⟨String.ofList rest, String.toList_inj.mp (by simp [heq])⟩
  · rintro (rfl | ⟨rest, rfl⟩)
    · exact .inl rfl
    · exact .inr ⟨rest.toList, by simp⟩

theorem isMember_qualify (h : m.roots ≠ []) (s : String) : m.isMember (m.qualify s) = true := by
  rw [qualify_eq]
  split
  next => exact isMember_modulePath h
  next =>
    split
    next hmember => exact hmember
    next => exact isMember_below h _

/-! ## Qualifying what is qualified -/

/-- A path below a bare module path is bare, unless the module path is a dot. -/
theorem bare_below {root : String} (hroot : Bare root.toList) (hdot : root ≠ ".")
    (hs : s.toList.getLast? ≠ some '/') (hne : s ≠ "") : Bare (root ++ "/" ++ s).toList where
  front := by
    have hlist : (root ++ "/" ++ s).toList = root.toList ++ '/' :: s.toList := by simp
    rw [hlist]
    exact front_append hroot.front (by simp) fun heq => absurd (String.toList_inj.mp heq) hdot
  back := by
    have hlast : s.toList ≠ [] := fun hnil => hne (String.toList_eq_nil_iff.mp hnil)
    rw [String.toList_append, List.getLast?_append_of_ne_nil _ hlast]
    exact hs

theorem qualify_qualify (h : m.roots ≠ []) (hroot : Bare m.modulePath.toList) (s : String) :
    m.qualify (m.qualify s) = m.qualify s := by
  have hmember := isMember_qualify h s
  by_cases hempty : selected s = ""
  · have hmeant : m.qualify s = m.modulePath := by rw [qualify_eq, if_pos hempty]
    rw [hmeant] at hmember ⊢
    exact qualify_eq_self hroot hmember fun _ => rfl
  · by_cases hin : m.isMember (selected s) = true
    · have hmeant : m.qualify s = selected s := by rw [qualify_eq, if_neg hempty, if_pos hin]
      rw [hmeant, qualify_congr (selected_selected s), hmeant]
    · have hmeant : m.qualify s = m.modulePath ++ "/" ++ selected s := by
        rw [qualify_eq, if_neg hempty, if_neg hin]
      by_cases hdot : m.modulePath = "."
      · -- what is below a dot is stripped of it again
        have hback : m.qualify s = "./" ++ selected s := by rw [hmeant, hdot]; rfl
        conv_lhs => rw [hback]
        exact qualify_congr ((selected_here _).trans (selected_selected s))
      · rw [hmeant] at hmember ⊢
        refine qualify_eq_self (bare_below hroot hdot (bare_selected s).back hempty) hmember ?_
        have hslash : '/' ∈ (m.modulePath ++ "/" ++ selected s).toList := by simp
        rintro (habs | habs)
        · rw [habs] at hslash
          exact absurd hslash (by decide)
        · rw [habs] at hslash
          exact absurd hslash (by decide)

/-! ## Stability -/

theorem bare_iff : Bare s.toList ↔ s.startsWith "./" = false ∧ s.endsWith "/" = false := by
  have hfront : ['.', '/'] <+: s.toList ↔ s.startsWith "./" = true := by
    show "./".toList <+: s.toList ↔ _
    exact String.startsWith_string_iff.symm
  have hback : s.toList.getLast? = some '/' ↔ s.endsWith "/" = true := FileSystem.endsWith_slash_iff.symm
  rw [← Bool.not_eq_true, ← Bool.not_eq_true, ← hfront, ← hback]
  exact ⟨fun h => ⟨h.front, h.back⟩, fun h => ⟨h.1, h.2⟩⟩

/-- A module path that does not begin with a dot is bare unless it ends in a slash. -/
theorem bare_modulePath_of_dot (hdot : m.modulePath.startsWith "." = false)
    (hback : m.modulePath.endsWith "/" = false) : Bare m.modulePath.toList ∧ m.modulePath ≠ "." := by
  refine ⟨bare_iff.mpr ⟨?_, hback⟩, ?_⟩
  · rw [← Bool.not_eq_true] at hdot ⊢
    intro hfront
    obtain ⟨rest, hrest⟩ := String.startsWith_string_iff.mp hfront
    exact hdot (String.startsWith_string_iff.mpr ⟨'/' :: rest, hrest⟩)
  · intro habs
    rw [habs] at hdot
    exact absurd hdot (by decide +kernel)

/-- **What selectors mean is stable.** Paths are members piece by piece. A selector with neither a `./` in front nor
    a slash at the end means the module if it is empty or a dot, itself if it is a member path, and else the path
    below the module. Where the module path is of that kind, every selector means a member path, which means itself
    when it is given as a selector; and a `./` in front or a slash at the end makes no difference to any. -/
theorem qualify_stable (m : Manifest) :
    (∀ path, m.isMember path = true ↔ ∃ root ∈ m.roots, Text.pieces '/' root <+: Text.pieces '/' path) ∧
    (∀ s, s.startsWith "./" = false → s.endsWith "/" = false →
      m.qualify s = if s = "" ∨ s = "." then m.modulePath
        else if m.isMember s = true then s else m.modulePath ++ "/" ++ s) ∧
    (m.roots ≠ [] → m.modulePath.startsWith "./" = false → m.modulePath.endsWith "/" = false → ∀ s,
      m.isMember (m.qualify s) = true ∧ m.qualify (m.qualify s) = m.qualify s ∧
      m.qualify ("./" ++ s) = m.qualify s ∧ m.qualify (s ++ "/") = m.qualify s) := by
  refine ⟨isMember_iff_pieces m, fun s hfront hback => qualify_of_bare (bare_iff.mpr ⟨hfront, hback⟩), ?_⟩
  intro hroots hfront hback s
  refine ⟨isMember_qualify hroots s, ?_, ?_, ?_⟩
  · exact qualify_qualify hroots (bare_iff.mpr ⟨hfront, hback⟩) s
  · exact qualify_congr (selected_here s)
  · exact qualify_congr (selected_append_slash s)

/-- A module whose path is a dot: what lies below it begins with a `./`, and still means itself. -/
theorem qualify_stable_dot :
    (⟨[".", "a/b"]⟩ : Manifest).isMember "a/bc" = false ∧ (⟨[".", "a/b"]⟩ : Manifest).isMember "a/b/c" = true ∧
    (⟨[".", "a/b"]⟩ : Manifest).qualify "a/b/c" = "a/b/c" ∧
    (⟨[".", "a/b"]⟩ : Manifest).qualify "a/bc/" = "./a/bc" ∧
    (⟨[".", "a/b"]⟩ : Manifest).isMember "./a/bc" = true ∧
    (⟨[".", "a/b"]⟩ : Manifest).qualify "./a/bc" = "./a/bc" ∧
    (⟨[".", "a/b"]⟩ : Manifest).qualify "./a/bc/" = "./a/bc" ∧
    (⟨[".", "a/b"]⟩ : Manifest).qualify "a/bc//" = "./a/bc" := by
  obtain ⟨hpieces, hbare, hstable⟩ := qualify_stable ⟨[".", "a/b"]⟩
  have hmeant : (⟨[".", "a/b"]⟩ : Manifest).qualify "a/bc/" = "./a/bc" := by decide +kernel
  have hroots : (⟨[".", "a/b"]⟩ : Manifest).roots ≠ [] := List.cons_ne_nil _ _
  have hfront : (⟨[".", "a/b"]⟩ : Manifest).modulePath.startsWith "./" = false := by decide +kernel
  have hback : (⟨[".", "a/b"]⟩ : Manifest).modulePath.endsWith "/" = false := by decide +kernel
  obtain ⟨hmember, hagain, hhere, hslash⟩ := hstable hroots hfront hback "a/bc/"
  rw [hmeant] at hmember hagain hhere hslash
  refine ⟨?_, ?_, ?_, hmeant, hmember, hagain, hhere, hslash⟩
  · rw [← Bool.not_eq_true, hpieces]
    decide +kernel
  · rw [hpieces]
    decide +kernel
  · rw [hbare "a/b/c" (by decide +kernel) (by decide +kernel)]
    decide +kernel

end Manifest
end GoExcerpt
