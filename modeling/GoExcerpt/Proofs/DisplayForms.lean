import GoExcerpt.Symbol
import Mathlib.Data.List.Basic

/-!
# `Proofs.DisplayForms` — a displayed symbol is read in one way

The form a symbol is displayed in joins its parts without escapes: package paths have dots, and the file of a place
any character. Still the form can be taken apart, from the outside in. What stands before the first `@` is the
symbol without its place (its *stem*), and the line of a place stands behind the last colon; a stem with a
parenthesis is that of a method, cut at its first one, and a stem without is cut at its last dot. Each cut is at a
mark that one side cannot have (`Text.append_inj_of_mark`), so equal forms have equal parts
(`Symbol.display_unambiguous`).
-/

namespace GoExcerpt

/-! ## Cuts at a mark -/

namespace Text

variable {mark : Char} {a b x y : List Char}

/-- A text is cut in one way before its first mark: no mark stands before the cut, and behind it the text is over
    or goes on with the mark. -/
theorem append_inj_of_mark (ha : mark ∉ a) (hb : mark ∉ b) (hx : ∀ c ∈ x.head?, c = mark)
    (hy : ∀ c ∈ y.head?, c = mark) (h : a ++ x = b ++ y) : a = b ∧ x = y := by
  -- the side that were longer would have the mark where the other goes on
  rcases List.append_eq_append_iff.mp h with ⟨more, rfl, rfl⟩ | ⟨more, rfl, rfl⟩
  · cases more with
    | nil => simp
    | cons c more => exact absurd (hx c rfl ▸ List.mem_append_right a List.mem_cons_self) hb
  · cases more with
    | nil => simp
    | cons c more => exact absurd (hy c rfl ▸ List.mem_append_right b List.mem_cons_self) ha

/-- A text is cut in one way at its first mark. -/
theorem cut_first_inj (ha : mark ∉ a) (hb : mark ∉ b) (h : a ++ mark :: x = b ++ mark :: y) : a = b ∧ x = y := by
  obtain ⟨hbefore, hafter⟩ := append_inj_of_mark ha hb (by simp) (by simp) h
  exact ⟨hbefore, List.tail_eq_of_cons_eq hafter⟩

/-- A text is cut in one way at its last mark. -/
theorem cut_last_inj (hx : mark ∉ x) (hy : mark ∉ y) (h : a ++ mark :: x = b ++ mark :: y) : a = b ∧ x = y := by
  have hreverse : x.reverse ++ mark :: a.reverse = y.reverse ++ mark :: b.reverse := by
    simpa using congrArg List.reverse h
  obtain ⟨hafter, hbefore⟩ :=
    cut_first_inj (fun hm => hx (List.mem_reverse.mp hm)) (fun hm => hy (List.mem_reverse.mp hm)) hreverse
  exact ⟨List.reverse_inj.mp hbefore, List.reverse_inj.mp hafter⟩

/-- The digits of a number are all it takes to tell it. -/
theorem toDigits_ten_inj {m n : Nat} (h : Nat.toDigits 10 m = Nat.toDigits 10 n) : m = n := by
  have hvalue := congrArg (Nat.ofDigitChars 10 · 0) h
  simpa only [Nat.ofDigitChars_ten_toDigits] using hvalue

theorem colon_not_mem_toDigits (n : Nat) : ':' ∉ Nat.toDigits 10 n :=
  fun h => absurd (Nat.isDigit_of_mem_toDigits (by omega) (by omega) h) (by decide)

end Text

namespace Symbol

/-! ## Stem and place -/

/-- The characters that mark off parts of a displayed symbol. -/
def marks : List Char := ['.', '(', ')', '@']

/-- **A symbol as a program spells it:** no mark in its name or receiver, and in the package path neither of the
    marks that the cuts are made at. -/
structure Spelled (s : Symbol) : Prop where
  package : '(' ∉ s.package.toList ∧ '@' ∉ s.package.toList
  receiver : ∀ base ∈ s.receiver, ∀ c ∈ base.toList, c ∉ marks
  name : ∀ c ∈ s.name.toList, c ∉ marks

/-- The characters of the displayed form without the place. -/
def stem (s : Symbol) : List Char :=
  match s.receiver with
  | some r => s.package.toList ++ '.' :: '(' :: (r.toList ++ ')' :: '.' :: s.name.toList)
  | none => s.package.toList ++ '.' :: s.name.toList

/-- The characters of a displayed place. -/
def placeForm : Option Site → List Char
  | some site => '@' :: (site.file.toList ++ ':' :: Nat.toDigits 10 site.line)
  | none => []

theorem toList_display (s : Symbol) : s.display.toList = s.stem ++ placeForm s.site := by
  obtain ⟨package, receiver, name, site⟩ := s
  cases receiver <;> cases site <;>
    simp [display, stem, placeForm, Nat.toString_eq_repr, Nat.toList_repr, List.append_assoc]

theorem head?_placeForm (site : Option Site) : ∀ c ∈ (placeForm site).head?, c = '@' := by
  cases site with
  | none => intro c hc; cases hc
  | some site => intro c hc; exact (Option.some.inj hc).symm

/-- A place is read in one way: its line is what follows the last colon. -/
theorem placeForm_inj {a b : Option Site} (h : placeForm a = placeForm b) : a = b := by
  cases a with
  | none => cases b with
    | none => rfl
    | some site => cases h
  | some site => cases b with
    | none => cases h
    | some other =>
        obtain ⟨hfile, hline⟩ := Text.cut_last_inj (Text.colon_not_mem_toDigits _) (Text.colon_not_mem_toDigits _)
          (List.tail_eq_of_cons_eq h)
        obtain ⟨file, line⟩ := site
        obtain rfl : file = other.file := String.toList_inj.mp hfile
        obtain rfl : line = other.line := Text.toDigits_ten_inj hline
        rfl

variable {s t : Symbol}

namespace Spelled

/-- No place begins within a stem. -/
theorem at_not_mem_stem (h : s.Spelled) : '@' ∉ s.stem := by
  have hname : '@' ∉ s.name.toList := fun hc => h.name _ hc (by decide)
  unfold stem
  cases hr : s.receiver with
  | none => simp [h.package.2, hname]
  | some r =>
      have hreceiver : '@' ∉ r.toList := fun hc => h.receiver r hr _ hc (by decide)
      simp [h.package.2, hname, hreceiver]

/-- A stem has a parenthesis exactly if it is a method's. -/
theorem paren_mem_stem_iff (h : s.Spelled) : '(' ∈ s.stem ↔ s.receiver.isSome := by
  have hname : '(' ∉ s.name.toList := fun hc => h.name _ hc (by decide)
  unfold stem
  cases s.receiver with
  | none => simp [h.package.1, hname]
  | some r => simp

/-- **A stem is read in one way:** that of a method is cut at its first parenthesis and then at the first closing
    one, that of a function at its last dot. -/
theorem stem_inj (hs : s.Spelled) (ht : t.Spelled) (h : s.stem = t.stem) :
    s.package = t.package ∧ s.receiver = t.receiver ∧ s.name = t.name := by
  have hkind : s.receiver.isSome ↔ t.receiver.isSome := by
    rw [← hs.paren_mem_stem_iff, ← ht.paren_mem_stem_iff, h]
  unfold stem at h
  cases hr : s.receiver with
  | none =>
      cases hr' : t.receiver with
      | some r' => simp [hr, hr'] at hkind
      | none =>
          simp only [hr, hr'] at h
          have hdot : '.' ∉ s.name.toList := fun hc => hs.name _ hc (by decide)
          have hdot' : '.' ∉ t.name.toList := fun hc => ht.name _ hc (by decide)
          obtain ⟨hpackage, hname⟩ := Text.cut_last_inj hdot hdot' h
          exact ⟨String.toList_inj.mp hpackage, rfl, String.toList_inj.mp hname⟩
  | some r =>
      cases hr' : t.receiver with
      | none => simp [hr, hr'] at hkind
      | some r' =>
          simp only [hr, hr'] at h
          -- the first parenthesis stands right behind the dot that ends the package
          rw [List.append_cons s.package.toList, List.append_cons t.package.toList] at h
          obtain ⟨hpackage, h⟩ := Text.cut_first_inj (by simp [hs.package.1]) (by simp [ht.package.1]) h
          have hclose : ')' ∉ r.toList := fun hc => hs.receiver r hr _ hc (by decide)
          have hclose' : ')' ∉ r'.toList := fun hc => ht.receiver r' hr' _ hc (by decide)
          obtain ⟨hreceiver, h⟩ := Text.cut_first_inj hclose hclose' h
          refine ⟨String.toList_inj.mp (List.append_cancel_right hpackage), ?_,
            String.toList_inj.mp (List.tail_eq_of_cons_eq h)⟩
          rw [String.toList_inj.mp hreceiver]

end Spelled

/-- A displayed symbol is told by its form. -/
theorem eq_of_display_eq (hs : s.Spelled) (ht : t.Spelled) (h : s.display = t.display) : s = t := by
  have hchars : s.stem ++ placeForm s.site = t.stem ++ placeForm t.site := by
    rw [← toList_display, ← toList_display, h]
  obtain ⟨hstem, hplace⟩ := Text.append_inj_of_mark hs.at_not_mem_stem ht.at_not_mem_stem
    (head?_placeForm _) (head?_placeForm _) hchars
  obtain ⟨hpackage, hreceiver, hname⟩ := hs.stem_inj ht hstem
  have hsite := placeForm_inj hplace
  obtain ⟨package, receiver, name, site⟩ := s
  obtain rfl : package = t.package := hpackage
  obtain rfl : receiver = t.receiver := hreceiver
  obtain rfl : name = t.name := hname
  obtain rfl : site = t.site := hsite
  rfl

/-- **Displayed symbols are unambiguous.** Symbols as a program spells them, with any file and line for a place,
are displayed alike only if they have the same package, receiver, name and place; so a function, a method and what
is pinned to a place never share a form. -/
theorem display_unambiguous (hs : s.Spelled) (ht : t.Spelled) :
    (s.display = t.display ↔ s = t) ∧
    (s.receiver.isSome ≠ t.receiver.isSome ∨ s.site.isSome ≠ t.site.isSome → s.display ≠ t.display) := by
  have heq := eq_of_display_eq hs ht
  refine ⟨⟨heq, congrArg display⟩, ?_⟩
  rintro (hkind | hkind) h
  · exact hkind (by rw [heq h])
  · exact hkind (by rw [heq h])

/-- A dot in the package, and a colon in the file: neither moves a cut. -/
theorem display_unambiguous_init :
    let s : Symbol := { package := "m.io/a", name := "init", site := some ⟨"a.go:1", 2⟩ }
    let t : Symbol := { package := "m.io/a", name := "init", site := some ⟨"a.go", 12⟩ }
    s.Spelled ∧ t.Spelled ∧ s.display = "m.io/a.init@a.go:1:2" ∧ t.display = "m.io/a.init@a.go:12" ∧
      (s.display = t.display ↔ s = t) := by
  intro s t
  have hinit : "init".toList.all (fun c => decide (c ∉ marks)) = true := by decide
  have hname : ∀ c ∈ "init".toList, c ∉ marks := fun c hc => of_decide_eq_true (List.all_eq_true.mp hinit c hc)
  have hs : s.Spelled := ⟨by decide, (fun _ hr => nomatch hr), hname⟩
  have ht : t.Spelled := ⟨by decide, (fun _ hr => nomatch hr), hname⟩
  exact ⟨hs, ht, by decide, by decide, (display_unambiguous hs ht).1⟩

end Symbol
end GoExcerpt
