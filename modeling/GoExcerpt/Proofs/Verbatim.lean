import GoExcerpt.Proofs.Fences

/-!
# `Proofs.Verbatim` — the text of a declaration is the text of its lines

The lines of a range are a piece of the text they are copied from, a line feed at its very end included: it
begins right behind one line feed and ends with another, which are found by counting (`LineRange.Marks`).
There is such a piece exactly if the range lies within the file, and no other (`Marks.unique`), so a
declaration can be copied exactly if all its ranges lie within its file, and then its text is their pieces one
after the other (`Declaration.excerpt_verbatim`).
-/

namespace GoExcerpt

/-! ## Pieces of a text -/

namespace Text

/-- A line feed after each of some lines makes as many line feeds. -/
theorem count_flatMap_lines {lines : List (List Char)} (h : ∀ line ∈ lines, '\n' ∉ line) :
    (lines.flatMap (· ++ ['\n'])).count '\n' = lines.length := by
  induction lines with
  | nil => rfl
  | cons line lines ih =>
      obtain ⟨hline, hlines⟩ := List.forall_mem_cons.mp h
      rw [List.flatMap_cons, List.count_append, List.count_append, List.count_eq_zero_of_not_mem hline,
        List.count_singleton_self, ih hlines, List.length_cons]
      omega

/-- A beginning of a text that stops behind a line feed, or at once. -/
def Stops (cs : List Char) : Prop := cs = [] ∨ EndsLine cs

theorem stops_flatMap_lines (lines : List (List Char)) : Stops (lines.flatMap (· ++ ['\n'])) := by
  by_cases h : lines = []
  · exact .inl (by rw [h]; rfl)
  · exact .inr (LineRange.endsLine_flatMap h)

theorem Stops.eq_of_prefix {u v : List Char} (hv : Stops v) (hstart : u <+: v)
    (hcount : u.count '\n' = v.count '\n') : u = v := by
  obtain ⟨rest, rfl⟩ := hstart
  rw [List.count_append] at hcount
  rcases List.eq_nil_or_concat rest with rfl | ⟨front, last, rfl⟩
  · rw [List.append_nil]
  · -- what is added ends with a line feed, which the count would show
    rcases hv with hnil | ⟨whole, hwhole⟩
    · simp at hnil
    · rw [List.concat_eq_append, ← List.append_assoc] at hwhole
      have hlast : [last] = ['\n'] := List.append_inj_right' hwhole rfl
      rw [List.concat_eq_append, List.count_append, hlast, List.count_singleton_self] at hcount
      omega

/-- **Beginnings of one text that stop behind equally many line feeds are the same.** -/
theorem Stops.unique {text u v : List Char} (hu : Stops u) (hv : Stops v) (hutext : u <+: text)
    (hvtext : v <+: text) (hcount : u.count '\n' = v.count '\n') : u = v := by
  rcases List.prefix_or_prefix_of_prefix hutext hvtext with h | h
  · exact hv.eq_of_prefix h hcount
  · exact (hu.eq_of_prefix h hcount.symm).symm

end Text

/-! ## Lines of a range -/

namespace LineRange

variable {r : LineRange} {text : List Char} {lines : List (List Char)}

/-- Whether a range lies within a file of `count` lines. -/
def Within (r : LineRange) (count : Nat) : Prop := 1 ≤ r.start ∧ r.start ≤ r.stop ∧ r.stop ≤ count

theorem fits_iff {count : Nat} : r.fits count = true ↔ r.Within count := by
  simp only [fits, Within, Bool.and_eq_true, bne_iff_ne, decide_eq_true_eq]
  omega

/-- The piece of a text that a range means: it begins right behind the line feed before the first line, or
    at the beginning of the text, and ends with the line feed of the last line. -/
def Marks (r : LineRange) (text piece : List Char) : Prop :=
  ∃ before after, text = before ++ piece ++ after ∧
    (before = [] ∨ EndsLine before) ∧ before.count '\n' + 1 = r.start ∧
    EndsLine piece ∧ (before ++ piece).count '\n' = r.stop

/-- **A range means one piece of a text at most.** -/
theorem Marks.unique {piece other : List Char} (h : r.Marks text piece) (h' : r.Marks text other) :
    piece = other := by
  obtain ⟨before, after, htext, hbefore, hstart, hpiece, hstop⟩ := h
  obtain ⟨before', after', htext', hbefore', hstart', hother, hstop'⟩ := h'
  have hsame : before = before' := by
    have hin : before <+: text := ⟨piece ++ after, by rw [htext, List.append_assoc]⟩
    have hin' : before' <+: text := ⟨other ++ after', by rw [htext', List.append_assoc]⟩
    exact Text.Stops.unique hbefore hbefore' hin hin' (by omega)
  have hends : before ++ piece = before' ++ other := by
    have hin : before ++ piece <+: text := ⟨after, htext.symm⟩
    have hin' : before' ++ other <+: text := ⟨after', htext'.symm⟩
    exact Text.Stops.unique (.inr (hpiece.append before)) (.inr (hother.append before')) hin hin' (by omega)
  rw [hsame] at hends
  exact List.append_cancel_left hends

/-- A range that means a piece of a text lies within it. -/
theorem Marks.within {piece : List Char} (h : r.Marks text piece) : r.Within (text.count '\n') := by
  obtain ⟨before, after, rfl, -, hstart, ⟨front, rfl⟩, hstop⟩ := h
  simp only [List.count_append, List.count_singleton_self] at hstart hstop ⊢
  exact ⟨by omega, by omega, by omega⟩

/-- **A range that lies within a file means the lines that are copied.** -/
theorem marks_copy (h : r.Within (Text.splitOn '\n' text).length) :
    r.Marks (text ++ ['\n']) (r.copy (Text.splitOn '\n' text)) := by
  obtain ⟨hstart, hle, hstop⟩ := h
  have hclean : ∀ line ∈ Text.splitOn '\n' text, '\n' ∉ line := fun _ => Text.not_mem_of_mem_splitOn
  have htext := Text.flatMap_splitOn '\n' text
  generalize Text.splitOn '\n' text = lines at hstop hclean htext ⊢
  have hkept : ∀ part : List (List Char), part ⊆ lines →
      (part.flatMap (· ++ ['\n'])).count '\n' = part.length :=
    fun part hpart => Text.count_flatMap_lines fun line hline => hclean line (hpart hline)
  have hbefore := hkept (lines.take (r.start - 1)) (List.take_subset _ _)
  have hpiece : (r.copy lines).count '\n' = r.stop + 1 - r.start := by
    refine (hkept _ (List.Subset.trans (List.take_subset _ _) (List.drop_subset _ _))).trans ?_
    rw [List.length_take, List.length_drop]
    omega
  rw [List.length_take] at hbefore
  refine ⟨(lines.take (r.start - 1)).flatMap (· ++ ['\n']), (lines.drop r.stop).flatMap (· ++ ['\n']),
    ?_, Text.stops_flatMap_lines _, by omega, endsLine_copy (fits_iff.mpr ⟨hstart, hle, hstop⟩), ?_⟩
  · have hrest : lines.drop r.stop
        = (lines.drop (r.start - 1)).drop (r.stop + 1 - r.start) := by
      rw [List.drop_drop]
      congr 1
      omega
    rw [← htext, hrest]
    unfold copy
    rw [← List.flatMap_append, ← List.flatMap_append, List.append_assoc, List.take_append_drop,
      List.take_append_drop]
  · rw [List.count_append, hbefore, hpiece]
    omega

/-! ## Ranges one after the other -/

theorem copyAll_cons_of_within {ranges : List LineRange} (h : r.Within lines.length) :
    copyAll lines (r :: ranges) = (copyAll lines ranges).map (r.copy lines ++ ·) := by
  rw [copyAll, if_pos (fits_iff.mpr h)]
  cases copyAll lines ranges <;> rfl

theorem copyAll_cons_of_not_within {ranges : List LineRange} (h : ¬ r.Within lines.length) :
    copyAll lines (r :: ranges) = .error (.outside r.start r.stop lines.length) := by
  rw [copyAll, if_neg fun hfits => h (fits_iff.mp hfits)]

/-- **Ranges can be copied if all of them lie within the file,** and then each gives its lines. -/
theorem copyAll_eq_ok_iff {ranges : List LineRange} {copied : List Char} :
    copyAll lines ranges = .ok copied ↔
      (∀ r ∈ ranges, r.Within lines.length) ∧ copied = ranges.flatMap (·.copy lines) := by
  induction ranges generalizing copied with
  | nil => simp [copyAll, eq_comm]
  | cons r ranges ih =>
      rw [List.forall_mem_cons, List.flatMap_cons]
      by_cases hr : r.Within lines.length
      · rw [copyAll_cons_of_within hr]
        constructor
        · intro h
          obtain ⟨rest, hrest, rfl⟩ := map_eq_ok h
          obtain ⟨hall, rfl⟩ := ih.mp hrest
          exact ⟨⟨hr, hall⟩, rfl⟩
        · rintro ⟨⟨-, hall⟩, rfl⟩
          rw [ih.mpr ⟨hall, rfl⟩]
          rfl
      · rw [copyAll_cons_of_not_within hr]
        exact iff_of_false (by rintro ⟨⟩) fun h => hr h.1.1

/-- **The first range that lies outside is reported.** -/
theorem copyAll_eq_error_iff {ranges : List LineRange} {fault : ExcerptFault} :
    copyAll lines ranges = .error fault ↔ ∃ before r after, ranges = before ++ r :: after ∧
      (∀ s ∈ before, s.Within lines.length) ∧ ¬ r.Within lines.length ∧
      fault = .outside r.start r.stop lines.length := by
  induction ranges with
  | nil =>
      refine iff_of_false (by rintro ⟨⟩) ?_
      rintro ⟨before, r, after, hranges, -⟩
      simp at hranges
  | cons r ranges ih =>
      by_cases hr : r.Within lines.length
      · have hrest : (copyAll lines ranges).map (r.copy lines ++ ·) = .error fault
            ↔ copyAll lines ranges = .error fault := by
          cases copyAll lines ranges with
          | error other =>
              exact ⟨fun h => congrArg Except.error (Except.error.inj h),
                fun h => congrArg Except.error (Except.error.inj h)⟩
          | ok rest => exact iff_of_false (by rintro ⟨⟩) (by rintro ⟨⟩)
        rw [copyAll_cons_of_within hr, hrest, ih]
        constructor
        · rintro ⟨before, s, after, rfl, hbefore, hs⟩
          exact ⟨r :: before, s, after, rfl, List.forall_mem_cons.mpr ⟨hr, hbefore⟩, hs⟩
        · rintro ⟨before, s, after, hranges, hbefore, hs, hfault⟩
          cases before with
          | nil =>
              obtain ⟨rfl, -⟩ := List.cons.inj hranges
              exact absurd hr hs
          | cons first before =>
              obtain ⟨rfl, rfl⟩ := List.cons.inj hranges
              exact ⟨before, s, after, rfl, (List.forall_mem_cons.mp hbefore).2, hs, hfault⟩
      · rw [copyAll_cons_of_not_within hr]
        constructor
        · intro h
          exact ⟨[], r, ranges, rfl, fun _ hs => absurd hs List.not_mem_nil, hr, (Except.error.inj h).symm⟩
        · rintro ⟨before, s, after, hranges, hbefore, hs, rfl⟩
          cases before with
          | nil =>
              obtain ⟨rfl, -⟩ := List.cons.inj hranges
              rfl
          | cons first before =>
              obtain ⟨rfl, -⟩ := List.cons.inj hranges
              exact absurd (hbefore r List.mem_cons_self) hr

/-- **Copying two ranges, of which the second begins where the first one ends, is copying one.** -/
theorem copyAll_adjacent {before after : List LineRange} {a b c : Nat} (hab : a ≤ b) (hbc : b < c)
    {copied : List Char} :
    copyAll lines (before ++ ⟨a, b⟩ :: ⟨b + 1, c⟩ :: after) = .ok copied
      ↔ copyAll lines (before ++ ⟨a, c⟩ :: after) = .ok copied := by
  have hwithin : (⟨a, b⟩ : LineRange).Within lines.length ∧ (⟨b + 1, c⟩ : LineRange).Within lines.length
      ↔ (⟨a, c⟩ : LineRange).Within lines.length := by
    unfold Within
    dsimp only
    omega
  rw [copyAll_eq_ok_iff, copyAll_eq_ok_iff, List.forall_mem_append, List.forall_mem_append,
    List.forall_mem_cons, List.forall_mem_cons, List.forall_mem_cons, ← and_assoc (a := Within _ _), hwithin]
  refine and_congr_right fun hall => ?_
  have hcopy : (⟨a, b⟩ : LineRange).copy lines ++ (⟨b + 1, c⟩ : LineRange).copy lines
      = (⟨a, c⟩ : LineRange).copy lines := copy_append hall.2.1.1 (by omega) (by omega)
  rw [List.flatMap_append, List.flatMap_append, List.flatMap_cons, List.flatMap_cons, List.flatMap_cons,
    ← List.append_assoc (copy _ _), hcopy]

/-- The pieces that ranges mean are what is copied for them. -/
theorem forall₂_marks_iff {ranges : List LineRange} {pieces : List (List Char)} :
    List.Forall₂ (fun r piece => r.Marks (text ++ ['\n']) piece) ranges pieces ↔
      (∀ r ∈ ranges, r.Within (Text.splitOn '\n' text).length) ∧
        pieces = ranges.map (·.copy (Text.splitOn '\n' text)) := by
  have hlength : (text ++ ['\n']).count '\n' = (Text.splitOn '\n' text).length := by
    rw [Text.length_splitOn, List.count_append, List.count_singleton_self]
  induction ranges generalizing pieces with
  | nil => simp
  | cons r ranges ih =>
      rw [List.forall_mem_cons, List.map_cons]
      constructor
      · intro h
        obtain ⟨piece, rest, hpiece, hrest, rfl⟩ := List.forall₂_cons_left_iff.mp h
        have hr : r.Within (Text.splitOn '\n' text).length := hlength ▸ hpiece.within
        obtain ⟨hall, rfl⟩ := ih.mp hrest
        exact ⟨⟨hr, hall⟩, by rw [hpiece.unique (marks_copy hr)]⟩
      · rintro ⟨⟨hr, hall⟩, rfl⟩
        exact .cons (marks_copy hr) (ih.mpr ⟨hall, rfl⟩)

end LineRange

/-! ## The text of a declaration -/

namespace Declaration

variable {d : Declaration} {fs : FileSystem} {path content : String}

theorem excerpt_of_readText (hread : fs.readText path = .ok content) :
    d.excerpt fs path = ((LineRange.copyAll (Text.splitOn '\n' content.toList) d.ranges).map
      String.ofList).mapError (Fault.source path) := by
  unfold excerpt excerptOf
  rw [hread]
  rfl

theorem excerpt_eq_ok_iff (hread : fs.readText path = .ok content) {source : String} :
    d.excerpt fs path = .ok source
      ↔ LineRange.copyAll (Text.splitOn '\n' content.toList) d.ranges = .ok source.toList := by
  rw [excerpt_of_readText hread]
  cases LineRange.copyAll (Text.splitOn '\n' content.toList) d.ranges with
  | error fault => exact iff_of_false (by rintro ⟨⟩) (by rintro ⟨⟩)
  | ok copied =>
      show Except.ok (String.ofList copied) = .ok source ↔ _
      rw [Except.ok.injEq, Except.ok.injEq]
      exact ⟨fun h => by rw [← h, String.toList_ofList], fun h => by rw [h, String.ofList_toList]⟩

theorem excerpt_eq_error_iff (hread : fs.readText path = .ok content) {fault : Fault} :
    d.excerpt fs path = .error fault ↔ ∃ reason,
      LineRange.copyAll (Text.splitOn '\n' content.toList) d.ranges = .error reason ∧
        fault = .source path reason := by
  rw [excerpt_of_readText hread]
  cases LineRange.copyAll (Text.splitOn '\n' content.toList) d.ranges with
  | error reason =>
      refine ⟨fun h => ⟨reason, rfl, (Except.error.inj h).symm⟩, ?_⟩
      rintro ⟨other, hother, rfl⟩
      rw [Except.error.inj hother]
      rfl
  | ok copied => exact iff_of_false (by rintro ⟨⟩) (by rintro ⟨_, ⟨⟩, _⟩)

/-- **The text of a declaration is the text of its lines, unchanged.** With the content of its file at hand
    it can be had exactly if all its ranges, documentation first, lie within the file, a line for each line
    feed and one more. The first range that does not is reported, and nothing else comes out. Otherwise the
    text is made of the pieces that the ranges mean, each with the line feed of its last line, one after the
    other. So two ranges without a gap come to the same as one, and the range of all lines to the content
    with a line feed behind it. -/
theorem excerpt_verbatim (d : Declaration) (fs : FileSystem) (path content : String)
    (hread : fs.readText path = .ok content) :
    ((∃ source, d.excerpt fs path = .ok source) ↔
      ∀ r ∈ d.ranges, r.Within (content.toList.count '\n' + 1)) ∧
    (∀ fault, d.excerpt fs path = .error fault ↔
      ∃ before r after, d.ranges = before ++ r :: after ∧
        (∀ s ∈ before, s.Within (content.toList.count '\n' + 1)) ∧
        ¬ r.Within (content.toList.count '\n' + 1) ∧
        fault = .source path (.outside r.start r.stop (content.toList.count '\n' + 1)) ∧
        fault.message = "Cannot read source of " ++ path ++ ": " ++ ("lines " ++ toString r.start ++ "-"
          ++ toString r.stop ++ " outside a file of " ++ toString (content.toList.count '\n' + 1)
          ++ " lines")) ∧
    (∀ source, d.excerpt fs path = .ok source ↔
      ∃ pieces, List.Forall₂ (fun r piece => r.Marks (content.toList ++ ['\n']) piece) d.ranges pieces ∧
        source.toList = pieces.flatten) ∧
    (∀ (joined : Declaration) before after a b c, a ≤ b → b < c →
      d.ranges = before ++ ⟨a, b⟩ :: ⟨b + 1, c⟩ :: after → joined.ranges = before ++ ⟨a, c⟩ :: after →
        ∀ source, d.excerpt fs path = .ok source ↔ joined.excerpt fs path = .ok source) ∧
    (d.ranges = [⟨1, content.toList.count '\n' + 1⟩] → d.excerpt fs path = .ok (content ++ "\n")) := by
  have hlength := Text.length_splitOn '\n' content.toList
  have htext : ∀ source, d.excerpt fs path = .ok source ↔
      ∃ pieces, List.Forall₂ (fun r piece => r.Marks (content.toList ++ ['\n']) piece) d.ranges pieces ∧
        source.toList = pieces.flatten := by
    intro source
    rw [excerpt_eq_ok_iff hread, LineRange.copyAll_eq_ok_iff]
    simp only [LineRange.forall₂_marks_iff]
    constructor
    · rintro ⟨hall, hsource⟩
      exact ⟨_, ⟨hall, rfl⟩, by rw [hsource, List.flatMap_def]⟩
    · rintro ⟨pieces, ⟨hall, rfl⟩, hsource⟩
      exact ⟨hall, by rw [hsource, List.flatMap_def]⟩
  refine ⟨?_, ?_, htext, ?_, ?_⟩
  · rw [← hlength]
    constructor
    · rintro ⟨source, h⟩
      exact (LineRange.copyAll_eq_ok_iff.mp ((excerpt_eq_ok_iff hread).mp h)).1
    · intro hall
      have hcopied := LineRange.copyAll_eq_ok_iff.mpr ⟨hall, rfl⟩
      exact ⟨String.ofList _, (excerpt_eq_ok_iff hread).mpr (by rwa [String.toList_ofList])⟩
  · intro fault
    rw [excerpt_eq_error_iff hread, ← hlength]
    simp only [LineRange.copyAll_eq_error_iff]
    constructor
    · rintro ⟨_, ⟨before, r, after, hranges, hbefore, hr, rfl⟩, rfl⟩
      exact ⟨before, r, after, hranges, hbefore, hr, rfl, rfl⟩
    · rintro ⟨before, r, after, hranges, hbefore, hr, rfl, -⟩
      exact ⟨_, ⟨before, r, after, hranges, hbefore, hr, rfl⟩, rfl⟩
  · intro joined before after a b c hab hbc hd hjoined source
    rw [excerpt_eq_ok_iff hread, excerpt_eq_ok_iff hread, hd, hjoined]
    exact LineRange.copyAll_adjacent hab hbc
  · intro hranges
    refine (htext _).mpr ⟨[content.toList ++ ['\n']], ?_, by simp⟩
    rw [hranges]
    refine .cons ⟨[], [], by simp, .inl rfl, by simp, ⟨content.toList, rfl⟩, ?_⟩ .nil
    rw [List.nil_append, List.count_append, List.count_singleton_self]

/-- A file with a carriage return, an empty line, and no line feed at its end. -/
def mixedEnds : FileSystem := ⟨.dir [("m.go", .file "package m\r\n\nfunc F()".toUTF8)], []⟩

/-- A function with given lines. -/
def onLines (doc : List LineRange) (span : LineRange) : Declaration := ⟨.function "m" "F", doc, span, none⟩

theorem excerpt_verbatim_mixedEnds :
    mixedEnds.readText "/m.go" = .ok "package m\r\n\nfunc F()" ∧
    (onLines [] ⟨1, 3⟩).excerpt mixedEnds "/m.go" = .ok "package m\r\n\nfunc F()\n" ∧
    (onLines [⟨1, 2⟩] ⟨3, 3⟩).excerpt mixedEnds "/m.go" = .ok "package m\r\n\nfunc F()\n" ∧
    (onLines [⟨2, 2⟩, ⟨2, 1⟩] ⟨0, 9⟩).excerpt mixedEnds "/m.go"
      = .error (.source "/m.go" (.outside 2 1 3)) := by
  have hread : mixedEnds.readText "/m.go" = .ok "package m\r\n\nfunc F()" := by decide +kernel
  have hcount : "package m\r\n\nfunc F()".toList.count '\n' + 1 = 3 := by decide
  obtain ⟨-, -, -, -, hall⟩ := excerpt_verbatim (onLines [] ⟨1, 3⟩) mixedEnds "/m.go" _ hread
  obtain ⟨-, -, -, hjoined, -⟩ := excerpt_verbatim (onLines [⟨1, 2⟩] ⟨3, 3⟩) mixedEnds "/m.go" _ hread
  obtain ⟨-, hfault, -⟩ := excerpt_verbatim (onLines [⟨2, 2⟩, ⟨2, 1⟩] ⟨0, 9⟩) mixedEnds "/m.go" _ hread
  rw [hcount] at hall hfault
  have hwhole := hall rfl
  refine ⟨hread, hwhole, ?_, ?_⟩
  · exact (hjoined (onLines [] ⟨1, 3⟩) [] [] 1 2 3 (by decide) (by decide) rfl rfl _).mpr hwhole
  · refine (hfault _).mpr ⟨[⟨2, 2⟩], ⟨2, 1⟩, [⟨0, 9⟩], rfl, ?_, by unfold LineRange.Within; decide, rfl, rfl⟩
    intro r hr
    obtain rfl := List.mem_singleton.mp hr
    exact ⟨by decide, by decide, by decide⟩

end Declaration
end GoExcerpt
