import GoExcerpt.Load.Constraint
import GoExcerpt.Proofs.LineRanges
import GoExcerpt.Proofs.Words

/-!
# `Proofs.Constraints` — which text asks not to be built

A constraint begins at the beginning of a line with two slashes and the word that opens it, and what follows is up to
blanks any text of one line, and then the word `ignore` by itself (`Constraint.Leads`, `Constraint.Stands`). The
scan finds one exactly if there is one (`Constraint.ignoresFrom_iff`), so more text takes none away unless it goes
on with the word (`Constraint.Stands.append`). The header of a text is what comes before the first line that looks
like a package clause (`Constraint.header_of_cut`), or all of it if none does (`Constraint.header_of_plain`).
-/

namespace GoExcerpt.Constraint

open Text (isBlank trimStart Blanks)

/-! ## Blanks in front -/

/-- A text is its blanks in front and the rest. -/
theorem exists_trimStart (cs : List Char) :
    ∃ gap, Blanks gap ∧ cs = gap ++ trimStart cs ∧ ∀ c ∈ (trimStart cs).head?, isBlank c = false := by
  refine ⟨cs.takeWhile isBlank, fun c hc => List.mem_takeWhile_imp hc, List.takeWhile_append_dropWhile.symm, ?_⟩
  intro c hc
  have hhead := List.head?_dropWhile_not isBlank cs
  unfold trimStart at hc
  rw [Option.mem_def.mp hc] at hhead
  simpa using hhead

theorem trimStart_append {gap cs : List Char} (hgap : Blanks gap) (hcs : ∀ c ∈ cs.head?, isBlank c = false) :
    trimStart (gap ++ cs) = cs :=
  Text.dropWhile_append_of_all hgap hcs

/-! ## The words -/

/-- A text that is over or goes on with a blank. -/
def Ended (below : List Char) : Prop := ∀ c ∈ below.head?, isBlank c = true

theorem wordHere_iff {cs : List Char} : wordHere cs = true ↔ ∃ below, cs = word ++ below ∧ Ended below := by
  unfold wordHere Ended
  rw [Bool.and_eq_true, List.isPrefixOf_iff_prefix, Option.all_eq_true]
  constructor
  · rintro ⟨⟨below, rfl⟩, hended⟩
    rw [List.drop_left] at hended
    exact ⟨below, rfl, hended⟩
  · rintro ⟨below, rfl, hended⟩
    rw [List.drop_left]
    exact ⟨List.prefix_append _ _, hended⟩

/-- What may stand between the opening of a constraint and its word: nothing, or text of one line and a blank. -/
inductive Skipped : List Char → Prop where
  | nothing : Skipped []
  | line {line : List Char} {c : Char} (hline : '\n' ∉ line) (hc : isBlank c = true) : Skipped (line ++ [c])

theorem wordLater_iff {cs : List Char} :
    wordLater cs = true ↔ ∃ line c below, cs = line ++ c :: (word ++ below) ∧ '\n' ∉ line ∧ isBlank c = true ∧
      Ended below := by
  induction cs with
  | nil => simp [wordLater]
  | cons d cs ih =>
      rw [wordLater, Bool.or_eq_true, Bool.and_eq_true, Bool.and_eq_true, ih, wordHere_iff, bne_iff_ne]
      constructor
      · rintro (⟨hd, below, rfl, hended⟩ | ⟨hd, line, c, below, rfl, hline, hc, hended⟩)
        · exact ⟨[], d, below, rfl, List.not_mem_nil, hd, hended⟩
        · exact ⟨d :: line, c, below, rfl, by simp [hline, Ne.symm hd], hc, hended⟩
      · rintro ⟨line, c, below, hcs, hline, hc, hended⟩
        cases line with
        | nil =>
            obtain ⟨rfl, rfl⟩ := List.cons.inj hcs
            exact .inl ⟨hc, below, rfl, hended⟩
        | cons e line =>
            obtain ⟨rfl, rfl⟩ := List.cons.inj hcs
            rw [List.mem_cons, not_or] at hline
            exact .inr ⟨Ne.symm hline.1, line, c, below, rfl, hline.2, hc, hended⟩

/-- The word is found ahead if it stands behind blanks and what may be skipped. -/
theorem wordAhead_iff {cs : List Char} :
    (wordHere (trimStart cs) || wordLater (trimStart cs)) = true ↔
      ∃ gap skipped below, cs = gap ++ (skipped ++ (word ++ below)) ∧ Blanks gap ∧ Skipped skipped ∧ Ended below := by
  rw [Bool.or_eq_true, wordHere_iff, wordLater_iff]
  constructor
  · obtain ⟨gap, hgap, hcs, -⟩ := exists_trimStart cs
    rintro (⟨below, hbelow, hended⟩ | ⟨line, c, below, hbelow, hline, hc, hended⟩)
    · exact ⟨gap, [], below, by rw [hcs, hbelow]; rfl, hgap, .nothing, hended⟩
    · exact ⟨gap, line ++ [c], below, by rw [hcs, hbelow]; simp, hgap, .line hline hc, hended⟩
  · have hword : ∀ below, ∀ c ∈ (word ++ below).head?, isBlank c = false := by
      rintro below c ⟨⟩
      decide
    rintro ⟨gap, skipped, below, rfl, hgap, hskipped, hended⟩
    cases hskipped with
    | nothing => exact .inl ⟨below, trimStart_append hgap (hword below), hended⟩
    | @line line c hline hc =>
        -- blanks are trimmed as far as they go, at most up to the word
        obtain ⟨blanks, hblanks, hsplit, hhead⟩ := exists_trimStart line
        cases hrest : trimStart line with
        | nil =>
            rw [hrest, List.append_nil] at hsplit
            have hall : Blanks (gap ++ (line ++ [c])) := by
              rw [hsplit]
              exact hgap.append (hblanks.append (by simpa [Blanks] using hc))
            refine .inl ⟨below, ?_, hended⟩
            rw [← List.append_assoc]
            exact trimStart_append hall (hword below)
        | cons d rest =>
            rw [hrest] at hsplit hhead
            refine .inr ⟨d :: rest, c, below, ?_, ?_, hc, hended⟩
            · have hcut : gap ++ (line ++ [c] ++ (word ++ below))
                  = gap ++ blanks ++ (d :: rest ++ c :: (word ++ below)) := by
                rw [hsplit]
                simp
              rw [hcut]
              exact trimStart_append (hgap.append hblanks) fun x hx => hhead x hx
            · exact fun hmem => hline (hsplit ▸ List.mem_append_right _ hmem)

/-- The words that open a constraint. -/
def marks : List (List Char) := ["go:build".toList, "+build".toList]

theorem afterMark?_append {mark : List Char} (hmark : mark ∈ marks) (rest : List Char) :
    afterMark? (mark ++ rest) = some rest := by
  simp only [marks, List.mem_cons, List.not_mem_nil, or_false] at hmark
  rcases hmark with rfl | rfl
  · rfl
  · rfl

theorem exists_of_afterMark? {cs rest : List Char} (h : afterMark? cs = some rest) :
    ∃ mark ∈ marks, cs = mark ++ rest := by
  obtain ⟨mark, hmark, hrest⟩ := List.exists_of_findSome?_eq_some h
  split at hrest
  next hstarts =>
    obtain ⟨after, rfl⟩ := List.isPrefixOf_iff_prefix.mp hstarts
    rw [← String.length_toList, List.drop_left, Option.some.injEq] at hrest
    exact ⟨mark.toList, List.mem_map_of_mem (f := String.toList) hmark, by rw [hrest]⟩
  next => cases hrest

/-! ## Constraints -/

/-- What a constraint has before its word. -/
inductive Leads : List Char → Prop where
  | mk {gap mark blanks skipped : List Char} (hgap : Blanks gap) (hmark : mark ∈ marks) (hne : blanks ≠ [])
      (hblanks : Blanks blanks) (hskipped : Skipped skipped) :
      Leads ("//".toList ++ (gap ++ (mark ++ (blanks ++ skipped))))

theorem ignoresHere_iff {cs : List Char} :
    ignoresHere cs = true ↔ ∃ leading below, cs = leading ++ (word ++ below) ∧ Leads leading ∧ Ended below := by
  constructor
  · intro h
    unfold ignoresHere at h
    split at h
    next => cases h
    next hslashes =>
      obtain ⟨after, rfl⟩ : "//".toList <+: cs := by simpa using hslashes
      split at h
      next c rest hmark =>
        obtain ⟨mark, hmem, hafter⟩ := exists_of_afterMark? hmark
        obtain ⟨gap, hgap, hcut, -⟩ := exists_trimStart after
        obtain ⟨hc, hahead⟩ := Bool.and_eq_true_iff.mp h
        obtain ⟨blanks, skipped, below, rfl, hblanks, hskipped, hended⟩ := wordAhead_iff.mp hahead
        have hall : Blanks (c :: blanks) := List.forall_mem_cons.mpr ⟨hc, hblanks⟩
        refine ⟨_, below, ?_, .mk hgap hmem (List.cons_ne_nil c blanks) hall hskipped, hended⟩
        have hafter' : trimStart after = mark ++ c :: (blanks ++ (skipped ++ (word ++ below))) := hafter
        rw [hcut, hafter']
        simp
      next => cases h
  · rintro ⟨_, below, rfl, @⟨gap, mark, blanks, skipped, hgap, hmark, hne, hblanks, hskipped⟩, hended⟩
    obtain ⟨c, blanks, rfl⟩ := List.exists_cons_of_ne_nil hne
    obtain ⟨hc, hblanks⟩ := List.forall_mem_cons.mp hblanks
    have hopened : ∀ rest, ∀ d ∈ (mark ++ rest).head?, isBlank d = false := by
      intro rest d hd
      simp only [marks, List.mem_cons, List.not_mem_nil, or_false] at hmark
      rcases hmark with rfl | rfl
      · cases hd
        decide
      · cases hd
        decide
    have hafter : trimStart (gap ++ (mark ++ c :: (blanks ++ (skipped ++ (word ++ below)))))
        = mark ++ c :: (blanks ++ (skipped ++ (word ++ below))) := trimStart_append hgap (hopened _)
    have hcut : "//".toList ++ (gap ++ (mark ++ (c :: blanks ++ skipped))) ++ (word ++ below)
        = "//".toList ++ (gap ++ (mark ++ c :: (blanks ++ (skipped ++ (word ++ below))))) := by simp
    have hahead := wordAhead_iff.mpr ⟨blanks, skipped, below, rfl, hblanks, hskipped, hended⟩
    rw [hcut, ignoresHere, if_neg (by simp), show (2 : Nat) = "//".toList.length from rfl, List.drop_left, hafter,
      afterMark?_append hmark]
    exact Bool.and_eq_true_iff.mpr ⟨hc, hahead⟩

/-- Whether a line begins behind a text, at whose own beginning one does or does not. -/
def beginsLine (lineStart : Bool) : List Char → Bool
  | [] => lineStart
  | c :: cs => beginsLine (c == '\n') cs

/-- **A constraint that takes a file out of the build stands in its text.** -/
def Stands (lineStart : Bool) (text : List Char) : Prop :=
  ∃ above leading below, text = above ++ (leading ++ (word ++ below)) ∧ beginsLine lineStart above = true ∧
    Leads leading ∧ Ended below

/-- **The scan finds a constraint exactly if one stands in the text.** -/
theorem ignoresFrom_iff {lineStart : Bool} {text : List Char} :
    ignoresFrom lineStart text = true ↔ Stands lineStart text := by
  induction text generalizing lineStart with
  | nil =>
      refine iff_of_false (fun h => nomatch h) ?_
      rintro ⟨above, leading, below, htext, -⟩
      have hlength := congrArg List.length htext
      simp [word] at hlength
  | cons c cs ih =>
      rw [ignoresFrom, Bool.or_eq_true, Bool.and_eq_true, ih, ignoresHere_iff]
      constructor
      · rintro (⟨hstart, leading, below, htext, hleads, hended⟩ | ⟨above, leading, below, rfl, habove, hleads, hended⟩)
        · exact ⟨[], leading, below, htext, hstart, hleads, hended⟩
        · exact ⟨c :: above, leading, below, rfl, habove, hleads, hended⟩
      · rintro ⟨above, leading, below, htext, habove, hleads, hended⟩
        cases above with
        | nil => exact .inl ⟨habove, leading, below, htext, hleads, hended⟩
        | cons d above =>
            obtain ⟨rfl, rfl⟩ := List.cons.inj htext
            exact .inr ⟨above, leading, below, rfl, habove, hleads, hended⟩

namespace Stands

variable {lineStart : Bool} {a b : List Char}

/-- More text takes no constraint away, unless it goes on with the word. -/
theorem append (h : Stands lineStart a) (hb : word <:+ a → Ended b) : Stands lineStart (a ++ b) := by
  obtain ⟨above, leading, below, rfl, habove, hleads, hended⟩ := h
  refine ⟨above, leading, below ++ b, by simp, habove, hleads, ?_⟩
  cases below with
  | nil =>
      rw [List.nil_append]
      refine hb ⟨above ++ leading, ?_⟩
      simp
  | cons c below => exact hended

/-- Blanks at the end make no constraint. -/
theorem of_append_blanks (h : Stands lineStart (a ++ b)) (hb : Blanks b) : Stands lineStart a := by
  obtain ⟨above, leading, below, htext, habove, hleads, hended⟩ := h
  rw [← List.append_assoc, ← List.append_assoc] at htext
  rcases List.append_eq_append_iff.mp htext with ⟨more, hmore, rfl⟩ | ⟨more, rfl, rfl⟩
  · cases more with
    | nil =>
        refine ⟨above, leading, [], ?_, habove, hleads, fun c hc => nomatch hc⟩
        rw [List.append_nil] at hmore
        rw [← hmore]
        simp
    | cons c more =>
        -- otherwise the last letter of the word is one of the blanks
        have hlast : (above ++ leading ++ word).getLast? = some 'e' := by
          rw [List.getLast?_append]
          rfl
        rw [hmore, List.getLast?_append_of_ne_nil a (List.cons_ne_nil c more)] at hlast
        have hmem : 'e' ∈ c :: more := List.mem_of_getLast? hlast
        exact absurd (hb 'e' (List.mem_append_left _ hmem)) (by decide)
  · refine ⟨above, leading, more, by simp, habove, hleads, ?_⟩
    cases more with
    | nil => exact fun c hc => nomatch hc
    | cons c more => exact hended

theorem append_blanks_iff (hb : Blanks b) : Stands lineStart (a ++ b) ↔ Stands lineStart a :=
  ⟨fun h => h.of_append_blanks hb, fun h => h.append fun _ c hc => hb c (List.mem_of_mem_head? hc)⟩

end Stands

/-! ## Lines that look like a clause -/

theorem opensPackage_iff {line : List Char} :
    opensPackage line = true ↔ ∃ gap below, line = gap ++ ("package ".toList ++ below) ∧ Blanks gap := by
  unfold opensPackage
  rw [List.isPrefixOf_iff_prefix]
  constructor
  · rintro ⟨below, hbelow⟩
    obtain ⟨gap, hgap, hline, -⟩ := exists_trimStart line
    exact ⟨gap, below, by rw [hbelow, ← hline], hgap⟩
  · rintro ⟨gap, below, rfl, hgap⟩
    have hword : ∀ c ∈ ("package ".toList ++ below).head?, isBlank c = false := by
      rintro c ⟨⟩
      decide
    rw [trimStart_append hgap hword]
    exact List.prefix_append _ _

/-- A line that looks like a clause still does when it goes on. -/
theorem opensPackage_append {a : List Char} (h : opensPackage a = true) (b : List Char) :
    opensPackage (a ++ b) = true := by
  obtain ⟨gap, below, rfl, hgap⟩ := opensPackage_iff.mp h
  exact opensPackage_iff.mpr ⟨gap, below ++ b, by simp, hgap⟩

/-- A line that looks like a clause does so without what a keyword in it opens, or else has nothing but blanks
    before the keyword. -/
theorem opensPackage_or_blanks {lead rest : List Char} (h : opensPackage (lead ++ 'p' :: rest) = true) :
    opensPackage lead = true ∨ Blanks lead := by
  obtain ⟨gap, below, hline, hgap⟩ := opensPackage_iff.mp h
  rcases List.append_eq_append_iff.mp hline with ⟨more, rfl, -⟩ | ⟨more, rfl, hmore⟩
  · exact .inr fun c hc => hgap c (List.mem_append_left _ hc)
  · rcases List.append_eq_append_iff.mp hmore with ⟨after, rfl, -⟩ | ⟨after, hword, hafter⟩
    · exact .inl (opensPackage_iff.mpr ⟨gap, after, rfl, hgap⟩)
    · cases after with
      | nil =>
          rw [List.append_nil] at hword
          exact .inl (opensPackage_iff.mpr ⟨gap, [], by rw [hword, List.append_nil], hgap⟩)
      | cons c after =>
          obtain ⟨rfl, -⟩ := List.cons.inj hafter
          cases more with
          | nil => exact .inr (by simpa using hgap)
          | cons d more =>
              -- the keyword has no second `p`
              have htail : "ackage ".toList = more ++ 'p' :: after := (List.cons.inj hword).2
              exact absurd (htail ▸ List.mem_append_right more List.mem_cons_self) (by decide)

/-! ## The header -/

variable {text : List Char}

/-- Where no line looks like a package clause, all is header. -/
theorem header_of_plain (h : ∀ line ∈ Text.splitOn '\n' text, opensPackage line = false) : header text = text := by
  have hall : headerLines text = Text.splitOn '\n' text := by
    refine List.takeWhile_eq_self_iff.mpr fun line hline => ?_
    simpa using h line hline
  unfold header
  rw [hall, if_neg (Nat.lt_irrefl _)]

/-- Where a line does, the header ends before it. -/
theorem header_of_cut {kept below : List (List Char)} {line : List Char}
    (hsplit : Text.splitOn '\n' text = kept ++ line :: below) (hkept : ∀ l ∈ kept, opensPackage l = false)
    (hline : opensPackage line = true) : header text = kept.flatMap (· ++ ['\n']) := by
  have hlines : headerLines text = kept := by
    unfold headerLines
    rw [hsplit, List.takeWhile_append_of_pos (fun l hl => by simp [hkept l hl]), List.takeWhile_cons]
    simp [hline]
  unfold header
  rw [hlines, if_pos (by simp [hsplit])]

/-- Among lines of which some look like a package clause there is a first that does. -/
theorem exists_cut {lines : List (List Char)} (h : ∃ line ∈ lines, opensPackage line = true) :
    ∃ kept line below, lines = kept ++ line :: below ∧ (∀ l ∈ kept, opensPackage l = false) ∧
      opensPackage line = true := by
  obtain ⟨line, hfound⟩ := Option.isSome_iff_exists.mp (List.find?_isSome.mpr h)
  obtain ⟨hline, kept, below, hlines, hkept⟩ := List.find?_eq_some_iff_append.mp hfound
  exact ⟨kept, line, below, hlines, fun l hl => by simpa using hkept l hl, hline⟩

theorem header_prefix (text : List Char) : header text <+: text := by
  by_cases h : ∃ line ∈ Text.splitOn '\n' text, opensPackage line = true
  · obtain ⟨kept, line, below, hsplit, hkept, hline⟩ := exists_cut h
    have hends := Text.flatMap_splitOn '\n' text
    rw [hsplit, List.flatMap_append, ← header_of_cut hsplit hkept hline] at hends
    rcases List.prefix_concat_iff.mp ⟨_, hends⟩ with heq | hpre
    · rw [heq, List.append_right_eq_self, List.flatMap_cons] at hends
      simp at hends
    · exact hpre
  · exact ⟨[], (List.append_nil _).trans (header_of_plain (by simpa using h))⟩

/-- A header that ends before a line does not end in the word. -/
theorem not_word_suffix_header (h : ∃ line ∈ Text.splitOn '\n' text, opensPackage line = true) :
    ¬ word <:+ header text := by
  obtain ⟨kept, line, below, hsplit, hkept, hline⟩ := exists_cut h
  rw [header_of_cut hsplit hkept hline]
  rintro ⟨before, hends⟩
  have hlast : (before ++ word).getLast? = some 'e' := by
    rw [List.getLast?_append]
    rfl
  rw [hends] at hlast
  rcases kept.eq_nil_or_concat with rfl | ⟨lines, last, rfl⟩
  · cases hlast
  · simp at hlast

/-- A constraint in the header is one of the text. -/
theorem stands_of_header (h : Stands true (header text)) : Stands true text := by
  by_cases hopens : ∃ line ∈ Text.splitOn '\n' text, opensPackage line = true
  · obtain ⟨more, hmore⟩ := header_prefix text
    rw [← hmore]
    exact h.append fun hword => absurd hword (not_word_suffix_header hopens)
  · rwa [header_of_plain (by simpa using hopens)] at h

end GoExcerpt.Constraint
