import GoExcerpt.Manifest
import GoExcerpt.Proofs.Words
import Mathlib.Data.List.Chain

/-!
# `Proofs.ManifestLines` — what counts of a line of a manifest

Of a line only the words before its comment count (`Progress.line_eq_take`). They are the words that were laid out
(`words_of_spread`), unless a comment follows a slash at once: the three slashes then read as a comment with a
slash in it, and the last word is read without its slash (`words_of_laid`). Any line is laid out with the words
that are read (`laid_words`).
-/

namespace GoExcerpt.Manifest

open Text

/-! ## Comments -/

/-- Whether no comment begins in a text. -/
def Unmarked (cs : List Char) : Prop := ¬ "//".toList <:+: cs

/-- Nothing, or a comment up to the end of the line. -/
def Comment (cs : List Char) : Prop := cs = [] ∨ "//".toList <+: cs

/-- Whether a comment, if there is one, does not follow a slash at once. -/
def Apart (content comment : List Char) : Prop := content.getLast? = some '/' → comment = []

theorem unmarked_iff {cs : List Char} :
    Unmarked cs ↔ cs.IsChain fun a b => ¬ (a = '/' ∧ b = '/') := by
  rw [List.isChain_iff_forall_rel_of_append_cons_cons]
  constructor
  · rintro h a b before after heq ⟨rfl, rfl⟩
    exact h ⟨before, after, by rw [heq, List.append_assoc]; rfl⟩
  · rintro h ⟨before, after, heq⟩
    rw [List.append_assoc] at heq
    exact h heq.symm ⟨rfl, rfl⟩

/-- No comment begins in two texts end to end if none does in either, nor where they meet. -/
theorem Unmarked.append {a b : List Char} (ha : Unmarked a) (hb : Unmarked b)
    (hmeet : a.getLast? = some '/' → b.head? ≠ some '/') : Unmarked (a ++ b) := by
  rw [unmarked_iff, List.isChain_append]
  refine ⟨unmarked_iff.mp ha, unmarked_iff.mp hb, ?_⟩
  rintro x hx y hy ⟨rfl, rfl⟩
  exact hmeet hx hy

theorem ne_slash_of_isBlank {c : Char} (h : isBlank c = true) : c ≠ '/' := by
  rintro rfl
  exact absurd h (by decide)

theorem unmarked_of_not_mem {cs : List Char} (h : '/' ∉ cs) : Unmarked cs :=
  fun hmark => h (hmark.subset (by decide))

theorem unmarked_of_blanks {cs : List Char} (h : Blanks cs) : Unmarked cs :=
  unmarked_of_not_mem fun hmem => ne_slash_of_isBlank (h _ hmem) rfl

/-- **No comment begins in words set apart** if none begins in a word. -/
theorem unmarked_of_spread {words : List (List Char)} {cs : List Char} (h : Spread words cs)
    (hwords : ∀ w ∈ words, Unmarked w) : Unmarked cs := by
  induction h with
  | blanks hblanks => exact unmarked_of_blanks hblanks
  | @word indent word rest words hindent hword hrest hgap ih =>
      have hinner : Unmarked (indent ++ word) := by
        apply (unmarked_of_blanks hindent).append (hwords word List.mem_cons_self)
        intro hslash
        exact absurd rfl (ne_slash_of_isBlank (hindent _ (List.mem_of_getLast? hslash)))
      apply hinner.append (ih fun w hw => hwords w (List.mem_cons_of_mem _ hw))
      intro _ hslash
      exact ne_slash_of_isBlank (hgap _ hslash) rfl

theorem withoutComment_cons {c : Char} {cs : List Char} (h : c = '/' → cs.head? ≠ some '/') :
    withoutComment (c :: cs) = c :: withoutComment cs := by
  rw [withoutComment]
  rintro rest rfl rfl
  exact h rfl rfl

/-- A comment is taken away, and with it a slash right before it. -/
theorem withoutComment_append {content comment : List Char} (hcontent : Unmarked content)
    (hcomment : Comment comment) :
    withoutComment (content ++ comment) = content ∨
      ¬ Apart content comment ∧ content = withoutComment (content ++ comment) ++ ['/'] := by
  rw [unmarked_iff] at hcontent
  induction content with
  | nil =>
      left
      rcases hcomment with rfl | ⟨rest, rfl⟩ <;> rfl
  | cons c cs ih =>
      obtain ⟨hhead, htail⟩ := List.isChain_cons.mp hcontent
      by_cases hnext : c = '/' ∧ (cs ++ comment).head? = some '/'
      · obtain ⟨rfl, hnext⟩ := hnext
        cases cs with
        | nil =>
            -- the slash of the content and the first one of the comment
            right
            rcases hcomment with rfl | ⟨rest, rfl⟩
            · cases hnext
            · exact ⟨fun hapart => absurd (hapart rfl) (by simp), rfl⟩
        | cons d ds => exact absurd ⟨rfl, Option.some.inj hnext⟩ (hhead d rfl)
      · rw [List.cons_append, withoutComment_cons fun hc hslash => hnext ⟨hc, hslash⟩]
        rcases ih htail with heq | ⟨hglued, heq⟩
        · left
          rw [heq]
        · right
          refine ⟨?_, congrArg (c :: ·) heq⟩
          intro hapart
          apply hglued
          intro hslash
          apply hapart
          rw [List.getLast?_cons, hslash]
          rfl

theorem exists_comment (raw : List Char) : ∃ comment, Comment comment ∧ raw = withoutComment raw ++ comment := by
  fun_induction withoutComment raw with
  | case1 cs => exact ⟨_, .inr ⟨cs, rfl⟩, rfl⟩
  | case2 c cs hmark ih =>
      obtain ⟨comment, hcomment, heq⟩ := ih
      exact ⟨comment, hcomment, congrArg (c :: ·) heq⟩
  | case3 => exact ⟨[], .inl rfl, rfl⟩

/-! ## Words of a line -/

/-- The words of a line before its comment. -/
def words (raw : List Char) : List (List Char) := fields (withoutComment raw)

/-- **A line with the given words,** blanks around them, and perhaps a comment behind. -/
def Laid (words : List (List Char)) (line : List Char) : Prop :=
  ∃ content comment, Spread words content ∧ Comment comment ∧ line = content ++ comment

/-- Any line is laid out with its words. -/
theorem laid_words (raw : List Char) : Laid (words raw) raw := by
  obtain ⟨comment, hcomment, heq⟩ := exists_comment raw
  exact ⟨withoutComment raw, comment, spread_fields _, hcomment, heq⟩

theorem laid_of_words {ws : List (List Char)} {line : List Char} (h : words line = ws) : Laid ws line :=
  h ▸ laid_words line

section

variable {ws : List (List Char)} {line content comment : List Char}

/-- **The words that were laid out are read,** if the comment does not follow a slash. -/
theorem words_of_spread (h : Spread ws content) (hws : ∀ w ∈ ws, Unmarked w) (hcomment : Comment comment)
    (hapart : Apart content comment) : words (content ++ comment) = ws := by
  unfold words
  rcases withoutComment_append (unmarked_of_spread h hws) hcomment with heq | ⟨hglued, -⟩
  · rw [heq]
    exact fields_of_spread h
  · exact absurd hapart hglued

/-- The words that were laid out are read, but for a slash at the end of the last one. -/
theorem words_of_laid (h : Laid ws line) (hws : ∀ w ∈ ws, Unmarked w) :
    words line = ws ∨
      ∃ before last, ws = before ++ [last ++ ['/']] ∧ words line = before ++ [last].filter (!·.isEmpty) := by
  obtain ⟨content, comment, hspread, hcomment, rfl⟩ := h
  unfold words
  rcases withoutComment_append (unmarked_of_spread hspread hws) hcomment with heq | ⟨-, heq⟩
  · left
    rw [heq]
    exact fields_of_spread hspread
  · right
    obtain ⟨before, last, hlong, hshort⟩ :=
      exists_fieldsLoop_concat (show isBlank '/' = false by decide) [] (withoutComment (content ++ comment))
    refine ⟨before, last, ?_, hshort⟩
    rw [← hlong, ← heq]
    exact (fields_of_spread hspread).symm

/-- Words that do not end in a slash are read as they were laid out. -/
theorem words_eq_of_laid (h : Laid ws line) (hws : ∀ w ∈ ws, Unmarked w)
    (hlast : ∀ w ∈ ws.getLast?, w.getLast? ≠ some '/') : words line = ws := by
  rcases words_of_laid h hws with heq | ⟨before, last, rfl, -⟩
  · exact heq
  · have hslash : (last ++ ['/']).getLast? = some '/' := by simp
    exact absurd hslash (hlast _ (by simp))

/-- All words but the last are read in any case. -/
theorem exists_words_of_laid {last : List Char} (h : Laid (ws ++ [last]) line)
    (hws : ∀ w ∈ ws ++ [last], Unmarked w) : ∃ more, words line = ws ++ more := by
  rcases words_of_laid h hws with heq | ⟨before, last', heq, hwords⟩
  · exact ⟨_, heq⟩
  · obtain ⟨rfl, -⟩ := List.append_inj' heq rfl
    exact ⟨_, hwords⟩

/-- The first two words read are those laid out, but for a slash lost at the end of the second if it is the
last. -/
theorem heads_of_laid {w d first : List Char} {more : List (List Char)} (h : Laid (w :: ws) line)
    (hws : ∀ x ∈ w :: ws, Unmarked x) (hwords : words line = d :: first :: more) :
    d = w ∧ (ws.head? = some first ∨ ws = [first ++ ['/']]) := by
  rcases words_of_laid h hws with heq | ⟨before, last, heq, hshort⟩
  · obtain ⟨hw, hfirst⟩ := List.cons.inj (heq.symm.trans hwords)
    exact ⟨hw.symm, .inl (by rw [hfirst]; rfl)⟩
  · rw [hwords] at hshort
    rcases before with _ | ⟨w', _ | ⟨first', before⟩⟩
    · -- one word alone is not read as two
      have hlength := List.length_filter_le (fun x : List Char => !x.isEmpty) [last]
      rw [List.nil_append] at hshort
      rw [← hshort] at hlength
      simp at hlength
    · obtain ⟨hw, htail⟩ := List.cons.inj heq
      obtain ⟨hd, hfilter⟩ := List.cons.inj hshort
      have hmem : first ∈ [last].filter (!·.isEmpty) := by
        rw [← show first :: more = [last].filter (!·.isEmpty) from hfilter]
        exact List.mem_cons_self
      have hfirst : first = last := List.mem_singleton.mp (List.mem_of_mem_filter hmem)
      exact ⟨hd.trans hw.symm, .inr (hfirst ▸ htail)⟩
    · obtain ⟨hw, htail⟩ := List.cons.inj heq
      obtain ⟨hd, hrest⟩ := List.cons.inj hshort
      obtain ⟨hfirst, -⟩ := List.cons.inj hrest
      exact ⟨hd.trans hw.symm, .inl (by rw [htail, hfirst]; rfl)⟩

end

/-- A blank at the end of a line does not count, in its comment or before. -/
theorem words_append_blank {c : Char} (hc : isBlank c = true) (raw : List Char) :
    words (raw ++ [c]) = words raw := by
  have hcut : withoutComment (raw ++ [c]) = withoutComment raw ∨
      withoutComment (raw ++ [c]) = withoutComment raw ++ [c] := by
    fun_induction withoutComment raw with
    | case1 cs => exact .inl rfl
    | case2 d cs hmark ih =>
        have hnext : d = '/' → (cs ++ [c]).head? ≠ some '/' := by
          rintro rfl hslash
          cases cs with
          | nil => exact ne_slash_of_isBlank hc (Option.some.inj hslash)
          | cons e es =>
              cases hslash
              exact hmark es rfl rfl
        rw [List.cons_append, withoutComment_cons hnext]
        exact ih.imp (congrArg (d :: ·)) (congrArg (d :: ·))
    | case3 => exact .inr (withoutComment_cons fun _ => by simp)
  unfold words
  rcases hcut with heq | heq
  · rw [heq]
  · rw [heq]
    exact fields_append_blanks (by simpa [Blanks] using hc) _

theorem isWord_close : IsWord [')'] := by decide

namespace Progress

/-- A line outside any block, given by its words. -/
def outside (p : Progress) : List (List Char) → Progress
  | directive :: first :: _ =>
      if first = ['('] then { p with block? := some (String.ofList directive) }
      else if directive = "module".toList then { p with module? := some (unquote first) }
      else if directive = "require".toList then { p with requires := unquote first :: p.requires }
      else p
  | _ => p

/-- A line inside the block of `directive`, given by its words. -/
def inside (p : Progress) (directive : String) (words : List (List Char)) : Progress :=
  if words = [[')']] then { p with block? := none }
  else if directive == "require" then
    match words with
    | path :: _ => { p with requires := unquote path :: p.requires }
    | [] => p
  else p

/-- A line, given by its words. -/
def take (p : Progress) (words : List (List Char)) : Progress :=
  match p.block? with
  | some directive => p.inside directive words
  | none => p.outside words

theorem take_nil (p : Progress) : p.take [] = p := by
  unfold take inside outside
  cases p.block? with
  | none => rfl
  | some directive => simp

/-- **Of a line only its words count.** -/
theorem line_eq_take (p : Progress) (raw : List Char) : p.line raw = p.take (words raw) := by
  have hfields : fields (trim (withoutComment raw)) = words raw := fields_trim _
  unfold line
  by_cases hempty : (trim (withoutComment raw)).isEmpty = true
  · -- a line without words
    rw [List.isEmpty_iff.mp hempty] at hfields
    rw [if_pos hempty, ← hfields]
    exact p.take_nil.symm
  · rw [if_neg hempty]
    unfold take
    cases p.block? with
    | none =>
        show p.plainLine _ = p.outside _
        unfold plainLine outside
        rw [hfields]
        rcases words raw with _ | ⟨directive, _ | ⟨first, more⟩⟩ <;> rfl
    | some directive =>
        show p.blockLine directive _ = p.inside directive _
        unfold blockLine inside
        have hclose : trim (withoutComment raw) = [')'] ↔ words raw = [[')']] := trim_eq_iff isWord_close
        by_cases h : words raw = [[')']]
        · rw [if_pos h, if_pos (hclose.mpr h)]
        · refine (if_neg fun hc => h (hclose.mp hc)).trans (Eq.trans ?_ (if_neg h).symm)
          rcases hwords : words raw with _ | ⟨path, more⟩
          · simp only [hfields.trans hwords]
          · simp only [hfields.trans hwords]

end Progress

end GoExcerpt.Manifest
