import GoExcerpt.Excerpt
import GoExcerpt.Proofs.Lexemes
import GoExcerpt.Resolve.Unit
import Mathlib.Data.List.Chain

/-!
# `Proofs.LineRanges` — copying lines

Ranges of which each begins right after the one before are copied like a single range (`copyAll_concat`), and
the documentation of a declaration makes such ranges with the declaration itself (`isChain_docLines`). The
lines that a tree covers hold all of the text that it was read from (`infix_copy_ofTree`).
-/

namespace GoExcerpt

/-! ## Pieces -/

namespace Text

/-- The pieces with a separator after each are the text with one more at its end. -/
theorem flatMap_splitOn (sep : Char) (cs : List Char) :
    (splitOn sep cs).flatMap (· ++ [sep]) = cs ++ [sep] := by
  induction cs with
  | nil => rfl
  | cons c cs ih =>
      obtain ⟨piece, pieces, hpieces⟩ := List.exists_cons_of_ne_nil (splitOn_ne_nil sep cs)
      by_cases h : c = sep
      · rw [h, splitOn_cons_self, List.flatMap_cons, ih]
        rfl
      · rw [hpieces] at ih
        rw [splitOn_cons_of_ne h, hpieces, List.cons_append, ← ih]
        rfl

/-- As many pieces as end in a part of the text that a separator follows are that part. -/
theorem take_splitOn (sep : Char) (a b : List Char) :
    ((splitOn sep (a ++ sep :: b)).take (a.count sep + 1)).flatMap (· ++ [sep]) = a ++ [sep] := by
  rw [splitOn_append_cons, ← length_splitOn, List.take_left, flatMap_splitOn]

/-- One piece more than have ended in a part of the text goes on to the end of that piece. -/
theorem exists_take_splitOn (sep : Char) (a b : List Char) :
    ∃ tail, ((splitOn sep (a ++ b)).take (a.count sep + 1)).flatMap (· ++ [sep]) = a ++ tail := by
  by_cases h : sep ∈ b
  · obtain ⟨line, below, rfl, hline⟩ := List.eq_append_cons_of_mem h
    have hcount : a.count sep = (a ++ line).count sep := by
      rw [List.count_append, List.count_eq_zero_of_not_mem hline, Nat.add_zero]
    refine ⟨line ++ [sep], ?_⟩
    rw [hcount, ← List.append_assoc, take_splitOn, List.append_assoc]
  · have hcount : a.count sep + 1 = (splitOn sep (a ++ b)).length := by
      rw [length_splitOn, List.count_append, List.count_eq_zero_of_not_mem h, Nat.add_zero]
    refine ⟨b ++ [sep], ?_⟩
    rw [hcount, List.take_length, flatMap_splitOn, List.append_assoc]

/-- Without the pieces that have ended in a part of the text, the rest begins with the piece begun there. -/
theorem exists_drop_splitOn (sep : Char) (a b : List Char) :
    ∃ line, sep ∉ line ∧ (splitOn sep (a ++ b)).drop (a.count sep) = splitOn sep (line ++ b) := by
  by_cases h : sep ∈ a
  · obtain ⟨line', above', hreverse, hline⟩ := List.eq_append_cons_of_mem (List.mem_reverse.mpr h)
    obtain ⟨above, line, rfl, hline⟩ : ∃ above line, a = above ++ sep :: line ∧ sep ∉ line := by
      refine ⟨above'.reverse, line'.reverse, ?_, by rwa [List.mem_reverse]⟩
      rw [← List.reverse_reverse a, hreverse]
      simp
    refine ⟨line, hline, ?_⟩
    have hcount : (above ++ sep :: line).count sep = (splitOn sep above).length := by
      rw [length_splitOn, List.count_append, List.count_cons_self, List.count_eq_zero_of_not_mem hline]
    rw [hcount, List.append_assoc, List.cons_append, splitOn_append_cons, List.drop_left]
  · refine ⟨a, h, ?_⟩
    rw [List.count_eq_zero_of_not_mem h, List.drop_zero]

end Text

/-! ## Ranges one after the other -/

namespace LineRange

variable {lines : List (List Char)}

/-- Whether a range begins on the line after the one where another ends. -/
def Follows (r s : LineRange) : Prop := s.start = r.stop + 1

theorem copy_append {a b c : Nat} (ha : 0 < a) (hab : a ≤ b + 1) (hbc : b ≤ c) :
    (⟨a, b⟩ : LineRange).copy lines ++ (⟨b + 1, c⟩ : LineRange).copy lines
      = (⟨a, c⟩ : LineRange).copy lines := by
  unfold copy
  have hcount : c + 1 - a = (b + 1 - a) + (c + 1 - (b + 1)) := by omega
  have hskip : b = a - 1 + (b + 1 - a) := by omega
  rw [← List.flatMap_append, hcount, List.take_add, List.drop_drop, ← hskip]
  rfl

/-- What follows a range begins right after it, and so does the declaration if nothing stands between. -/
theorem start_head_of_isChain {r span : LineRange} {doc : List LineRange}
    (h : (r :: (doc ++ [span])).IsChain Follows) : (doc.head?.getD span).start = r.stop + 1 := by
  refine (List.isChain_cons.mp h).1 _ ?_
  cases doc with
  | nil => rfl
  | cons s doc => rfl

/-- Ranges that follow one another come in the order of their lines. -/
theorem start_le_of_isChain {doc : List LineRange} {span : LineRange}
    (hle : ∀ r ∈ doc, r.start ≤ r.stop) (hchain : (doc ++ [span]).IsChain Follows) :
    (doc.head?.getD span).start ≤ span.start := by
  induction doc with
  | nil => exact Nat.le_refl _
  | cons r doc ih =>
      have hrest := ih (fun s hs => hle s (List.mem_cons_of_mem _ hs)) (List.isChain_cons.mp hchain).2
      rw [start_head_of_isChain hchain] at hrest
      have hr : r.start ≤ r.stop := hle r List.mem_cons_self
      show r.start ≤ span.start
      omega

theorem le_of_fits {r : LineRange} {count : Nat} (h : r.fits count = true) :
    1 ≤ r.start ∧ r.start ≤ r.stop ∧ r.stop ≤ count := by
  simp only [fits, Bool.and_eq_true, bne_iff_ne, decide_eq_true_eq] at h
  omega

/-- **Ranges that follow one another are copied like one range** from the first line to the last. -/
theorem copyAll_concat {doc : List LineRange} {span : LineRange}
    (hfits : ∀ r ∈ doc ++ [span], r.fits lines.length = true)
    (hchain : (doc ++ [span]).IsChain Follows) :
    copyAll lines (doc ++ [span]) = .ok (copy ⟨(doc.head?.getD span).start, span.stop⟩ lines) := by
  have hspan := le_of_fits (hfits span (by simp))
  induction doc with
  | nil =>
      show (if span.fits lines.length = true then Except.ok (span.copy lines ++ []) else _) = _
      rw [if_pos (hfits span (by simp)), List.append_nil]
      rfl
  | cons r doc ih =>
      have hr := le_of_fits (hfits r (by simp))
      have hrest := (List.isChain_cons.mp hchain).2
      have hcopied := ih (fun s hs => hfits s (List.mem_cons_of_mem _ hs)) hrest
      have hle : (doc.head?.getD span).start ≤ span.start :=
        start_le_of_isChain (fun s hs => (le_of_fits (hfits s (by simp [hs]))).2.1) hrest
      rw [start_head_of_isChain hchain] at hcopied hle
      rw [List.cons_append, copyAll, if_pos (hfits r (by simp)), hcopied]
      show Except.ok (copy ⟨r.start, r.stop⟩ lines ++ _) = _
      rw [copy_append (by omega) (by omega) (by omega)]
      rfl

/-- The last of them is copied to the end. -/
theorem copy_suffix {a : Nat} {span : LineRange} (ha : 0 < a) (hle : a ≤ span.start)
    (hspan : span.start ≤ span.stop) : span.copy lines <:+ copy ⟨a, span.stop⟩ lines := by
  refine ⟨copy ⟨a, span.start - 1⟩ lines, ?_⟩
  have hstart : span.start - 1 + 1 = span.start := by omega
  have happend : copy ⟨a, span.start - 1⟩ lines ++ copy ⟨span.start - 1 + 1, span.stop⟩ lines
      = copy ⟨a, span.stop⟩ lines := copy_append ha (by omega) (by omega)
  rwa [hstart] at happend

/-- **Documentation is made of ranges that follow one another** up to the declaration. -/
theorem isChain_docLines {next : Nat} {taken : List LineRange} {before : List Tree} {span : LineRange}
    (hchain : (taken ++ [span]).IsChain Follows) (hnext : (taken.head?.getD span).start = next + 1) :
    (docLines next taken before ++ [span]).IsChain Follows := by
  induction before generalizing next taken with
  | nil => exact hchain
  | cons comment before ih =>
      rw [docLines]
      split
      next => exact hchain
      next =>
        dsimp only
        split
        next => exact hchain
        next htaken =>
          rw [Bool.or_eq_true, not_or, bne_iff_ne, ne_eq, Decidable.not_not] at htaken
          refine ih ?_ rfl
          refine List.isChain_cons.mpr ⟨fun s hs => ?_, hchain⟩
          have hs' : s = taken.head?.getD span := by
            cases taken with
            | nil => simpa using hs.symm
            | cons t taken => simpa using hs.symm
          rw [Follows, hs', hnext, htaken.1]

end LineRange

/-! ## Lines of a tree -/

/-- The text that a tree was read from, in the text of its file. -/
def Tree.Covers (t : Tree) (text own : List Char) : Prop :=
  ∃ pre post, text = pre ++ own ++ post ∧ t.extent.start = Position.zero.advance pre ∧
    t.extent.stop = Position.zero.advance (pre ++ own)

/-- A text that goes on to the beginning of a line ends in a line feed. -/
theorem Position.exists_concat_of_column {p : Position} {cs : List Char} (hne : cs ≠ [])
    (h : (p.advance cs).column = 0) : ∃ a, cs = a ++ ['\n'] := by
  have hsplit := (List.dropLast_append_getLast hne).symm
  rw [hsplit, advance_append, advance_cons, advance_nil, step] at h
  split at h
  next hc => exact ⟨cs.dropLast, hc ▸ hsplit⟩
  next =>
    have hpos := (cs.getLast hne).utf8Size_pos
    simp only at h
    omega

/-- **The lines of a tree hold the text that it was read from.** -/
theorem LineRange.infix_copy_ofTree {t : Tree} {text own : List Char} (h : t.Covers text own) :
    own <:+: (ofTree t).copy (Text.splitOn '\n' text) := by
  obtain ⟨pre, post, rfl, hstart, hstop⟩ := h
  have hrow : t.extent.start.row = pre.count '\n' := by
    rw [hstart, Position.row_advance, show Position.zero.row = 0 from rfl, Nat.zero_add]
  have hrows : t.extent.stop.row = pre.count '\n' + own.count '\n' := by
    rw [hstop, Position.row_advance, List.count_append, show Position.zero.row = 0 from rfl, Nat.zero_add]
  obtain ⟨line, hline, hdrop⟩ := Text.exists_drop_splitOn '\n' pre (own ++ post)
  have hcount : ∀ a : List Char, (line ++ a).count '\n' = a.count '\n' := by
    intro a
    rw [List.count_append, List.count_eq_zero_of_not_mem hline, Nat.zero_add]
  unfold copy ofTree
  dsimp only
  rw [hrow, hrows, Nat.add_sub_cancel, List.append_assoc, hdrop]
  split
  next hcut =>
    -- the tree ends with a line feed, and its last line is the one that this ends
    rw [Bool.and_eq_true, beq_iff_eq, decide_eq_true_eq] at hcut
    have hne : own ≠ [] := by
      rintro rfl
      simp at hcut
    obtain ⟨own', rfl⟩ : ∃ a, own = a ++ ['\n'] := by
      refine Position.exists_concat_of_column hne (p := Position.zero.advance pre) ?_
      rw [← Position.advance_append, ← hstop]
      exact hcut.1
    have hlines : pre.count '\n' + (own' ++ ['\n']).count '\n' - 1 + 1 + 1 - (pre.count '\n' + 1)
        = (line ++ own').count '\n' + 1 := by
      rw [hcount, List.count_append, List.count_singleton_self]
      omega
    rw [hlines, List.append_assoc, List.singleton_append, ← List.append_assoc, Text.take_splitOn]
    exact ⟨line, [], by simp⟩
  next =>
    have hlines : pre.count '\n' + own.count '\n' + 1 + 1 - (pre.count '\n' + 1)
        = (line ++ own).count '\n' + 1 := by
      rw [hcount]
      omega
    obtain ⟨tail, htail⟩ := Text.exists_take_splitOn '\n' (line ++ own) post
    rw [hlines, ← List.append_assoc, htail]
    exact ⟨line, tail, rfl⟩

end GoExcerpt
