/-!
# `Text.Split` — cutting text at a separator

`splitOn` keeps empty pieces and always gives at least one piece, so a text has one more piece than it has
separators (`length_splitOn`), and the pieces with separators between them are the text again
(`intercalate_splitOn`).
-/

namespace GoExcerpt.Text

/-- Puts a finished piece, held in reverse, in front of the pieces already cut, also in reverse. -/
def splitLoop (sep : Char) (piece : List Char) (done : List (List Char)) :
    List Char → List (List Char)
  | [] => (piece.reverse :: done).reverse
  | c :: cs =>
      if c = sep then splitLoop sep [] (piece.reverse :: done) cs
      else splitLoop sep (c :: piece) done cs

/-- The pieces of a text between separators. -/
def splitOn (sep : Char) (cs : List Char) : List (List Char) := splitLoop sep [] [] cs

/-! ## Laws of cutting -/

/-- Pieces cut before come first. -/
theorem splitLoop_done (sep : Char) (piece : List Char) (done : List (List Char)) (cs : List Char) :
    splitLoop sep piece done cs = done.reverse ++ splitLoop sep piece [] cs := by
  induction cs generalizing piece done with
  | nil => simp [splitLoop]
  | cons c cs ih =>
      by_cases h : c = sep
      · simp only [splitLoop, h, if_true]
        rw [ih [] (piece.reverse :: done), ih [] [piece.reverse]]
        simp
      · simp only [splitLoop, h, if_false]
        exact ih (c :: piece) done

/-- What is held of the current piece goes in front of the first piece. -/
theorem splitLoop_piece (sep : Char) (piece cs : List Char) :
    splitLoop sep piece [] cs = (splitOn sep cs).modifyHead (piece.reverse ++ ·) := by
  induction cs generalizing piece with
  | nil => simp [splitOn, splitLoop]
  | cons c cs ih =>
      by_cases h : c = sep
      · simp only [splitOn, splitLoop, h, if_true]
        rw [splitLoop_done sep [] [piece.reverse], splitLoop_done sep [] [[].reverse]]
        simp
      · simp only [splitOn, splitLoop, h, if_false]
        rw [ih (c :: piece), ih [c]]
        cases splitOn sep cs <;> simp

@[simp] theorem splitOn_nil (sep : Char) : splitOn sep [] = [[]] := rfl

@[simp] theorem splitOn_cons_self (sep : Char) (cs : List Char) :
    splitOn sep (sep :: cs) = [] :: splitOn sep cs := by
  simp only [splitOn, splitLoop, if_true]
  rw [splitLoop_done sep [] [[].reverse]]
  simp

theorem splitOn_cons_of_ne {sep c : Char} (h : c ≠ sep) (cs : List Char) :
    splitOn sep (c :: cs) = (splitOn sep cs).modifyHead (c :: ·) := by
  simp only [splitOn, splitLoop, h, if_false]
  rw [splitLoop_piece sep [c]]
  rfl

/-- There is always a piece. -/
theorem splitOn_ne_nil (sep : Char) (cs : List Char) : splitOn sep cs ≠ [] := by
  induction cs with
  | nil => simp
  | cons c cs ih =>
      by_cases h : c = sep
      · subst h; simp
      · rw [splitOn_cons_of_ne h]
        cases hs : splitOn sep cs with
        | nil => exact absurd hs ih
        | cons p ps => simp

/-- A separator cuts a text in two. -/
theorem splitOn_append_cons (sep : Char) (a b : List Char) :
    splitOn sep (a ++ sep :: b) = splitOn sep a ++ splitOn sep b := by
  induction a with
  | nil => exact splitOn_cons_self sep b
  | cons c a ih =>
      obtain ⟨piece, pieces, hpieces⟩ := List.exists_cons_of_ne_nil (splitOn_ne_nil sep a)
      by_cases h : c = sep
      · rw [h, List.cons_append, splitOn_cons_self, splitOn_cons_self, ih]
        rfl
      · rw [List.cons_append, splitOn_cons_of_ne h, splitOn_cons_of_ne h, ih, hpieces]
        rfl

/-- A text without separators is one piece. -/
theorem splitOn_of_not_mem {sep : Char} {cs : List Char} (h : sep ∉ cs) : splitOn sep cs = [cs] := by
  induction cs with
  | nil => rfl
  | cons c cs ih =>
      rw [List.mem_cons, not_or] at h
      rw [splitOn_cons_of_ne (Ne.symm h.1), ih h.2]
      rfl

/-- No piece has a separator in it. -/
theorem not_mem_of_mem_splitOn {sep : Char} {cs piece : List Char} (h : piece ∈ splitOn sep cs) :
    sep ∉ piece := by
  induction cs generalizing piece with
  | nil =>
      obtain rfl := List.mem_singleton.mp h
      exact List.not_mem_nil
  | cons c cs ih =>
      obtain ⟨first, rest, hpieces⟩ := List.exists_cons_of_ne_nil (splitOn_ne_nil sep cs)
      by_cases hc : c = sep
      · rw [hc, splitOn_cons_self, List.mem_cons] at h
        rcases h with rfl | h
        · exact List.not_mem_nil
        · exact ih h
      · rw [splitOn_cons_of_ne hc, hpieces, List.modifyHead_cons, List.mem_cons] at h
        rcases h with rfl | h
        · have hfirst : sep ∉ first := ih (hpieces ▸ List.mem_cons_self)
          exact List.not_mem_cons_of_ne_of_not_mem (Ne.symm hc) hfirst
        · exact ih (hpieces ▸ List.mem_cons_of_mem first h)

/-- One more piece than separators. -/
theorem length_splitOn (sep : Char) (cs : List Char) :
    (splitOn sep cs).length = cs.count sep + 1 := by
  induction cs with
  | nil => rfl
  | cons c cs ih =>
      by_cases h : c = sep
      · subst h; simp [ih]
      · rw [splitOn_cons_of_ne h]
        simp [ih, h]

/-- The pieces with separators between them are the text again. -/
theorem intercalate_splitOn (sep : Char) (cs : List Char) :
    [sep].intercalate (splitOn sep cs) = cs := by
  induction cs with
  | nil => rfl
  | cons c cs ih =>
      cases hs : splitOn sep cs with
      | nil => exact absurd hs (splitOn_ne_nil sep cs)
      | cons p ps =>
          rw [hs] at ih
          by_cases h : c = sep
          · subst h
            rw [splitOn_cons_self, hs, List.intercalate_cons_cons, ih]
            rfl
          · rw [splitOn_cons_of_ne h, hs]
            cases ps with
            | nil => simpa using congrArg (c :: ·) ih
            | cons q qs => simpa [List.intercalate_cons_cons] using congrArg (c :: ·) ih

/-- The pieces of a string between separators. -/
def pieces (sep : Char) (s : String) : List String := (splitOn sep s.toList).map String.ofList

theorem pieces_ne_nil (sep : Char) (s : String) : pieces sep s ≠ [] := by
  intro h
  exact splitOn_ne_nil sep s.toList (List.map_eq_nil_iff.mp h)

theorem pieces_of_not_mem {sep : Char} {s : String} (h : sep ∉ s.toList) : pieces sep s = [s] := by
  unfold pieces
  rw [splitOn_of_not_mem h, List.map_singleton, String.ofList_toList]

/-- A separator cuts a string in two. -/
theorem pieces_of_toList {sep : Char} {s a b : String} (h : s.toList = a.toList ++ sep :: b.toList) :
    pieces sep s = pieces sep a ++ pieces sep b := by
  unfold pieces
  rw [h, splitOn_append_cons, List.map_append]

end GoExcerpt.Text
