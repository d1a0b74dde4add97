import GoExcerpt.Proofs.Scanning

/-!
# `Proofs.Boundaries` — what stands right before a word

Where one lexeme ends and the next begins with a letter, the first is no word and no comment up to the end of its
line, since both would go on over the letter. Of the others, those with a closing mark end in that mark, and the only
ones that may end in a letter are numbers, which have no `r` in them (`Lexeme.not_mem_of_measure`). So a word is never
preceded by another word without anything between (`Lexeme.exists_place_of_mem_scan`).
-/

namespace GoExcerpt.Lexeme

variable {n m : Nat} {c : Char} {cs : List Char}

/-! ## Closing marks -/

theorem closing_of_interpretedLength (h : interpretedLength n cs = some m) :
    ∃ k, m = n + k + 1 ∧ cs[k]? = some '"' := by
  induction n, cs using interpretedLength.induct with
  | case1 => simp [interpretedLength] at h
  | case2 n cs =>
      rw [interpretedLength, Option.some.injEq] at h
      exact ⟨0, h.symm, rfl⟩
  | case3 n cs => simp [interpretedLength] at h
  | case4 n c cs hbad => simp [interpretedLength, hbad] at h
  | case5 n c cs hgood ih =>
      rw [interpretedLength, if_neg hgood] at h
      obtain ⟨k, rfl, hk⟩ := ih h
      exact ⟨k + 2, by omega, hk⟩
  | case6 n c cs hquote hline hescape ih =>
      rw [interpretedLength] at h
      · obtain ⟨k, rfl, hk⟩ := ih h
        exact ⟨k + 1, by omega, hk⟩
      · exact hquote
      · exact hline
      · exact hescape

theorem closing_of_rawLength (h : rawLength n cs = some m) : ∃ k, m = n + k + 1 ∧ cs[k]? = some backquote := by
  induction cs generalizing n with
  | nil => cases h
  | cons c cs ih =>
      rw [rawLength] at h
      split at h
      next hc =>
        rw [Option.some.injEq] at h
        exact ⟨0, h.symm, by rw [← beq_iff_eq.mp hc]; rfl⟩
      next =>
        obtain ⟨k, rfl, hk⟩ := ih h
        exact ⟨k + 1, by omega, hk⟩

theorem closing_of_blockLength (h : blockLength n cs = some m) : ∃ k, m = n + k + 1 ∧ cs[k]? = some '/' := by
  induction n, cs using blockLength.induct with
  | case1 => simp [blockLength] at h
  | case2 n cs =>
      rw [blockLength, Option.some.injEq] at h
      exact ⟨1, h.symm, rfl⟩
  | case3 n c cs hclosed ih =>
      rw [blockLength] at h
      · obtain ⟨k, rfl, hk⟩ := ih h
        exact ⟨k + 1, by omega, hk⟩
      · exact hclosed

theorem closing_of_closedAfter {k : Nat} (h : closedAfter k cs = some m) : m = k + 1 ∧ cs[k]? = some apostrophe := by
  unfold closedAfter at h
  split at h
  next hk => exact ⟨(Option.some.inj h).symm, beq_iff_eq.mp hk⟩
  next => cases h

theorem closing_of_runeLength (h : runeLength cs = some m) : ∃ k, m = k + 1 ∧ cs[k]? = some apostrophe := by
  unfold runeLength at h
  repeat' split at h
  all_goals first
    | exact ⟨_, closing_of_closedAfter h⟩
    | cases h

/-- The last character taken, if it is known where it stands. -/
theorem getLast?_take {q : Char} {k : Nat} (h : cs[k]? = some q) : (c :: cs.take (k + 1)).getLast? = some q := by
  rw [List.take_add_one, h, ← List.cons_append]
  exact List.getLast?_concat

/-! ## The end of a lexeme -/

/-- A run goes on as far as it can. -/
theorem eq_false_of_drop_takeWhile {p : Char → Bool} {z : Char} {y : List Char}
    (h : cs.drop (cs.takeWhile p).length = z :: y) : p z = false := by
  have hhead := List.head?_dropWhile_not p cs
  have hdrop : cs.dropWhile p = z :: y := by
    have hsplit := List.takeWhile_append_dropWhile (p := p) (l := cs)
    rw [← h]
    conv => rhs; rw [← hsplit]
    rw [List.drop_left' (by rw [hsplit])]
  rw [hdrop] at hhead
  simpa using hhead

/-- A letter opens a word, and no word ends before a letter. -/
theorem ne_of_measure {k : Option LexemeClass} {z : Char} {y : List Char} (h : measure c cs = (k, n))
    (hz : Identifier.isFollowing z = true) (hrest : cs.drop n = z :: y) : c ≠ 'e' := by
  rintro rfl
  rw [measure, if_neg (by decide), if_neg (by decide), if_pos (by decide)] at h
  cases h
  rw [eq_false_of_drop_takeWhile hrest] at hz
  cases hz

theorem operators_letterless : ∀ op ∈ operators, op ≠ [] ∧ 'r' ∉ op := by decide +kernel

/-- **A lexeme that ends in an `e` before a letter is a number,** and has no `r` in it. -/
theorem not_mem_of_measure {k : Option LexemeClass} {z : Char} {y : List Char} (h : measure c cs = (k, n))
    (hz : Identifier.isFollowing z = true) (hrest : cs.drop n = z :: y)
    (hlast : (c :: cs.take n).getLast? = some 'e') : 'r' ∉ c :: cs.take n := by
  have hsingle : n ≠ 0 := by
    rintro rfl
    exact ne_of_measure h hz hrest (Option.some.inj hlast)
  have hclosed : ∀ {q : Char} {k : Nat}, n = k + 1 → cs[k]? = some q → q = 'e' := by
    rintro q k rfl hk
    exact Option.some.inj ((getLast?_take hk).symm.trans hlast)
  -- the cases are those of `measure`, in its order
  unfold measure at h
  split at h
  next =>
    cases h
    exact absurd rfl hsingle
  split at h
  next hgap =>
    cases h
    have hmem : 'e' ∈ c :: cs.takeWhile isGap := by
      rw [List.prefix_iff_eq_take.mp (List.takeWhile_prefix isGap)]
      exact List.mem_of_getLast? hlast
    have hall : ∀ d ∈ c :: cs.takeWhile isGap, isGap d = true :=
      List.forall_mem_cons.mpr ⟨hgap, fun d hd => List.all_eq_true.mp List.all_takeWhile d hd⟩
    exact absurd (hall 'e' hmem) (by decide)
  split at h
  next =>
    cases h
    rw [eq_false_of_drop_takeWhile hrest] at hz
    cases hz
  split at h
  next =>
    cases h
    obtain ⟨m, hm⟩ : ∃ m, Number.length (c :: cs) = m + 1 := ⟨Number.length (c :: cs) - 1, by omega⟩
    have hnone := Number.not_mem_take_length (c :: cs)
    rw [hm, List.take_succ_cons] at hnone
    rw [hm, Nat.add_sub_cancel]
    exact hnone
  split at h
  next =>
    cases h
    obtain rfl : z = '\n' := by simpa using eq_false_of_drop_takeWhile hrest
    exact absurd hz (by decide)
  split at h
  next hblock =>
    split at h
    next m hm =>
      cases h
      obtain ⟨k, rfl, hk⟩ := closing_of_blockLength hm
      have hk' : cs[k + 1]? = some '/' := by
        rw [← List.getElem?_tail]
        exact hk
      exact absurd (hclosed (by omega) hk') (by decide)
    next =>
      cases h
      exact absurd rfl hsingle
  split at h
  next =>
    split at h
    next m hm =>
      cases h
      obtain ⟨k, rfl, hk⟩ := closing_of_interpretedLength hm
      exact absurd (hclosed (by omega) hk) (by decide)
    next =>
      cases h
      exact absurd rfl hsingle
  split at h
  next =>
    split at h
    next m hm =>
      cases h
      obtain ⟨k, rfl, hk⟩ := closing_of_rawLength hm
      exact absurd (hclosed (by omega) hk) (by decide)
    next =>
      cases h
      exact absurd rfl hsingle
  split at h
  next =>
    split at h
    next m hm =>
      cases h
      obtain ⟨k, rfl, hk⟩ := closing_of_runeLength hm
      exact absurd (hclosed rfl hk) (by decide)
    next =>
      cases h
      exact absurd rfl hsingle
  split at h
  next op hop =>
    cases h
    obtain ⟨hne, hletter⟩ := operators_letterless op (List.mem_of_find?_eq_some hop)
    have hfound := List.find?_some hop
    have hstarts : op <+: c :: cs := List.isPrefixOf_iff_prefix.mp hfound
    obtain ⟨m, hm⟩ : ∃ m, op.length = m + 1 := Nat.exists_eq_add_one.mpr (List.length_pos_iff.mpr hne)
    rw [List.prefix_iff_eq_take.mp hstarts, hm, List.take_succ_cons] at hletter
    rw [hm, Nat.add_sub_cancel]
    exact hletter
  next =>
    cases h
    exact absurd rfl hsingle

/-! ## Places in a text -/

/-- A place where no word would go on: what stands before it does not end in `re` if a letter follows. -/
def Apart (before rest : List Char) : Prop :=
  ∀ z y, rest = z :: y → Identifier.isFollowing z = true → ¬ ['r', 'e'] <:+ before

theorem apart_of_length {before rest : List Char} (h : before.length ≤ 1) : Apart before rest := by
  intro z y _ _ hends
  have hle := hends.length_le
  simp only [List.length_cons, List.length_nil] at hle
  omega

/-- Where a lexeme has been taken, no word goes on. -/
theorem apart_takenAt (before : List Char) (c : Char) (cs : List Char) :
    Apart (before ++ takenAt c cs) (cs.drop (measure c cs).2) := by
  rintro z y hrest hz ⟨more, hends⟩
  have hmeasure : measure c cs = ((measure c cs).1, (measure c cs).2) := rfl
  have hlast : (takenAt c cs).getLast? = some 'e' := by
    have hlast := congrArg List.getLast? hends
    rw [List.getLast?_append, takenAt] at hlast
    simpa [takenAt] using hlast.symm
  have hnone : 'r' ∉ takenAt c cs := not_mem_of_measure hmeasure hz hrest hlast
  -- the `r` was taken as well, or the `e` alone
  rcases List.append_eq_append_iff.mp hends with ⟨between, -, hboth⟩ | ⟨between, -, htaken⟩
  · rcases between with _ | ⟨r, _ | ⟨e, between⟩⟩
    · have hwhole : ['r', 'e'] = takenAt c cs := hboth
      exact hnone (hwhole ▸ List.mem_cons_self)
    · have halone : ['e'] = takenAt c cs := List.tail_eq_of_cons_eq hboth
      exact ne_of_measure hmeasure hz hrest (List.cons.inj halone).1.symm
    · have hempty := List.tail_eq_of_cons_eq (List.tail_eq_of_cons_eq hboth)
      simp [takenAt] at hempty
  · exact hnone (by simp [htaken])

/-- **A lexeme stands at a place of its text where no word goes on.** -/
theorem exists_place_of_mem_scan {source : String} {l : Lexeme} (h : l ∈ scan source) :
    ∃ before after, source.toList = before ++ (l.text.toList ++ after) ∧
      l.extent.start = Position.zero.advance before ∧ Apart before (l.text.toList ++ after) := by
  obtain ⟨before, c, rest, hsource, hapart, htaken⟩ :=
    exists_taken_of_mem_scan (p := Apart) (fun _ _ => apart_of_length)
      (fun before c rest _ => apart_takenAt before c rest) h
  have hcut : l.text.toList ++ rest.drop (measure c rest).2 = c :: rest := by
    rw [htaken.text, String.toList_ofList, takenAt_append_drop]
  refine ⟨before, rest.drop (measure c rest).2, by rw [hcut, hsource], by rw [htaken.extent], ?_⟩
  rw [hcut]
  exact hapart

end GoExcerpt.Lexeme
