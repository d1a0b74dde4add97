import GoExcerpt.Proofs.Numbers
import Mathlib.Data.List.TakeWhile

/-!
# `Proofs.Scanning` — a text up to one of its comments

A lexeme that ends before a comment does not depend on the comment: it is the same lexeme if a blank stands
there instead (`measure_blank`). So the lexemes before a comment stay when other text comes in its place, as
long as this begins with a blank (`exists_cut_of_mem`).
-/

namespace GoExcerpt.Lexeme

open Number (isHex isOctal)

variable {w x : List Char} {n m : Nat}

/-! ## Lexemes that end before a slash -/

theorem takeWhile_append_of_neg {p : Char → Bool} {z : Char} (hz : p z = false) (w x : List Char) :
    (w ++ z :: x).takeWhile p = w.takeWhile p := by
  induction w with
  | nil => simp [hz]
  | cons c w ih => simp only [List.cons_append, List.takeWhile_cons, ih]

theorem takeWhile_append_of_pos {p : Char → Bool} {z : Char} (hz : p z = true)
    (h : ((w ++ z :: x).takeWhile p).length ≤ w.length) (y : List Char) :
    (w ++ y).takeWhile p = (w ++ z :: x).takeWhile p := by
  induction w with
  | nil => simp [hz] at h
  | cons c w ih =>
      simp only [List.cons_append, List.takeWhile_cons] at h ⊢
      split
      next hc =>
        rw [if_pos hc, List.length_cons, List.length_cons] at h
        rw [ih (Nat.le_of_succ_le_succ h)]
      next => rfl

theorem startsWithHex_append {k : Nat} (h : k ≤ w.length) (y : List Char) :
    startsWithHex k (w ++ y) = startsWithHex k w := by
  unfold startsWithHex
  rw [List.take_append_of_le_length h]

theorem le_of_startsWithHex {k : Nat} (h : startsWithHex k (w ++ '/' :: x) = true) : k ≤ w.length := by
  by_contra hlt
  obtain ⟨-, hall⟩ := Bool.and_eq_true_iff.mp h
  have hmem : '/' ∈ (w ++ '/' :: x).take k := by
    obtain ⟨j, hj⟩ : ∃ j, k - w.length = j + 1 := ⟨k - w.length - 1, by omega⟩
    rw [List.take_append, hj, List.take_succ_cons]
    simp
  exact absurd (List.all_eq_true.mp hall '/' hmem) (by decide)

theorem startsWithHex_of_append {k : Nat} (h : startsWithHex k (w ++ '/' :: x) = true) (y : List Char) :
    startsWithHex k (w ++ y) = true := by
  have hle := le_of_startsWithHex h
  rw [startsWithHex_append hle] at h ⊢
  exact h

theorem interpretedLength_other {c : Char} (hquote : c ≠ '"') (hline : c ≠ '\n') (hescape : c ≠ '\\')
    (n : Nat) (cs : List Char) : interpretedLength n (c :: cs) = interpretedLength (n + 1) cs := by
  rw [interpretedLength]
  · exact hquote
  · exact hline
  · rintro d ds rfl
    exact absurd rfl hescape

theorem lt_of_interpretedLength {cs : List Char} (h : interpretedLength n cs = some m) : n < m := by
  induction n, cs using interpretedLength.induct with
  | case1 => simp [interpretedLength] at h
  | case2 n cs =>
      rw [interpretedLength, Option.some.injEq] at h
      omega
  | case3 n cs => simp [interpretedLength] at h
  | case4 n c cs hbad => simp [interpretedLength, hbad] at h
  | case5 n c cs hgood ih =>
      rw [interpretedLength, if_neg hgood] at h
      have := ih h
      omega
  | case6 n c cs hquote hline hescape ih =>
      rw [interpretedLength] at h
      · have := ih h
        omega
      · exact hquote
      · exact hline
      · exact hescape

/-- A string that is closed before some place does not depend on what stands there. -/
theorem interpretedLength_append (h : interpretedLength n (w ++ '/' :: x) = some m)
    (hm : m ≤ n + w.length) (y : List Char) : interpretedLength n (w ++ y) = some m := by
  -- by the length of `w`, since an escape takes two characters at once
  induction hlen : w.length using Nat.strongRecOn generalizing w n with
  | ind len ih =>
  match w with
  | [] =>
      -- the string goes on over the slash, so it is closed too late
      rw [List.nil_append, interpretedLength_other (by decide) (by decide) (by decide)] at h
      have := lt_of_interpretedLength h
      simp only [List.length_nil] at hm
      omega
  | c :: w =>
      simp only [List.length_cons] at hlen hm
      rw [List.cons_append] at h ⊢
      by_cases hquote : c = '"'
      · subst hquote
        exact h
      by_cases hline : c = '\n'
      · subst hline
        exact absurd h (by simp [interpretedLength])
      by_cases hescape : c = '\\'
      · subst hescape
        match w with
        | [] =>
            rw [List.nil_append, interpretedLength] at h
            have := lt_of_interpretedLength (show interpretedLength (n + 2) x = some m by simpa using h)
            simp only [List.length_nil] at hm
            omega
        | d :: w =>
            simp only [List.length_cons] at hlen hm
            rw [List.cons_append, interpretedLength] at h ⊢
            split at h
            next => cases h
            next hgood =>
              simp only [Bool.or_eq_true, Bool.and_eq_true, beq_iff_eq, Bool.not_eq_true', not_or, not_and,
                Bool.not_eq_false] at hgood
              obtain ⟨⟨hx, hu⟩, hU⟩ := hgood
              rw [if_neg]
              · exact ih w.length (by omega) h (by omega) rfl
              · simp only [Bool.or_eq_true, Bool.and_eq_true, beq_iff_eq, Bool.not_eq_true', not_or, not_and,
                  Bool.not_eq_false]
                exact ⟨⟨fun hd => startsWithHex_of_append (hx hd) y,
                  fun hd => startsWithHex_of_append (hu hd) y⟩,
                  fun hd => startsWithHex_of_append (hU hd) y⟩
      · rw [interpretedLength_other hquote hline hescape] at h ⊢
        exact ih w.length (by omega) h (by omega) rfl

theorem lt_of_rawLength {cs : List Char} (h : rawLength n cs = some m) : n < m := by
  induction cs generalizing n with
  | nil => cases h
  | cons c cs ih =>
      rw [rawLength] at h
      split at h
      next =>
        rw [Option.some.injEq] at h
        omega
      next =>
        have := ih h
        omega

theorem rawLength_append (h : rawLength n (w ++ '/' :: x) = some m) (hm : m ≤ n + w.length)
    (y : List Char) : rawLength n (w ++ y) = some m := by
  induction w generalizing n with
  | nil =>
      rw [List.nil_append, rawLength, if_neg (by decide)] at h
      have := lt_of_rawLength h
      simp only [List.length_nil] at hm
      omega
  | cons c w ih =>
      rw [List.cons_append, rawLength] at h ⊢
      split at h
      next hc => rw [if_pos hc, h]
      next hc =>
        rw [if_neg hc]
        refine ih h ?_
        simp only [List.length_cons] at hm
        omega

theorem lt_of_blockLength {cs : List Char} (h : blockLength n cs = some m) : n + 1 < m := by
  induction n, cs using blockLength.induct with
  | case1 => simp [blockLength] at h
  | case2 n cs =>
      rw [blockLength, Option.some.injEq] at h
      omega
  | case3 n c cs hclosed ih =>
      rw [blockLength] at h
      · have := ih h
        omega
      · exact hclosed

theorem blockLength_append (h : blockLength n (w ++ '/' :: x) = some m) (hm : m ≤ n + w.length)
    (y : List Char) : blockLength n (w ++ y) = some m := by
  induction w generalizing n with
  | nil =>
      have := lt_of_blockLength h
      simp only [List.length_nil] at hm
      omega
  | cons c w ih =>
      cases w with
      | nil =>
          have := lt_of_blockLength h
          simp only [List.length_cons, List.length_nil] at hm
          omega
      | cons d w =>
          rw [List.cons_append, List.cons_append] at h ⊢
          by_cases hclosed : c = '*' ∧ d = '/'
          · obtain ⟨rfl, rfl⟩ := hclosed
            exact h
          · have hother : ∀ cs, blockLength n (c :: d :: cs) = blockLength (n + 1) (d :: cs) := by
              intro cs
              rw [blockLength]
              rintro cs' rfl heq
              exact hclosed ⟨rfl, (List.cons.inj heq).1⟩
            rw [hother] at h ⊢
            refine ih h ?_
            simp only [List.length_cons] at hm ⊢
            omega

theorem closedAfter_append {k : Nat} (h : closedAfter k (w ++ x) = some m) (hm : m ≤ w.length)
    (y : List Char) : closedAfter k (w ++ y) = some m := by
  unfold closedAfter at h ⊢
  split at h
  next hk =>
    rw [Option.some.injEq] at h
    have hlt : k < w.length := by omega
    rw [List.getElem?_append_left hlt] at hk ⊢
    rw [if_pos hk, h]
  next => cases h

theorem eq_of_closedAfter {k : Nat} {cs : List Char} (h : closedAfter k cs = some m) : m = k + 1 := by
  unfold closedAfter at h
  split at h
  next => exact (Option.some.inj h).symm
  next => cases h

theorem runeLength_plain {c : Char} (hc : c ≠ '\\') (cs : List Char) :
    runeLength (c :: cs) = if c == '\\' || c == apostrophe then none else closedAfter 1 (c :: cs) := by
  rw [runeLength]
  rintro d ds rfl
  exact absurd rfl hc

theorem runeLength_append (h : runeLength (w ++ '/' :: x) = some m) (hm : m ≤ w.length) (y : List Char) :
    runeLength (w ++ y) = some m := by
  match w with
  | [] =>
      rw [List.nil_append, runeLength_plain (by decide), if_neg (by decide)] at h
      have := eq_of_closedAfter h
      simp only [List.length_nil] at hm
      omega
  | c :: w =>
      by_cases hc : c = '\\'
      · subst hc
        match w with
        | [] => exact absurd h (by simp [runeLength, isOctal, apostrophe])
        | d :: w =>
            have hclosed : ∀ {k : Nat}, closedAfter k ('\\' :: d :: (w ++ '/' :: x)) = some m →
                closedAfter k ('\\' :: d :: (w ++ y)) = some m :=
              fun hk => closedAfter_append (w := '\\' :: d :: w) hk hm y
            rw [List.cons_append, List.cons_append, runeLength] at h ⊢
            split at h
            next hx =>
              split at h
              next hhex => rw [if_pos hx, if_pos (startsWithHex_of_append hhex y), hclosed h]
              next => cases h
            next hx =>
              rw [if_neg hx]
              split at h
              next hu =>
                split at h
                next hhex => rw [if_pos hu, if_pos (startsWithHex_of_append hhex y), hclosed h]
                next => cases h
              next hu =>
                rw [if_neg hu]
                split at h
                next hU =>
                  split at h
                  next hhex => rw [if_pos hU, if_pos (startsWithHex_of_append hhex y), hclosed h]
                  next => cases h
                next hU =>
                  rw [if_neg hU]
                  split at h
                  next hoctal =>
                    rw [if_pos hoctal]
                    split at h
                    next hdigits =>
                      have hlength : 2 ≤ w.length := by
                        have := eq_of_closedAfter h
                        simp only [List.length_cons] at hm
                        omega
                      rw [List.take_append_of_le_length hlength] at hdigits ⊢
                      rw [if_pos hdigits, hclosed h]
                    next => cases h
                  next hoctal =>
                    rw [if_neg hoctal]
                    split at h
                    next hplain => rw [if_pos hplain, hclosed h]
                    next => cases h
      · rw [List.cons_append, runeLength_plain hc] at h ⊢
        split at h
        next => cases h
        next hplain =>
          rw [if_neg hplain]
          exact closedAfter_append (w := c :: w) h hm y

/-! ## Operators -/

theorem operators_gapless : ∀ op ∈ operators, ' ' ∉ op := by decide +kernel

/-- An operator that ends before some place is found whatever blank stands there. -/
theorem find_operator_append {c : Char} {op : List Char}
    (h : operators.find? (·.isPrefixOf (c :: (w ++ '/' :: x))) = some op) (hop : op.length - 1 ≤ w.length)
    (y : List Char) : operators.find? (·.isPrefixOf (c :: (w ++ ' ' :: y))) = some op := by
  have hshort : ∀ {o : List Char} {z}, o.length ≤ w.length + 1 →
      o.isPrefixOf (c :: (w ++ z)) = o.isPrefixOf (c :: w) := by
    intro o z ho
    rw [Bool.eq_iff_iff, List.isPrefixOf_iff_prefix, List.isPrefixOf_iff_prefix, ← List.cons_append]
    constructor
    · intro hstarts
      exact List.prefix_of_prefix_length_le hstarts (List.prefix_append _ _) (by simpa using ho)
    · exact fun hstarts => hstarts.trans (List.prefix_append _ _)
  obtain ⟨hstarts, before, after, hsplit, hbefore⟩ := List.find?_eq_some_iff_append.mp h
  refine List.find?_eq_some_iff_append.mpr ⟨?_, before, after, hsplit, fun o ho => ?_⟩
  · rw [hshort (by omega)] at hstarts ⊢
    exact hstarts
  · by_cases hlength : o.length ≤ w.length + 1
    · have hnot := hbefore o ho
      rw [hshort hlength] at hnot ⊢
      exact hnot
    · -- a longer one would have the blank in it
      have hmem : o ∈ operators := by simp [hsplit, ho]
      by_contra hlong
      simp only [Bool.not_eq_true, Bool.not_eq_false', List.isPrefixOf_iff_prefix] at hlong
      have hhere : c :: (w ++ [' ']) <+: c :: (w ++ ' ' :: y) := ⟨y, by simp⟩
      have hblank : c :: (w ++ [' ']) <+: o := by
        refine List.prefix_of_prefix_length_le hhere hlong ?_
        simp only [List.length_cons, List.length_append, List.length_nil]
        omega
      exact operators_gapless o hmem (hblank.subset (by simp))

/-! ## One lexeme -/

/-- What stands right after a character is looked at only to tell whether it is a digit or goes on with a
    slash or a star. -/
theorem head?_blank {p : Char → Bool} (hslash : p '/' = false) (hblank : p ' ' = false)
    (w x y : List Char) : (w ++ ' ' :: y).head?.any p = (w ++ '/' :: x).head?.any p := by
  cases w with
  | nil => simp [hslash, hblank]
  | cons d w => rfl

/-- A slash that opens no comment does not do so with a blank in place of a later slash. -/
theorem head?_ne_slash {c : Char} (h : ¬ (c == '/' && (w ++ '/' :: x).head? == some '/') = true)
    (y : List Char) : ¬ (c == '/' && (w ++ ' ' :: y).head? == some '/') = true := by
  cases w with
  | nil => simp
  | cons d w => exact h

theorem head?_star (c : Char) (w x y : List Char) :
    (c == '/' && (w ++ ' ' :: y).head? == some '*') = (c == '/' && (w ++ '/' :: x).head? == some '*') := by
  cases w with
  | nil => simp
  | cons d w => rfl

/-- A lexeme that must be closed is measured alike where it is closed alike. -/
theorem closed_congr {cls kind : LexemeClass} {found found' : Option Nat} (hstray : cls ≠ .stray) :
    (found = some n → found' = some n) →
    (match found with
      | some k => (some kind, k)
      | none => (some .stray, 0)) = (some cls, n) →
    (match found' with
      | some k => (some kind, k)
      | none => (some .stray, 0)) = (some cls, n) := by
  intro hsame h
  cases found with
  | none => exact absurd (Option.some.inj (Prod.mk.inj h).1).symm hstray
  | some k =>
      cases h
      simp [hsame rfl]

/-- **A lexeme that ends before a comment is the same with a blank there.** -/
theorem measure_blank {c : Char} {cls : LexemeClass} (h : measure c (w ++ '/' :: x) = (some cls, n))
    (hn : n ≤ w.length) (hstray : cls ≠ .stray) (y : List Char) :
    measure c (w ++ ' ' :: y) = (some cls, n) := by
  -- the cases are those of `measure`, in its order; each test looks no further than the lexeme goes
  unfold measure at h ⊢
  rw [head?_blank (by decide) (by decide) w x y, head?_star c w x y]
  split at h
  next hline => rw [if_pos hline, h]
  next hline =>
  rw [if_neg hline]
  split at h
  next => cases h
  next hgap =>
  rw [if_neg hgap]
  split at h
  next hword =>
    rw [if_pos hword, takeWhile_append_of_neg (by decide), ← h, takeWhile_append_of_neg (by decide)]
  next hword =>
  rw [if_neg hword]
  split at h
  next hnumber =>
    rw [if_pos hnumber, ← h, ← List.cons_append, ← List.cons_append, Number.length_append (by decide),
      Number.length_append (by decide)]
  next hnumber =>
  rw [if_neg hnumber]
  split at h
  next hcomment =>
    cases h
    -- the comment goes on at least to the next slash, which is not the one replaced
    cases w with
    | nil => simp at hn
    | cons d w =>
        have hopens : (c == '/' && (d :: w ++ ' ' :: y).head? == some '/') = true := hcomment
        rw [if_pos hopens, takeWhile_append_of_pos (by decide) hn (' ' :: y)]
  next hcomment =>
  rw [if_neg (head?_ne_slash hcomment y)]
  split at h
  next hblock =>
    rw [if_pos hblock]
    cases w with
    | nil => simp at hblock
    | cons d w =>
        rw [List.length_cons] at hn
        exact closed_congr hstray (fun hk => blockLength_append hk (by omega) (' ' :: y)) h
  next hblock =>
  rw [if_neg hblock]
  split at h
  next hquote =>
    rw [if_pos hquote]
    exact closed_congr hstray (fun hk => interpretedLength_append hk (by omega) (' ' :: y)) h
  next hquote =>
  rw [if_neg hquote]
  split at h
  next hraw =>
    rw [if_pos hraw]
    exact closed_congr hstray (fun hk => rawLength_append hk (by omega) (' ' :: y)) h
  next hraw =>
  rw [if_neg hraw]
  split at h
  next hrune =>
    rw [if_pos hrune]
    exact closed_congr hstray (fun hk => runeLength_append hk hn (' ' :: y)) h
  next hrune =>
  rw [if_neg hrune]
  split at h
  next op hop =>
    cases h
    rw [find_operator_append hop hn y]
  next => exact absurd (Option.some.inj (Prod.mk.inj h).1).symm hstray

/-! ## The lexemes of a piece of text -/

/-- The lexemes of a text that begins at `p`. -/
def lexemesFrom (p : Position) (cs : List Char) : List Lexeme := scanFrom [] cs.length p cs

theorem scanFrom_eq_lexemesFrom {fuel : Nat} (p : Position) {cs : List Char} (h : cs.length ≤ fuel) :
    scanFrom [] fuel p cs = lexemesFrom p cs := by
  unfold lexemesFrom
  induction hlength : cs.length using Nat.strongRecOn generalizing fuel p cs with
  | ind len ih =>
  cases cs with
  | nil =>
      subst hlength
      cases fuel <;> simp [scanFrom]
  | cons c cs =>
      obtain ⟨fuel, rfl⟩ : ∃ n, fuel = n + 1 := ⟨fuel - 1, by rw [List.length_cons] at h; omega⟩
      subst hlength
      have hrest : (cs.drop (measure c cs).2).length ≤ cs.length := by
        rw [List.length_drop]
        exact Nat.sub_le _ _
      have hfuel : cs.length ≤ fuel := Nat.le_of_succ_le_succ h
      have hlt : (cs.drop (measure c cs).2).length < (c :: cs).length := Nat.lt_succ_of_le hrest
      rw [List.length_cons, scanFrom_cons, scanFrom_cons, ih _ hlt _ (Nat.le_trans hrest hfuel) rfl,
        ih _ hlt _ hrest rfl]

@[simp] theorem lexemesFrom_nil (p : Position) : lexemesFrom p [] = [] := rfl

theorem lexemesFrom_cons (p : Position) (c : Char) (cs : List Char) :
    lexemesFrom p (c :: cs)
      = ((measure c cs).1.map fun cls => (⟨cls, String.ofList (takenAt c cs),
            ⟨p, p.advance (takenAt c cs)⟩⟩ : Lexeme)).toList
        ++ lexemesFrom (p.advance (takenAt c cs)) (cs.drop (measure c cs).2) := by
  have hrest : (cs.drop (measure c cs).2).length ≤ cs.length := by
    rw [List.length_drop]
    exact Nat.sub_le _ _
  rw [← scanFrom_eq_lexemesFrom _ hrest, ← scanFrom_cons]
  rfl

theorem measure_gap {c : Char} (h : isGap c = true) (cs : List Char) :
    measure c cs = (none, (cs.takeWhile isGap).length) := by
  have hline : ¬ (c == '\n') = true := by
    intro hc
    rw [beq_iff_eq.mp hc] at h
    cases h
  unfold measure
  rw [if_neg hline, if_pos h]

/-- Anything but a blank opens a lexeme. -/
theorem exists_of_not_gap {c : Char} (h : ¬ isGap c = true) (cs : List Char) :
    ∃ cls n, measure c cs = (some cls, n) := by
  unfold measure
  repeat' split
  all_goals first
    | contradiction
    | exact ⟨_, _, rfl⟩

/-- A blank is passed over. -/
theorem lexemesFrom_gap {c : Char} (h : isGap c = true) (p : Position) (cs : List Char) :
    lexemesFrom p (c :: cs) = lexemesFrom (p.step c) cs := by
  rw [lexemesFrom_cons, takenAt, measure_gap h]
  cases cs with
  | nil => rfl
  | cons d ds =>
      by_cases hd : isGap d = true
      · rw [lexemesFrom_cons, takenAt, measure_gap hd, List.takeWhile_cons_of_pos hd]
        rfl
      · rw [List.takeWhile_cons_of_neg hd]
        rfl

/-- Anything else is read as one lexeme. -/
theorem lexemesFrom_lexeme {c : Char} {cs : List Char} {cls : LexemeClass}
    (h : measure c cs = (some cls, n)) (p : Position) :
    lexemesFrom p (c :: cs)
      = ⟨cls, String.ofList (c :: cs.take n), ⟨p, p.advance (c :: cs.take n)⟩⟩
        :: lexemesFrom (p.advance (c :: cs.take n)) (cs.drop n) := by
  rw [lexemesFrom_cons, takenAt, h]
  rfl

/-! ## Cutting a text at a comment -/

/-- Only a slash opens a comment. -/
theorem measure_comment {c : Char} {cs : List Char} (h : measure c cs = (some .comment, n)) : c = '/' := by
  by_contra hc
  have hslash : (c == '/') = false := beq_eq_false_iff_ne.mpr hc
  unfold measure at h
  simp only [hslash, Bool.false_and, Bool.false_eq_true, if_false] at h
  repeat' split at h
  all_goals cases h

/-- A text cut at one of its comments: `before` are the lexemes of `u`, the comment is a slash and then
    `com`. -/
structure Cut (p : Position) (cs : List Char) (l : Lexeme) (u com v : List Char) (before : List Lexeme) :
    Prop where
  text : cs = u ++ '/' :: com ++ v
  comment : l = ⟨.comment, String.ofList ('/' :: com), ⟨p.advance u, p.advance (u ++ '/' :: com)⟩⟩
  lexemes : lexemesFrom p cs = before ++ l :: lexemesFrom (p.advance (u ++ '/' :: com)) v
  /-- the lexemes before the comment do not depend on it -/
  blank : ∀ y, lexemesFrom p (u ++ ' ' :: y) = before ++ lexemesFrom (p.advance u) (' ' :: y)

section

variable {p : Position} {c : Char} {cs u com v : List Char} {l : Lexeme} {before : List Lexeme}

/-- The comment stands right here. -/
theorem cut_here (h : measure c cs = (some .comment, n)) :
    Cut p (c :: cs) ⟨.comment, String.ofList (c :: cs.take n), ⟨p, p.advance (c :: cs.take n)⟩⟩
      [] (cs.take n) (cs.drop n) [] := by
  have hlexemes := lexemesFrom_lexeme h p
  obtain rfl := measure_comment h
  exact ⟨by simp, rfl, hlexemes, fun y => rfl⟩

/-- A blank stands here, the comment later. -/
theorem Cut.gap (h : Cut (p.step c) cs l u com v before) (hgap : isGap c = true) :
    Cut p (c :: cs) l (c :: u) com v before where
  text := by
    rw [h.text]
    rfl
  comment := h.comment
  lexemes := by
    rw [lexemesFrom_gap hgap, h.lexemes]
    rfl
  blank := fun y => by
    rw [List.cons_append, lexemesFrom_gap hgap, h.blank]
    rfl

/-- Another lexeme stands here, the comment later: what is read here ends before it. -/
theorem Cut.lexeme {cls : LexemeClass} (h : Cut (p.advance (c :: cs.take n)) (cs.drop n) l u com v before)
    (hmeasure : measure c cs = (some cls, n)) (hstray : cls ≠ .stray) (hle : n ≤ cs.length) :
    Cut p (c :: cs) l (c :: cs.take n ++ u) com v
      (⟨cls, String.ofList (c :: cs.take n), ⟨p, p.advance (c :: cs.take n)⟩⟩ :: before) := by
  have hcs : cs = cs.take n ++ u ++ '/' :: (com ++ v) := by
    conv => lhs; rw [← List.take_append_drop n cs, h.text]
    simp
  have htake : (cs.take n).length = n := List.length_take_of_le hle
  refine ⟨?_, ?_, ?_, fun y => ?_⟩
  · conv => lhs; rw [hcs]
    simp
  · rw [h.comment, List.append_assoc, Position.advance_append p _ u, Position.advance_append p _ (u ++ _)]
  · rw [lexemesFrom_lexeme hmeasure, h.lexemes, List.append_assoc, Position.advance_append p]
    rfl
  · have hblank : measure c (cs.take n ++ (u ++ ' ' :: y)) = (some cls, n) := by
      rw [← List.append_assoc]
      refine measure_blank (hcs ▸ hmeasure) ?_ hstray y
      rw [List.length_append, htake]
      exact Nat.le_add_right _ _
    rw [List.append_assoc, List.cons_append, lexemesFrom_lexeme hblank, List.take_left' htake,
      List.drop_left' htake, h.blank, Position.advance_append p]
    rfl

/-- **A text can be cut at each of its comments,** if no character of it is stray. -/
theorem exists_cut_of_mem (h : l ∈ lexemesFrom p cs) (hcomment : l.cls = .comment)
    (hstray : ∀ l ∈ lexemesFrom p cs, l.cls ≠ .stray) :
    ∃ u com v before, Cut p cs l u com v before := by
  -- by the length of the text, which each lexeme shortens
  induction hlength : cs.length using Nat.strongRecOn generalizing p cs with
  | ind len ih =>
  subst hlength
  cases cs with
  | nil => simp at h
  | cons c cs =>
      by_cases hgap : isGap c = true
      · rw [lexemesFrom_gap hgap] at h hstray
        obtain ⟨u, com, v, before, hcut⟩ := ih cs.length (Nat.lt_succ_self _) h hstray rfl
        exact ⟨_, _, _, _, hcut.gap hgap⟩
      · obtain ⟨cls, n, hmeasure⟩ := exists_of_not_gap hgap cs
        rw [lexemesFrom_lexeme hmeasure] at h hstray
        rcases List.mem_cons.mp h with rfl | h
        · obtain rfl : cls = .comment := hcomment
          exact ⟨_, _, _, _, cut_here hmeasure⟩
        · have hle : n ≤ cs.length := by
            by_contra hlt
            rw [List.drop_eq_nil_of_le (Nat.le_of_not_le hlt)] at h
            simp at h
          have hlt : (cs.drop n).length < (c :: cs).length := by
            rw [List.length_drop, List.length_cons]
            omega
          obtain ⟨u, com, v, before, hcut⟩ := ih _ hlt h (fun l hl => hstray l (.tail _ hl)) rfl
          exact ⟨_, _, _, _, hcut.lexeme hmeasure (hstray _ (.head _)) hle⟩

end

end GoExcerpt.Lexeme
