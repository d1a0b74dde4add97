import GoExcerpt.Toml.Writer
import Mathlib.Data.List.TakeWhile

/-!
# `Proofs.Toml.Strings` — strings are read back as they were written

Each form of a string is undone by its own reader. An escaped character is read back wherever the reader does
what `Unescapes` says (`Unescapes.escapeChar`), which both readers of basic strings do. In the multi-line forms
quotes stand as they are, and the reader must not take them for the closing ones: never more than two stand in
a row before something else (`readBasicLines_escapeText`, `readLiteralLines_append`). The form that is chosen
is one whose conditions hold (`readString_writeString`).
-/

namespace GoExcerpt.Toml

@[simp] theorem before_some (c : Char) (text rest : List Char) :
    before (some c) (some (text, rest)) = some (c :: text, rest) := rfl

/-! ## Characters -/

/-- What needs no escape may stand in a string as it is, a line feed apart. -/
theorem isText_of_plain {c : Char} (h : needsEscape c = false) (hline : c ≠ '\n') : isText c = true := by
  unfold needsEscape isControl at h
  unfold isText
  by_cases htab : c = '\t'
  · simp [htab]
  · simp only [Bool.and_eq_false_iff, Bool.or_eq_false_iff, decide_eq_false_iff_not, bne_eq_false_iff_eq,
      beq_eq_false_iff_ne, htab, hline, or_false] at h
    simp only [Bool.or_eq_true, Bool.and_eq_true, decide_eq_true_eq, bne_iff_ne]
    exact .inr ⟨Nat.le_of_not_lt h.1, h.2⟩

theorem isText_of_not_isControl {c : Char} (h : isControl c = false) : isText c = true := by
  refine isText_of_plain ?_ ?_
  · unfold needsEscape
    rw [h]
    rfl
  · rintro rfl
    exact absurd h (by decide)

/-- Two hexadecimal digits give a number below 256 back. -/
theorem hexNumber?_hexDigit : ∀ n < 256,
    hexNumber? ['0', '0', hexDigit (n / 16), hexDigit (n % 16)] = some n := by
  decide +kernel

theorem scalar?_toNat (c : Char) : scalar? c.toNat = some c := by
  unfold scalar?
  have hvalid : c.toNat.isValidChar := c.valid
  rw [if_pos hvalid, Char.ofNat_toNat]

/-! ## Escapes -/

/-- What a reader of basic strings does with escapes and with characters that stand as they are. -/
structure Unescapes (lines : Bool) (read : List Char → Option (List Char × List Char)) : Prop where
  short : ∀ {c x : Char} (rest : List Char), shortEscape? c = some x →
    read ('\\' :: c :: rest) = before (some x) (read rest)
  code : ∀ (a b c d : Char) (rest : List Char), read ('\\' :: 'u' :: a :: b :: c :: d :: rest)
    = before ((hexNumber? [a, b, c, d]).bind scalar?) (read rest)
  plain : ∀ {c : Char} (rest : List Char), c ≠ '"' → c ≠ '\\' → isText c = true ∨ lines = true ∧ c = '\n' →
    read (c :: rest) = before (some c) (read rest)

/-- **A character is read back from its written form.** -/
theorem Unescapes.escapeChar {lines : Bool} {read : List Char → Option (List Char × List Char)}
    (h : Unescapes lines read) {c : Char} (hquote : c ≠ '"') (rest : List Char) :
    read (escapeChar lines c ++ rest) = before (some c) (read rest) := by
  by_cases hslash : c = '\\'
  · subst hslash
    exact h.short rest rfl
  by_cases htab : c = '\t'
  · subst htab
    exact h.short rest rfl
  by_cases hline : c = '\n'
  · subst hline
    cases lines with
    | true => exact h.plain rest hquote hslash (.inr ⟨rfl, rfl⟩)
    | false => exact h.short rest rfl
  by_cases hreturn : c = '\r'
  · subst hreturn
    exact h.short rest rfl
  by_cases hback : c = Char.ofNat 8
  · subst hback
    exact h.short rest rfl
  by_cases hfeed : c = Char.ofNat 12
  · subst hfeed
    exact h.short rest rfl
  -- no other character has a short escape
  have hwritten : Toml.escapeChar lines c = if isControl c then codeEscape c else [c] := by
    simp only [Toml.escapeChar, beq_iff_eq, hslash, htab, hline, hreturn, hback, hfeed, if_false]
  rw [hwritten]
  split
  next hcontrol =>
    have hsmall : c.toNat < 256 := by
      simp only [isControl, Bool.or_eq_true, decide_eq_true_eq, beq_iff_eq] at hcontrol
      omega
    refine (h.code _ _ _ _ rest).trans ?_
    rw [hexNumber?_hexDigit _ hsmall]
    exact congrArg (before · _) (scalar?_toNat c)
  next hcontrol =>
    exact h.plain rest hquote hslash (.inl (isText_of_not_isControl (Bool.not_eq_true _ ▸ hcontrol)))

theorem unescapes_readBasic : Unescapes false readBasic where
  short := by
    intro c x rest h
    unfold shortEscape? at h
    split at h <;> cases h <;> rfl
  code := fun _ _ _ _ _ => rfl
  plain := by
    intro c rest hquote hslash htext
    have htext : isText c = true := htext.resolve_right fun h => Bool.noConfusion h.1
    rw [readBasic]
    · rw [if_pos (by simp [hslash, htext])]
    · exact hquote
    · exact fun _ _ _ _ _ h _ => hslash h
    · exact fun _ _ _ _ _ _ _ _ _ h _ => hslash h
    · exact fun _ _ h _ => hslash h

theorem unescapes_readBasicLines : Unescapes true (readBasicLines false) where
  short := by
    intro c x rest h
    unfold shortEscape? at h
    split at h <;> cases h <;> rfl
  code := fun _ _ _ _ _ => rfl
  plain := by
    intro c rest hquote hslash htext
    have htaken : (c == '\n' || c != '\\' && isText c) = true := by
      rcases htext with htext | ⟨-, hline⟩
      · simp [hslash, htext]
      · simp [hline]
    rw [readBasicLines]
    · rw [Bool.false_and, if_neg Bool.false_ne_true, if_pos htaken]
    · exact fun _ h _ => hquote h
    · exact fun _ h _ => hquote h
    · exact fun _ h _ => hquote h
    · exact fun _ _ _ _ _ h _ => hslash h
    · exact fun _ _ _ _ _ _ _ _ _ h _ => hslash h
    · exact fun _ _ h _ => hslash h
    · rintro _ rfl -
      exact absurd htaken (by decide)

/-! ## Written text -/

theorem escapeText_kept {quotes : Nat} (h : quotes < 2) (cs : List Char) :
    escapeText true quotes ('"' :: cs) = '"' :: escapeText true (quotes + 1) cs := by
  rw [escapeText, if_pos (beq_self_eq_true _), if_pos (by simpa using h)]

theorem escapeText_quote {lines : Bool} {quotes : Nat} (h : (lines && decide (quotes < 2)) = false)
    (cs : List Char) : escapeText lines quotes ('"' :: cs) = '\\' :: '"' :: escapeText lines 0 cs := by
  rw [escapeText, if_pos (beq_self_eq_true _), h, if_neg Bool.false_ne_true]

theorem escapeText_other {lines : Bool} {c : Char} (h : c ≠ '"') (quotes : Nat) (cs : List Char) :
    escapeText lines quotes (c :: cs) = escapeChar lines c ++ escapeText lines 0 cs :=
  if_neg (by simpa using h)

/-! ## Basic strings -/

/-- **A basic string is read back with its escapes undone.** -/
theorem readBasic_escapeText (quotes : Nat) (cs rest : List Char) :
    readBasic (escapeText false quotes cs ++ '"' :: rest) = some (cs, rest) := by
  induction cs generalizing quotes with
  | nil => rfl
  | cons c cs ih =>
      by_cases hquote : c = '"'
      · subst hquote
        rw [escapeText_quote rfl, List.cons_append, List.cons_append,
          unescapes_readBasic.short (x := '"') _ rfl, ih, before_some]
      · rw [escapeText_other hquote, List.append_assoc, unescapes_readBasic.escapeChar hquote, ih, before_some]

/-- What is written for a character is an escape, or the character itself. -/
theorem escapeChar_cases (lines : Bool) (c : Char) :
    (∃ tail, escapeChar lines c = '\\' :: tail) ∨ escapeChar lines c = [c] ∧ c ≠ '\r' := by
  unfold escapeChar
  simp only [beq_iff_eq]
  split
  next => exact .inl ⟨_, rfl⟩
  next =>
    split
    next => exact .inl ⟨_, rfl⟩
    next =>
      split
      next hline =>
        cases lines with
        | true => exact .inr ⟨hline ▸ rfl, hline ▸ by decide⟩
        | false => exact .inl ⟨_, rfl⟩
      next =>
        split
        next => exact .inl ⟨_, rfl⟩
        next hreturn =>
          split
          next => exact .inl ⟨_, rfl⟩
          next =>
            split
            next => exact .inl ⟨_, rfl⟩
            next =>
              split
              next => exact .inl ⟨_, rfl⟩
              next => exact .inr ⟨rfl, hreturn⟩

/-- Where no quote is written as it is, the text goes on with a backslash or with its own character. -/
theorem head?_escapeText (lines : Bool) (quotes : Nat) (c : Char) (cs : List Char)
    (h : c = '"' → (lines && decide (quotes < 2)) = false) (rest : List Char) :
    ∃ d tail, escapeText lines quotes (c :: cs) ++ rest = d :: tail ∧ d ≠ '"' ∧ d ≠ '\r' ∧
      (d = '\n' → c = '\n') := by
  by_cases hquote : c = '"'
  · subst hquote
    rw [escapeText_quote (h rfl)]
    exact ⟨'\\', _, rfl, by decide, by decide, fun h => absurd h (by decide)⟩
  · rw [escapeText_other hquote]
    rcases escapeChar_cases lines c with ⟨tail, heq⟩ | ⟨heq, hreturn⟩
    · rw [heq]
      exact ⟨'\\', _, rfl, by decide, by decide, fun h => absurd h (by decide)⟩
    · rw [heq]
      exact ⟨c, _, rfl, hquote, hreturn, fun h => h⟩

/-! ## Multi-line basic strings -/

/-- A quote with fewer than two more after it is a character of the text. -/
theorem readBasicLines_quote {rest : List Char} (h : rest.take 2 ≠ ['"', '"']) :
    readBasicLines false ('"' :: rest) = before (some '"') (readBasicLines false rest) := by
  rw [readBasicLines]
  · rfl
  · rintro _ - rfl
    exact h rfl
  · rintro _ - rfl
    exact h rfl
  · rintro _ - rfl
    exact h rfl
  · exact fun _ _ _ _ _ h _ => absurd h (by decide)
  · exact fun _ _ _ _ _ _ _ _ _ h _ => absurd h (by decide)
  · exact fun _ _ h _ => absurd h (by decide)
  · exact fun _ h _ => absurd h (by decide)

/-- Three quotes close the string; up to two before them belong to the text. -/
theorem readBasicLines_closed {rest : List Char} (h : rest.head? ≠ some '"') :
    readBasicLines false ('"' :: '"' :: '"' :: rest) = some ([], rest) := by
  rw [readBasicLines]
  · rintro _ rfl
    exact h rfl
  · rintro _ rfl
    exact h rfl

theorem readBasicLines_quote_closed {rest : List Char} (h : rest.head? ≠ some '"') :
    readBasicLines false ('"' :: '"' :: '"' :: '"' :: rest) = some (['"'], rest) := by
  rw [readBasicLines]
  rintro _ rfl
  exact h rfl

/-- Where two quotes follow a quote that stands as it is, the string is closed behind it. -/
theorem take_escapeText {quotes : Nat} (hquotes : 1 ≤ quotes) (cs rest : List Char)
    (h : (escapeText true quotes cs ++ '"' :: '"' :: '"' :: rest).take 2 = ['"', '"']) :
    cs = [] ∨ cs = ['"'] ∧ quotes < 2 := by
  cases cs with
  | nil => exact .inl rfl
  | cons c cs =>
      by_cases hstays : c = '"' ∧ quotes < 2
      · obtain ⟨rfl, hless⟩ := hstays
        cases cs with
        | nil => exact .inr ⟨rfl, hless⟩
        | cons d cs =>
            -- this is the second quote, so a third one would be escaped
            obtain ⟨e, tail, heq, hne, -⟩ := head?_escapeText true (quotes + 1) d cs
              (fun _ => by simp; omega) ('"' :: '"' :: '"' :: rest)
            rw [escapeText_kept hless, List.cons_append, heq] at h
            exact absurd (by simpa using h) hne
      · obtain ⟨e, tail, heq, hne, -⟩ := head?_escapeText true quotes c cs
          (fun hc => by simpa using fun hless => hstays ⟨hc, hless⟩) ('"' :: '"' :: '"' :: rest)
        rw [heq] at h
        exact absurd (by simpa using (List.cons.inj h).1) hne

/-- **A multi-line basic string is read back,** `quotes` being how many quotes stand right before it. -/
theorem readBasicLines_escapeText (quotes : Nat) (cs : List Char) {rest : List Char}
    (hrest : rest.head? ≠ some '"') :
    readBasicLines false (escapeText true quotes cs ++ '"' :: '"' :: '"' :: rest) = some (cs, rest) := by
  induction cs generalizing quotes with
  | nil => exact readBasicLines_closed hrest
  | cons c cs ih =>
      by_cases hquote : c = '"'
      · subst hquote
        by_cases hstays : quotes < 2
        · rw [escapeText_kept hstays, List.cons_append]
          by_cases htwo : (escapeText true (quotes + 1) cs ++ '"' :: '"' :: '"' :: rest).take 2 = ['"', '"']
          · rcases take_escapeText (by omega) cs rest htwo with rfl | ⟨rfl, hless⟩
            · exact readBasicLines_quote_closed hrest
            · rw [escapeText_kept hless]
              rfl
          · rw [readBasicLines_quote htwo, ih, before_some]
        · rw [escapeText_quote (by simpa using hstays), List.cons_append, List.cons_append,
            unescapes_readBasicLines.short (x := '"') _ rfl, ih, before_some]
      · rw [escapeText_other hquote, List.append_assoc, unescapes_readBasicLines.escapeChar hquote, ih,
          before_some]

/-! ## Runs of a character -/

theorem longestRun_mono (q : Char) {m n : Nat} (h : m ≤ n) (cs : List Char) :
    longestRun q m cs ≤ longestRun q n cs := by
  induction cs generalizing m n with
  | nil => exact h
  | cons c cs ih =>
      rw [longestRun, longestRun]
      split
      next => exact ih (Nat.succ_le_succ h)
      next => omega

theorem longestRun_tail (q c : Char) (n : Nat) (cs : List Char) :
    longestRun q 0 cs ≤ longestRun q n (c :: cs) := by
  rw [longestRun]
  split
  next => exact longestRun_mono q (Nat.zero_le _) cs
  next => exact Nat.le_max_right _ _

theorem self_le_longestRun (q : Char) (n : Nat) (cs : List Char) : n ≤ longestRun q n cs := by
  induction cs generalizing n with
  | nil => exact Nat.le_refl n
  | cons c cs ih =>
      rw [longestRun]
      split
      next => exact Nat.le_of_succ_le (ih (n + 1))
      next => exact Nat.le_max_left _ _

/-- A run at the beginning is counted. -/
theorem le_longestRun (q : Char) (n r : Nat) (cs : List Char) :
    n + r ≤ longestRun q n (List.replicate r q ++ cs) := by
  induction r generalizing n with
  | zero => exact self_le_longestRun q n cs
  | succ r ih =>
      rw [List.replicate_succ, List.cons_append, longestRun, if_pos (beq_self_eq_true q)]
      have := ih (n + 1)
      omega

theorem not_mem_of_longestRun {q : Char} {cs : List Char} (h : longestRun q 0 cs = 0) : q ∉ cs := by
  induction cs with
  | nil => exact List.not_mem_nil
  | cons c cs ih =>
      have htail := longestRun_tail q c 0 cs
      rw [h] at htail
      rintro hmem
      rcases List.mem_cons.mp hmem with rfl | hmem
      · have hrun := le_longestRun q 0 1 cs
        rw [List.replicate_one, List.singleton_append, h] at hrun
        omega
      · exact ih (Nat.le_zero.mp htail) hmem

/-- A text begins with a run of a character, which may be empty. -/
theorem exists_run (q : Char) (cs : List Char) :
    ∃ r tail, cs = List.replicate r q ++ tail ∧ tail.head? ≠ some q := by
  induction cs with
  | nil => exact ⟨0, [], rfl, by simp⟩
  | cons c cs ih =>
      by_cases h : c = q
      · obtain ⟨r, tail, rfl, htail⟩ := ih
        exact ⟨r + 1, tail, by rw [h]; rfl, htail⟩
      · exact ⟨0, c :: cs, rfl, by simpa using h⟩

theorem apostrophes_replicate {r : Nat} (hr : r ≤ 5) {rest : List Char} (h : rest.head? ≠ some apostrophe) :
    apostrophes (List.replicate r apostrophe ++ rest) = r := by
  have hrest : (rest.take (5 - r)).takeWhile (· == apostrophe) = [] := by
    cases rest with
    | nil => simp
    | cons c rest =>
        cases hn : 5 - r with
        | zero => rfl
        | succ n => rw [List.take_succ_cons, List.takeWhile_cons_of_neg (by simpa using h)]
  unfold apostrophes
  rw [List.take_append, List.length_replicate, List.take_replicate, Nat.min_eq_right hr,
    List.takeWhile_append_of_pos (by simp), hrest, List.append_nil, List.length_replicate]

/-! ## Literal strings -/

theorem readLiteral_append {cs : List Char} (htext : ∀ c ∈ cs, isText c = true)
    (hquote : apostrophe ∉ cs) (rest : List Char) :
    readLiteral (cs ++ apostrophe :: rest) = some (cs, rest) := by
  induction cs with
  | nil => exact if_pos (beq_self_eq_true _)
  | cons c cs ih =>
      rw [List.mem_cons, not_or] at hquote
      rw [List.cons_append, readLiteral, if_neg (by simpa using Ne.symm hquote.1),
        if_pos (htext c List.mem_cons_self), ih (fun d hd => htext d (List.mem_cons_of_mem _ hd)) hquote.2,
        before_some]

theorem readLiteralLines_closed {r : Nat} (hr : r ≤ 2) {rest : List Char}
    (h : rest.head? ≠ some apostrophe) :
    readLiteralLines (List.replicate (r + 3) apostrophe ++ rest)
      = some (List.replicate r apostrophe, rest) := by
  have hcount := apostrophes_replicate (show r + 3 ≤ 5 by omega) h
  have hopen : List.replicate (r + 3) apostrophe ++ rest
      = apostrophe :: (List.replicate (r + 2) apostrophe ++ rest) := rfl
  rw [hopen] at hcount ⊢
  rw [readLiteralLines, hcount, if_pos (by omega)]
  · show some (List.replicate r apostrophe, List.drop (r + 2) (List.replicate (r + 2) apostrophe ++ rest)) = _
    rw [List.drop_left' List.length_replicate]
  · exact fun _ h => absurd h (by decide)

/-- **A multi-line literal string is read back** if no more than two quotes stand in a row in it. -/
theorem readLiteralLines_append {cs : List Char} (htext : ∀ c ∈ cs, c = '\n' ∨ isText c = true)
    (hruns : longestRun apostrophe 0 cs ≤ 2) {rest : List Char} (hrest : rest.head? ≠ some apostrophe) :
    readLiteralLines (cs ++ (List.replicate 3 apostrophe ++ rest)) = some (cs, rest) := by
  induction cs with
  | nil => exact readLiteralLines_closed (Nat.zero_le 2) hrest
  | cons c cs ih =>
      obtain ⟨r, tail, hrun, htail⟩ := exists_run apostrophe (c :: cs)
      have hr : r ≤ 2 := by
        rw [hrun] at hruns
        have := le_longestRun apostrophe 0 r tail
        omega
      cases tail with
      | nil =>
          -- nothing but quotes is left
          rw [hrun, List.append_nil, ← List.append_assoc, List.replicate_append_replicate]
          exact readLiteralLines_closed hr hrest
      | cons d tail =>
          have hcount : apostrophes (c :: (cs ++ (List.replicate 3 apostrophe ++ rest))) = r := by
            rw [← List.cons_append, hrun, List.append_assoc]
            exact apostrophes_replicate (by omega) htail
          have hc : (c == '\n' || isText c) = true := by simpa using htext c List.mem_cons_self
          have hrest' := ih (fun d hd => htext d (List.mem_cons_of_mem _ hd))
            (Nat.le_trans (longestRun_tail apostrophe c 0 cs) hruns)
          rw [List.cons_append, readLiteralLines, hcount, if_neg (by omega), if_pos hc, hrest', before_some]
          rintro _ rfl -
          exact absurd hc (by decide)

/-! ## All forms -/

/-- Whether what follows a string does not begin with a quote of either kind. -/
def Unquoted (rest : List Char) : Prop := rest.head? ≠ some '"' ∧ rest.head? ≠ some apostrophe

theorem unquoted_cons {c : Char} {rest : List Char} (hbasic : c ≠ '"') (hliteral : c ≠ apostrophe) :
    Unquoted (c :: rest) :=
  ⟨by simpa using hbasic, by simpa using hliteral⟩

/-- A line feed is put after the opening quotes where the text has one, and dropped again. -/
theorem dropLineEnd_leadingLineEnd (cs : List Char) {d : Char} {tail : List Char} (hreturn : d ≠ '\r')
    (hline : d = '\n' → '\n' ∈ cs) : dropLineEnd (leadingLineEnd cs ++ d :: tail) = d :: tail := by
  unfold leadingLineEnd
  by_cases h : '\n' ∈ cs
  · rw [if_pos (by simpa using h)]
    rfl
  · rw [if_neg (by simpa using h), List.nil_append, dropLineEnd]
    · rintro _ heq
      exact h (hline (List.cons.inj heq).1)
    · rintro _ heq
      exact hreturn (List.cons.inj heq).1

theorem readString_basic (cs : List Char) {rest : List Char} (h : Unquoted rest) :
    readString ('"' :: (escapeText false 0 cs ++ '"' :: rest)) = some (cs, rest) := by
  rw [readString, readBasic_escapeText]
  rintro tail heq
  cases cs with
  | nil => exact h.1 (congrArg List.head? (List.cons.inj heq).2)
  | cons c cs =>
      obtain ⟨d, _, hwritten, hquote, -⟩ := head?_escapeText false 0 c cs
        (fun _ => rfl) ('"' :: rest)
      rw [hwritten] at heq
      exact hquote (List.cons.inj heq).1

theorem readString_literal {cs : List Char} (htext : ∀ c ∈ cs, isText c = true) (hquote : apostrophe ∉ cs)
    {rest : List Char} (h : Unquoted rest) :
    readString (apostrophe :: (cs ++ apostrophe :: rest)) = some (cs, rest) := by
  have hcount : apostrophes (apostrophe :: (cs ++ apostrophe :: rest)) < 3 := by
    cases cs with
    | nil =>
        have htwo : apostrophes (List.replicate 2 apostrophe ++ rest) = 2 :=
          apostrophes_replicate (by omega) h.2
        exact Nat.lt_of_le_of_lt (Nat.le_of_eq htwo) (by omega)
    | cons c cs =>
        have hc : c ≠ apostrophe := fun hc => hquote (hc ▸ List.mem_cons_self)
        have hone : apostrophes (List.replicate 1 apostrophe ++ (c :: cs ++ apostrophe :: rest)) = 1 :=
          apostrophes_replicate (by omega) (by simpa using hc)
        exact Nat.lt_of_le_of_lt (Nat.le_of_eq hone) (by omega)
  rw [readString, if_pos (beq_self_eq_true _), if_neg (by omega), readLiteral_append htext hquote]
  · exact fun _ h => absurd h (by decide)
  · exact fun h => absurd h (by decide)

theorem readString_basicLines (cs : List Char) {rest : List Char} (h : Unquoted rest) :
    readString ('"' :: '"' :: '"' :: (leadingLineEnd cs ++ (escapeText true 0 cs ++ '"' :: '"' :: '"' :: rest)))
      = some (cs, rest) := by
  obtain ⟨d, tail, hwritten, hreturn, hline⟩ : ∃ d tail,
      escapeText true 0 cs ++ '"' :: '"' :: '"' :: rest = d :: tail ∧ d ≠ '\r' ∧ (d = '\n' → '\n' ∈ cs) := by
    cases cs with
    | nil => exact ⟨'"', _, rfl, by decide, fun h => absurd h (by decide)⟩
    | cons c cs =>
        by_cases hc : c = '"'
        · rw [hc, escapeText_kept (by omega)]
          exact ⟨'"', _, rfl, by decide, fun h => absurd h (by decide)⟩
        · obtain ⟨d, tail, hwritten, -, hreturn, hline⟩ := head?_escapeText true 0 c cs
            (fun h => absurd h hc) ('"' :: '"' :: '"' :: rest)
          exact ⟨d, tail, hwritten, hreturn, fun hd => by simp [hline hd]⟩
  rw [readString, hwritten, dropLineEnd_leadingLineEnd cs hreturn hline, ← hwritten,
    readBasicLines_escapeText 0 cs h.1]

theorem readString_literalLines {cs : List Char} (htext : ∀ c ∈ cs, c = '\n' ∨ isText c = true)
    (hruns : longestRun apostrophe 0 cs ≤ 2) {rest : List Char} (h : Unquoted rest) :
    readString (apostrophe :: apostrophe :: apostrophe ::
      (leadingLineEnd cs ++ (cs ++ apostrophe :: apostrophe :: apostrophe :: rest))) = some (cs, rest) := by
  obtain ⟨d, tail, hwritten, hreturn, hline⟩ : ∃ d tail,
      cs ++ apostrophe :: apostrophe :: apostrophe :: rest = d :: tail ∧ d ≠ '\r' ∧
        (d = '\n' → '\n' ∈ cs) := by
    cases cs with
    | nil => exact ⟨apostrophe, _, rfl, by decide, fun h => absurd h (by decide)⟩
    | cons c cs =>
        refine ⟨c, _, rfl, ?_, fun hc => by simp [hc]⟩
        rintro rfl
        exact absurd (htext '\r' List.mem_cons_self) (by decide)
  have hcount : ∀ rest, 3 ≤ apostrophes (apostrophe :: apostrophe :: apostrophe :: rest) := by
    intro rest
    simp [apostrophes]
  rw [readString, if_pos (beq_self_eq_true _), if_pos (hcount _)]
  · show readLiteralLines (dropLineEnd (leadingLineEnd cs ++ _)) = _
    rw [hwritten, dropLineEnd_leadingLineEnd cs hreturn hline, ← hwritten]
    exact readLiteralLines_append htext hruns h.2
  · exact fun _ h => absurd h (by decide)
  · exact fun h => absurd h (by decide)

/-- A literal form is chosen only for a text that can stand in it. -/
theorem chooseForm_literal {cs : List Char} (h : chooseForm cs = .literal) :
    (∀ c ∈ cs, isText c = true) ∧ apostrophe ∉ cs := by
  have hplain : (∀ c ∈ cs, needsEscape c = false) ∧ '\n' ∉ cs ∧ longestRun apostrophe 0 cs = 0 := by
    unfold chooseForm at h
    grind
  refine ⟨fun c hc => isText_of_plain (hplain.1 c hc) ?_, not_mem_of_longestRun hplain.2.2⟩
  rintro rfl
  exact hplain.2.1 hc

theorem chooseForm_literalLines {cs : List Char} (h : chooseForm cs = .literalLines) :
    (∀ c ∈ cs, c = '\n' ∨ isText c = true) ∧ longestRun apostrophe 0 cs ≤ 2 := by
  have hplain : (∀ c ∈ cs, needsEscape c = false) ∧ longestRun apostrophe 0 cs ≤ 2 := by
    unfold chooseForm at h
    grind
  refine ⟨fun c hc => ?_, hplain.2⟩
  by_cases hline : c = '\n'
  · exact .inl hline
  · exact .inr (isText_of_plain (hplain.1 c hc) hline)

/-- **A string is read back as it was written,** whichever form is chosen for it. -/
theorem readString_writeString (cs : List Char) {rest : List Char} (h : Unquoted rest) :
    readString (writeString cs ++ rest) = some (cs, rest) := by
  unfold writeString
  cases hform : chooseForm cs with
  | basic => simpa using readString_basic cs h
  | literal =>
      obtain ⟨htext, hquote⟩ := chooseForm_literal hform
      simpa using readString_literal htext hquote h
  | basicLines => simpa using readString_basicLines cs h
  | literalLines =>
      obtain ⟨htext, hruns⟩ := chooseForm_literalLines hform
      simpa using readString_literalLines htext hruns h

end GoExcerpt.Toml
