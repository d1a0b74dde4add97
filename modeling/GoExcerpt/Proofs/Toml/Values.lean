import GoExcerpt.Config
import GoExcerpt.Proofs.Toml.Strings

/-!
# `Proofs.Toml.Values` — values are read back as they were written

`Written` says of a text that it is read as a value where the line ends behind it. So are booleans, numbers of
64 bits (`written_writeNat`: a number is no date and no float, since no dash, colon, dot or exponent follows its
digits), strings, and arrays of strings on one line or over several (`written_writeStrings`).
-/

namespace GoExcerpt.Toml

/-- Whether a text is read as a value where the line ends behind it. Every character pays for a step. -/
structure Written (text : List Char) (v : Value) : Prop where
  opens : ∃ c tail, text = c :: tail ∧ isGap c = false
  read : ∀ fuel rest, text.length < fuel → readValue fuel 0 (text ++ '\n' :: rest) = some (v, '\n' :: rest)

/-- A character of a kind that blanks are not of is no blank. -/
theorem isGap_eq_false {kind : Char → Bool} {c : Char} (h : kind c = true) (hblank : kind ' ' = false)
    (htab : kind '\t' = false) : isGap c = false := by
  refine Bool.eq_false_iff.mpr fun hgap => ?_
  rcases (Bool.or_eq_true _ _).mp hgap with heq | heq
  · rw [beq_iff_eq.mp heq, hblank] at h
    cases h
  · rw [beq_iff_eq.mp heq, htab] at h
    cases h

/-! ## Booleans -/

theorem written_writeBool (b : Bool) : Written (writeBool b) (.boolean b) where
  opens := by
    cases b with
    | true => exact ⟨'t', _, rfl, by decide⟩
    | false => exact ⟨'f', _, rfl, by decide⟩
  read := by
    intro fuel rest hfuel
    obtain ⟨fuel, rfl⟩ := Nat.exists_eq_succ_of_ne_zero (Nat.ne_zero_of_lt hfuel)
    cases b with
    | true => rfl
    | false => rfl

/-! ## Numbers -/

section

variable {ds : List Char} {rest : List Char}

theorem digitsLoop_append (h : ∀ c ∈ ds, c.isDigit = true) :
    digitsLoop Char.isDigit (ds ++ '\n' :: rest) = (ds, '\n' :: rest) := by
  induction ds with
  | nil =>
      rw [List.nil_append, digitsLoop]
      · rfl
      · exact fun _ _ h _ => absurd h (by decide)
  | cons d ds ih =>
      have hd : d.isDigit = true := h d List.mem_cons_self
      rw [List.cons_append, digitsLoop, if_pos hd, ih fun c hc => h c (List.mem_cons_of_mem _ hc)]
      rintro _ _ rfl -
      exact absurd hd (by decide)

theorem readSign_append {d : Char} (h : ∀ c ∈ d :: ds, c.isDigit = true) :
    readSign (d :: ds ++ '\n' :: rest) = (false, d :: ds ++ '\n' :: rest) := by
  have hd : d.isDigit = true := h d List.mem_cons_self
  rw [readSign]
  · rintro _ heq
    rw [(List.cons.inj heq).1] at hd
    exact absurd hd (by decide)
  · rintro _ heq
    rw [(List.cons.inj heq).1] at hd
    exact absurd hd (by decide)

/-- Digits are read to their end, where the first is a zero only if it is the last. -/
theorem readWhole_append {d : Char} (h : ∀ c ∈ d :: ds, c.isDigit = true) (hzero : d = '0' → ds = []) :
    readWhole (d :: ds ++ '\n' :: rest) = some (d :: ds, '\n' :: rest) := by
  by_cases hd : d = '0'
  · rw [hd, hzero hd]
    rfl
  · rw [List.cons_append, readWhole]
    · rw [readDigits, if_pos (h d List.mem_cons_self),
        digitsLoop_append fun c hc => h c (List.mem_cons_of_mem _ hc)]
    · exact fun _ heq => hd (List.cons.inj heq).1

/-- What a fixed number of digits leaves is digits again. -/
theorem readFixed_append {n value : Nat} {tail : List Char} (h : ∀ c ∈ ds, c.isDigit = true)
    (hread : readFixed n (ds ++ '\n' :: rest) = some (value, tail)) :
    ∃ more, (∀ c ∈ more, c.isDigit = true) ∧ tail = more ++ '\n' :: rest := by
  unfold readFixed at hread
  dsimp only at hread
  split at hread
  next hdigits =>
    obtain ⟨-, rfl⟩ := Prod.mk.inj (Option.some.inj hread)
    rw [Bool.and_eq_true, List.all_eq_true] at hdigits
    have hle : n ≤ ds.length := by
      refine Nat.le_of_not_lt fun hlt => ?_
      -- otherwise the line feed would be among them
      have hline : '\n' ∈ (ds ++ '\n' :: rest).take n := by
        obtain ⟨k, rfl⟩ := Nat.exists_eq_add_of_lt hlt
        rw [List.take_append, List.mem_append]
        refine .inr ?_
        rw [show ds.length + k + 1 - ds.length = k + 1 by omega, List.take_succ_cons]
        exact List.mem_cons_self
      exact absurd (hdigits.2 _ hline) (by decide)
    refine ⟨ds.drop n, fun c hc => h c (List.mem_of_mem_drop hc), ?_⟩
    rw [List.drop_append_of_le_length hle]
  next => cases hread

/-- A mark does not follow before the line ends. -/
theorem readChar_append {mark : Char} (h : ∀ c ∈ ds, c.isDigit = true) (hdigit : mark.isDigit = false)
    (hline : mark ≠ '\n') : readChar mark (ds ++ '\n' :: rest) = none := by
  cases ds with
  | nil => exact if_neg (by simpa using hline)
  | cons d ds =>
      refine if_neg fun hmark => ?_
      have hd : d.isDigit = true := h d List.mem_cons_self
      rw [← beq_iff_eq.mp hmark, hdigit] at hd
      cases hd

/-- Digits alone are no date. -/
theorem readDatetime_append (h : ∀ c ∈ ds, c.isDigit = true) : readDatetime (ds ++ '\n' :: rest) = none := by
  have hdate : readDate (ds ++ '\n' :: rest) = none := by
    unfold readDate
    cases hyear : readFixed 4 (ds ++ '\n' :: rest) with
    | none => rfl
    | some year =>
        obtain ⟨more, hmore, heq⟩ := readFixed_append h hyear
        show (readChar '-' year.2).bind _ = none
        rw [heq, readChar_append hmore (by decide) (by decide)]
        rfl
  have htime : readTime (ds ++ '\n' :: rest) = none := by
    unfold readTime
    cases hhour : readTwo 0 23 (ds ++ '\n' :: rest) with
    | none => rfl
    | some hour =>
        obtain ⟨⟨n, tail⟩, hfixed, hbounds⟩ := Option.bind_eq_some_iff.mp hhour
        obtain ⟨more, hmore, heq⟩ := readFixed_append h hfixed
        have htail : hour.2 = tail := by
          dsimp only at hbounds
          split at hbounds
          next => rw [← Option.some.inj hbounds]
          next => cases hbounds
        show (readChar ':' hour.2).bind _ = none
        rw [htail, heq, readChar_append hmore (by decide) (by decide)]
        rfl
  unfold readDatetime
  rw [hdate, htime]

/-- Digits alone are no float. -/
theorem readFloat_append {d : Char} (h : ∀ c ∈ d :: ds, c.isDigit = true) (hzero : d = '0' → ds = []) :
    readFloat (d :: ds ++ '\n' :: rest) = none := by
  have hexponent : readExponent ('\n' :: rest) = none := rfl
  unfold readFloat
  rw [readSign_append h]
  dsimp only
  split
  next heq => exact absurd (h 'i' (by simp [(List.cons.inj heq).1])) (by decide)
  next heq => exact absurd (h 'n' (by simp [(List.cons.inj heq).1])) (by decide)
  next =>
    rw [readWhole_append h hzero]
    rfl

/-- Digits are read as the number they write, unless it needs more than 64 bits. -/
theorem readInteger_append {d : Char} (h : ∀ c ∈ d :: ds, c.isDigit = true) (hzero : d = '0' → ds = [])
    (hrange : inRange (digitsValue 10 (d :: ds)) = true) :
    readInteger (d :: ds ++ '\n' :: rest) = some ((digitsValue 10 (d :: ds) : Int), '\n' :: rest) := by
  have hplain : ∀ {mark : Char} {tail : List Char}, mark ≠ '\n' →
      d :: ds ++ '\n' :: rest ≠ '0' :: mark :: tail := by
    intro mark tail hmark heq
    obtain ⟨hd, htail⟩ := List.cons.inj heq
    rw [hzero hd] at htail
    exact hmark (List.cons.inj htail).1.symm
  unfold readInteger
  split
  next heq => exact absurd heq (hplain (by decide))
  next heq => exact absurd heq (hplain (by decide))
  next heq => exact absurd heq (hplain (by decide))
  next =>
    rw [readSign_append h]
    dsimp only
    rw [readWhole_append h hzero]
    exact if_pos hrange

end

theorem digitsValue_toDigits (n : Nat) : digitsValue 10 (Nat.toDigits 10 n) = n := by
  have hfold : ∀ (ds : List Char) (k : Nat), (∀ c ∈ ds, c.isDigit = true) →
      ds.foldl (fun n c => n * 10 + (hexValue? c).getD 0) k = Nat.ofDigitChars 10 ds k := by
    intro ds
    induction ds with
    | nil => exact fun _ _ => rfl
    | cons d ds ih =>
        intro k h
        have hvalue : hexValue? d = some (d.toNat - 48) := if_pos (h d List.mem_cons_self)
        rw [List.foldl_cons, hvalue, ih _ fun c hc => h c (List.mem_cons_of_mem _ hc), Nat.ofDigitChars_cons,
          Nat.mul_comm]
        rfl
  unfold digitsValue
  rw [hfold _ _ fun c hc => Nat.isDigit_of_mem_toDigits (by omega) (by omega) hc]
  exact Nat.ofDigitChars_ten_toDigits

/-- Only zero is written with a zero in front. -/
theorem toDigits_eq_cons (n : Nat) : ∃ d ds, Nat.toDigits 10 n = d :: ds ∧ (d = '0' → n = 0) := by
  induction n using Nat.strong_induction_on with
  | _ n ih =>
      by_cases hless : n < 10
      · exact ⟨n.digitChar, [], Nat.toDigits_of_lt_base hless, Nat.digitChar_eq_zero.mp⟩
      · obtain ⟨d, ds, hdigits, hzero⟩ := ih (n / 10) (by omega)
        refine ⟨d, ds ++ [(n % 10).digitChar], ?_, fun hd => ?_⟩
        · rw [Nat.toDigits_of_base_le (by omega) (by omega), hdigits, List.cons_append]
        · have := hzero hd
          omega

/-- What begins with a digit is a number or a date. -/
theorem readValue_digit {fuel depth : Nat} {d : Char} {tail : List Char} (h : d.isDigit = true) :
    readValue (fuel + 1) depth (d :: tail) = readNumber (d :: tail) := by
  have hother : ∀ {c : Char} {more : List Char}, c.isDigit = false → d :: tail ≠ c :: more := by
    intro c more hc heq
    rw [(List.cons.inj heq).1, hc] at h
    cases h
  rw [readValue]
  · unfold readScalar
    split
    next heq => exact absurd heq (hother (by decide))
    next heq => exact absurd heq (hother (by decide))
    next heq => exact absurd heq (hother (by decide))
    next heq => exact absurd heq (hother (by decide))
    next heq =>
      obtain ⟨rfl, rfl⟩ := List.cons.inj heq
      rw [if_neg, if_pos]
      · simp [h]
      · intro hquote
        rcases (Bool.or_eq_true _ _).mp hquote with heq | heq
        · exact absurd (beq_iff_eq.mp heq ▸ h) (by decide)
        · exact absurd (beq_iff_eq.mp heq ▸ h) (by decide)
    next heq => cases heq
  · exact fun _ => hother (by decide)
  · exact fun _ => hother (by decide)

/-- **A number of 64 bits is read back.** -/
theorem written_writeNat {n : Nat} (h : n ≤ Config.maxNumber) : Written (writeNat n) (.integer n) := by
  obtain ⟨d, ds, hdigits, hd⟩ := toDigits_eq_cons n
  have hall : ∀ c ∈ d :: ds, c.isDigit = true := by
    intro c hc
    rw [← hdigits] at hc
    exact Nat.isDigit_of_mem_toDigits (by omega) (by omega) hc
  have hzero : d = '0' → ds = [] := by
    intro heq
    rw [hd heq] at hdigits
    exact (List.cons.inj hdigits).2.symm
  have hvalue : digitsValue 10 (d :: ds) = n := hdigits ▸ digitsValue_toDigits n
  have hrange : inRange (digitsValue 10 (d :: ds)) = true := by
    have hmax : n ≤ 9223372036854775807 := h
    rw [hvalue]
    unfold inRange
    simp only [Bool.and_eq_true, decide_eq_true_eq]
    omega
  unfold writeNat
  rw [hdigits]
  have hdigit : d.isDigit = true := hall d List.mem_cons_self
  refine ⟨⟨d, ds, rfl, isGap_eq_false hdigit rfl rfl⟩, fun fuel rest hfuel => ?_⟩
  obtain ⟨fuel, rfl⟩ := Nat.exists_eq_succ_of_ne_zero (Nat.ne_zero_of_lt hfuel)
  rw [Nat.succ_eq_add_one, List.cons_append, readValue_digit hdigit, ← List.cons_append]
  unfold readNumber
  rw [readDatetime_append hall, readFloat_append hall hzero]
  dsimp only
  rw [readInteger_append hall hzero hrange, hvalue]
  rfl

/-! ## Strings -/

theorem writeString_eq_cons (cs : List Char) :
    ∃ quote tail, writeString cs = quote :: tail ∧ (quote = '"' ∨ quote = apostrophe) := by
  unfold writeString
  cases chooseForm cs with
  | basic => exact ⟨'"', _, rfl, .inl rfl⟩
  | literal => exact ⟨apostrophe, _, rfl, .inr rfl⟩
  | basicLines => exact ⟨'"', _, rfl, .inl rfl⟩
  | literalLines => exact ⟨apostrophe, _, rfl, .inr rfl⟩

/-- A string is read back wherever no quote follows. -/
theorem readValue_writeString {fuel depth : Nat} (cs : List Char) {rest : List Char} (h : Unquoted rest) :
    readValue (fuel + 1) depth (writeString cs ++ rest) = some (.string (String.ofList cs), rest) := by
  have hstring : readValue (fuel + 1) depth (writeString cs ++ rest)
      = (readString (writeString cs ++ rest)).map
          fun read => (.string (String.ofList read.1), read.2) := by
    obtain ⟨quote, tail, heq, hquote⟩ := writeString_eq_cons cs
    rw [heq]
    rcases hquote with rfl | rfl
    · rfl
    · rfl
  rw [hstring, readString_writeString cs h]
  rfl

theorem written_writeString (s : String) : Written (writeString s.toList) (.string s) where
  opens := by
    obtain ⟨quote, tail, heq, hquote⟩ := writeString_eq_cons s.toList
    refine ⟨quote, tail, heq, ?_⟩
    rcases hquote with rfl | rfl
    · decide
    · decide
  read := by
    intro fuel rest hfuel
    obtain ⟨fuel, rfl⟩ := Nat.exists_eq_succ_of_ne_zero (Nat.ne_zero_of_lt hfuel)
    rw [Nat.succ_eq_add_one, readValue_writeString s.toList (unquoted_cons (by decide) (by decide)),
      String.ofList_toList]

/-! ## Arrays of strings -/

/-- The lines of an array with one element per line. -/
def itemLines (items : List (List Char)) : List Char :=
  items.flatMap fun item => "    ".toList ++ writeString item ++ [',', '\n']

theorem itemLines_cons (item : List Char) (items : List (List Char)) (rest : List Char) :
    itemLines (item :: items) ++ rest
      = "    ".toList ++ (writeString item ++ ',' :: '\n' :: (itemLines items ++ rest)) := by
  simp [itemLines]

theorem length_le_length_itemLines (items : List (List Char)) : items.length ≤ (itemLines items).length := by
  induction items with
  | nil => exact Nat.zero_le _
  | cons item items ih =>
      rw [← List.append_nil (itemLines (item :: items)), itemLines_cons]
      simp
      omega

/-- Blanks are skipped up to a string. -/
theorem skipSpace_writeString (cs rest : List Char) :
    skipSpace false ("    ".toList ++ (writeString cs ++ rest)) = writeString cs ++ rest
      ∧ skipSpace false (writeString cs ++ rest) = writeString cs ++ rest := by
  obtain ⟨quote, tail, heq, hquote⟩ := writeString_eq_cons cs
  rw [heq]
  rcases hquote with rfl | rfl
  · exact ⟨rfl, rfl⟩
  · exact ⟨rfl, rfl⟩

theorem writeString_ne_bracket (cs rest : List Char) (tail : List Char) :
    writeString cs ++ rest ≠ ']' :: tail := by
  obtain ⟨quote, more, heq, hquote⟩ := writeString_eq_cons cs
  rw [heq]
  intro h
  rcases hquote with rfl | rfl
  · exact absurd (List.cons.inj h).1 (by decide)
  · exact absurd (List.cons.inj h).1 (by decide)

theorem readItems_last {fuel depth : Nat} (cs rest : List Char) :
    readItems (fuel + 2) depth (writeString cs ++ ']' :: rest)
      = some ([.string (String.ofList cs)], rest) := by
  rw [readItems]
  · rw [readValue_writeString cs (unquoted_cons (by decide) (by decide))]
    rfl
  · exact writeString_ne_bracket cs _

theorem readItems_more {fuel depth : Nat} (cs : List Char) {tail rest : List Char} {items : List Value}
    (h : readItems (fuel + 1) depth (skipSpace false tail) = some (items, rest)) :
    readItems (fuel + 2) depth (writeString cs ++ ',' :: tail)
      = some (.string (String.ofList cs) :: items, rest) := by
  rw [readItems]
  · rw [readValue_writeString cs (unquoted_cons (by decide) (by decide))]
    show (readItems (fuel + 1) depth (skipSpace false tail)).bind _ = _
    rw [h]
    rfl
  · exact writeString_ne_bracket cs _

theorem readItems_itemLines (items : List (List Char)) (rest : List Char) (depth : Nat) {fuel : Nat}
    (hfuel : items.length < fuel) :
    readItems fuel depth (skipSpace false (itemLines items ++ ']' :: rest))
      = some (items.map fun cs => .string (String.ofList cs), rest) := by
  induction items generalizing fuel with
  | nil =>
      obtain ⟨fuel, rfl⟩ := Nat.exists_eq_succ_of_ne_zero (Nat.ne_zero_of_lt hfuel)
      rfl
  | cons item items ih =>
      obtain ⟨fuel, rfl⟩ : ∃ more, fuel = more + 2 := Nat.exists_eq_add_of_le' (by
        rw [List.length_cons] at hfuel
        omega)
      rw [itemLines_cons, (skipSpace_writeString item _).1]
      refine readItems_more item (ih ?_)
      rw [List.length_cons] at hfuel
      omega

/-- An array is its elements behind a bracket. -/
theorem readValue_array {fuel : Nat} (text : List Char) {tail : List Char} {values : List Value}
    (h : readItems fuel 1 (skipSpace false text) = some (values, tail)) :
    readValue (fuel + 1) 0 ('[' :: text) = some (.array values, tail) := by
  rw [readValue, if_pos (by decide), h]
  rfl

/-- **An array of strings is read back,** in whichever of its three layouts it is written. -/
theorem written_writeStrings (items : List String) :
    Written (writeStrings (items.map String.toList)) (.array (items.map .string)) where
  opens := by
    cases items with
    | nil => exact ⟨'[', _, rfl, by decide⟩
    | cons item items =>
        cases items with
        | nil => exact ⟨'[', _, rfl, by decide⟩
        | cons other items => exact ⟨'[', _, rfl, by decide⟩
  read := by
    intro fuel rest hfuel
    obtain ⟨fuel, rfl⟩ := Nat.exists_eq_succ_of_ne_zero (Nat.ne_zero_of_lt hfuel)
    rcases items with _ | ⟨item, _ | ⟨other, items⟩⟩
    · obtain ⟨fuel, rfl⟩ : ∃ more, fuel = more + 1 := Nat.exists_eq_add_of_le' (by
        have hlength : 2 < fuel + 1 := hfuel
        omega)
      rfl
    · obtain ⟨fuel, rfl⟩ : ∃ more, fuel = more + 2 := Nat.exists_eq_add_of_le' (by
        have hlength : (writeString item.toList ++ [']']).length + 1 < fuel + 1 := hfuel
        rw [List.length_append, List.length_singleton] at hlength
        omega)
      refine readValue_array (writeString item.toList ++ [']'] ++ '\n' :: rest) ?_
      rw [List.append_assoc, (skipSpace_writeString _ _).2, List.singleton_append, readItems_last,
        String.ofList_toList]
      rfl
    · have hcount := length_le_length_itemLines ((item :: other :: items).map String.toList)
      have hlength : (itemLines ((item :: other :: items).map String.toList) ++ [']']).length + 2
          < fuel + 1 := hfuel
      rw [List.length_append, List.length_singleton] at hlength
      refine readValue_array ('\n' :: (itemLines ((item :: other :: items).map String.toList) ++ [']']
        ++ '\n' :: rest)) ?_
      show readItems fuel 1 (skipSpace false (_ ++ [']'] ++ '\n' :: rest)) = _
      rw [List.append_assoc, List.singleton_append, readItems_itemLines _ _ _ (by omega), List.map_map]
      simp only [Function.comp_def, String.ofList_toList]

end GoExcerpt.Toml
