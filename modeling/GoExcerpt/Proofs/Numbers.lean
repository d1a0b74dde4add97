import GoExcerpt.Proofs.Lexemes

/-!
# `Proofs.Numbers` — where a number ends

No number has a slash, a blank or an `r` in it, so one that ends before such a character ends there whatever
follows (`Number.length_append`, `Number.length_le`). Each form of number is looked at once (`Number.Ends`).
-/

namespace GoExcerpt.Number

/-- Characters that no number has in it. -/
def inert : List Char := ['/', ' ', 'r']

def isInert (z : Char) : Bool := inert.contains z

/-- A form ends before such a character. -/
def Ends (f : List Char → Nat) : Prop :=
  ∀ u z v, isInert z = true → f (u ++ z :: v) = f u ∧ f u ≤ u.length

/-- Digits to some base. -/
structure Digits (p : Char → Bool) : Prop where
  inert : ∀ z, isInert z = true → p z = false
  underscore : p '_' = false

theorem isInert_iff {z : Char} : isInert z = true ↔ z ∈ inert := List.contains_iff_mem

theorem forall_mem_inert {q : Char → Prop} : (∀ z ∈ inert, q z) ↔ q '/' ∧ q ' ' ∧ q 'r' := by
  simp [inert]

theorem digits_of_decide {p : Char → Bool}
    (h : (p '/' = false ∧ p ' ' = false ∧ p 'r' = false) ∧ p '_' = false) : Digits p :=
  ⟨fun z hz => (forall_mem_inert (q := fun z => p z = false)).mpr h.1 z (isInert_iff.mp hz), h.2⟩

theorem digits_isHex : Digits isHex := digits_of_decide (by decide)

theorem moreDigits_cons {p : Char → Bool} {c : Char} (hc : c ≠ '_') (cs : List Char) :
    moreDigits p (c :: cs) = if p c then moreDigits p cs + 1 else 0 := by
  rw [moreDigits]
  rintro c' cs' rfl
  exact absurd rfl hc

theorem ends_moreDigits {p : Char → Bool} (hp : Digits p) : Ends (moreDigits p) := by
  intro u z v hz
  have hz' : z ≠ '_' := by rintro rfl; exact absurd hz (by decide)
  have hnone : moreDigits p (z :: v) = 0 := by rw [moreDigits_cons hz', hp.inert z hz]; rfl
  induction u using moreDigits.induct p with
  | case1 c cs hc ih =>
      simp only [List.cons_append, moreDigits, hc, if_true, List.length_cons]
      omega
  | case2 c cs hc => simp [moreDigits, hc]
  | case3 c cs hcs hc ih =>
      have hc' : c ≠ '_' := by
        rintro rfl
        rw [hp.underscore] at hc
        cases hc
      rw [List.cons_append, moreDigits_cons hc', moreDigits_cons hc', if_pos hc, if_pos hc,
        List.length_cons]
      omega
  | case4 c cs hcs hc =>
      by_cases hc' : c = '_'
      · subst hc'
        cases cs with
        | nil => simp [moreDigits, hp.inert z hz, hp.underscore]
        | cons c' cs' => exact absurd rfl (hcs c' cs' rfl)
      · rw [List.cons_append, moreDigits_cons hc', moreDigits_cons hc', if_neg hc, if_neg hc]
        simp
  | case5 => exact ⟨hnone, Nat.le_refl _⟩

theorem ends_digits {p : Char → Bool} (hp : Digits p) : Ends (digits p) := by
  intro u z v hz
  cases u with
  | nil => simp [digits, hp.inert z hz]
  | cons c cs =>
      have hmore := ends_moreDigits hp cs z v hz
      simp only [List.cons_append, digits, List.length_cons]
      split
      next => omega
      next => simp

theorem spacedDigits_of_ne {p : Char → Bool} {c : Char} (hc : c ≠ '_') (cs : List Char) :
    spacedDigits p (c :: cs) = digits p (c :: cs) := by
  unfold spacedDigits
  split
  next heq => exact absurd (List.cons.inj heq).1 hc
  next => rfl

theorem ends_spacedDigits {p : Char → Bool} (hp : Digits p) : Ends (spacedDigits p) := by
  intro u z v hz
  have hz' : z ≠ '_' := by rintro rfl; exact absurd hz (by decide)
  cases u with
  | nil =>
      rw [List.nil_append, spacedDigits_of_ne hz']
      exact ends_digits hp [] z v hz
  | cons c cs =>
      by_cases hc : c = '_'
      · subst hc
        have hrest := ends_digits hp cs z v hz
        simp only [List.cons_append, spacedDigits, hrest.1, List.length_cons]
        split
        next => simp
        next => exact ⟨trivial, Nat.succ_le_succ hrest.2⟩
      · rw [List.cons_append, spacedDigits_of_ne hc, spacedDigits_of_ne hc]
        exact ends_digits hp (c :: cs) z v hz

theorem ends_followedBy {f g : List Char → Nat} (hf : Ends f) (hg : Ends g) :
    Ends fun cs => followedBy (f cs) g cs := by
  intro u z v hz
  obtain ⟨hfirst, hle⟩ := hf u z v hz
  have hdrop : (u ++ z :: v).drop (f u) = u.drop (f u) ++ z :: v := List.drop_append_of_le_length hle
  have hnext := hg (u.drop (f u)) z v hz
  simp only [followedBy, hfirst, hdrop, hnext.1]
  split
  next => simp
  next =>
    refine ⟨trivial, ?_⟩
    have := hnext.2
    rw [List.length_drop] at this
    have : f u ≤ u.length := hle
    omega

theorem ends_mark {marks : List Char} (h : ∀ z ∈ inert, z ∉ marks) : Ends (mark marks) := by
  intro u z v hz
  have hz0 : z ≠ '0' := by rintro rfl; exact absurd hz (by decide)
  have hmarks : z ∉ marks := h z (isInert_iff.mp hz)
  have hne : ∀ c cs, c ≠ '0' → mark marks (c :: cs) = 0 := by
    intro c cs hc
    unfold mark
    split
    next heq => exact absurd (List.cons.inj heq).1 hc
    next => rfl
  match u with
  | [] => exact ⟨hne z v hz0, Nat.zero_le _⟩
  | [c] =>
      by_cases hc : c = '0'
      · subst hc
        simp [mark, hmarks]
      · rw [List.cons_append, hne c _ hc, hne c _ hc]
        simp
  | c :: m :: cs =>
      by_cases hc : c = '0'
      · subst hc
        simp only [List.cons_append, mark, List.length_cons]
        split <;> simp
      · rw [List.cons_append, hne c _ hc, hne c _ hc]
        simp

theorem ends_plainOctal : Ends plainOctal := by
  intro u z v hz
  have hz0 : z ≠ '0' := by rintro rfl; exact absurd hz (by decide)
  have hne : ∀ c cs, c ≠ '0' → plainOctal (c :: cs) = 0 := by
    intro c cs hc
    unfold plainOctal
    split
    next heq => exact absurd (List.cons.inj heq).1 hc
    next => rfl
  cases u with
  | nil => exact ⟨hne z v hz0, Nat.zero_le _⟩
  | cons c cs =>
      by_cases hc : c = '0'
      · subst hc
        have hrest := ends_spacedDigits (p := isOctal) (digits_of_decide (by decide)) cs z v hz
        simp only [List.cons_append, plainOctal, hrest.1, List.length_cons]
        split
        next => simp
        next => exact ⟨trivial, Nat.succ_le_succ hrest.2⟩
      · rw [List.cons_append, hne c _ hc, hne c _ hc]
        simp

theorem digits_isDigit : Digits Char.isDigit := digits_of_decide (by decide)

theorem ends_decimal : Ends decimal := by
  intro u z v hz
  have hz0 : z ≠ '0' := by rintro rfl; exact absurd hz (by decide)
  have hne : ∀ c cs, c ≠ '0' → decimal (c :: cs) = digits Char.isDigit (c :: cs) := by
    intro c cs hc
    unfold decimal
    split
    next heq => exact absurd (List.cons.inj heq).1 hc
    next => rfl
  cases u with
  | nil =>
      rw [List.nil_append, hne z v hz0]
      exact ends_digits digits_isDigit [] z v hz
  | cons c cs =>
      by_cases hc : c = '0'
      · subst hc
        simp [decimal]
      · rw [List.cons_append, hne c _ hc, hne c _ hc]
        exact ends_digits digits_isDigit (c :: cs) z v hz

theorem ends_exponent {marks : List Char} (h : ∀ z ∈ inert, z ∉ marks) : Ends (exponent marks) := by
  intro u z v hz
  have hmarks : z ∉ marks := h z (isInert_iff.mp hz)
  have hsigns : ∀ z ∈ inert, (z == '+' || z == '-') = false := forall_mem_inert.mpr (by decide)
  have hsign := hsigns z (isInert_iff.mp hz)
  have hdigit : ∀ v, digits Char.isDigit (z :: v) = 0 := fun v => (ends_digits digits_isDigit [] z v hz).1
  match u with
  | [] =>
      cases v with
      | nil => simp [exponent]
      | cons s cs => simp [exponent, hmarks]
  | [m] =>
      simp only [List.cons_append, List.nil_append, exponent, hsign, hdigit]
      simp
  | m :: s :: cs =>
      have hrest := ends_digits digits_isDigit cs z v hz
      have hrest' := ends_digits digits_isDigit (s :: cs) z v hz
      rw [List.cons_append] at hrest'
      simp only [List.cons_append, exponent, hrest.1, hrest'.1, List.length_cons] at hrest' ⊢
      split
      next => simp
      next =>
        split
        next =>
          split
          next => simp
          next => exact ⟨trivial, by omega⟩
        next =>
          split
          next => simp
          next => exact ⟨trivial, by omega⟩

theorem ne_point {z : Char} (hz : isInert z = true) : z ≠ '.' := by
  rintro rfl
  exact absurd hz (by decide)

theorem fraction_of_ne {p : Char → Bool} {c : Char} (hc : c ≠ '.') (cs : List Char) :
    fraction p (c :: cs) = 0 := by
  unfold fraction
  split
  next heq => exact absurd (List.cons.inj heq).1 hc
  next => rfl

theorem ends_fraction {p : Char → Bool} (hp : Digits p) : Ends (fraction p) := by
  intro u z v hz
  cases u with
  | nil => exact ⟨fraction_of_ne (ne_point hz) v, Nat.zero_le _⟩
  | cons c cs =>
      by_cases hc : c = '.'
      · subst hc
        have hrest := ends_digits hp cs z v hz
        simp only [List.cons_append, fraction, hrest.1, List.length_cons]
        exact ⟨trivial, Nat.succ_le_succ hrest.2⟩
      · rw [List.cons_append, fraction_of_ne hc, fraction_of_ne hc]
        simp

theorem bareFraction_of_ne {p : Char → Bool} {c : Char} (hc : c ≠ '.') (cs : List Char) :
    bareFraction p (c :: cs) = 0 := by
  unfold bareFraction
  split
  next heq => exact absurd (List.cons.inj heq).1 hc
  next => rfl

theorem ends_bareFraction {p : Char → Bool} (hp : Digits p) : Ends (bareFraction p) := by
  intro u z v hz
  cases u with
  | nil => exact ⟨bareFraction_of_ne (ne_point hz) v, Nat.zero_le _⟩
  | cons c cs =>
      by_cases hc : c = '.'
      · subst hc
        have hrest := ends_digits hp cs z v hz
        simp only [List.cons_append, bareFraction, hrest.1, List.length_cons]
        split
        next => simp
        next => exact ⟨trivial, Nat.succ_le_succ hrest.2⟩
      · rw [List.cons_append, bareFraction_of_ne hc, bareFraction_of_ne hc]
        simp

/-- A form at a place where another one has ended. -/
theorem Ends.drop {f g : List Char → Nat} (hf : Ends f) (hg : Ends g) (u : List Char) {z : Char}
    (hz : isInert z = true) (v : List Char) :
    g ((u ++ z :: v).drop (f u)) = g (u.drop (f u)) ∧ f u + g (u.drop (f u)) ≤ u.length := by
  have hle := (hf u z v hz).2
  obtain ⟨hsame, hnext⟩ := hg (u.drop (f u)) z v hz
  rw [List.drop_append_of_le_length hle]
  rw [List.length_drop] at hnext
  exact ⟨hsame, by omega⟩

theorem ends_ite {f g h : List Char → Nat} (hf : Ends f) (hg : Ends g) (hh : Ends h) :
    Ends fun cs => if f cs = 0 then g cs else h cs := by
  intro u z v hz
  simp only [(hf u z v hz).1]
  split
  next => exact hg u z v hz
  next => exact hh u z v hz

theorem ends_decimalPoint : Ends decimalPoint :=
  ends_ite (ends_digits digits_isDigit) (ends_bareFraction digits_isDigit)
    (ends_followedBy (ends_digits digits_isDigit) (ends_fraction digits_isDigit))

theorem ends_decimalMantissa : Ends decimalMantissa :=
  ends_ite ends_decimalPoint (ends_digits digits_isDigit) ends_decimalPoint

theorem ends_decimalFloat : Ends decimalFloat := by
  intro u z v hz
  have hexponent : Ends (exponent ['e', 'E']) := ends_exponent (forall_mem_inert.mpr (by decide))
  obtain ⟨hpower, hle⟩ := ends_decimalMantissa.drop hexponent u hz v
  unfold decimalFloat
  simp only [(ends_decimalMantissa u z v hz).1, (ends_decimalPoint u z v hz).1, hpower, true_and]
  split
  next => exact Nat.zero_le _
  next => exact hle

theorem ends_hexMark : Ends (mark ['x', 'X']) := ends_mark (forall_mem_inert.mpr (by decide))

theorem hexWhole_append {u : List Char} {z : Char} (hz : isInert z = true) (v : List Char) :
    hexWhole (u ++ z :: v) = hexWhole u := by
  unfold hexWhole
  rw [(ends_hexMark u z v hz).1]
  exact (ends_hexMark.drop (ends_spacedDigits digits_isHex) u hz v).1

theorem ends_hexStem : Ends hexStem := by
  intro u z v hz
  unfold hexStem
  rw [(ends_hexMark u z v hz).1, hexWhole_append hz]
  exact ⟨rfl, (ends_hexMark.drop (ends_spacedDigits digits_isHex) u hz v).2⟩

theorem hexTail_append {u : List Char} {z : Char} (hz : isInert z = true) (v : List Char) :
    hexTail (u ++ z :: v) = hexTail u ∧ hexStem u + hexTail u ≤ u.length := by
  obtain ⟨hbare, hbareLe⟩ := ends_hexStem.drop (ends_bareFraction digits_isHex) u hz v
  obtain ⟨hfraction, hfractionLe⟩ := ends_hexStem.drop (ends_fraction digits_isHex) u hz v
  unfold hexTail
  rw [hexWhole_append hz, (ends_hexStem u z v hz).1, hbare, hfraction]
  refine ⟨rfl, ?_⟩
  split
  next => exact hbareLe
  next => exact hfractionLe

theorem ends_hexFloat : Ends hexFloat := by
  have hmantissa : Ends fun cs => hexStem cs + hexTail cs := fun u z v hz => by
    obtain ⟨hsame, hle⟩ := hexTail_append hz v
    exact ⟨by simp only [hsame, (ends_hexStem u z v hz).1], hle⟩
  intro u z v hz
  have hexponent : Ends (exponent ['p', 'P']) := ends_exponent (forall_mem_inert.mpr (by decide))
  obtain ⟨hsame, hle⟩ := ends_followedBy hmantissa hexponent u z v hz
  simp only [(hexTail_append hz v).1] at hsame
  unfold hexFloat
  rw [(ends_hexMark u z v hz).1, hexWhole_append hz, (hexTail_append hz v).1, hsame]
  refine ⟨rfl, ?_⟩
  split
  next => exact Nat.zero_le _
  next => exact hle

/-- The imaginary mark stands right behind a number, or not at all. -/
theorem imaginary_append {u : List Char} {z : Char} (hz : isInert z = true) (v : List Char) {n : Nat}
    (hn : n ≤ u.length) : imaginary (u ++ z :: v) n = imaginary u n := by
  have hz' : z ≠ 'i' := by rintro rfl; exact absurd hz (by decide)
  unfold imaginary
  rcases Nat.lt_or_eq_of_le hn with hn | rfl
  · rw [List.getElem?_append_left hn]
  · simp [hz']

/-- The forms that a number may have. -/
theorem ends_forms : ∀ f ∈ [based ['x', 'X'] isHex, based ['b', 'B'] isBinary, based ['o', 'O'] isOctal,
    plainOctal, decimal, decimalFloat, hexFloat], Ends f := by
  have hbased : ∀ {marks p}, ('/' ∉ marks ∧ ' ' ∉ marks ∧ 'r' ∉ marks) → Digits p → Ends (based marks p) :=
    fun hmarks hp => ends_followedBy (ends_mark (forall_mem_inert.mpr hmarks)) (ends_spacedDigits hp)
  simp only [List.forall_mem_cons, List.not_mem_nil, false_imp_iff, implies_true, and_true]
  exact ⟨hbased (by decide) digits_isHex, hbased (by decide) (digits_of_decide (by decide)),
    hbased (by decide) (digits_of_decide (by decide)), ends_plainOctal, ends_decimal,
    ends_decimalFloat, ends_hexFloat⟩

theorem forms_eq_map (cs : List Char) : forms cs = [based ['x', 'X'] isHex, based ['b', 'B'] isBinary,
    based ['o', 'O'] isOctal, plainOctal, decimal, decimalFloat, hexFloat].map (· cs) := rfl

/-- No form goes beyond the text. -/
theorem le_of_mem_forms {u : List Char} {n : Nat} (hn : n ∈ digits Char.isDigit u :: forms u) : n ≤ u.length := by
  rcases List.mem_cons.mp hn with rfl | hn
  · exact (ends_digits digits_isDigit u ' ' [] (by decide)).2
  · rw [forms_eq_map] at hn
    obtain ⟨f, hf, rfl⟩ := List.mem_map.mp hn
    exact (ends_forms f hf u ' ' [] (by decide)).2

/-- **A number ends before a character that is in none.** -/
theorem length_append {u : List Char} {z : Char} (hz : isInert z = true) (v : List Char) :
    length (u ++ z :: v) = length u := by
  have hsame : forms (u ++ z :: v) = forms u := by
    rw [forms_eq_map, forms_eq_map]
    exact List.map_congr_left fun f hf => (ends_forms f hf u z v hz).1
  unfold length
  simp only [hsame, (ends_digits digits_isDigit u z v hz).1]
  rw [List.map_congr_left fun n hn => imaginary_append hz v (le_of_mem_forms hn)]

theorem imaginary_le (u : List Char) (n : Nat) : imaginary u n ≤ u.length := by
  unfold imaginary
  split
  next himaginary =>
    obtain ⟨-, hmark⟩ := Bool.and_eq_true_iff.mp himaginary
    obtain ⟨hlt, -⟩ := List.getElem?_eq_some_iff.mp (beq_iff_eq.mp hmark)
    exact hlt
  next => exact Nat.zero_le _

/-- A number is part of the text. -/
theorem length_le (u : List Char) : length u ≤ u.length := by
  have hmax : ∀ (ns : List Nat) (m : Nat), m ≤ u.length → (∀ n ∈ ns, n ≤ u.length) → ns.foldl max m ≤ u.length := by
    intro ns
    induction ns with
    | nil => exact fun m hm _ => hm
    | cons n ns ih =>
        intro m hm hns
        obtain ⟨hn, hns⟩ := List.forall_mem_cons.mp hns
        exact ih _ (Nat.max_le.mpr ⟨hm, hn⟩) hns
  refine hmax _ 0 (Nat.zero_le _) fun n hn => ?_
  rcases List.mem_append.mp hn with hn | hn
  · exact le_of_mem_forms (List.mem_cons_of_mem _ hn)
  · obtain ⟨m, -, rfl⟩ := List.mem_map.mp hn
    exact imaginary_le u m

/-- No number has an `r` in it. -/
theorem not_mem_take_length (cs : List Char) : 'r' ∉ cs.take (length cs) := by
  intro hmem
  obtain ⟨u, v, htake⟩ := List.append_of_mem hmem
  have hcs : cs = u ++ 'r' :: (v ++ cs.drop (length cs)) := by
    conv => lhs; rw [← List.take_append_drop (length cs) cs, htake]
    simp
  have hle : length cs ≤ u.length := by
    rw [hcs, length_append (by decide)]
    exact length_le u
  have hlength := congrArg List.length htake
  simp only [List.length_take, List.length_append, List.length_cons] at hlength
  omega

end GoExcerpt.Number
