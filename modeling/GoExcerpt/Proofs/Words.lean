import GoExcerpt.Text.Blank
import Mathlib.Data.List.TakeWhile

/-!
# `Proofs.Words` — words set apart by blanks

A text spreads words if it consists of them with blanks between, and perhaps before and after (`Spread`). Cutting
a text at blanks gives exactly the words that it spreads (`fields_eq_iff`), so blanks at its ends do not count
(`fields_trim`). Another character that is put at the end makes the last word longer, or is a word of its own
(`exists_fieldsLoop_concat`).
-/

namespace GoExcerpt.Text

/-- Whether there is nothing but blanks. -/
def Blanks (cs : List Char) : Prop := ∀ c ∈ cs, isBlank c = true

instance (cs : List Char) : Decidable (Blanks cs) :=
  decidable_of_iff (cs.all isBlank = true) List.all_eq_true

/-- Whether a text is a word: not empty, and without blanks. -/
structure IsWord (w : List Char) : Prop where
  ne_nil : w ≠ []
  unbroken : ∀ c ∈ w, isBlank c = false

instance (w : List Char) : Decidable (IsWord w) :=
  decidable_of_iff (w ≠ [] ∧ w.all (!isBlank ·) = true)
    ⟨fun h => ⟨h.1, by simpa using h.2⟩, fun h => ⟨h.ne_nil, by simpa using h.unbroken⟩⟩

/-- **A text of words with blanks between them,** and perhaps before and after. -/
inductive Spread : List (List Char) → List Char → Prop where
  | blanks {blanks : List Char} (hblanks : Blanks blanks) : Spread [] blanks
  | word {indent word rest : List Char} {words : List (List Char)} (hindent : Blanks indent)
      (hword : IsWord word) (hrest : Spread words rest) (hgap : ∀ c ∈ rest.head?, isBlank c = true) :
      Spread (word :: words) (indent ++ word ++ rest)

/-! ## Both ends -/

section

variable {p : Char → Bool} {a b cs : List Char}

theorem dropWhile_append_of_all (ha : ∀ c ∈ a, p c = true) (hcs : ∀ c ∈ cs.head?, p c = false) :
    (a ++ cs).dropWhile p = cs := by
  rw [List.dropWhile_append_of_pos ha]
  cases cs with
  | nil => rfl
  | cons c cs => rw [List.dropWhile_cons_of_neg (by simp [hcs c rfl])]

/-- What lies between characters to drop is left if it has none of them. -/
theorem trimWhile_append (ha : ∀ c ∈ a, p c = true) (hb : ∀ c ∈ b, p c = true)
    (hcs : ∀ c ∈ cs, p c = false) : trimWhile p (a ++ cs ++ b) = cs := by
  unfold trimWhile dropEndWhile
  cases cs with
  | nil =>
      have hall : ∀ c ∈ a ++ [] ++ b, p c = true := by simpa [or_imp, forall_and] using ⟨ha, hb⟩
      rw [List.dropWhile_eq_nil_iff.mpr hall]
      rfl
  | cons c cs =>
      have hhead : ∀ x ∈ (c :: cs ++ b).head?, p x = false := by
        rintro x ⟨⟩
        exact hcs c List.mem_cons_self
      rw [List.append_assoc, dropWhile_append_of_all ha hhead, List.reverse_append,
        dropWhile_append_of_all, List.reverse_reverse]
      · intro x hx
        exact hb x (List.mem_reverse.mp hx)
      · intro x hx
        exact hcs x (List.mem_reverse.mp (List.mem_of_mem_head? hx))

/-- Only characters to drop are dropped, before what is left and after it. -/
theorem exists_trimWhile (p : Char → Bool) (cs : List Char) :
    ∃ a b, (∀ c ∈ a, p c = true) ∧ (∀ c ∈ b, p c = true) ∧ cs = a ++ trimWhile p cs ++ b := by
  refine ⟨cs.takeWhile p, ((cs.dropWhile p).reverse.takeWhile p).reverse, ?_, ?_, ?_⟩
  · intro c hc
    exact List.mem_takeWhile_imp hc
  · intro c hc
    exact List.mem_takeWhile_imp (List.mem_reverse.mp hc)
  · unfold trimWhile dropEndWhile
    rw [List.append_assoc, ← List.reverse_append, List.takeWhile_append_dropWhile, List.reverse_reverse,
      List.takeWhile_append_dropWhile]

end

/-! ## Blanks around words -/

variable {cs w : List Char} {words : List (List Char)}

theorem blanks_nil : Blanks [] := fun _ h => nomatch h

theorem Blanks.append {a b : List Char} (ha : Blanks a) (hb : Blanks b) : Blanks (a ++ b) := by
  intro c hc
  rcases List.mem_append.mp hc with hc | hc
  · exact ha c hc
  · exact hb c hc

theorem Spread.indented (h : Spread words cs) {indent : List Char} (hindent : Blanks indent) :
    Spread words (indent ++ cs) := by
  cases h with
  | blanks hblanks => exact .blanks (hindent.append hblanks)
  | word hinner hword hrest hgap =>
      rw [← List.append_assoc, ← List.append_assoc]
      exact .word (hindent.append hinner) hword hrest hgap

theorem Spread.trailed (h : Spread words cs) {trail : List Char} (htrail : Blanks trail) :
    Spread words (cs ++ trail) := by
  induction h with
  | blanks hblanks => exact .blanks (hblanks.append htrail)
  | @word indent word rest words hindent hword hrest hgap ih =>
      rw [List.append_assoc]
      refine .word hindent hword ih ?_
      intro c hc
      cases rest with
      | nil => exact htrail c (List.mem_of_mem_head? hc)
      | cons _ _ => exact hgap c hc

/-- A word followed by more of a text, with a blank between. -/
theorem Spread.cons (h : Spread words cs) (hw : IsWord w) (hgap : ∀ c ∈ cs.head?, isBlank c = true) :
    Spread (w :: words) (w ++ cs) := .word blanks_nil hw h hgap

theorem Spread.single (hw : IsWord w) : Spread [w] w := by
  have hspread : Spread [w] (w ++ []) := (Spread.blanks blanks_nil).cons hw (fun _ h => nomatch h)
  rw [List.append_nil] at hspread
  exact hspread

/-- Words with a space between. -/
theorem spread_intercalate (h : ∀ w ∈ words, IsWord w) : Spread words ([' '].intercalate words) := by
  induction words with
  | nil => exact .blanks blanks_nil
  | cons w words ih =>
      have hw : IsWord w := h w List.mem_cons_self
      have hrest := ih fun x hx => h x (List.mem_cons_of_mem w hx)
      cases words with
      | nil =>
          rw [List.intercalate_singleton]
          exact .single hw
      | cons w' words =>
          have hspace : Blanks [' '] := by decide
          rw [List.intercalate_cons_cons, List.append_assoc]
          exact (hrest.indented hspace).cons hw (fun c hc => hspace c (List.mem_of_mem_head? hc))

theorem not_mem_intercalate {c : Char} (hspace : c ≠ ' ') (h : ∀ w ∈ words, c ∉ w) :
    c ∉ [' '].intercalate words := by
  induction words with
  | nil => exact List.not_mem_nil
  | cons w words ih =>
      have hw : c ∉ w := h w List.mem_cons_self
      have hrest := ih fun x hx => h x (List.mem_cons_of_mem w hx)
      cases words with
      | nil =>
          rw [List.intercalate_singleton]
          exact hw
      | cons w' words =>
          rw [List.intercalate_cons_cons, List.mem_append, List.mem_append, List.mem_singleton]
          rintro ((hmem | hmem) | hmem)
          · exact hw hmem
          · exact hspace hmem
          · exact hrest hmem

/-! ## Cutting at blanks -/

theorem fieldsLoop_blanks {blanks : List Char} (h : Blanks blanks) (cs : List Char) :
    fieldsLoop [] (blanks ++ cs) = fieldsLoop [] cs := by
  induction blanks with
  | nil => rfl
  | cons c blanks ih =>
      have hc : isBlank c = true := h c List.mem_cons_self
      rw [List.cons_append, fieldsLoop, if_pos hc]
      exact ih fun x hx => h x (List.mem_cons_of_mem c hx)

theorem fieldsLoop_word (h : ∀ c ∈ w, isBlank c = false) (held cs : List Char) :
    fieldsLoop held (w ++ cs) = fieldsLoop (w.reverse ++ held) cs := by
  induction w generalizing held with
  | nil => rfl
  | cons c w ih =>
      have hc : ¬ isBlank c = true := by simp [h c List.mem_cons_self]
      rw [List.cons_append, fieldsLoop, if_neg hc, ih fun x hx => h x (List.mem_cons_of_mem c hx),
        List.reverse_cons, List.append_assoc]
      rfl

/-- A word that is held ends before a blank and at the end. -/
theorem fieldsLoop_gap {held : List Char} (h : held ≠ []) (hgap : ∀ c ∈ cs.head?, isBlank c = true) :
    fieldsLoop held cs = held.reverse :: fieldsLoop [] cs := by
  have hheld : ¬ held.isEmpty = true := by simpa using h
  cases cs with
  | nil =>
      unfold fieldsLoop
      rw [if_neg hheld]
      rfl
  | cons c cs =>
      unfold fieldsLoop
      rw [if_pos (hgap c rfl), if_neg hheld, if_pos (hgap c rfl)]
      rfl

theorem fields_of_spread (h : Spread words cs) : fields cs = words := by
  unfold fields
  induction h with
  | @blanks blanks hblanks =>
      have hend := fieldsLoop_blanks hblanks []
      rw [List.append_nil] at hend
      exact hend
  | @word indent word rest words hindent hword hrest hgap ih =>
      have hheld : word.reverse ++ [] ≠ [] := by simpa using hword.ne_nil
      rw [List.append_assoc, fieldsLoop_blanks hindent, fieldsLoop_word hword.unbroken, fieldsLoop_gap hheld hgap,
        ih, List.append_nil, List.reverse_reverse]

theorem isWord_reverse {held : List Char} (hne : held ≠ []) (h : ∀ c ∈ held, isBlank c = false) :
    IsWord held.reverse where
  ne_nil := by simpa using hne
  unbroken := fun c hc => h c (List.mem_reverse.mp hc)

/-- What is held and what follows spread the words that come out. -/
theorem spread_fieldsLoop (cs : List Char) {held : List Char} (h : ∀ c ∈ held, isBlank c = false) :
    Spread (fieldsLoop held cs) (held.reverse ++ cs) := by
  induction cs generalizing held with
  | nil =>
      rw [List.append_nil]
      cases held with
      | nil => exact .blanks blanks_nil
      | cons c held => exact .single (isWord_reverse (List.cons_ne_nil _ _) h)
  | cons c cs ih =>
      unfold fieldsLoop
      by_cases hc : isBlank c = true
      · have hnone : ∀ x ∈ ([] : List Char), isBlank x = false := fun _ h => nomatch h
        have hrest : Spread (fieldsLoop [] cs) ([c] ++ cs) := (ih hnone).indented (by simpa [Blanks] using hc)
        rw [if_pos hc]
        cases held with
        | nil => exact hrest
        | cons d held => exact hrest.cons (isWord_reverse (List.cons_ne_nil _ _) h) (by simpa using hc)
      · have hheld : ∀ x ∈ c :: held, isBlank x = false := by simpa [hc] using h
        have hmore := ih hheld
        rw [List.reverse_cons, List.append_assoc] at hmore
        rw [if_neg hc]
        exact hmore

/-- **Cutting at blanks gives the words that a text spreads,** and no others. -/
theorem fields_eq_iff : fields cs = words ↔ Spread words cs := by
  constructor
  · rintro rfl
    exact spread_fieldsLoop cs (fun _ h => nomatch h)
  · exact fields_of_spread

theorem spread_fields (cs : List Char) : Spread (fields cs) cs := fields_eq_iff.mp rfl

theorem fields_append_blanks {trail : List Char} (h : Blanks trail) (cs : List Char) :
    fields (cs ++ trail) = fields cs :=
  fields_of_spread ((spread_fields cs).trailed h)

/-- Blanks at the ends do not count. -/
theorem fields_trim (cs : List Char) : fields (trim cs) = fields cs := by
  obtain ⟨a, b, ha, hb, hcs⟩ := exists_trimWhile isBlank cs
  have hspread : Spread (fields (trim cs)) (a ++ trim cs ++ b) := ((spread_fields _).indented ha).trailed hb
  rw [← fields_of_spread hspread]
  exact (congrArg fields hcs).symm

/-- A word with blanks around it is all that a text spreads. -/
theorem trim_eq_iff (h : IsWord w) : trim cs = w ↔ fields cs = [w] := by
  constructor
  · rintro rfl
    rw [← fields_trim, fields_of_spread (.single h)]
  · intro hfields
    cases fields_eq_iff.mp hfields with
    | word hindent hword hrest hgap =>
        cases hrest with
        | blanks hblanks => exact trimWhile_append hindent hblanks hword.unbroken

/-- **One more character makes the last word longer,** or is a word of its own. -/
theorem exists_fieldsLoop_concat {c : Char} (hc : isBlank c = false) (held cs : List Char) :
    ∃ before last, fieldsLoop held (cs ++ [c]) = before ++ [last ++ [c]] ∧
      fieldsLoop held cs = before ++ [last].filter (!·.isEmpty) := by
  have hblank : ¬ isBlank c = true := by simp [hc]
  induction cs generalizing held with
  | nil =>
      refine ⟨[], held.reverse, ?_, ?_⟩
      · rw [List.nil_append, fieldsLoop, if_neg hblank, fieldsLoop]
        simp
      · rw [fieldsLoop]
        cases held <;> simp
  | cons d cs ih =>
      rw [List.cons_append]
      unfold fieldsLoop
      by_cases hd : isBlank d = true
      · obtain ⟨before, last, hlong, hshort⟩ := ih []
        rw [if_pos hd, if_pos hd, hlong, hshort]
        by_cases hheld : held.isEmpty = true
        · exact ⟨before, last, by rw [if_pos hheld], by rw [if_pos hheld]⟩
        · exact ⟨held.reverse :: before, last, by rw [if_neg hheld]; rfl, by rw [if_neg hheld]; rfl⟩
      · rw [if_neg hd, if_neg hd]
        exact ih (d :: held)

end GoExcerpt.Text
