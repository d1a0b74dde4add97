import GoExcerpt.Syntax.Lexeme

/-!
# `Proofs.Lexemes` — where lexemes lie, and what words are made of

The lexemes of a text follow one another (`inOrder_scan`), and none lies beyond the rows of the text
(`rows_scan`). A word has no dot in it (`dotless_of_mem_scan`), so a name with a receiver can be cut at its
first dot.
-/

namespace GoExcerpt

/-! ## Stretches in order -/

namespace Extent

/-- Stretches of text that follow one another, as a coordinate of places tells, between the coordinates
    `lo` and `hi`. -/
def InOrder (coord : Position → Nat) (hi : Nat) : Nat → List Extent → Prop
  | lo, [] => lo ≤ hi
  | lo, e :: es =>
      lo ≤ coord e.start ∧ coord e.start ≤ coord e.stop ∧ InOrder coord hi (coord e.stop) es

/-- Stretches in the order of their rows. -/
abbrev Rows := InOrder Position.row

/-- Stretches in the order of their bytes. -/
abbrev Bytes := InOrder Position.byte

variable {coord : Position → Nat} {lo hi : Nat} {e : Extent} {es : List Extent}

theorem InOrder.le (h : InOrder coord hi lo es) : lo ≤ hi := by
  induction es generalizing lo with
  | nil => exact h
  | cons e es ih =>
      obtain ⟨hlo, hcoord, hrest⟩ := h
      exact Nat.le_trans hlo (Nat.le_trans hcoord (ih hrest))

theorem InOrder.lower {lo' : Nat} (h : InOrder coord hi lo es) (hlo : lo' ≤ lo) :
    InOrder coord hi lo' es := by
  cases es with
  | nil => exact Nat.le_trans hlo h
  | cons e es => exact ⟨Nat.le_trans hlo h.1, h.2⟩

/-- Leaving some out keeps the order. -/
theorem InOrder.sublist {fewer : List Extent} (h : InOrder coord hi lo es) (hsub : fewer.Sublist es) :
    InOrder coord hi lo fewer := by
  induction hsub generalizing lo with
  | slnil => exact h
  | cons e hsub ih => exact (ih h.2.2).lower (Nat.le_trans h.1 h.2.1)
  | cons_cons e hsub ih => exact ⟨h.1, h.2.1, ih h.2.2⟩

theorem inOrder_append {a b : List Extent} :
    InOrder coord hi lo (a ++ b) ↔ ∃ mid, InOrder coord mid lo a ∧ InOrder coord hi mid b := by
  induction a generalizing lo with
  | nil => exact ⟨fun h => ⟨lo, Nat.le_refl lo, h⟩, fun ⟨mid, hmid, h⟩ => h.lower hmid⟩
  | cons e a ih =>
      constructor
      · rintro ⟨hlo, hcoord, h⟩
        obtain ⟨mid, ha, hb⟩ := ih.mp h
        exact ⟨mid, ⟨hlo, hcoord, ha⟩, hb⟩
      · rintro ⟨mid, ⟨hlo, hcoord, ha⟩, hb⟩
        exact ⟨hlo, hcoord, ih.mpr ⟨mid, ha, hb⟩⟩

/-- Each stretch lies between the ends. -/
theorem InOrder.bounds (h : InOrder coord hi lo es) (he : e ∈ es) :
    lo ≤ coord e.start ∧ coord e.start ≤ coord e.stop ∧ coord e.stop ≤ hi := by
  induction es generalizing lo with
  | nil => exact absurd he List.not_mem_nil
  | cons first rest ih =>
      obtain ⟨hlo, hcoord, hrest⟩ := h
      rcases List.mem_cons.mp he with rfl | he
      · exact ⟨hlo, hcoord, hrest.le⟩
      · obtain ⟨hstart, hbounds⟩ := ih hrest he
        exact ⟨Nat.le_trans hlo (Nat.le_trans hcoord hstart), hbounds⟩

/-- Of two stretches one lies before the other, unless they are the same. -/
theorem InOrder.apart {d : Extent} (h : InOrder coord hi lo es) (hd : d ∈ es) (he : e ∈ es) :
    d = e ∨ coord d.stop ≤ coord e.start ∨ coord e.stop ≤ coord d.start := by
  induction es generalizing lo with
  | nil => exact absurd hd List.not_mem_nil
  | cons first rest ih =>
      obtain ⟨-, -, hrest⟩ := h
      rcases List.mem_cons.mp hd with rfl | hd'
      · rcases List.mem_cons.mp he with rfl | he'
        · exact .inl rfl
        · exact .inr (.inl (hrest.bounds he').1)
      · rcases List.mem_cons.mp he with rfl | he'
        · exact .inr (.inr (hrest.bounds hd').1)
        · exact ih hrest hd' he'

/-- Each stretch lies before all that follow it. -/
theorem InOrder.pairwise (h : InOrder coord hi lo es) :
    es.Pairwise fun d e => coord d.stop ≤ coord e.start := by
  induction es generalizing lo with
  | nil => exact .nil
  | cons first rest ih => exact .cons (fun e he => (h.2.2.bounds he).1) (ih h.2.2)

/-- Stretches that follow one another do so between where the first begins and where the last ends. -/
theorem InOrder.tight (h : InOrder coord hi lo (e :: es)) :
    InOrder coord (coord ((e :: es).getLast (List.cons_ne_nil e es)).stop) (coord e.start) (e :: es) := by
  induction es generalizing e lo with
  | nil => exact ⟨Nat.le_refl _, h.2.1, Nat.le_refl _⟩
  | cons next es ih =>
      refine ⟨Nat.le_refl _, h.2.1, ?_⟩
      rw [List.getLast_cons (List.cons_ne_nil next es)]
      exact (ih h.2.2).lower h.2.2.1

end Extent

namespace Position

theorem row_step (p : Position) (c : Char) : (p.step c).row = p.row + [c].count '\n' := by
  unfold step
  by_cases h : c = '\n'
  · rw [if_pos h, h]
    rfl
  · rw [if_neg h, List.count_singleton, if_neg (by simpa using h)]
    rfl

/-- The row after a text is as much further as it has line feeds. -/
theorem row_advance (p : Position) (cs : List Char) : (p.advance cs).row = p.row + cs.count '\n' := by
  induction cs generalizing p with
  | nil => rfl
  | cons c cs ih =>
      rw [advance_cons, ih, row_step, Nat.add_assoc, ← List.count_append]
      rfl

/-- A coordinate that no character makes smaller. -/
def Grows (coord : Position → Nat) : Prop := ∀ p c, coord p ≤ coord (step p c)

theorem grows_row : Grows Position.row := by
  intro p c
  rw [row_step]
  exact Nat.le_add_right _ _

theorem grows_byte : Grows Position.byte := by
  intro p c
  unfold step
  split
  next => exact Nat.le_add_right _ _
  next => exact Nat.le_add_right _ _

theorem Grows.advance {coord : Position → Nat} (h : Grows coord) (p : Position) (cs : List Char) :
    coord p ≤ coord (p.advance cs) := by
  induction cs generalizing p with
  | nil => exact Nat.le_refl _
  | cons c cs ih => exact Nat.le_trans (h p c) (ih (p.step c))

end Position

namespace Lexeme

open Extent (InOrder Rows)

/-! ## Scanning -/

theorem scanFrom_done (done : List Lexeme) (fuel : Nat) (p : Position) (cs : List Char) :
    scanFrom done fuel p cs = done.reverse ++ scanFrom [] fuel p cs := by
  induction fuel generalizing done p cs with
  | zero => simp [scanFrom]
  | succ fuel ih =>
      cases cs with
      | nil => simp [scanFrom]
      | cons c cs =>
          simp only [scanFrom]
          split
          next => exact ih done _ _
          next cls _ =>
            rw [ih (_ :: done), ih [_], ← List.append_assoc, List.reverse_cons]
            rfl

/-- The text taken at a place: a lexeme or a run of blanks. -/
def takenAt (c : Char) (cs : List Char) : List Char := c :: cs.take (measure c cs).2

theorem takenAt_append_drop (c : Char) (cs : List Char) : takenAt c cs ++ cs.drop (measure c cs).2 = c :: cs := by
  rw [takenAt, List.cons_append, List.take_append_drop]

/-- One step of scanning: a lexeme, if no blanks stand here, and then those of the rest. -/
theorem scanFrom_cons (fuel : Nat) (p : Position) (c : Char) (cs : List Char) :
    scanFrom [] (fuel + 1) p (c :: cs)
      = ((measure c cs).1.map fun cls => (⟨cls, String.ofList (takenAt c cs),
            ⟨p, p.advance (takenAt c cs)⟩⟩ : Lexeme)).toList
        ++ scanFrom [] fuel (p.advance (takenAt c cs)) (cs.drop (measure c cs).2) := by
  simp only [scanFrom]
  split
  next hblank =>
    rw [hblank]
    rfl
  next cls hcls =>
    rw [hcls, scanFrom_done]
    rfl

theorem inOrder_scanFrom {coord : Position → Nat} (hcoord : Position.Grows coord) (fuel : Nat)
    (p : Position) (cs : List Char) :
    InOrder coord (coord (p.advance cs)) (coord p) ((scanFrom [] fuel p cs).map extent) := by
  induction fuel generalizing p cs with
  | zero => exact hcoord.advance p cs
  | succ fuel ih =>
      cases cs with
      | nil => exact Nat.le_refl _
      | cons c cs =>
          -- one lexeme or blank is taken, and the rest begins where it ends
          have hgrows : coord p ≤ coord (p.advance (takenAt c cs)) := hcoord.advance _ _
          have hrest := ih (p.advance (takenAt c cs)) (cs.drop (measure c cs).2)
          rw [← Position.advance_append, takenAt_append_drop] at hrest
          rw [scanFrom_cons, List.map_append]
          cases (measure c cs).1 with
          | none => exact hrest.lower hgrows
          | some cls => exact ⟨Nat.le_refl _, hgrows, hrest⟩

/-- **The lexemes of a text lie one after the other in it.** -/
theorem inOrder_scan {coord : Position → Nat} (hcoord : Position.Grows coord) (source : String) :
    InOrder coord (coord (Position.zero.advance source.toList)) (coord Position.zero)
      ((scan source).map extent) := by
  unfold scan
  split
  next c cs hsource =>
    rw [hsource]
    split
    next => exact (inOrder_scanFrom hcoord cs.length (Position.zero.step c) cs).lower (hcoord _ _)
    next => exact inOrder_scanFrom hcoord (cs.length + 1) Position.zero (c :: cs)
  next hsource => exact hcoord.advance _ _

theorem rows_scan (source : String) :
    Rows (source.toList.count '\n') 0 ((scan source).map extent) := by
  have hrows := inOrder_scan Position.grows_row source
  rwa [Position.row_advance, show Position.zero.row = 0 from rfl, Nat.zero_add] at hrows

/-- A lexeme is what is taken at a place: after some text, where a character and then the rest stand. -/
structure Taken (l : Lexeme) (before : List Char) (c : Char) (rest : List Char) : Prop where
  cls : (measure c rest).1 = some l.cls
  text : l.text = String.ofList (takenAt c rest)
  extent : l.extent = ⟨Position.zero.advance before, Position.zero.advance (before ++ takenAt c rest)⟩

section

variable {p : List Char → List Char → Prop}

/-- **Every lexeme is what is taken at a place of the text,** and there it stands between parts of the text that are
    as they are wherever scanning goes on. -/
theorem exists_taken_of_mem_scanFrom
    (hstep : ∀ before c rest, p before (c :: rest) → p (before ++ takenAt c rest) (rest.drop (measure c rest).2))
    {fuel : Nat} (pre : List Char) {cs : List Char} {l : Lexeme} (hp : p pre cs)
    (h : l ∈ scanFrom [] fuel (Position.zero.advance pre) cs) :
    ∃ before c rest, pre ++ cs = before ++ c :: rest ∧ p before (c :: rest) ∧ l.Taken before c rest := by
  induction fuel generalizing pre cs with
  | zero => exact absurd h List.not_mem_nil
  | succ fuel ih =>
      cases cs with
      | nil => exact absurd h List.not_mem_nil
      | cons c cs =>
          rw [scanFrom_cons, ← Position.advance_append, List.mem_append] at h
          rcases h with h | h
          · obtain ⟨cls, hcls, rfl⟩ := Option.map_eq_some_iff.mp (Option.mem_toList.mp h)
            exact ⟨pre, c, cs, rfl, hp, hcls, rfl, rfl⟩
          · obtain ⟨before, d, rest, hcut, hd, htaken⟩ := ih _ (hstep pre c cs hp) h
            rw [List.append_assoc, takenAt_append_drop] at hcut
            exact ⟨before, d, rest, hcut, hd, htaken⟩

theorem exists_taken_of_mem_scan (hstart : ∀ before rest, before.length ≤ 1 → p before rest)
    (hstep : ∀ before c rest, p before (c :: rest) → p (before ++ takenAt c rest) (rest.drop (measure c rest).2))
    {source : String} {l : Lexeme} (h : l ∈ scan source) :
    ∃ before c rest, source.toList = before ++ c :: rest ∧ p before (c :: rest) ∧ l.Taken before c rest := by
  unfold scan at h
  split at h
  next c cs hsource =>
    rw [hsource]
    split at h
    next => exact exists_taken_of_mem_scanFrom hstep [c] (hstart _ _ (Nat.le_refl 1)) h
    next => exact exists_taken_of_mem_scanFrom hstep [] (hstart _ _ (Nat.zero_le 1)) h
  next => exact absurd h List.not_mem_nil

end

theorem exists_of_mem_scan {source : String} {l : Lexeme} (h : l ∈ scan source) :
    ∃ before c rest, source.toList = before ++ c :: rest ∧ l.Taken before c rest := by
  obtain ⟨before, c, rest, hsource, -, htaken⟩ :=
    exists_taken_of_mem_scan (p := fun _ _ => True) (fun _ _ _ => trivial) (fun _ _ _ _ => trivial) h
  exact ⟨before, c, rest, hsource, htaken⟩

/-! ## Words -/

/-- A text without a dot. -/
def Dotless (text : String) : Prop := '.' ∉ text.toList

/-- Only letters open a word, which goes on as long as letters and digits follow. -/
theorem measure_word {c : Char} {cs : List Char} (h : (measure c cs).1 = some .word) :
    Identifier.isOpening c = true ∧
      (measure c cs).2 = (cs.takeWhile Identifier.isFollowing).length := by
  unfold measure at h ⊢
  split at h
  next => cases h
  next hline =>
    split at h
    next => cases h
    next hgap =>
      split at h
      next hopening =>
        rw [if_neg hline, if_neg hgap, if_pos hopening]
        exact ⟨hopening, rfl⟩
      next =>
        -- whatever else opens here is of another class
        repeat' split at h
        all_goals cases h

theorem dotless_takenAt {c : Char} {cs : List Char} (h : (measure c cs).1 = some .word) :
    Dotless (String.ofList (takenAt c cs)) := by
  obtain ⟨hopening, hlength⟩ := measure_word h
  have htaken : takenAt c cs = c :: cs.takeWhile Identifier.isFollowing := by
    rw [takenAt, hlength, ← List.prefix_iff_eq_take.mp (List.takeWhile_prefix _)]
  unfold Dotless
  rw [String.toList_ofList, htaken]
  intro hdot
  rcases List.mem_cons.mp hdot with rfl | hdot
  · exact absurd hopening (by decide)
  · exact absurd (List.all_eq_true.mp List.all_takeWhile _ hdot) (by decide)

/-- **No word of a text has a dot in it.** -/
theorem dotless_of_mem_scan {source : String} {l : Lexeme} (h : l ∈ scan source)
    (hword : l.cls = .word) : Dotless l.text := by
  obtain ⟨_, c, rest, -, htaken⟩ := exists_of_mem_scan h
  rw [htaken.text]
  exact dotless_takenAt (htaken.cls.trans (congrArg some hword))

end Lexeme
end GoExcerpt
