import GoExcerpt.Proofs.LineEnds
import GoExcerpt.Proofs.Scanning
import GoExcerpt.Proofs.Unbroken

/-!
# `Proofs.Blanking` — blanks in place of a comment

`Text.blanked` puts blanks in place of a stretch of text, as many as it has bytes, and keeps its line feeds.
Done to a comment this takes its lexeme away and leaves all others as and where they are; line ends that stood
inside it come in its place (`Lexeme.padded_blanked`). So the items of a file that is not broken are the same
without the comment, unless such line ends follow code in its line (`SourceFile.parse_blanked`).
-/

namespace GoExcerpt

open String (utf8Len)

/-! ## Bytes -/

namespace Position

theorem byte_step (p : Position) (c : Char) : (p.step c).byte = p.byte + c.utf8Size := by
  unfold step
  split
  next h =>
    rw [h]
    rfl
  next => rfl

theorem byte_advance (p : Position) (cs : List Char) : (p.advance cs).byte = p.byte + utf8Len cs := by
  induction cs generalizing p with
  | nil => rfl
  | cons c cs ih =>
      rw [advance_cons, ih, byte_step, String.utf8Len_cons]
      omega

end Position

/-! ## Blanks -/

namespace Text

/-- Blanks in place of a character, as many as it has bytes. A line feed stays. -/
def blanks (c : Char) : List Char := if c = '\n' then [c] else List.replicate c.utf8Size ' '

/-- A text that begins at a byte offset, with blanks in place of the characters inside `e`. -/
def blankFrom (e : Extent) : Nat → List Char → List Char
  | _, [] => []
  | byte, c :: cs =>
      (if e.start.byte ≤ byte && byte < e.stop.byte then blanks c else [c])
        ++ blankFrom e (byte + c.utf8Size) cs

/-- A source text with blanks in place of the stretch `e`. -/
def blanked (source : String) (e : Extent) : String := String.ofList (blankFrom e 0 source.toList)

theorem utf8Len_replicate_blank (n : Nat) : utf8Len (List.replicate n ' ') = n := by
  induction n with
  | zero => rfl
  | succ n ih =>
      rw [List.replicate_succ, String.utf8Len_cons, ih]
      rfl

theorem utf8Len_blanks (c : Char) : utf8Len (blanks c) = c.utf8Size := by
  unfold blanks
  split
  next h => simp
  next => exact utf8Len_replicate_blank _

/-- Blanks lead to the same place as the character they stand for. -/
theorem advance_blanks {c : Char} (hc : c ≠ '\n') (p : Position) :
    p.advance (List.replicate c.utf8Size ' ') = p.step c := by
  have hadvance : ∀ n, p.advance (List.replicate n ' ') = ⟨p.byte + n, p.row, p.column + n⟩ := by
    intro n
    induction n with
    | zero => rfl
    | succ n ih =>
        rw [List.replicate_succ', Position.advance_append, ih]
        rfl
  rw [hadvance, Position.step, if_neg hc]

theorem utf8Len_blankFrom (e : Extent) (byte : Nat) (cs : List Char) :
    utf8Len (blankFrom e byte cs) = utf8Len cs := by
  induction cs generalizing byte with
  | nil => rfl
  | cons c cs ih =>
      rw [blankFrom, String.utf8Len_append, ih, String.utf8Len_cons]
      split
      next => rw [utf8Len_blanks, Nat.add_comm]
      next => simp [Nat.add_comm]

theorem utf8ByteSize_blanked (source : String) (e : Extent) :
    (blanked source e).utf8ByteSize = source.utf8ByteSize := by
  rw [blanked, String.utf8ByteSize_ofList, utf8Len_blankFrom, ← String.utf8ByteSize_ofList,
    String.ofList_toList]

section

variable {e : Extent} {byte : Nat}

theorem blankFrom_append (u v : List Char) :
    blankFrom e byte (u ++ v) = blankFrom e byte u ++ blankFrom e (byte + utf8Len u) v := by
  induction u generalizing byte with
  | nil => rfl
  | cons c u ih =>
      rw [List.cons_append, blankFrom, blankFrom, ih, List.append_assoc, String.utf8Len_cons,
        Nat.add_assoc, Nat.add_comm (utf8Len u)]

theorem blankFrom_before {u : List Char} (h : byte + utf8Len u ≤ e.start.byte) :
    blankFrom e byte u = u := by
  induction u generalizing byte with
  | nil => rfl
  | cons c u ih =>
      rw [String.utf8Len_cons] at h
      have hsize := c.utf8Size_pos
      rw [blankFrom, ih (by omega), if_neg]
      · rfl
      · simp only [Bool.and_eq_true, decide_eq_true_eq, not_and]
        omega

theorem blankFrom_after {v : List Char} (h : e.stop.byte ≤ byte) : blankFrom e byte v = v := by
  induction v generalizing byte with
  | nil => rfl
  | cons c v ih =>
      rw [blankFrom, ih (by omega), if_neg]
      · rfl
      · simp only [Bool.and_eq_true, decide_eq_true_eq, not_and]
        omega

theorem blankFrom_inside {cs : List Char} (hstart : e.start.byte ≤ byte)
    (hstop : byte + utf8Len cs ≤ e.stop.byte) : blankFrom e byte cs = cs.flatMap blanks := by
  induction cs generalizing byte with
  | nil => rfl
  | cons c cs ih =>
      rw [String.utf8Len_cons] at hstop
      have hsize := c.utf8Size_pos
      rw [blankFrom, ih (by omega) (by omega), if_pos, List.flatMap_cons]
      simp only [Bool.and_eq_true, decide_eq_true_eq]
      omega

end
end Text

/-! ## Lexemes -/

namespace Lexeme

theorem lexemesFrom_replicate (n : Nat) (p : Position) (v : List Char) :
    lexemesFrom p (List.replicate n ' ' ++ v) = lexemesFrom (p.advance (List.replicate n ' ')) v := by
  induction n generalizing p with
  | zero => rfl
  | succ n ih =>
      rw [List.replicate_succ, List.cons_append, lexemesFrom_gap (by decide), ih]
      rfl

/-- Of blanked text only the line ends are left. -/
theorem exists_lexemesFrom_blanks (p : Position) (cs v : List Char) :
    ∃ ends : List Lexeme, (∀ l ∈ ends, l.cls = .lineEnd) ∧ ('\n' ∉ cs → ends = []) ∧
      lexemesFrom p (cs.flatMap Text.blanks ++ v) = ends ++ lexemesFrom (p.advance cs) v := by
  induction cs generalizing p with
  | nil => exact ⟨[], fun _ h => absurd h List.not_mem_nil, fun _ => rfl, rfl⟩
  | cons c cs ih =>
      obtain ⟨ends, hends, hnone, hlexemes⟩ := ih (p.step c)
      rw [List.flatMap_cons, List.append_assoc, Text.blanks]
      by_cases hc : c = '\n'
      · subst hc
        refine ⟨⟨.lineEnd, String.ofList ['\n'], ⟨p, p.step '\n'⟩⟩ :: ends, ?_, ?_, ?_⟩
        · exact List.forall_mem_cons.mpr ⟨rfl, hends⟩
        · exact fun h => absurd List.mem_cons_self h
        · have hmeasure : measure '\n' (cs.flatMap Text.blanks ++ v) = (some .lineEnd, 0) := rfl
          rw [if_pos rfl, List.singleton_append, lexemesFrom_lexeme hmeasure]
          exact congrArg _ hlexemes
      · refine ⟨ends, hends, fun h => hnone fun hmem => h (List.mem_cons_of_mem _ hmem), ?_⟩
        rw [if_neg hc, lexemesFrom_replicate, Text.advance_blanks hc, hlexemes]
        rfl

section

variable {p : Position} {cs u com v : List Char} {l : Lexeme} {before : List Lexeme}

theorem Cut.text_eq (h : Cut p cs l u com v before) : l.text.toList = '/' :: com := by
  rw [h.comment, String.toList_ofList]

/-- Blanks in place of the comment leave the text before and after it. -/
theorem Cut.blankFrom_eq (h : Cut p cs l u com v before) :
    Text.blankFrom l.extent p.byte cs = u ++ (('/' :: com).flatMap Text.blanks ++ v) := by
  have hstart : l.extent.start.byte = p.byte + utf8Len u := by rw [h.comment, Position.byte_advance]
  have hstop : l.extent.stop.byte = p.byte + utf8Len u + utf8Len ('/' :: com) := by
    rw [h.comment, Position.byte_advance, String.utf8Len_append, Nat.add_assoc]
  rw [h.text, List.append_assoc, Text.blankFrom_append, Text.blankFrom_append,
    Text.blankFrom_before (Nat.le_of_eq hstart.symm),
    Text.blankFrom_inside (Nat.le_of_eq hstart) (Nat.le_of_eq hstop.symm),
    Text.blankFrom_after (Nat.le_of_eq hstop)]

/-- They take its lexeme away, and put line ends there if it has any in it. -/
theorem Cut.exists_lexemesFrom_blankFrom (h : Cut p cs l u com v before) :
    ∃ ends : List Lexeme, (∀ l ∈ ends, l.cls = .lineEnd) ∧ ('\n' ∉ l.text.toList → ends = []) ∧
      lexemesFrom p (Text.blankFrom l.extent p.byte cs)
        = before ++ (ends ++ lexemesFrom (p.advance (u ++ '/' :: com)) v) := by
  obtain ⟨ends, hends, hnone, hlexemes⟩ := exists_lexemesFrom_blanks (p.advance u) ('/' :: com) v
  refine ⟨ends, hends, h.text_eq ▸ hnone, ?_⟩
  rw [h.blankFrom_eq, Position.advance_append, ← hlexemes]
  exact h.blank _

/-- The comment is not empty. -/
theorem Cut.start_lt_stop (h : Cut p cs l u com v before) : l.extent.start.byte < l.extent.stop.byte := by
  rw [h.comment]
  simp only [Position.byte_advance, String.utf8Len_append, String.utf8Len_cons]
  have hsize := Char.utf8Size_pos '/'
  omega

/-- No other lexeme lies where the comment lies. -/
theorem Cut.extent_ne (h : Cut p cs l u com v before) :
    (∀ l' ∈ before, l'.extent ≠ l.extent) ∧
      ∀ l' ∈ lexemesFrom (p.advance (u ++ '/' :: com)) v, l'.extent ≠ l.extent := by
  have horder := inOrder_scanFrom Position.grows_byte cs.length p cs
  rw [show scanFrom [] cs.length p cs = _ from h.lexemes, List.map_append, List.map_cons] at horder
  obtain ⟨mid, hbefore, hafter⟩ := Extent.inOrder_append.mp horder
  refine ⟨fun l' hl' heq => ?_, fun l' hl' heq => ?_⟩
  · have hle := (hbefore.bounds (List.mem_map_of_mem hl')).2.2
    rw [heq] at hle
    exact absurd (Nat.le_trans hle hafter.1) (Nat.not_le_of_lt h.start_lt_stop)
  · have hle := (hafter.2.2.bounds (List.mem_map_of_mem hl')).1
    rw [heq] at hle
    exact absurd hle (Nat.not_le_of_lt h.start_lt_stop)

theorem Cut.staying_eq (h : Cut p cs l u com v before) :
    staying (· == l.extent) (lexemesFrom p cs)
      = before ++ lexemesFrom (p.advance (u ++ '/' :: com)) v := by
  have hstays : ∀ l' : Lexeme, l'.extent ≠ l.extent → (!l'.isGone (· == l.extent)) = true := by
    intro l' hne
    simp [isGone, hne]
  rw [h.lexemes, staying, List.filter_append, List.filter_cons_of_neg]
  · congr 1
    · exact List.filter_eq_self.mpr fun l' hl' => hstays l' (h.extent_ne.1 l' hl')
    · exact List.filter_eq_self.mpr fun l' hl' => hstays l' (h.extent_ne.2 l' hl')
  · rw [h.comment]
    simp [isGone, isComment]

theorem Cut.takeWhile_eq (h : Cut p cs l u com v before) :
    (lexemesFrom p cs).takeWhile (·.extent != l.extent) = before := by
  rw [h.lexemes, List.takeWhile_append_of_pos, List.takeWhile_cons_of_neg, List.append_nil]
  · simp
  · exact fun l' hl' => by simpa using h.extent_ne.1 l' hl'

end

/-- Whether only comments stand between a lexeme of a text and the end of the line before, or the beginning
    of the text. -/
def opensLine (ls : List Lexeme) (l : Lexeme) : Bool :=
  lineOpen true (ls.takeWhile (·.extent != l.extent))

theorem padded_blankFrom {p : Position} {cs : List Char} {l : Lexeme} (hl : l ∈ lexemesFrom p cs)
    (hcomment : l.cls = .comment)
    (hline : '\n' ∉ l.text.toList ∨ opensLine (lexemesFrom p cs) l = true)
    (hstray : ∀ l ∈ lexemesFrom p cs, l.cls ≠ .stray) :
    Padded true (staying (· == l.extent) (lexemesFrom p cs))
      (lexemesFrom p (Text.blankFrom l.extent p.byte cs)) := by
  obtain ⟨u, com, v, before, hcut⟩ := exists_cut_of_mem hl hcomment hstray
  obtain ⟨ends, hends, hnone, hlexemes⟩ := hcut.exists_lexemesFrom_blankFrom
  rw [hcut.staying_eq, hlexemes]
  refine padded_insert hends before _ (hline.imp hnone fun hopen => ?_)
  rwa [opensLine, hcut.takeWhile_eq] at hopen

/-! ## Whole texts -/

theorem scan_of_mark {source : String} {cs : List Char} (h : source.toList = byteOrderMark :: cs) :
    scan source = lexemesFrom (Position.zero.step byteOrderMark) cs := by
  unfold scan
  rw [h]
  rfl

theorem scan_of_no_mark {source : String} (h : source.toList.head? ≠ some byteOrderMark) :
    scan source = lexemesFrom Position.zero source.toList := by
  unfold scan
  split
  next c cs hsource =>
    rw [if_neg, hsource]
    · rfl
    · rintro hc
      rw [hsource, beq_iff_eq.mp hc] at h
      exact h rfl
  next hsource =>
    rw [hsource]
    rfl

/-- Blanks are no byte order mark. -/
theorem head?_blankFrom {e : Extent} {byte : Nat} {cs : List Char} (h : cs.head? ≠ some byteOrderMark) :
    (Text.blankFrom e byte cs).head? ≠ some byteOrderMark := by
  cases cs with
  | nil => exact h
  | cons c cs =>
      rw [Text.blankFrom]
      split
      next =>
        unfold Text.blanks
        split
        next => exact h
        next =>
          obtain ⟨n, hn⟩ := Nat.exists_eq_add_of_lt c.utf8Size_pos
          rw [Nat.zero_add] at hn
          rw [hn, List.replicate_succ, List.cons_append, List.head?_cons]
          decide
      next => exact h

/-- **Blanks in place of a comment take its lexeme away,** and put line ends there at most where a line has
    ended already. -/
theorem padded_blanked {source : String} {l : Lexeme} (hl : l ∈ scan source) (hcomment : l.cls = .comment)
    (hline : '\n' ∉ l.text.toList ∨ opensLine (scan source) l = true)
    (hstray : ∀ l ∈ scan source, l.cls ≠ .stray) :
    Padded true (staying (· == l.extent) (scan source)) (scan (Text.blanked source l.extent)) := by
  by_cases hmark : source.toList.head? = some byteOrderMark
  · -- the mark is no lexeme and stands before all of them, so it is not inside the comment
    obtain ⟨cs, hcs⟩ := List.head?_eq_some_iff.mp hmark
    rw [scan_of_mark hcs] at hl hline hstray ⊢
    have horder := inOrder_scanFrom Position.grows_byte cs.length (Position.zero.step byteOrderMark) cs
    have hstart := (horder.bounds (List.mem_map_of_mem hl)).1
    have hblanked : (Text.blanked source l.extent).toList = byteOrderMark ::
        Text.blankFrom l.extent (Position.zero.step byteOrderMark).byte cs := by
      rw [Text.blanked, String.toList_ofList, hcs, ← List.singleton_append, Text.blankFrom_append,
        Text.blankFrom_before]
      · rfl
      · exact hstart
    rw [scan_of_mark hblanked]
    exact padded_blankFrom hl hcomment hline hstray
  · have hblanked : (Text.blanked source l.extent).toList
        = Text.blankFrom l.extent Position.zero.byte source.toList := by
      rw [Text.blanked, String.toList_ofList]
      rfl
    rw [scan_of_no_mark hmark] at hl hline hstray ⊢
    rw [scan_of_no_mark (hblanked ▸ head?_blankFrom hmark), hblanked]
    exact padded_blankFrom hl hcomment hline hstray

end Lexeme

/-! ## Files -/

namespace SourceFile

theorem broken_parse (source : String) : (parse source).broken = (readSource source).2 := rfl

theorem children_parse (source : String) :
    (parse source).root.children = (readSource source).1.built.reverse := rfl

/-- **Blanks in place of a comment leave the items of a file,** but for the comment, if it has no line end in it
    or opens its line. -/
theorem parse_blanked {source : String} {l : Lexeme} (h : (parse source).broken = false)
    (hl : l ∈ Lexeme.scan source) (hcomment : l.cls = .comment)
    (hline : '\n' ∉ l.text.toList ∨ Lexeme.opensLine (Lexeme.scan source) l = true) :
    (parse (Text.blanked source l.extent)).broken = false ∧
      (parse (Text.blanked source l.extent)).root.children
        = Tree.withoutAll (· == l.extent) (parse source).root.children := by
  have hsteps : stepsFor (Text.blanked source l.extent) = stepsFor source := by
    rw [stepsFor, Text.utf8ByteSize_blanked, stepsFor]
  -- first the comment is left out, then line ends are put in
  have hwithout : readItems (stepsFor source) (source.utf8ByteSize + 1) false
        (ReadState.without (· == l.extent) ⟨Lexeme.scan source, []⟩)
      = ((readSource source).1.without (· == l.extent), false) :=
    readItems_without (stepsFor source) (source.utf8ByteSize + 1) (ReadState.settled_nil _) h
  have halike : ReadState.Alike true (ReadState.without (· == l.extent) ⟨Lexeme.scan source, []⟩)
      ⟨Lexeme.scan (Text.blanked source l.extent), []⟩ :=
    ⟨by simp [ReadState.without],
      Lexeme.padded_blanked hl hcomment hline (not_stray_of_unbroken h)⟩
  obtain ⟨hbuilt, hbroken⟩ := readItems_padded (stepsFor source) (source.utf8ByteSize + 1) halike
    (congrArg Prod.snd hwithout)
  rw [hwithout] at hbuilt
  have hread : (readSource (Text.blanked source l.extent)).1.built
        = Tree.withoutAll (· == l.extent) (readSource source).1.built ∧
      (readSource (Text.blanked source l.extent)).2 = false := by
    unfold readSource
    rw [hsteps, Text.utf8ByteSize_blanked]
    exact ⟨hbuilt, hbroken⟩
  rw [broken_parse, children_parse, children_parse, hread.1, Tree.withoutAll_reverse]
  exact ⟨hread.2, rfl⟩

end SourceFile
end GoExcerpt
