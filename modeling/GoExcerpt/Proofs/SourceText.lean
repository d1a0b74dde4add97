import GoExcerpt.Proofs.Blanking
import GoExcerpt.Proofs.LineRanges
import GoExcerpt.Proofs.Nesting

/-!
# `Proofs.SourceText` — the text that a tree was read from

Every lexeme begins and ends at a place of the text that was scanned (`Lexeme.within_of_mem_scan`) and is not empty.
A reading makes its trees of the lexemes that it reads (`madeOf_kept`), so this goes for trees as well, those inside
others included. Between its two places stands the text that a tree was read from
(`SourceFile.exists_covers_of_mem_parse`).
-/

namespace GoExcerpt

open String (utf8Len)

/-- Whether a place is one in a text: the place after some beginning of it. -/
def Position.Within (text : List Char) (p : Position) : Prop :=
  ∃ pre, pre <+: text ∧ p = Position.zero.advance pre

/-- Whether a stretch begins and ends at places of a text. -/
structure Extent.Within (text : List Char) (e : Extent) : Prop where
  start : e.start.Within text
  stop : e.stop.Within text

/-! ## Lexemes -/

namespace Lexeme

/-- **Lexemes lie in the text that was scanned.** -/
theorem within_of_mem_scan {source : String} {l : Lexeme} (h : l ∈ scan source) :
    l.extent.Within source.toList := by
  obtain ⟨before, c, rest, hsource, htaken⟩ := exists_of_mem_scan h
  rw [hsource, htaken.extent, ← takenAt_append_drop c rest]
  refine ⟨⟨before, List.prefix_append _ _, rfl⟩, ⟨before ++ takenAt c rest, ?_, rfl⟩⟩
  rw [← List.append_assoc]
  exact List.prefix_append _ _

/-- A lexeme is no empty text. -/
theorem byte_lt_of_mem_scan {source : String} {l : Lexeme} (h : l ∈ scan source) :
    l.extent.start.byte < l.extent.stop.byte := by
  obtain ⟨before, c, rest, -, htaken⟩ := exists_of_mem_scan h
  have hsize := c.utf8Size_pos
  rw [htaken.extent, Position.byte_advance, Position.byte_advance, String.utf8Len_append, takenAt, String.utf8Len_cons]
  omega

end Lexeme

/-! ## Trees -/

/-- A tree that is one of the lexemes, or lies over its children. -/
inductive Tree.MadeOf (ls : List Lexeme) : Tree → Prop
  | leaf {l : Lexeme} {k : Kind} {r : Option Role} (hl : l ∈ ls) : MadeOf ls (.leaf k r l.extent l.text)
  | node {k : Kind} {r : Option Role} {t : Tree} {ts : List Tree} :
      MadeOf ls (.node k r ⟨t.extent.start, ((t :: ts).getLast (by simp)).extent.stop⟩ (t :: ts))

theorem Tree.MadeOf.withRole {ls : List Lexeme} {t : Tree} (h : t.MadeOf ls) (role : Role) :
    (t.withRole role).MadeOf ls := by
  cases h with
  | leaf hl => exact .leaf hl
  | node => exact .node

/-- Lexemes, and trees made of them. -/
structure ReadState.MadeOf (ls : List Lexeme) (s : ReadState) : Prop where
  rest : ∀ l ∈ s.rest, l ∈ ls
  built : ∀ t ∈ s.built, t.Every (Tree.MadeOf ls)

/-- **A reading makes its trees of the lexemes that it reads.** -/
theorem madeOf_kept (ls : List Lexeme) : Kept {} fun s s' => s.MadeOf ls → s'.MadeOf ls where
  refl := fun _ h => h
  trans := fun _ _ _ hst htu h => htu (hst h)
  token := by
    intro w k s s' _ htake hs
    obtain ⟨comments, l, hsub, -, -⟩ := ReadState.exists_of_take htake
    refine ⟨fun l' hl' => hs.rest l' (hsub.subset (by simp [hl'])), fun t ht => ?_⟩
    rcases ReadState.mem_of_take htake ht with ht | ⟨l, hl, k, -, rfl⟩
    · exact hs.built t ht
    · exact .leaf (.leaf (hs.rest l hl))
  terminator := by
    intro s s' htake hs
    obtain ⟨comments, ended, hsub, -⟩ := ReadState.exists_of_takeTerminator htake
    refine ⟨fun l' hl' => hs.rest l' (hsub.subset (by simp [hl'])), fun t ht => ?_⟩
    rcases ReadState.mem_of_takeTerminator htake ht with ht | ⟨l, hl, k, -, rfl⟩
    · exact hs.built t ht
    · exact .leaf (.leaf (hs.rest l hl))
  wrap := by
    intro k s _ hs
    refine ⟨hs.rest, fun t ht => ?_⟩
    rcases ReadState.mem_wrap ht with ⟨ht, -⟩ | ⟨first, more, rfl, hmem⟩
    · exact hs.built t ht
    · exact .node .node fun c hc => hs.built c (hmem c hc)
  tag := by
    intro role s _ hs
    refine ⟨hs.rest, fun t ht => ?_⟩
    rcases ReadState.mem_tag ht with ⟨ht, -⟩ | ⟨old, hold, -, rfl⟩
    · exact hs.built t ht
    · have hmade := hs.built old hold
      exact hmade.withRole (hmade.here.withRole role)
  frame := by
    intro s s' hframe hs
    have hs' := hframe rfl ⟨hs.rest, fun _ h => absurd h List.not_mem_nil⟩
    refine ⟨hs'.rest, fun t ht => ?_⟩
    rcases List.mem_append.mp ht with ht | ht
    · exact hs'.built t ht
    · exact hs.built t ht

namespace SourceFile

theorem madeOf_readSource (text : String) : (readSource text).1.MadeOf (Lexeme.scan text) := by
  refine readItems_keeps (ReadState.MadeOf (Lexeme.scan text)) ?_ ?_ ?_ ?_ _ _ _ ⟨fun _ hl => hl, ?_⟩
  · intro s s' hs hread
    exact (madeOf_kept _).run (fun _ _ => Grammar.uses_all _) (Grammar.uses_all _) hread (fun _ => rfl) hs
  · exact fun s s' hs hend => (madeOf_kept _).terminator s s' hend hs
  · exact fun s hs => ⟨fun l hl => hs.rest l ((skipLine_sublist s.rest).subset hl), hs.built⟩
  · intro s hs
    refine ⟨fun _ h => absurd h List.not_mem_nil, fun t ht => ?_⟩
    rcases List.mem_append.mp ht with ht | ht
    · obtain ⟨l, hl, rfl⟩ := List.mem_map.mp (List.mem_reverse.mp ht)
      exact .leaf (.leaf (hs.rest l (List.mem_filter.mp hl).1))
    · exact hs.built t ht
  · exact fun _ h => absurd h List.not_mem_nil

/-- **Every tree of a file is made of the lexemes of its text.** -/
theorem madeOf_of_mem_parse {text : String} {t : Tree} (h : t ∈ (parse text).root.named) :
    t.Every (Tree.MadeOf (Lexeme.scan text)) :=
  (madeOf_readSource text).built t (mem_readSource_of_mem_parse h)

end SourceFile

/-- A node begins with its first child and ends with its last, so trees lie in the text of their lexemes. -/
theorem Tree.Every.within {text : List Char} {ls : List Lexeme} {t : Tree} (h : t.Every (MadeOf ls))
    (hls : ∀ l ∈ ls, l.extent.Within text) : t.Every fun t => t.extent.Within text := by
  induction h with
  | leaf h =>
      cases h with
      | leaf hl => exact .leaf (hls _ hl)
  | node h hcs ih =>
      refine .node ?_ ih
      cases h with
      | node => exact ⟨(ih _ List.mem_cons_self).here.start, (ih _ (List.getLast_mem _)).here.stop⟩

/-- **Every tree of a file lies in its text.** -/
theorem SourceFile.within_of_mem_parse {text : String} {t : Tree} (h : t ∈ (parse text).root.named) :
    t.Every fun t => t.extent.Within text.toList :=
  (madeOf_of_mem_parse h).within fun _ hl => Lexeme.within_of_mem_scan hl

/-- A node is no emptier than its first child, and so no tree is empty if no lexeme is. -/
theorem Tree.Every.first_lt_last {ls : List Lexeme} {t : Tree} (h : t.Every (MadeOf ls)) (hspans : t.Every Spans)
    (hls : ∀ l ∈ ls, l.extent.start.byte < l.extent.stop.byte) : t.Every fun t => t.first < t.last := by
  induction h with
  | leaf h =>
      cases h with
      | leaf hl => exact .leaf (hls _ hl)
  | node h hcs ih =>
      have hbelow := fun c hc => ih c hc (hspans.child hc)
      refine .node ?_ hbelow
      cases h with
      | @node k r t ts =>
          have hlt : t.first < t.last := (hbelow t List.mem_cons_self).here
          have hle := (hspans.here.child (c := t) List.mem_cons_self).2.2
          exact Nat.lt_of_lt_of_le hlt hle

/-- **No tree of a file is empty.** -/
theorem SourceFile.first_lt_last_of_mem_parse {text : String} {t : Tree} (h : t ∈ (parse text).root.named) :
    t.Every fun t => t.first < t.last :=
  (madeOf_of_mem_parse h).first_lt_last (spans_of_mem_parse h) fun _ hl => Lexeme.byte_lt_of_mem_scan hl

/-! ## Texts of trees -/

/-- Of two beginnings of a text, the one with no more bytes is a beginning of the other. -/
theorem prefix_of_byte_le {text a b : List Char} (ha : a <+: text) (hb : b <+: text)
    (h : (Position.zero.advance a).byte ≤ (Position.zero.advance b).byte) : a <+: b := by
  rcases List.prefix_or_prefix_of_prefix ha hb with hab | ⟨more, rfl⟩
  · exact hab
  · rw [Position.byte_advance, Position.byte_advance, String.utf8Len_append] at h
    obtain rfl : more = [] := String.utf8Len_eq_zero.mp (by omega)
    exact ⟨[], by simp⟩

/-- **Every item of a file was read from a stretch of its text.** -/
theorem SourceFile.exists_covers_of_mem_parse {text : String} {t : Tree}
    (h : t ∈ (parse text).root.named) : ∃ own, t.Covers text.toList own := by
  have hwithin := (within_of_mem_parse h).here
  obtain ⟨pre, hpre, hstart⟩ := hwithin.start
  obtain ⟨upto, hupto, hstop⟩ := hwithin.stop
  have hle : t.first ≤ t.last := (spans_of_mem_parse h).here.le
  unfold Tree.first Tree.last at hle
  rw [hstart, hstop] at hle
  obtain ⟨own, rfl⟩ := prefix_of_byte_le hpre hupto hle
  obtain ⟨post, hpost⟩ := hupto
  exact ⟨own, pre, post, hpost.symm, hstart, hstop⟩

end GoExcerpt
