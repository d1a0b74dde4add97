import GoExcerpt.Proofs.Uncommented
import Mathlib.Data.Bool.Basic
import Mathlib.Data.Option.Basic

/-!
# `Proofs.LineEnds` — more line ends where a line has ended already

Where a line has just ended, further line ends are blanks: what ends a statement takes one of them, and no rule
looks for another before it has read something (`Grammar.after`). So line ends may be added after a line end, or
at the beginning of a text, and the same trees are built (`SourceFile.readItems_padded`).
-/

namespace GoExcerpt

/-! ## Lexemes with more line ends -/

namespace Lexeme

/-- The same lexemes, with more line ends wherever only comments stand between a line end and them. The flag
    tells whether a line end stands right before, or the text begins. -/
inductive Padded : Bool → List Lexeme → List Lexeme → Prop where
  | nil {fresh : Bool} : Padded fresh [] []
  | extra {l : Lexeme} {ls ls' : List Lexeme} (hl : l.cls = .lineEnd) (h : Padded true ls ls') :
      Padded true ls (l :: ls')
  | comment {fresh : Bool} {l : Lexeme} {ls ls' : List Lexeme} (hl : l.cls = .comment)
      (h : Padded fresh ls ls') : Padded fresh (l :: ls) (l :: ls')
  | lineEnd {fresh : Bool} {l : Lexeme} {ls ls' : List Lexeme} (hl : l.cls = .lineEnd)
      (h : Padded true ls ls') : Padded fresh (l :: ls) (l :: ls')
  | other {fresh : Bool} {l : Lexeme} {ls ls' : List Lexeme} (hl : l.isTrivia = false)
      (h : Padded false ls ls') : Padded fresh (l :: ls) (l :: ls')

variable {fresh : Bool} {ls ls' : List Lexeme}

theorem Padded.mono {more : Bool} (h : Padded fresh ls ls') (hle : fresh ≤ more) : Padded more ls ls' := by
  induction h generalizing more with
  | nil => exact .nil
  | extra hl h ih =>
      obtain rfl : more = true := hle rfl
      exact .extra hl (ih hle)
  | comment hl h ih => exact .comment hl (ih hle)
  | lineEnd hl h ih => exact .lineEnd hl h
  | other hl h ih => exact .other hl h

theorem Padded.refl (fresh : Bool) (ls : List Lexeme) : Padded fresh ls ls := by
  induction ls generalizing fresh with
  | nil => exact .nil
  | cons l ls ih =>
      by_cases htrivia : l.isTrivia = true
      · simp only [isTrivia, Bool.or_eq_true, beq_iff_eq] at htrivia
        rcases htrivia with hl | hl
        · exact .comment hl (ih fresh)
        · exact .lineEnd hl (ih true)
      · exact .other (by simpa using htrivia) (ih false)

/-- Whether a line has just ended after some lexemes, comments apart, if it had before them. -/
def lineOpen (fresh : Bool) (ls : List Lexeme) : Bool :=
  ls.foldl (fun fresh l => if l.isComment then fresh else l.cls == .lineEnd) fresh

/-- Line ends may be put in where a line has just ended. -/
theorem padded_insert {ends : List Lexeme} (hends : ∀ l ∈ ends, l.cls = .lineEnd)
    (before after : List Lexeme) {fresh : Bool} (h : ends = [] ∨ lineOpen fresh before = true) :
    Padded fresh (before ++ after) (before ++ (ends ++ after)) := by
  induction before generalizing fresh with
  | nil =>
      rcases h with rfl | rfl
      · exact .refl fresh after
      · induction ends with
        | nil => exact .refl true after
        | cons l ends ih => exact .extra (hends l (.head _)) (ih fun l hl => hends l (.tail _ hl))
  | cons l before ih =>
      by_cases hcomment : l.cls = .comment
      · refine .comment hcomment (ih (h.imp id fun h => ?_))
        simpa [lineOpen, isComment, hcomment] using h
      by_cases hline : l.cls = .lineEnd
      · refine .lineEnd hline (ih (h.imp id fun h => ?_))
        simpa [lineOpen, isComment, hline] using h
      · refine .other (by simp [isTrivia, hcomment, hline]) (ih (h.imp id fun h => ?_))
        have hline' : (l.cls == .lineEnd) = false := beq_eq_false_iff_ne.mpr hline
        simpa [lineOpen, isComment, hcomment, hline'] using h

theorem isTrivia_of_lineEnd {l : Lexeme} (h : l.cls = .lineEnd) : l.isTrivia = true := by
  simp [isTrivia, h]

theorem isComment_of_lineEnd {l : Lexeme} (h : l.cls = .lineEnd) : l.isComment = false := by
  rw [isComment, h]
  rfl

theorem isTrivia_of_comment {l : Lexeme} (h : l.cls = .comment) : l.isTrivia = true := by
  simp [isTrivia, h]

/-- Passing over lexemes, comments and line ends among them, leads to the same lexeme. -/
theorem Padded.head?_dropWhile {p : Lexeme → Bool} (hp : ∀ l : Lexeme, l.isTrivia = true → p l = true)
    (h : Padded fresh ls ls') : (ls'.dropWhile p).head? = (ls.dropWhile p).head? := by
  induction h with
  | nil => rfl
  | extra hl h ih => rw [List.dropWhile_cons_of_pos (hp _ (isTrivia_of_lineEnd hl)), ih]
  | comment hl h ih =>
      rw [List.dropWhile_cons_of_pos (hp _ (isTrivia_of_comment hl)), ih,
        List.dropWhile_cons_of_pos (hp _ (isTrivia_of_comment hl))]
  | lineEnd hl h ih =>
      rw [List.dropWhile_cons_of_pos (hp _ (isTrivia_of_lineEnd hl)), ih,
        List.dropWhile_cons_of_pos (hp _ (isTrivia_of_lineEnd hl))]
  | @other _ l ls ls' hl h ih =>
      by_cases hpl : p l = true
      · rw [List.dropWhile_cons_of_pos hpl, ih, List.dropWhile_cons_of_pos hpl]
      · rw [List.dropWhile_cons_of_neg hpl, List.dropWhile_cons_of_neg hpl]
        rfl

theorem nextText_eq (ls : List Lexeme) :
    nextText ls = ((ls.dropWhile isTrivia).head?.map text).getD "" := by
  unfold nextText
  split
  next h => rw [h]; rfl
  next h => rw [h]; rfl

theorem Padded.nextText_eq (h : Padded fresh ls ls') : nextText ls' = nextText ls := by
  rw [Lexeme.nextText_eq, h.head?_dropWhile fun _ h => h, ← Lexeme.nextText_eq]

theorem Padded.all_isTrivia (h : Padded fresh ls ls') : ls'.all isTrivia = ls.all isTrivia := by
  induction h with
  | nil => rfl
  | extra hl h ih => rw [List.all_cons, isTrivia_of_lineEnd hl, ih, Bool.true_and]
  | comment hl h ih | lineEnd hl h ih => rw [List.all_cons, List.all_cons, ih]
  | other hl h ih => rw [List.all_cons, List.all_cons, ih]

theorem Padded.filter_isComment (h : Padded fresh ls ls') :
    ls'.filter isComment = ls.filter isComment := by
  induction h with
  | nil => rfl
  | extra hl h ih => rw [List.filter_cons_of_neg (by simp [isComment, hl]), ih]
  | comment hl h ih | lineEnd hl h ih => rw [List.filter_cons, List.filter_cons, ih]
  | other hl h ih => rw [List.filter_cons, List.filter_cons, ih]

/-- Unless a line has just ended, the same line end comes next. -/
theorem Padded.lineEndAhead_eq (h : Padded false ls ls') : lineEndAhead ls' = lineEndAhead ls := by
  generalize hfresh : false = fresh at h
  induction h with
  | nil => rfl
  | extra hl h ih => cases hfresh
  | @comment _ l ls ls' hl h ih =>
      have hskip : ∀ ls, lineEndAhead (l :: ls) = lineEndAhead ls := fun ls => by
        simp [lineEndAhead, isComment, hl]
      rw [hskip, hskip, ih hfresh]
  | @lineEnd _ l ls ls' hl h ih => simp [lineEndAhead, isComment, hl]
  | @other _ l ls ls' hl h ih =>
      have hcomment : l.isComment = false := by
        by_contra hc
        rw [isTrivia_of_isComment l (by simpa using hc)] at hl
        cases hl
      unfold lineEndAhead
      rw [List.dropWhile_cons_of_neg (by simp [hcomment]), List.dropWhile_cons_of_neg (by simp [hcomment])]

end Lexeme

namespace Rules

open Lexeme (Padded)

variable {fresh : Bool} {ls ls' : List Lexeme}

theorem soleArgument_padded (h : Padded fresh ls ls') (depth : Nat) (any : Bool) :
    soleArgument depth any ls' = soleArgument depth any ls := by
  have hskip : ∀ (depth : Nat) (any : Bool) {l : Lexeme} (ls : List Lexeme), l.isTrivia = true →
      soleArgument depth any (l :: ls) = soleArgument depth any ls := by
    intro depth any l ls hl
    cases depth <;> simp [soleArgument, hl]
  induction h generalizing depth any with
  | nil => rfl
  | extra hl h ih => rw [hskip _ _ _ (Lexeme.isTrivia_of_lineEnd hl), ih]
  | comment hl h ih =>
      rw [hskip _ _ _ (Lexeme.isTrivia_of_comment hl), hskip _ _ _ (Lexeme.isTrivia_of_comment hl), ih]
  | lineEnd hl h ih =>
      rw [hskip _ _ _ (Lexeme.isTrivia_of_lineEnd hl), hskip _ _ _ (Lexeme.isTrivia_of_lineEnd hl), ih]
  | other hl h ih => cases depth <;> simp only [soleArgument, ih, h.nextText_eq]

theorem argumentMayBeType_padded (h : Padded fresh ls ls') :
    argumentMayBeType ls' = argumentMayBeType ls := by
  -- both tests pass over trivia, so they stop at the same lexeme
  have htext : ∀ ls : List Lexeme, Lexeme.nextText (ls.dropWhile fun l =>
        l.isTrivia || ["[", "(", "*"].contains l.text)
      = ((ls.dropWhile fun l => l.isTrivia || ["[", "(", "*"].contains l.text).head?.map
        Lexeme.text).getD "" := by
    intro ls
    rw [Lexeme.nextText_eq]
    cases hrest : ls.dropWhile fun l => l.isTrivia || ["[", "(", "*"].contains l.text with
    | nil => rfl
    | cons l rest =>
        have hl : l.isTrivia = false := by
          have hhead := List.head_dropWhile_not
            (fun l : Lexeme => l.isTrivia || ["[", "(", "*"].contains l.text) (l := ls)
            (by rw [hrest]; exact List.cons_ne_nil l rest)
          simp only [hrest, List.head_cons, Bool.or_eq_false_iff] at hhead
          exact hhead.1
        rw [List.dropWhile_cons_of_neg (by simp [hl])]
  unfold argumentMayBeType nameMayBeType
  rw [htext, htext, h.head?_dropWhile fun l hl => by simp [hl]]

end Rules

/-! ## Taking lexemes -/

namespace ReadState

open Lexeme (Padded)

/-- States that have built the same and have the same to read, but for more line ends. -/
structure Alike (fresh : Bool) (s s' : ReadState) : Prop where
  built : s'.built = s.built
  rest : Padded fresh s.rest s'.rest

theorem Alike.mono {fresh more : Bool} {s s' : ReadState} (h : Alike fresh s s') (hle : fresh ≤ more) :
    Alike more s s' :=
  ⟨h.built, h.rest.mono hle⟩

theorem take_padded (w : Wanted) (k : Kind) {fresh : Bool} {ls ls' : List Lexeme}
    (h : Padded fresh ls ls') (built : List Tree) :
    Option.Rel (Alike false) (take w k built ls) (take w k built ls') := by
  induction h generalizing built with
  | nil => exact .none
  | @extra l ls ls' hl h ih =>
      have hskip : take w k built (l :: ls') = take w k built ls' := by simp [take, hl]
      rw [hskip]
      exact ih built
  | @lineEnd _ l ls ls' hl h ih =>
      have hskip : ∀ ls, take w k built (l :: ls) = take w k built ls := fun ls => by simp [take, hl]
      rw [hskip, hskip]
      exact ih built
  | @comment _ l ls ls' hl h ih =>
      have hskip : ∀ ls, take w k built (l :: ls) = take w k (l.toLeaf .comment :: built) ls := fun ls => by
        simp [take, hl]
      rw [hskip, hskip]
      exact ih _
  | @other _ l ls ls' hl h ih =>
      simp only [Lexeme.isTrivia, Bool.or_eq_false_iff] at hl
      rw [take, take, hl.1, hl.2]
      simp only [Bool.false_eq_true, if_false]
      split
      next => exact .some ⟨rfl, h⟩
      next => exact .none

theorem takeEnd_padded {ls ls' : List Lexeme} (h : Padded false ls ls') (built : List Tree) :
    Option.Rel (Alike true) (takeEnd built ls) (takeEnd built ls') := by
  generalize hfresh : false = fresh at h
  induction h generalizing built with
  | nil => exact .none
  | extra hl h ih => cases hfresh
  | @comment _ l ls ls' hl h ih =>
      have hskip : ∀ ls, takeEnd built (l :: ls) = takeEnd (l.toLeaf .comment :: built) ls := fun ls => by
        simp [takeEnd, hl]
      rw [hskip, hskip]
      exact ih _ hfresh
  | @lineEnd _ l ls ls' hl h ih =>
      have hend : ∀ ls, takeEnd built (l :: ls) = some ⟨ls, l.toLeaf .mark :: built⟩ := fun ls => by
        simp [takeEnd, hl]
      rw [hend, hend]
      exact .some ⟨rfl, h⟩
  | @other _ l ls ls' hl h ih =>
      simp only [Lexeme.isTrivia, Bool.or_eq_false_iff] at hl
      rw [takeEnd, takeEnd, hl.1]
      simp only [Bool.false_eq_true, if_false]
      split
      next => exact .some ⟨rfl, h.mono (Bool.false_le _)⟩
      next => exact .none

theorem takeTerminator_padded {ls ls' : List Lexeme} (h : Padded false ls ls') (built : List Tree) :
    Option.Rel (Alike true) (takeTerminator built ls) (takeTerminator built ls') := by
  have hall : ls'.all Lexeme.isComment = ls.all Lexeme.isComment := by
    generalize hfresh : false = fresh at h
    induction h with
    | nil => rfl
    | extra hl h ih => cases hfresh
    | comment hl h ih => rw [List.all_cons, List.all_cons, ih hfresh]
    | lineEnd hl h ih =>
        rw [List.all_cons, List.all_cons, Lexeme.isComment_of_lineEnd hl, Bool.false_and, Bool.false_and]
    | other hl h ih =>
        simp only [Lexeme.isTrivia, Bool.or_eq_false_iff] at hl
        simp [Lexeme.isComment, hl.1]
  unfold takeTerminator
  rw [hall]
  split
  next => exact .some ⟨rfl, h.mono (Bool.false_le _)⟩
  next => exact takeEnd_padded h built

end ReadState

/-! ## Grammars that look for no further line end -/

namespace Grammar

/-- Whether a line may just have ended after reading, if it may so before; nothing if a line end could be looked
    for where one has just been. -/
def after (fresh : Bool) : Grammar → Option Bool
  | token _ _ => some false
  | terminator => if fresh then none else some true
  | sameLine => if fresh then none else some false
  | seq a b => (after fresh a).bind fun mid => after mid b
  | alt a b => (after fresh a).bind fun first => (after fresh b).map (first || ·)
  | many a => (after fresh a).bind fun once =>
      (after (fresh || once) a).bind fun more => if more ≤ (fresh || once) then some (fresh || once) else none
  | rule r => some (r == .statements)
  | within _ a | frame a => after fresh a
  | done | outsideHeader | ahead _ | wrap _ | tag _ => some fresh

/-- Only a list of statements may leave a line just ended, since it may be empty or end with a line end. -/
theorem after_rule (r : Rule) : (Rules.grammar r).after true = some (r == .statements) := by
  cases r with
  | binary level =>
      show (Rules.binary level).after true = some false
      unfold Rules.binary
      split
      next => rfl
      next => rfl
  | _ => rfl

/-- Tests that come out the same with more line ends. -/
def Even : Grammar → Prop
  | ahead test => ∀ ls ls', Lexeme.Padded true ls ls' → test ls' = test ls
  | seq a b | alt a b => a.Even ∧ b.Even
  | many a | within _ a | frame a => a.Even
  | _ => True

end Grammar

theorem Rules.even (r : Rule) : (Rules.grammar r).Even := by
  cases r with
  | binary level =>
      show (Rules.binary level).Even
      unfold Rules.binary
      split
      all_goals
        repeat' apply And.intro
        all_goals trivial
  | _ =>
      repeat' apply And.intro
      all_goals first
        | trivial
        | intro ls ls' h
          simp only [nameMayBeType, plainWordAhead, listEndAhead, h.nextText_eq, soleArgument_padded h,
            argumentMayBeType_padded h]

/-! ## Reading -/

open ReadState (Alike)

/-- **Reading is the same with more line ends where a line has ended.** -/
theorem Grammar.run_padded {fuel : Nat} {m : Reading} {g : Grammar} {s s' : ReadState} {before behind : Bool}
    (hg : g.after before = some behind) (heven : g.Even) (hs : Alike before s s') :
    Option.Rel (Alike behind) (g.run Rules.grammar fuel m s) (g.run Rules.grammar fuel m s') := by
  -- by the fuel, which covers the rules that a grammar calls as well as its parts
  induction fuel generalizing m g s s' before behind with
  | zero => exact .none
  | succ fuel ih =>
      cases g with
      | done | wrap k | tag role =>
          obtain rfl := Option.some.inj hg
          refine .some ⟨?_, hs.rest⟩
          simp only [hs.built]
      | token w k =>
          obtain rfl := Option.some.inj hg
          rw [run, run, hs.built]
          exact ReadState.take_padded w k hs.rest s.built
      | terminator =>
          cases before with
          | true => cases hg
          | false =>
              obtain rfl := Option.some.inj hg
              rw [run, run, hs.built]
              exact ReadState.takeTerminator_padded hs.rest s.built
      | sameLine =>
          cases before with
          | true => cases hg
          | false =>
              obtain rfl := Option.some.inj hg
              rw [run, run, hs.rest.lineEndAhead_eq]
              split
              next => exact .none
              next => exact .some hs
      | outsideHeader =>
          obtain rfl := Option.some.inj hg
          rw [run, run]
          split
          next => exact .none
          next => exact .some hs
      | ahead test =>
          obtain rfl := Option.some.inj hg
          rw [run, run, heven s.rest s'.rest (hs.rest.mono (Bool.le_true _))]
          split
          next => exact .some hs
          next => exact .none
      | seq a b =>
          obtain ⟨mid, ha, hb⟩ := Option.bind_eq_some_iff.mp hg
          have hfirst := ih (m := m) ha heven.1 hs
          rw [run, run]
          generalize a.run Rules.grammar fuel m s = t, a.run Rules.grammar fuel m s' = t' at hfirst ⊢
          cases hfirst with
          | none => exact .none
          | some ht => exact ih hb heven.2 ht
      | alt a b =>
          obtain ⟨first, ha, hmap⟩ := Option.bind_eq_some_iff.mp hg
          obtain ⟨second, hb, rfl⟩ := Option.map_eq_some_iff.mp hmap
          have hfirst := ih (m := m) ha heven.1 hs
          have hsecond := ih (m := m) hb heven.2 hs
          rw [run, run]
          generalize a.run Rules.grammar fuel m s = t, a.run Rules.grammar fuel m s' = t' at hfirst ⊢
          generalize b.run Rules.grammar fuel m s = u, b.run Rules.grammar fuel m s' = u' at hsecond ⊢
          cases hfirst with
          | some ht => exact .some (ht.mono (Bool.left_le_or _ _))
          | none =>
              cases hsecond with
              | some hu => exact .some (hu.mono (Bool.right_le_or _ _))
              | none => exact .none
      | many a =>
          obtain ⟨once, ha, hbind⟩ := Option.bind_eq_some_iff.mp hg
          obtain ⟨more, hmore, hle⟩ := Option.bind_eq_some_iff.mp hbind
          split at hle
          next hle' =>
            obtain rfl := Option.some.inj hle
            -- once more from there, nothing new may follow
            have hagain : (many a).after (before || once) = some (before || once) := by
              have hjoin : ((before || once) || more) = (before || once) := by
                revert hle'
                cases before <;> cases once <;> cases more <;> decide
              simp only [after, hmore, Option.bind_some, hjoin, if_pos hle']
            have hfirst := ih (g := a) (m := m) ha heven hs
            rw [run, run]
            generalize a.run Rules.grammar fuel m s = t, a.run Rules.grammar fuel m s' = t' at hfirst ⊢
            cases hfirst with
            | none => exact .some (hs.mono (Bool.left_le_or _ _))
            | some ht => exact ih hagain heven (ht.mono (Bool.right_le_or _ _))
          next => cases hle
      | rule r =>
          obtain rfl := Option.some.inj hg
          -- a rule is checked once, for where a line has just ended; it may be read anywhere
          exact ih (after_rule r) (Rules.even r) (hs.mono (Bool.le_true _))
      | within region a => exact ih (g := a) hg heven hs
      | frame a =>
          have hempty : Alike before ⟨s.rest, []⟩ ⟨s'.rest, []⟩ := ⟨rfl, hs.rest⟩
          have hinside := ih (g := a) (m := m) hg heven hempty
          rw [run, run]
          generalize a.run Rules.grammar fuel m ⟨s.rest, []⟩ = t,
            a.run Rules.grammar fuel m ⟨s'.rest, []⟩ = t' at hinside ⊢
          cases hinside with
          | none => exact .none
          | some ht => exact .some ⟨by simp only [ht.built, hs.built], ht.rest⟩

namespace SourceFile

/-- **The same items are read with more line ends where a line has ended,** if nothing is passed over. -/
theorem readItems_padded (steps fuel : Nat) {s s' : ReadState} (hs : Alike true s s')
    (h : (readItems steps fuel false s).2 = false) :
    (readItems steps fuel false s').1.built = (readItems steps fuel false s).1.built ∧
      (readItems steps fuel false s').2 = false := by
  induction fuel generalizing s s' with
  | zero => exact ⟨hs.built, rfl⟩
  | succ fuel ih =>
      rw [readItems] at h ⊢
      rw [readItems, hs.rest.all_isTrivia, hs.rest.filter_isComment, hs.built]
      split at h
      next htrivia =>
        rw [if_pos htrivia, if_pos htrivia]
        exact ⟨rfl, rfl⟩
      next htrivia =>
        rw [if_neg htrivia, if_neg htrivia]
        -- an item takes a lexeme last, so what ends it is looked for as before
        have hread : Option.Rel (Alike false) (readItem steps s) (readItem steps s') :=
          Grammar.run_padded rfl trivial hs
        generalize readItem steps s = t, readItem steps s' = t' at hread h ⊢
        cases hread with
        | none => exact absurd h (by simp [readItems_broken])
        | @some t t' ht =>
            have hended := ReadState.takeTerminator_padded ht.rest t.built
            simp only [ht.built] at h ⊢
            generalize ReadState.takeTerminator t.built t.rest = u,
              ReadState.takeTerminator t.built t'.rest = u' at hended h ⊢
            cases hended with
            | none => exact absurd h (by simp [readItems_broken])
            | some hu => exact ih hu h

end SourceFile
end GoExcerpt
