import GoExcerpt.Proofs.Nesting

/-!
# `Proofs.Uncommented` — reading a text with some comments left out

Comments take no part in reading: leave some of them out of the lexemes, and the same trees are built without
them (`Grammar.run_without`). So does a whole file, if nothing of it is passed over
(`SourceFile.readItems_without`). Extents stay as they are, since no node begins or ends with a comment: what
a frame has built last is never one (`ReadState.Settled`).

Which comments are left out is told by their extents, through a test `gone`.
-/

namespace GoExcerpt

variable (gone : Extent → Bool)

/-! ## Trees and lexemes without some comments -/

/-- Whether a lexeme is a comment to leave out. -/
def Lexeme.isGone (l : Lexeme) : Bool := l.isComment && gone l.extent

/-- The lexemes that stay. -/
def Lexeme.staying (ls : List Lexeme) : List Lexeme := ls.filter fun l => !l.isGone gone

namespace Tree

/-- Whether a tree is a comment to leave out. -/
def isGone (t : Tree) : Bool := t.isComment && gone t.extent

mutual
/-- The tree with those comments left out below it. -/
def without : Tree → Tree
  | leaf k r e s => leaf k r e s
  | node k r e cs => node k r e (withoutAll cs)

/-- The trees with those comments left out, also among them. -/
def withoutAll : List Tree → List Tree
  | [] => []
  | t :: ts => if t.isGone gone then withoutAll ts else t.without :: withoutAll ts
end

variable {gone}

@[simp] theorem kind_without (t : Tree) : (t.without gone).kind = t.kind := by
  cases t <;> simp [without, kind]

@[simp] theorem role_without (t : Tree) : (t.without gone).role = t.role := by
  cases t <;> simp [without, role]

@[simp] theorem extent_without (t : Tree) : (t.without gone).extent = t.extent := by
  cases t <;> simp [without, extent]

@[simp] theorem first_without (t : Tree) : (t.without gone).first = t.first := by simp [first]

@[simp] theorem last_without (t : Tree) : (t.without gone).last = t.last := by simp [last]

@[simp] theorem isComment_without (t : Tree) : (t.without gone).isComment = t.isComment := by
  simp [isComment]

@[simp] theorem isNamed_without (t : Tree) : (t.without gone).isNamed = t.isNamed := by simp [isNamed]

@[simp] theorem children_without (t : Tree) : (t.without gone).children = withoutAll gone t.children := by
  cases t <;> simp [without, children, withoutAll]

theorem without_withRole (t : Tree) (role : Role) :
    (t.withRole role).without gone = (t.without gone).withRole role := by
  cases t <;> simp [withRole, without]

@[simp] theorem withoutAll_nil : withoutAll gone [] = [] := by simp [withoutAll]

theorem withoutAll_cons (t : Tree) (ts : List Tree) :
    withoutAll gone (t :: ts) = if t.isGone gone then withoutAll gone ts
      else t.without gone :: withoutAll gone ts := by
  rw [withoutAll]

theorem withoutAll_eq (ts : List Tree) :
    withoutAll gone ts = (ts.filter fun t => !t.isGone gone).map (without gone) := by
  induction ts with
  | nil => simp
  | cons t ts ih =>
      rw [withoutAll_cons, ih]
      cases h : t.isGone gone <;> simp [h]

@[simp] theorem withoutAll_append (ts us : List Tree) :
    withoutAll gone (ts ++ us) = withoutAll gone ts ++ withoutAll gone us := by
  simp [withoutAll_eq]

@[simp] theorem withoutAll_reverse (ts : List Tree) :
    withoutAll gone ts.reverse = (withoutAll gone ts).reverse := by
  simp [withoutAll_eq, List.filter_reverse]

theorem withoutAll_cons_of_not_comment {t : Tree} (h : t.isComment = false) (ts : List Tree) :
    withoutAll gone (t :: ts) = t.without gone :: withoutAll gone ts := by
  rw [withoutAll_cons, if_neg (by simp [isGone, h])]

end Tree

/-- Without those comments, in what is built and in what is to be read. -/
def ReadState.without (s : ReadState) : ReadState :=
  ⟨Lexeme.staying gone s.rest, Tree.withoutAll gone s.built⟩

variable {gone}

/-! ## Lexemes ahead -/

namespace Lexeme

theorem staying_cons_of_not_comment {l : Lexeme} (h : l.isComment = false) (ls : List Lexeme) :
    staying gone (l :: ls) = l :: staying gone ls := by
  simp [staying, isGone, h]

/-- Passing over lexemes, comments among them, is the same without some comments. -/
theorem dropWhile_staying {p : Lexeme → Bool} (hp : ∀ l, l.isComment = true → p l = true)
    (ls : List Lexeme) : (staying gone ls).dropWhile p = staying gone (ls.dropWhile p) := by
  induction ls with
  | nil => rfl
  | cons l ls ih =>
      by_cases hl : p l = true
      · rw [List.dropWhile_cons_of_pos hl, ← ih]
        unfold staying
        by_cases hgone : l.isGone gone = true
        · rw [List.filter_cons_of_neg (by simp [hgone])]
        · rw [List.filter_cons_of_pos (by simp [hgone]), List.dropWhile_cons_of_pos hl]
      · have hcomment : l.isComment = false := by
          by_contra h
          exact hl (hp l (by simpa using h))
        rw [List.dropWhile_cons_of_neg hl, staying_cons_of_not_comment hcomment,
          List.dropWhile_cons_of_neg hl]

theorem isTrivia_of_isComment (l : Lexeme) (h : l.isComment = true) : l.isTrivia = true := by
  simp only [isComment] at h
  simp [isTrivia, h]

theorem nextText_staying (ls : List Lexeme) : nextText (staying gone ls) = nextText ls := by
  unfold nextText
  rw [dropWhile_staying isTrivia_of_isComment]
  cases hrest : ls.dropWhile isTrivia with
  | nil => rfl
  | cons l rest =>
      have hl : l.isTrivia = false := by
        have hhead := List.head_dropWhile_not isTrivia (l := ls) (by simp [hrest])
        simpa [hrest] using hhead
      have hcomment : l.isComment = false := by
        by_contra h
        simp [isTrivia_of_isComment l (by simpa using h)] at hl
      rw [staying_cons_of_not_comment hcomment]

theorem lineEndAhead_staying (ls : List Lexeme) : lineEndAhead (staying gone ls) = lineEndAhead ls := by
  unfold lineEndAhead
  rw [dropWhile_staying fun _ h => h]
  cases hrest : ls.dropWhile isComment with
  | nil => rfl
  | cons l rest =>
      have hl : l.isComment = false := by
        have hhead := List.head_dropWhile_not isComment (l := ls) (by simp [hrest])
        simpa [hrest] using hhead
      rw [staying_cons_of_not_comment hl]

theorem all_staying {p : Lexeme → Bool} (hp : ∀ l, l.isComment = true → p l = true) (ls : List Lexeme) :
    (staying gone ls).all p = ls.all p := by
  induction ls with
  | nil => rfl
  | cons l ls ih =>
      unfold staying at ih ⊢
      by_cases hgone : l.isGone gone = true
      · have hl : p l = true := hp l (Bool.and_eq_true_iff.mp hgone).1
        rw [List.filter_cons_of_neg (by simp [hgone]), List.all_cons, hl, Bool.true_and, ih]
      · rw [List.filter_cons_of_pos (by simp [hgone]), List.all_cons, List.all_cons, ih]

end Lexeme

namespace Rules

theorem soleArgument_staying (depth : Nat) (any : Bool) (ls : List Lexeme) :
    soleArgument depth any (Lexeme.staying gone ls) = soleArgument depth any ls := by
  induction ls generalizing depth any with
  | nil => rfl
  | cons l ls ih =>
      by_cases htrivia : l.isTrivia = true
      · have hskip : ∀ ls, soleArgument depth any (l :: ls) = soleArgument depth any ls := fun ls => by
          cases depth <;> simp [soleArgument, htrivia]
        rw [hskip, ← ih]
        unfold Lexeme.staying
        by_cases hgone : l.isGone gone = true
        · rw [List.filter_cons_of_neg (by simp [hgone])]
        · rw [List.filter_cons_of_pos (by simp [hgone]), hskip]
      · have hcomment : l.isComment = false := by
          by_contra h
          exact htrivia (Lexeme.isTrivia_of_isComment l (by simpa using h))
        rw [Lexeme.staying_cons_of_not_comment hcomment]
        cases depth <;> simp only [soleArgument, ih, Lexeme.nextText_staying]

theorem argumentMayBeType_staying (ls : List Lexeme) :
    argumentMayBeType (Lexeme.staying gone ls) = argumentMayBeType ls := by
  unfold argumentMayBeType nameMayBeType
  rw [Lexeme.dropWhile_staying fun l h => by simp [Lexeme.isTrivia_of_isComment l h],
    Lexeme.nextText_staying]

end Rules

/-! ## Taking lexemes -/

namespace ReadState

/-- What makes a leaf of each comment does so of those that stay. -/
theorem comment_without {read : List Tree → List Lexeme → Option ReadState} {l : Lexeme}
    {ls : List Lexeme} (hl : l.isComment = true)
    (hskip : ∀ built ls, read built (l :: ls) = read (l.toLeaf .comment :: built) ls)
    (ih : ∀ built, read (Tree.withoutAll gone built) (Lexeme.staying gone ls)
      = (read built ls).map (without gone)) (built : List Tree) :
    read (Tree.withoutAll gone built) (Lexeme.staying gone (l :: ls))
      = (read built (l :: ls)).map (without gone) := by
  have hgone : (l.toLeaf .comment).isGone gone = l.isGone gone := by
    rw [Lexeme.isGone, hl]
    rfl
  rw [hskip, ← ih, Tree.withoutAll_cons]
  unfold Lexeme.staying
  by_cases hstays : l.isGone gone = true
  · rw [List.filter_cons_of_neg (by simp [hstays]), if_pos (hgone.trans hstays)]
  · rw [List.filter_cons_of_pos (by simp [hstays]), if_neg (by simpa [hgone] using hstays), hskip,
      Lexeme.toLeaf, Tree.without]

/-- Any other lexeme stays. -/
theorem without_leaf {k : Kind} (hk : k ≠ .comment) (l : Lexeme) (ls : List Lexeme) (built : List Tree) :
    without gone ⟨ls, l.toLeaf k :: built⟩
      = ⟨Lexeme.staying gone ls, l.toLeaf k :: Tree.withoutAll gone built⟩ := by
  have hleaf : (l.toLeaf k).isComment = false := by
    simpa [Lexeme.toLeaf, Tree.isComment, Tree.kind] using hk
  rw [without, Tree.withoutAll_cons_of_not_comment hleaf, Lexeme.toLeaf, Tree.without]

theorem take_without (w : Wanted) {k : Kind} (hk : k ≠ .comment) (built : List Tree) (rest : List Lexeme) :
    take w k (Tree.withoutAll gone built) (Lexeme.staying gone rest)
      = (take w k built rest).map (without gone) := by
  induction rest generalizing built with
  | nil => rfl
  | cons l ls ih =>
      by_cases hl : l.isComment = true
      · refine comment_without hl (fun built ls => ?_) ih built
        simp [take, beq_iff_eq.mp hl]
      · have hcls : ¬ (l.cls == .comment) = true := hl
        rw [Lexeme.staying_cons_of_not_comment (by simpa using hl), take, take, if_neg hcls, if_neg hcls]
        split
        next => exact ih built
        next =>
          split
          next => exact congrArg some (without_leaf hk l ls built).symm
          next => rfl

theorem takeEnd_without (built : List Tree) (rest : List Lexeme) :
    takeEnd (Tree.withoutAll gone built) (Lexeme.staying gone rest)
      = (takeEnd built rest).map (without gone) := by
  induction rest generalizing built with
  | nil => rfl
  | cons l ls ih =>
      by_cases hl : l.isComment = true
      · refine comment_without hl (fun built ls => ?_) ih built
        simp [takeEnd, beq_iff_eq.mp hl]
      · have hcls : ¬ (l.cls == .comment) = true := hl
        rw [Lexeme.staying_cons_of_not_comment (by simpa using hl), takeEnd, takeEnd, if_neg hcls,
          if_neg hcls]
        split
        next => exact congrArg some (without_leaf (by decide) l ls built).symm
        next => rfl

theorem takeTerminator_without (built : List Tree) (rest : List Lexeme) :
    takeTerminator (Tree.withoutAll gone built) (Lexeme.staying gone rest)
      = (takeTerminator built rest).map (without gone) := by
  unfold takeTerminator
  rw [Lexeme.all_staying fun _ h => h, takeEnd_without]
  split
  next => rfl
  next => rfl

/-! ## Wrapping -/

/-- What was built last is no comment. -/
def Settled (s : ReadState) : Prop := ∀ t ∈ s.built.head?, t.isComment = false

theorem settled_nil (rest : List Lexeme) : Settled ⟨rest, []⟩ := by
  simp [Settled]

/-- Leading comments stay leading, as far as they stay. -/
theorem span_without (ts : List Tree) :
    (Tree.withoutAll gone ts).takeWhile Tree.isComment
        = Tree.withoutAll gone (ts.takeWhile Tree.isComment) ∧
      (Tree.withoutAll gone ts).dropWhile Tree.isComment
        = Tree.withoutAll gone (ts.dropWhile Tree.isComment) := by
  induction ts with
  | nil => simp
  | cons t ts ih =>
      by_cases ht : t.isComment = true
      · rw [List.takeWhile_cons_of_pos ht, List.dropWhile_cons_of_pos ht, Tree.withoutAll_cons,
          Tree.withoutAll_cons]
        split
        next => exact ih
        next =>
          have ht' : (t.without gone).isComment = true := by rw [Tree.isComment_without, ht]
          rw [List.takeWhile_cons_of_pos ht', List.dropWhile_cons_of_pos ht', ih.1, ih.2]
          exact ⟨rfl, rfl⟩
      · have ht' : ¬ (t.without gone).isComment = true := by rwa [Tree.isComment_without]
        rw [Tree.withoutAll_cons_of_not_comment (by simpa using ht), List.takeWhile_cons_of_neg ht,
          List.dropWhile_cons_of_neg ht, List.takeWhile_cons_of_neg ht', List.dropWhile_cons_of_neg ht',
          Tree.withoutAll_cons_of_not_comment (by simpa using ht)]
        exact ⟨Tree.withoutAll_nil.symm, rfl⟩

/-- A node that neither begins nor ends with a comment keeps its extent. -/
theorem gather_without (k : Kind) {t : Tree} {ts : List Tree} (ht : t.isComment = false)
    (hlast : ((t :: ts).getLast (List.cons_ne_nil t ts)).isComment = false) :
    gather k (t.without gone) (Tree.withoutAll gone ts) = (gather k t ts).without gone := by
  have hall : Tree.withoutAll gone (t :: ts) = t.without gone :: Tree.withoutAll gone ts :=
    Tree.withoutAll_cons_of_not_comment ht ts
  have hend : ((t.without gone :: Tree.withoutAll gone ts).getLast (List.cons_ne_nil _ _))
      = ((t :: ts).getLast (List.cons_ne_nil t ts)).without gone := by
    have hsplit : Tree.withoutAll gone (t :: ts)
        = Tree.withoutAll gone (t :: ts).dropLast
          ++ [((t :: ts).getLast (List.cons_ne_nil t ts)).without gone] := by
      conv => lhs; rw [← List.dropLast_concat_getLast (List.cons_ne_nil t ts), Tree.withoutAll_append]
      rw [Tree.withoutAll_cons_of_not_comment hlast, Tree.withoutAll_nil]
    simp only [← hall, hsplit, List.getLast_concat]
  unfold gather
  rw [Tree.without, hall, hend, Tree.extent_without, Tree.extent_without]

theorem wrap_without {k : Kind} (hk : k ≠ .comment) {s : ReadState} (hs : s.Settled) :
    wrap k (Tree.withoutAll gone s.built) = Tree.withoutAll gone (wrap k s.built) := by
  have hspan := @span_without gone s.built.reverse
  rw [Tree.withoutAll_reverse] at hspan
  unfold wrap
  simp only [hspan.1, hspan.2]
  cases hrest : s.built.reverse.dropWhile Tree.isComment with
  | nil => simp
  | cons t ts =>
      have ht : t.isComment = false := by
        have hhead := List.head_dropWhile_not Tree.isComment (l := s.built.reverse) (by simp [hrest])
        simpa [hrest] using hhead
      -- the last tree of the node is what was built last
      have hlast : ((t :: ts).getLast (List.cons_ne_nil t ts)).isComment = false := by
        refine hs _ ?_
        rw [← List.getLast?_reverse, ← List.takeWhile_append_dropWhile (p := Tree.isComment)
          (l := s.built.reverse), hrest, List.getLast?_append, List.getLast?_eq_some_getLast]
        rfl
      have hnode : (gather k t ts).isComment = false := by
        simpa [gather, Tree.isComment, Tree.kind] using hk
      rw [Tree.withoutAll_cons_of_not_comment ht]
      simp only [gather_without k ht hlast, Tree.withoutAll_cons_of_not_comment hnode,
        Tree.withoutAll_reverse]

theorem tag_without (role : Role) (built : List Tree) :
    tag role (Tree.withoutAll gone built) = Tree.withoutAll gone (tag role built) := by
  have hgone : ∀ t : Tree, (if t.isComment then t else t.withRole role).isGone gone = t.isGone gone := by
    intro t
    split
    next => rfl
    next => cases t <;> rfl
  unfold tag
  induction built with
  | nil => simp
  | cons t ts ih =>
      rw [List.map_cons, Tree.withoutAll_cons, Tree.withoutAll_cons, hgone t, ← ih]
      split
      next => rfl
      next =>
        rw [List.map_cons, Tree.isComment_without]
        congr 1
        split
        next => rfl
        next => exact (Tree.without_withRole t role).symm

end ReadState

/-! ## Grammars that do not look at comments -/

/-- Steps that make no comments. -/
def Allowed.settled : Allowed where
  token _ k := k != .comment
  wrap k := k != .comment

theorem settled_kept : Kept .settled fun s s' => s.Settled → s'.Settled where
  refl := fun _ h => h
  trans := fun _ _ _ hst htu h => htu (hst h)
  token := by
    intro w k s s' hallowed htake _ t ht
    obtain ⟨comments, l, -, -, hbuilt⟩ := ReadState.exists_of_take htake
    rw [hbuilt] at ht
    obtain rfl := Option.some.inj ht
    simpa [Lexeme.toLeaf, Tree.isComment, Tree.kind, Allowed.settled] using hallowed
  terminator := by
    intro s s' htake hs
    unfold ReadState.takeTerminator at htake
    split at htake
    next =>
      obtain rfl := Option.some.inj htake
      exact hs
    next =>
      obtain ⟨comments, l, -, -, -, hbuilt⟩ := ReadState.exists_of_takeEnd htake
      intro t ht
      rw [hbuilt] at ht
      obtain rfl := Option.some.inj ht
      rfl
  wrap := by
    intro k s hallowed hs
    rcases ReadState.wrap_cases k s.built with ⟨-, heq⟩ | ⟨leading, first, more, -, -, heq⟩
    · intro t ht
      rw [heq] at ht
      exact hs t ht
    · intro t ht
      rw [heq] at ht
      obtain rfl := Option.some.inj ht
      simpa [ReadState.gather, Tree.isComment, Tree.kind, Allowed.settled] using hallowed
  tag := by
    intro role s _ hs t ht
    simp only [ReadState.tag, List.head?_map, Option.mem_def, Option.map_eq_some_iff] at ht
    obtain ⟨old, hold, rfl⟩ := ht
    have hold := hs old hold
    rw [if_neg (by simp [hold])]
    cases old <;> exact hold
  frame := by
    intro s s' hframe hs t ht
    cases hbuilt : s'.built with
    | nil => exact hs t (by simpa [hbuilt] using ht)
    | cons u us => exact hframe rfl (ReadState.settled_nil _) t (by simpa [hbuilt] using ht)

/-- Tests that come out the same without some comments. -/
def Grammar.Blind (gone : Extent → Bool) : Grammar → Prop
  | ahead test => ∀ ls, test (Lexeme.staying gone ls) = test ls
  | seq a b | alt a b => a.Blind gone ∧ b.Blind gone
  | many a | within _ a | frame a => a.Blind gone
  | _ => True

theorem Rules.blind (r : Rule) : (Rules.grammar r).Blind gone := by
  cases r with
  | binary level =>
      show (Rules.binary level).Blind gone
      unfold Rules.binary
      split
      all_goals
        repeat' apply And.intro
        all_goals trivial
  | _ =>
      repeat' apply And.intro
      all_goals first
        | trivial
        | intro ls
          simp only [nameMayBeType, plainWordAhead, listEndAhead, Lexeme.nextText_staying,
            soleArgument_staying, argumentMayBeType_staying]

theorem Rules.uses_settled (r : Rule) : (Rules.grammar r).uses .settled = true := by
  cases r with
  | binary level =>
      show (Rules.binary level).uses .settled = true
      unfold Rules.binary
      split
      next => rfl
      next => rfl
  | _ => rfl

/-! ## Reading -/

/-- **Reading is the same without some comments:** it fails where it failed, and builds the same trees
    without them. -/
theorem Grammar.run_without {fuel : Nat} {m : Reading} {g : Grammar} {s : ReadState}
    (hblind : g.Blind gone) (hg : g.uses .settled = true) (hs : s.Settled) :
    g.run Rules.grammar fuel m (s.without gone)
      = (g.run Rules.grammar fuel m s).map (ReadState.without gone) := by
  have hsettled : ∀ {n : Nat} {m : Reading} {g : Grammar} {s t : ReadState}, g.uses .settled = true →
      g.run Rules.grammar n m s = some t → s.Settled → t.Settled := fun hg h =>
    settled_kept.run (fun r _ => Rules.uses_settled r) hg h (fun _ => rfl)
  -- by the fuel: frames begin settled, and what they read keeps them so
  induction fuel generalizing m g s with
  | zero => rfl
  | succ fuel ih =>
      cases g with
      | done => rfl
      | token w k => exact ReadState.take_without w (by simpa [uses, Allowed.settled] using hg) _ _
      | terminator => exact ReadState.takeTerminator_without _ _
      | sameLine =>
          have hahead : Lexeme.lineEndAhead (s.without gone).rest = Lexeme.lineEndAhead s.rest :=
            Lexeme.lineEndAhead_staying s.rest
          rw [run, run, hahead]
          split
          next => rfl
          next => rfl
      | outsideHeader =>
          rw [run, run]
          split
          next => rfl
          next => rfl
      | ahead test =>
          have htest : test (s.without gone).rest = test s.rest := hblind s.rest
          rw [run, run, htest]
          split
          next => rfl
          next => rfl
      | seq a b =>
          obtain ⟨ha, hb⟩ := Bool.and_eq_true_iff.mp hg
          rw [run, run, ih hblind.1 ha hs]
          cases hrun : a.run Rules.grammar fuel m s with
          | none => rfl
          | some t => exact ih hblind.2 hb (hsettled ha hrun hs)
      | alt a b =>
          obtain ⟨ha, hb⟩ := Bool.and_eq_true_iff.mp hg
          rw [run, run, ih hblind.1 ha hs]
          cases hrun : a.run Rules.grammar fuel m s with
          | none => exact ih hblind.2 hb hs
          | some t => rfl
      | many a =>
          have ha : a.uses .settled = true := hg
          have hblindPart : a.Blind gone := hblind
          rw [run, run, ih hblindPart ha hs]
          cases hrun : a.run Rules.grammar fuel m s with
          | none => rfl
          | some t => exact ih hblind hg (hsettled ha hrun hs)
      | rule r => exact ih (Rules.blind r) (Rules.uses_settled r) hs
      | within region a => exact ih (g := a) hblind hg hs
      | frame a =>
          have ha : a.uses .settled = true := by simpa [uses, Allowed.settled] using hg
          have hblindPart : a.Blind gone := hblind
          have hinside := ih (m := m) hblindPart ha (ReadState.settled_nil s.rest)
          rw [ReadState.without, Tree.withoutAll_nil] at hinside
          rw [run, run, ReadState.without, hinside]
          cases hrun : a.run Rules.grammar fuel m ⟨s.rest, []⟩ with
          | none => rfl
          | some t => simp [ReadState.without]
      | wrap k =>
          have hk : k ≠ .comment := by simpa [uses, Allowed.settled] using hg
          simp [run, ReadState.without, ReadState.wrap_without hk hs]
      | tag role => simp [run, ReadState.without, ReadState.tag_without]

namespace SourceFile

theorem readItem_without (steps : Nat) {s : ReadState} (hs : s.Settled) :
    readItem steps (s.without gone) = (readItem steps s).map (ReadState.without gone) :=
  Grammar.run_without trivial rfl hs

theorem settled_readItem {steps : Nat} {s s' : ReadState} (h : readItem steps s = some s')
    (hs : s.Settled) : s'.Settled :=
  settled_kept.run (fun r _ => Rules.uses_settled r) rfl h (fun _ => rfl) hs

/-- The comments at the end of a file, as far as they stay. -/
theorem comments_staying (ls : List Lexeme) :
    Tree.withoutAll gone ((ls.filter Lexeme.isComment).map (·.toLeaf .comment))
      = ((Lexeme.staying gone ls).filter Lexeme.isComment).map (·.toLeaf .comment) := by
  have hgone : ∀ l ∈ ls.filter Lexeme.isComment, (l.toLeaf .comment).isGone gone = l.isGone gone := by
    intro l hl
    rw [Lexeme.isGone, (List.mem_filter.mp hl).2]
    rfl
  have hswap : (Lexeme.staying gone ls).filter Lexeme.isComment
      = (ls.filter Lexeme.isComment).filter fun l => !l.isGone gone := by
    rw [Lexeme.staying, List.filter_filter, List.filter_filter]
    exact List.filter_congr fun l _ => Bool.and_comm ..
  have hsame : (ls.filter Lexeme.isComment).filter ((fun t => !Tree.isGone gone t) ∘ (·.toLeaf .comment))
      = (ls.filter Lexeme.isComment).filter fun l => !l.isGone gone :=
    List.filter_congr fun l hl => congrArg (!·) (hgone l hl)
  rw [Tree.withoutAll_eq, List.filter_map, List.map_map, hswap, hsame]
  exact List.map_congr_left fun l _ => by simp [Lexeme.toLeaf, Tree.without]

/-- A file that is broken once stays so. -/
theorem readItems_broken (steps fuel : Nat) (s : ReadState) : (readItems steps fuel true s).2 = true := by
  induction fuel generalizing s with
  | zero => rfl
  | succ fuel ih =>
      rw [readItems]
      split
      next => rfl
      next =>
        split
        next =>
          split
          next => exact ih _
          next => exact ih _
        next => exact ih _

/-- **A file of which nothing is passed over is read alike without some comments.** -/
theorem readItems_without (steps fuel : Nat) {s : ReadState} (hs : s.Settled)
    (h : (readItems steps fuel false s).2 = false) :
    readItems steps fuel false (s.without gone) = ((readItems steps fuel false s).1.without gone, false) := by
  induction fuel generalizing s with
  | zero => rfl
  | succ fuel ih =>
      have hall : (s.without gone).rest.all Lexeme.isTrivia = s.rest.all Lexeme.isTrivia :=
        Lexeme.all_staying Lexeme.isTrivia_of_isComment s.rest
      rw [readItems] at h ⊢
      rw [readItems, hall, readItem_without steps hs]
      split at h
      next htrivia =>
        rw [if_pos htrivia, if_pos htrivia]
        simp only [ReadState.without, Tree.withoutAll_append, Tree.withoutAll_reverse, comments_staying]
        rfl
      next htrivia =>
        rw [if_neg htrivia, if_neg htrivia]
        cases hread : readItem steps s with
        | none =>
            rw [hread] at h
            exact absurd h (by simp [readItems_broken])
        | some s' =>
            rw [hread] at h
            have hend : ReadState.takeTerminator (s'.without gone).built (s'.without gone).rest
                = (ReadState.takeTerminator s'.built s'.rest).map (ReadState.without gone) :=
              ReadState.takeTerminator_without _ _
            simp only [Option.map_some, hend]
            cases hended : ReadState.takeTerminator s'.built s'.rest with
            | none =>
                simp only [hended] at h
                exact absurd h (by simp [readItems_broken])
            | some ended =>
                simp only [hended, Option.map_some] at h ⊢
                exact ih (settled_kept.terminator s' ended hended (settled_readItem hread hs)) h

end SourceFile
end GoExcerpt
