import GoExcerpt.Proofs.Nesting

/-!
# `Proofs.Contents` — what the nodes of a file are made of

A node is made of all trees of its frame, so what it holds depends on what the frame holds when the node is made.
Of each tree only two things matter for that, whether it is named and which part it plays: its `Piece`. What a step
of a reading does to the pieces of a frame depends on nothing else (`pieces_wrap`, `pieces_tag`).

`Grammar.contents` follows a grammar and tells which pieces it leaves in a frame, as far as that can be said in
advance, and fails where a node could be made that lacks what its kind needs (`Kind.admits`). No rule makes it fail
(`Rules.contents_grammar`), and what it tells is true of every reading (`Grammar.holds_of_run`). So in every file
every call has a callee, every selection an operand and a member, and in parentheses stands one expression
(`SourceFile.complete_of_mem_parse`).
-/

namespace GoExcerpt

/-! ## Pieces -/

/-- What a tree is in the frame it stands in. -/
structure Piece where
  named : Bool
  role : Option Role
deriving DecidableEq

def Tree.piece (t : Tree) : Piece := ⟨t.isNamed, t.role⟩

/-- A node or lexeme of some kind, before it plays a part. -/
def Kind.piece (k : Kind) : Piece := ⟨k.isNamed, none⟩

/-- The pieces that trees are, comments left out. -/
def pieces (ts : List Tree) : List Piece := (ts.filter (!·.isComment)).map Tree.piece

@[simp] theorem pieces_nil : pieces [] = [] := rfl

@[simp] theorem pieces_append (ts us : List Tree) : pieces (ts ++ us) = pieces ts ++ pieces us := by
  simp [pieces]

@[simp] theorem pieces_reverse (ts : List Tree) : pieces ts.reverse = (pieces ts).reverse := by
  simp [pieces]

theorem pieces_cons {t : Tree} (h : t.isComment = false) (ts : List Tree) :
    pieces (t :: ts) = t.piece :: pieces ts := by
  simp [pieces, h]

theorem pieces_cons_comment {t : Tree} (h : t.isComment = true) (ts : List Tree) : pieces (t :: ts) = pieces ts := by
  simp [pieces, h]

theorem pieces_eq_nil_iff {ts : List Tree} : pieces ts = [] ↔ ∀ t ∈ ts, t.isComment = true := by
  simp [pieces]

theorem pieces_commentLeaves (comments : List Lexeme) :
    pieces (comments.map (·.toLeaf .comment)).reverse = [] := by
  refine pieces_eq_nil_iff.mpr fun t ht => ?_
  obtain ⟨c, -, rfl⟩ := List.mem_map.mp (List.mem_reverse.mp ht)
  rfl

namespace ReadState

variable {s s' : ReadState}

/-- A lexeme that is taken is one more piece. -/
theorem pieces_take {w : Wanted} {k : Kind} (hk : k ≠ .comment) (htake : take w k s.built s.rest = some s') :
    ∃ new, s'.built = new ++ s.built ∧ pieces new = [k.piece] := by
  obtain ⟨comments, l, -, -, hbuilt⟩ := exists_of_take htake
  have hcode : (l.toLeaf k).isComment = false := by simpa [Tree.isComment, Lexeme.toLeaf, Tree.kind] using hk
  refine ⟨_, hbuilt, ?_⟩
  rw [pieces_cons hcode, pieces_commentLeaves]
  rfl

/-- Wrapping makes one piece of all, if there are any. -/
theorem pieces_wrap {k : Kind} (hk : k ≠ .comment) (built : List Tree) :
    pieces (wrap k built) = if pieces built = [] then [] else [k.piece] := by
  split
  next hnil =>
    have hcomments : built.reverse.dropWhile Tree.isComment = [] :=
      List.dropWhile_eq_nil_iff.mpr fun t ht => pieces_eq_nil_iff.mp hnil t (List.mem_reverse.mp ht)
    rw [wrap, hcomments, hnil]
  next hsome =>
    rcases wrap_cases k built with ⟨hcomments, -⟩ | ⟨leading, t, ts, -, hleading, heq⟩
    · exact absurd (pieces_eq_nil_iff.mpr hcomments) hsome
    · have hnode : (gather k t ts).isComment = false := by simpa [Tree.isComment, gather, Tree.kind] using hk
      rw [heq, pieces_cons hnode, pieces_reverse, pieces_eq_nil_iff.mpr hleading]
      rfl

theorem pieces_tag (role : Role) (built : List Tree) :
    pieces (tag role built) = (pieces built).map fun p => { p with role := some role } := by
  induction built with
  | nil => rfl
  | cons t ts ih =>
      have htag : tag role (t :: ts) = (if t.isComment then t else t.withRole role) :: tag role ts := rfl
      rw [htag]
      split
      next hcomment => rw [pieces_cons_comment hcomment, pieces_cons_comment hcomment, ih]
      next hcode =>
        have hcode : t.isComment = false := by simpa using hcode
        have htagged : (t.withRole role).isComment = false := by cases t <;> exact hcode
        rw [pieces_cons htagged, pieces_cons hcode, List.map_cons, ih]
        cases t <;> rfl

end ReadState

/-! ## What kinds of nodes need -/

/-- Whether a node of the kind may be made of these pieces, given in source order. -/
def Kind.admits (k : Kind) (ps : List Piece) : Bool :=
  match k with
  | .callExpression => ps.any (·.role == some .function)
  | .selectorExpression => ps.any (·.role == some .operand) && ps.any (·.role == some .member)
  | .parenthesizedExpression => (ps.filter (·.named)).length == 1
  | _ => true

/-- What needs nothing may be made of anything. -/
theorem Kind.admits_of_nil {k : Kind} (h : k.admits [] = true) (ps : List Piece) : k.admits ps = true := by
  cases k with
  | callExpression | selectorExpression | parenthesizedExpression => cases h
  | _ => rfl

/-- A tree has what its kind needs. -/
def Tree.Complete (t : Tree) : Prop := t.kind.admits (pieces t.children) = true

theorem Tree.Complete.withRole {t : Tree} (h : t.Complete) (role : Role) : (t.withRole role).Complete := by
  cases t <;> exact h

theorem Lexeme.complete_toLeaf {l : Lexeme} {k : Kind} (h : k.admits [] = true) : (l.toLeaf k).Every Tree.Complete :=
  .leaf h

/-! ## What is known of a frame -/

/-- What is known of the pieces of a frame, latest first. -/
inductive Contents where
  /-- nothing -/
  | unknown
  /-- that there are some -/
  | filled
  /-- which they are -/
  | exactly (ps : List Piece)
deriving DecidableEq

namespace Contents

/-- Whether pieces are as they are known to be. -/
def Of : Contents → List Piece → Prop
  | unknown, _ => True
  | filled, ps => ps ≠ []
  | exactly known, ps => ps = known

/-- Whether there are known to be some. -/
def isFilled : Contents → Bool
  | unknown => false
  | filled => true
  | exactly ps => !ps.isEmpty

/-- Whether all that `c'` says is known. -/
def entails (c c' : Contents) : Bool :=
  match c' with
  | unknown => true
  | filled => c.isFilled
  | exactly _ => c == c'

/-- What remains known where pieces may be added. -/
def widened (c : Contents) : Contents := if c.isFilled then filled else unknown

/-- What is known in both cases. -/
def either (c c' : Contents) : Contents :=
  if c = c' then c else if c.isFilled && c'.isFilled then filled else unknown

/-- What is known once `later` are added. -/
def followedBy : Contents → Contents → Contents
  | exactly ps, exactly later => exactly (later ++ ps)
  | c, later => if c.isFilled || later.isFilled then filled else unknown

/-- What is known once all are wrapped. -/
def wrapped (k : Kind) (c : Contents) : Contents :=
  if c.isFilled then exactly [k.piece] else c

/-- What is known once all play a part. -/
def tagged (role : Role) : Contents → Contents
  | exactly ps => exactly (ps.map fun p => { p with role := some role })
  | c => c

/-- Whether a node of the kind may be made, which is a node over code. -/
def mayMake (c : Contents) (k : Kind) : Bool :=
  k != .comment &&
    match c with
    | exactly ps => k.admits ps.reverse
    | _ => k.admits []

variable {c c' : Contents} {ps later : List Piece}

theorem Of.ne_nil (h : c.Of ps) (hfilled : c.isFilled = true) : ps ≠ [] := by
  cases c with
  | unknown => cases hfilled
  | filled => exact h
  | exactly known =>
      obtain rfl : ps = known := h
      simpa [isFilled] using hfilled

theorem Of.of_entails (h : c.Of ps) (hentails : c.entails c' = true) : c'.Of ps := by
  cases c' with
  | unknown => trivial
  | filled => exact h.ne_nil hentails
  | exactly known =>
      obtain rfl : c = exactly known := beq_iff_eq.mp hentails
      exact h

theorem entails_self (c : Contents) : c.entails c = true := by
  cases c with
  | unknown | filled => rfl
  | exactly ps => exact beq_self_eq_true _

theorem entails_widened (c : Contents) : c.entails c.widened = true := by
  unfold widened
  split
  next h => exact h
  next => rfl

theorem Of.widened (h : c.Of ps) : c.widened.Of (later ++ ps) := by
  unfold Contents.widened
  split
  next hfilled =>
    intro hnil
    exact h.ne_nil hfilled (List.append_eq_nil_iff.mp hnil).2
  next => trivial

theorem Of.left (h : c.Of ps) : (c.either c').Of ps := by
  unfold either
  split
  next => exact h
  next =>
    split
    next hfilled => exact h.ne_nil (Bool.and_eq_true_iff.mp hfilled).1
    next => trivial

theorem Of.right (h : c'.Of ps) : (c.either c').Of ps := by
  unfold either
  split
  next heq => exact heq ▸ h
  next =>
    split
    next hfilled => exact h.ne_nil (Bool.and_eq_true_iff.mp hfilled).2
    next => trivial

theorem Of.followedBy (h : c.Of ps) (hlater : c'.Of later) : (c.followedBy c').Of (later ++ ps) := by
  unfold Contents.followedBy
  split
  next known knownLater =>
    obtain rfl : ps = known := h
    obtain rfl : later = knownLater := hlater
    rfl
  next =>
    split
    next hfilled =>
      intro hnil
      obtain ⟨rfl, rfl⟩ := List.append_eq_nil_iff.mp hnil
      rcases Bool.or_eq_true_iff.mp hfilled with hfilled | hfilled
      · exact h.ne_nil hfilled rfl
      · exact hlater.ne_nil hfilled rfl
    next => trivial

theorem Of.wrapped (h : c.Of ps) (k : Kind) : (c.wrapped k).Of (if ps = [] then [] else [k.piece]) := by
  unfold Contents.wrapped
  split
  next hfilled =>
    rw [if_neg (h.ne_nil hfilled)]
    rfl
  next hfilled =>
    -- nothing is known, or that there is none
    cases c with
    | unknown => trivial
    | filled => exact absurd rfl hfilled
    | exactly known =>
        obtain rfl : ps = known := h
        obtain rfl : ps = [] := by simpa [isFilled] using hfilled
        rfl

theorem Of.tagged (h : c.Of ps) (role : Role) : (c.tagged role).Of (ps.map fun p => { p with role := some role }) := by
  cases c with
  | unknown => trivial
  | filled => simpa [Contents.tagged, Of] using h
  | exactly known => exact congrArg _ h

theorem Of.admits {k : Kind} (h : c.Of ps) (hmay : c.mayMake k = true) : k.admits ps.reverse = true := by
  have hadmits := (Bool.and_eq_true_iff.mp hmay).2
  cases c with
  | unknown | filled => exact Kind.admits_of_nil hadmits _
  | exactly known =>
      obtain rfl : ps = known := h
      exact hadmits

theorem ne_comment_of_mayMake {k : Kind} (h : c.mayMake k = true) : k ≠ .comment :=
  bne_iff_ne.mp (Bool.and_eq_true_iff.mp h).1

end Contents

/-! ## What a reading leaves -/

/-- What a rule adds to a frame: one node or one name, as a rule. -/
def Rule.contents : Rule → Contents
  | .statements => .unknown
  | .signature => .filled
  | _ => .exactly [⟨true, none⟩]

namespace Grammar

/-- What is known of a frame after a reading, if `c` is known before. None if the reading could make a node that
    lacks what its kind needs. A loop is followed with what stays known however often it is gone through. -/
def contents : Grammar → Contents → Option Contents
  | token _ k, c => if (Contents.exactly []).mayMake k then some (c.followedBy (.exactly [k.piece])) else none
  | terminator, c => some c.widened
  | wrap k, c => if c.mayMake k then some (c.wrapped k) else none
  | tag role, c => some (c.tagged role)
  | seq a b, c => (a.contents c).bind fun c' => b.contents c'
  | alt a b, c => (a.contents c).bind fun c' => (b.contents c).map c'.either
  | many a, c => [c, c.widened].find? fun stays => (a.contents stays).any (·.entails stays)
  | rule r, c => some (c.followedBy r.contents)
  | within _ a, c => a.contents c
  | frame a, c => (a.contents (.exactly [])).map c.followedBy
  | done, c | sameLine, c | outsideHeader, c | ahead _, c => some c

end Grammar

/-- **No rule makes a node that lacks what its kind needs.** -/
theorem Rules.contents_grammar (r : Rule) :
    ((Rules.grammar r).contents (.exactly [])).any (·.entails r.contents) = true := by
  cases r with
  | binary level =>
      show ((Rules.binary level).contents _).any _ = true
      unfold Rules.binary
      split
      next => rfl
      next => rfl
  | _ => rfl

namespace ReadState

/-- What is built above the trees `below`, as it is known to be, with complete nodes only. -/
structure Holds (below : List Tree) (c : Contents) (s : ReadState) : Prop where
  above : ∃ new, s.built = new ++ below ∧ c.Of (pieces new)
  complete : ∀ t ∈ s.built, t.Every Tree.Complete

variable {below : List Tree} {c c' : Contents} {s s' : ReadState}

theorem Holds.of_entails (hs : s.Holds below c) (h : c.entails c' = true) : s.Holds below c' := by
  obtain ⟨new, hbuilt, hnew⟩ := hs.above
  exact ⟨⟨new, hbuilt, hnew.of_entails h⟩, hs.complete⟩

/-- What is read apart comes on top. -/
theorem Holds.frame (hs : s.Holds below c) {rest : List Lexeme} {built : List Tree}
    (hinner : Holds s.built c' ⟨rest, built⟩) : Holds below (c.followedBy c') ⟨rest, built⟩ := by
  obtain ⟨new, hbuilt, hnew⟩ := hs.above
  obtain ⟨inner, hbuilt', hinner'⟩ := hinner.above
  refine ⟨⟨inner ++ new, ?_, ?_⟩, hinner.complete⟩
  · exact hbuilt'.trans (by rw [hbuilt, List.append_assoc])
  · rw [pieces_append]
    exact hnew.followedBy hinner'

theorem Holds.take (hs : s.Holds below c) {w : Wanted} {k : Kind} (hmay : (Contents.exactly []).mayMake k = true)
    (htake : take w k s.built s.rest = some s') : s'.Holds below (c.followedBy (.exactly [k.piece])) := by
  obtain ⟨new, hbuilt, hnew⟩ := hs.above
  obtain ⟨taken, htaken, hpieces⟩ := pieces_take (Contents.ne_comment_of_mayMake hmay) htake
  refine ⟨⟨taken ++ new, by rw [htaken, hbuilt, List.append_assoc], ?_⟩, fun t ht => ?_⟩
  · rw [pieces_append]
    exact hnew.followedBy hpieces
  · rcases mem_of_take htake ht with ht | ⟨l, -, kind, rfl | rfl, rfl⟩
    · exact hs.complete t ht
    · exact Lexeme.complete_toLeaf (Contents.Of.admits (c := .exactly []) rfl hmay)
    · exact Lexeme.complete_toLeaf rfl

theorem Holds.terminator (hs : s.Holds below c) (htake : takeTerminator s.built s.rest = some s') :
    s'.Holds below c.widened := by
  obtain ⟨new, hbuilt, hnew⟩ := hs.above
  obtain ⟨comments, ended, -, hended⟩ := exists_of_takeTerminator htake
  refine ⟨⟨_ ++ new, by rw [hended, hbuilt, ← List.append_assoc], ?_⟩, fun t ht => ?_⟩
  · rw [pieces_append]
    exact hnew.widened
  · rcases mem_of_takeTerminator htake ht with ht | ⟨l, -, kind, rfl | rfl, rfl⟩
    · exact hs.complete t ht
    · exact Lexeme.complete_toLeaf rfl
    · exact Lexeme.complete_toLeaf rfl

/-- **A node is made with what its kind needs.** -/
theorem Holds.wrap (hs : s.Holds [] c) {k : Kind} (hmay : c.mayMake k = true) :
    Holds [] (c.wrapped k) ⟨s.rest, wrap k s.built⟩ := by
  obtain ⟨new, hbuilt, hnew⟩ := hs.above
  rw [List.append_nil] at hbuilt
  subst hbuilt
  refine ⟨⟨_, (List.append_nil _).symm, ?_⟩, ?_⟩
  · rw [pieces_wrap (Contents.ne_comment_of_mayMake hmay)]
    exact hnew.wrapped k
  · show ∀ t ∈ ReadState.wrap k s.built, t.Every Tree.Complete
    rcases wrap_cases k s.built with ⟨-, heq⟩ | ⟨leading, first, more, hbuilt, hleading, heq⟩
    · rw [heq]
      exact hs.complete
    · have hmem : ∀ t ∈ leading ++ first :: more, t.Every Tree.Complete := by
        rw [← hbuilt]
        exact fun t ht => hs.complete t (List.mem_reverse.mp ht)
      -- the comments that stay outside are no pieces
      have hinside : pieces (first :: more) = (pieces s.built).reverse := by
        rw [← pieces_reverse, hbuilt, pieces_append, pieces_eq_nil_iff.mpr hleading, List.nil_append]
      have hadmits : k.admits (pieces (first :: more)) = true := hinside ▸ hnew.admits hmay
      rw [heq]
      refine List.forall_mem_cons.mpr ⟨.node hadmits fun t ht => ?_, fun t ht => ?_⟩
      · exact hmem t (List.mem_append_right _ ht)
      · exact hmem t (List.mem_append_left _ (List.mem_reverse.mp ht))

theorem Holds.tag (hs : s.Holds [] c) (role : Role) : Holds [] (c.tagged role) ⟨s.rest, tag role s.built⟩ := by
  obtain ⟨new, hbuilt, hnew⟩ := hs.above
  rw [List.append_nil] at hbuilt
  subst hbuilt
  refine ⟨⟨_, (List.append_nil _).symm, ?_⟩, fun t ht => ?_⟩
  · rw [pieces_tag]
    exact hnew.tagged role
  · rcases mem_tag ht with ⟨ht, -⟩ | ⟨old, hold, -, rfl⟩
    · exact hs.complete t ht
    · exact (hs.complete old hold).withRole ((hs.complete old hold).here.withRole role)

end ReadState

/-- **What a grammar is known to leave, every reading by it leaves.** A grammar that only adds is followed on top of
    what is there. The induction is on the fuel, as rules refer to each other. -/
theorem Grammar.holds_of_run {fuel : Nat} {m : Reading} {g : Grammar} {below : List Tree} {c c' : Contents}
    {s s' : ReadState} (hg : g.contents c = some c') (hbelow : below = [] ∨ g.uses .adding = true)
    (hrun : g.run Rules.grammar fuel m s = some s') (hs : s.Holds below c) : s'.Holds below c' := by
  induction fuel generalizing m g below c c' s s' with
  | zero => cases hrun
  | succ fuel ih =>
      cases g with
      | done =>
          obtain rfl := Option.some.inj hg
          obtain rfl := Option.some.inj hrun
          exact hs
      | token w k =>
          unfold contents at hg
          split at hg
          next hmay =>
            obtain rfl := Option.some.inj hg
            exact hs.take hmay (take_of_run_token hrun)
          next => cases hg
      | terminator =>
          obtain rfl := Option.some.inj hg
          exact hs.terminator hrun
      | sameLine =>
          obtain rfl := Option.some.inj hg
          obtain rfl := eq_of_run_sameLine hrun
          exact hs
      | outsideHeader =>
          obtain rfl := Option.some.inj hg
          rw [run] at hrun
          split at hrun
          next => cases hrun
          next =>
            obtain rfl := Option.some.inj hrun
            exact hs
      | ahead test =>
          obtain rfl := Option.some.inj hg
          rw [run] at hrun
          split at hrun
          next =>
            obtain rfl := Option.some.inj hrun
            exact hs
          next => cases hrun
      | seq a b =>
          obtain ⟨between, ha, hb⟩ := Option.bind_eq_some_iff.mp hg
          have hadding : below = [] ∨ a.uses .adding = true ∧ b.uses .adding = true :=
            hbelow.imp_right Bool.and_eq_true_iff.mp
          rw [run] at hrun
          split at hrun
          next t ht =>
            exact ih hb (hadding.imp_right And.right) hrun (ih ha (hadding.imp_right And.left) ht hs)
          next => cases hrun
      | alt a b =>
          obtain ⟨left, ha, hboth⟩ := Option.bind_eq_some_iff.mp hg
          obtain ⟨right, hb, rfl⟩ := Option.map_eq_some_iff.mp hboth
          have hadding : below = [] ∨ a.uses .adding = true ∧ b.uses .adding = true :=
            hbelow.imp_right Bool.and_eq_true_iff.mp
          rw [run] at hrun
          split at hrun
          next t ht =>
            obtain rfl := Option.some.inj hrun
            obtain ⟨⟨new, hbuilt, hnew⟩, hcomplete⟩ := ih ha (hadding.imp_right And.left) ht hs
            exact ⟨⟨new, hbuilt, hnew.left⟩, hcomplete⟩
          next =>
            obtain ⟨⟨new, hbuilt, hnew⟩, hcomplete⟩ := ih hb (hadding.imp_right And.right) hrun hs
            exact ⟨⟨new, hbuilt, hnew.right⟩, hcomplete⟩
      | many a =>
          have hstays := List.find?_some hg
          have hknown : c.entails c' = true := by
            rcases List.mem_cons.mp (List.mem_of_find?_eq_some hg) with rfl | hwidened
            · exact Contents.entails_self _
            · exact List.mem_singleton.mp hwidened ▸ c.entails_widened
          obtain ⟨next, ha, hentails⟩ := (Option.any_eq_true _ _).mp hstays
          rw [run] at hrun
          split at hrun
          next t ht =>
            -- what stays known once stays known from then on
            have hagain : (many a).contents c' = some c' := List.find?_cons_of_pos hstays
            exact ih hagain hbelow hrun ((ih ha hbelow ht (hs.of_entails hknown)).of_entails hentails)
          next =>
            obtain rfl := Option.some.inj hrun
            exact hs.of_entails hknown
      | rule r =>
          obtain rfl := Option.some.inj hg
          obtain ⟨left, hrule, hleft⟩ := (Option.any_eq_true _ _).mp (Rules.contents_grammar r)
          have hbare : s.Holds s.built (.exactly []) := ⟨⟨[], rfl, rfl⟩, hs.complete⟩
          exact hs.frame ((ih hrule (.inr (Rules.uses_adding r)) hrun hbare).of_entails hleft)
      | within region a => exact ih (g := a) hg hbelow hrun hs
      | frame a =>
          obtain ⟨inner, ha, rfl⟩ := Option.map_eq_some_iff.mp hg
          rw [run] at hrun
          split at hrun
          next t ht =>
            obtain rfl := Option.some.inj hrun
            have hbare : ReadState.Holds [] (.exactly []) ⟨s.rest, []⟩ :=
              ⟨⟨[], rfl, rfl⟩, fun _ h => absurd h List.not_mem_nil⟩
            obtain ⟨⟨new, hbuilt, hnew⟩, hcomplete⟩ := ih ha (.inl rfl) ht hbare
            rw [List.append_nil] at hbuilt
            have hinner : ReadState.Holds s.built inner ⟨t.rest, t.built ++ s.built⟩ := by
              refine ⟨⟨t.built, rfl, hbuilt ▸ hnew⟩, fun tree htree => ?_⟩
              rcases List.mem_append.mp htree with htree | htree
              · exact hcomplete tree htree
              · exact hs.complete tree htree
            exact hs.frame hinner
          next => cases hrun
      | wrap k =>
          unfold contents at hg
          split at hg
          next hmay =>
            obtain rfl := Option.some.inj hg
            obtain rfl := eq_of_run_wrap hrun
            obtain rfl := hbelow.resolve_right Bool.false_ne_true
            exact hs.wrap hmay
          next => cases hg
      | tag role =>
          obtain rfl := Option.some.inj hg
          obtain rfl := eq_of_run_tag hrun
          obtain rfl := hbelow.resolve_right Bool.false_ne_true
          exact hs.tag role

/-! ## Files -/

/-- **The nodes of a file have what their kinds need.** -/
theorem SourceFile.complete_of_mem_parse {text : String} {t : Tree} (h : t ∈ (parse text).root.named) :
    t.Every Tree.Complete := by
  refine forall_mem_parse (fun l k hk => ?_) (fun steps s s' hread hs => ?_) h
  · rcases hk with rfl | rfl
    · exact Lexeme.complete_toLeaf rfl
    · exact Lexeme.complete_toLeaf rfl
  · have hbefore : s.Holds [] .unknown := ⟨⟨s.built, (List.append_nil _).symm, trivial⟩, hs⟩
    exact (Grammar.holds_of_run rfl (.inl rfl) hread hbefore).complete

namespace Tree

variable {t : Tree}

theorem exists_part?_of_pieces {role : Role} (h : (pieces t.children).any (·.role == some role) = true) :
    ∃ part, t.part? role = some part := by
  obtain ⟨p, hp, hrole⟩ := List.any_eq_true.mp h
  obtain ⟨c, hc, rfl⟩ := List.mem_map.mp hp
  exact Option.isSome_iff_exists.mp (List.find?_isSome.mpr ⟨c, (List.mem_filter.mp hc).1, hrole⟩)

/-- A call has a callee. -/
def Called (t : Tree) : Prop := t.kind = .callExpression → ∃ callee, t.part? .function = some callee

theorem Complete.called (h : t.Complete) : t.Called := by
  intro hkind
  unfold Complete at h
  rw [hkind] at h
  exact exists_part?_of_pieces h

end Tree

/-- **Every call of a file has a callee.** -/
theorem SourceFile.called_of_mem_parse {text : String} {t : Tree} (h : t ∈ (parse text).root.named) :
    t.Every Tree.Called :=
  (complete_of_mem_parse h).imp fun _ => Tree.Complete.called

end GoExcerpt
