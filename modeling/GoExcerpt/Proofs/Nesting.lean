import GoExcerpt.Proofs.Items

/-!
# `Proofs.Nesting` — how the trees of a file are nested

The children of a node follow one another inside it (`Tree.Spans`). What is declared inside a type or an
expression is declared inside a node that closes its scope (`Tree.Closed`), so nothing of a signature is
visible in the body after it. The body of a function is a block, and that of a function literal comes last
(`Tree.Bodied`). All this holds of every tree of every file (`SourceFile.spans_of_mem_parse`,
`SourceFile.bodied_of_mem_parse`).
-/

namespace GoExcerpt

open Extent (Bytes)

/-! ## Children inside their parents -/

namespace Tree

/-- The children of a tree follow one another inside it. -/
def Spans (t : Tree) : Prop := Bytes t.last t.first (t.children.map extent)

theorem Spans.le {t : Tree} (h : t.Spans) : t.first ≤ t.last := Extent.InOrder.le h

theorem Spans.child {t c : Tree} (h : t.Spans) (hc : c ∈ t.children) :
    t.first ≤ c.first ∧ c.first ≤ c.last ∧ c.last ≤ t.last :=
  Extent.InOrder.bounds h (List.mem_map_of_mem hc)

end Tree

/-- Lexemes and trees in order, each tree over what lies inside it. -/
structure ReadState.Spanned (hi lo : Nat) (s : ReadState) : Prop where
  order : Bytes hi lo s.extents
  built : ∀ t ∈ s.built, t.Every Tree.Spans

theorem ReadState.Spanned.leaf {hi lo : Nat} {s : ReadState} (hs : s.Spanned hi lo) {l : Lexeme}
    (hl : l ∈ s.rest) (k : Kind) : (l.toLeaf k).Every Tree.Spans := by
  obtain ⟨-, hle, -⟩ := hs.order.bounds (List.mem_append_right _ (List.mem_map_of_mem hl))
  exact .leaf hle

theorem ReadState.spans_gather {hi lo : Nat} (k : Kind) {t : Tree} {ts : List Tree}
    (h : Bytes hi lo ((t :: ts).map Tree.extent)) : (gather k t ts).Spans := by
  have htight := Extent.InOrder.tight h
  simp only [← List.map_cons] at htight
  rw [List.getLast_map] at htight
  exact htight

theorem spanned_kept : Kept {} fun s s' => ∀ lo hi, s.Spanned hi lo → s'.Spanned hi lo where
  refl := fun _ _ _ h => h
  trans := fun _ _ _ hst htu lo hi h => htu lo hi (hst lo hi h)
  token := by
    intro w k s s' hallowed htake lo hi hs
    refine ⟨(inOrder_kept _).token w k s s' hallowed htake lo hi hs.order, fun t ht => ?_⟩
    rcases ReadState.mem_of_take htake ht with ht | ⟨l, hl, k, -, rfl⟩
    · exact hs.built t ht
    · exact hs.leaf hl k
  terminator := by
    intro s s' htake lo hi hs
    refine ⟨(inOrder_kept _).terminator s s' htake lo hi hs.order, fun t ht => ?_⟩
    rcases ReadState.mem_of_takeTerminator htake ht with ht | ⟨l, hl, k, -, rfl⟩
    · exact hs.built t ht
    · exact hs.leaf hl k
  wrap := by
    intro k s hallowed lo hi hs
    refine ⟨(inOrder_kept _).wrap k s hallowed lo hi hs.order, ?_⟩
    rcases ReadState.wrap_cases k s.built with ⟨-, heq⟩ | ⟨leading, t, ts, hbuilt, -, heq⟩
    · simp only [heq]
      exact hs.built
    · have hmem : ∀ c ∈ leading ++ t :: ts, c.Every Tree.Spans := by
        rw [← hbuilt]
        exact fun c hc => hs.built c (List.mem_reverse.mp hc)
      have horder := hs.order
      unfold ReadState.extents at horder
      rw [hbuilt, List.map_append] at horder
      obtain ⟨high, horder, -⟩ := Extent.inOrder_append.mp horder
      obtain ⟨low, -, horder⟩ := Extent.inOrder_append.mp horder
      simp only [heq]
      refine List.forall_mem_cons.mpr ⟨?_, fun c hc => ?_⟩
      · exact .node (ReadState.spans_gather k horder) fun c hc => hmem c (List.mem_append_right _ hc)
      · exact hmem c (List.mem_append_left _ (List.mem_reverse.mp hc))
  tag := by
    intro role s hallowed lo hi hs
    refine ⟨(inOrder_kept _).tag role s hallowed lo hi hs.order, fun t ht => ?_⟩
    rcases ReadState.mem_tag ht with ⟨ht, -⟩ | ⟨old, hold, -, rfl⟩
    · exact hs.built t ht
    · refine (hs.built old hold).withRole ?_
      have hspans := (hs.built old hold).here
      cases old <;> exact hspans
  frame := by
    intro s s' hframe lo hi hs
    obtain ⟨mid, hbuilt, hrest⟩ := Extent.inOrder_append.mp hs.order
    have hs' := hframe rfl mid hi ⟨hrest, fun _ h => absurd h List.not_mem_nil⟩
    refine ⟨ReadState.inOrder_frame hbuilt hs'.order, fun t ht => ?_⟩
    rcases List.mem_append.mp ht with ht | ht
    · exact hs'.built t ht
    · exact hs.built t ht

/-! ## Declarations inside types and expressions -/

/-- Kinds of nodes that declare a name in the scope around them. -/
def Kind.declares : Kind → Bool
  | .shortVarDeclaration | .varSpec | .constSpec | .typeSpec | .typeAlias | .rangeClause
  | .receiveStatement => true
  | _ => false

theorem Kind.declares_of_closesScope {k : Kind} (h : k.closesScope = true) : k.declares = false := by
  cases k <;> first | rfl | cases h

/-- What is declared inside a tree is declared inside a node that closes its scope. -/
inductive Tree.Closed : Tree → Prop where
  | leaf {k : Kind} {r : Option Role} {e : Extent} {text : String} : Closed (.leaf k r e text)
  | scope {k : Kind} {r : Option Role} {e : Extent} {cs : List Tree} (h : k.closesScope = true) :
      Closed (.node k r e cs)
  | node {k : Kind} {r : Option Role} {e : Extent} {cs : List Tree} (h : k.declares = false)
      (hcs : ∀ c ∈ cs, Closed c) : Closed (.node k r e cs)

theorem Tree.Closed.withRole {t : Tree} (h : t.Closed) (role : Role) : (t.withRole role).Closed := by
  cases h with
  | leaf => exact .leaf
  | scope h => exact .scope h
  | node h hcs => exact .node h hcs

/-- A bare comment declares nothing. -/
theorem Tree.Bare.closed {t : Tree} (h : t.Bare) (hcomment : t.isComment = true) : t.Closed := by
  cases t with
  | leaf k r e text => exact .leaf
  | node k r e cs =>
      obtain ⟨-, rfl⟩ : r = none ∧ cs = [] := h hcomment
      obtain rfl : k = .comment := beq_iff_eq.mp hcomment
      exact .node rfl fun _ h => absurd h List.not_mem_nil

theorem Tree.closed_of_closesScope {t : Tree} (h : t.kind.closesScope = true) : t.Closed := by
  cases t with
  | leaf k r e text => exact .leaf
  | node k r e cs => exact .scope h

/-- Steps that make no declaration outside a node that closes its scope. -/
def Allowed.closed : Allowed where
  wrap k := !k.declares
  rule
    | .item | .statement | .statements | .block | .simple | .ifStatement => false
    | _ => true
  special
    | .seq g (.wrap k) => k.closesScope && g.uses .bare
    | _ => false

theorem Rules.uses_closed {r : Rule} (h : Allowed.closed.rule r = true) :
    (Rules.grammar r).uses .closed = true := by
  cases r with
  | item | statement | statements | block | simple | ifStatement => cases h
  | binary level =>
      show (Rules.binary level).uses .closed = true
      unfold Rules.binary
      split
      next => rfl
      next => rfl
  | _ => rfl

theorem closed_inherited : Inherited .closed Tree.Closed where
  leaf := fun _ _ => .leaf
  gather := by
    intro k t ts hallowed hts
    exact .node (by simpa [Allowed.closed] using hallowed) hts
  withRole := fun role _ _ _ h => h.withRole role

/-- **Types and expressions declare nothing in the scope around them.** -/
theorem closed_of_run {fuel : Nat} {m : Reading} {g : Grammar} {s s' : ReadState}
    (hg : g.uses .closed = true) (h : g.run Rules.grammar fuel m s = some s')
    (hs : ∀ t ∈ s.built, t.Closed) : ∀ t ∈ s'.built, t.Closed := by
  refine (closed_inherited.kept rfl).run_special (fun _ hr => Rules.uses_closed hr) ?_ hg h hs
  intro fuel _ m g s s' hspecial hrun hs t ht
  rcases List.mem_append.mp ht with ht | ht
  · cases g with
    | seq part ending =>
        cases ending with
        | wrap k =>
            -- a frame that ends in a scope of its own leaves only that node, and comments before it
            obtain ⟨hk, hpart⟩ := Bool.and_eq_true_iff.mp hspecial
            obtain ⟨n, u, hu, hwrap⟩ := Grammar.exists_of_run_seq hrun
            obtain rfl := Grammar.eq_of_run_wrap hwrap
            have hbare := bare_of_run hpart hu fun _ h => absurd h List.not_mem_nil
            rcases ReadState.mem_wrap ht with ⟨ht, hcomment⟩ | ⟨first, more, rfl, -⟩
            · exact (hbare t ht).closed hcomment
            · exact .scope hk
        | _ => cases hspecial
    | _ => cases hspecial
  · exact hs t ht

/-! ## Bodies -/

/-- Reading a block leaves a node for it, after comments. -/
theorem exists_of_run_block {fuel : Nat} {m : Reading} {rest : List Lexeme} {s' : ReadState}
    (h : (Grammar.rule .block).run Rules.grammar fuel m ⟨rest, []⟩ = some s') :
    ∃ first more leading, s'.built = ReadState.gather .block first more :: leading ∧
      ∀ c ∈ leading, c.isComment = true ∧ c.Bare := by
  obtain ⟨n, h⟩ := Grammar.exists_of_run_rule h
  have hbare := bare_of_run (Rules.uses_bare .block) h fun _ h => absurd h List.not_mem_nil
  obtain ⟨_, t, ht, rfl⟩ := Grammar.exists_of_run_frame h
  obtain ⟨_, u, hu, hwrap⟩ := Grammar.exists_of_run_seq ht
  obtain rfl := Grammar.eq_of_run_wrap hwrap
  rcases ReadState.wrap_cases .block u.built with ⟨hcomments, -⟩ | ⟨leading, first, more, -, hleading, heq⟩
  · -- the opening brace is no comment
    obtain ⟨_, v, hv, hclose⟩ := Grammar.exists_of_run_seq hu
    obtain ⟨_, w, hw, hinside⟩ := Grammar.exists_of_run_seq hv
    obtain ⟨comments, l, -, -, hw⟩ := ReadState.exists_of_take (Grammar.take_of_run_token hw)
    obtain ⟨inside, hinside⟩ := exists_append_of_run rfl hinside
    obtain ⟨close, hclose⟩ := exists_append_of_run rfl hclose
    have hbrace := hcomments (l.toLeaf .mark) (by simp [hclose, hinside, hw])
    exact nomatch hbrace
  · refine ⟨first, more, leading.reverse, by simp [heq], fun c hc => ⟨?_, ?_⟩⟩
    · exact hleading c (List.mem_reverse.mp hc)
    · exact hbare c (by simp [heq, List.mem_reverse.mp hc])

/-- Reading a body leaves a block that plays this part, after comments. -/
theorem exists_of_run_body {fuel : Nat} {m : Reading} {s s' : ReadState}
    (h : (Grammar.playing .body (.rule .block)).run Rules.grammar fuel m s = some s') :
    ∃ body leading, s'.built = body :: leading ++ s.built ∧ body.role = some .body ∧
      body.kind = .block ∧ ∀ c ∈ leading, c.isComment = true ∧ c.Bare := by
  obtain ⟨n, t, ht, rfl⟩ := Grammar.exists_of_run_playing h
  obtain ⟨first, more, leading, hbuilt, hleading⟩ := exists_of_run_block ht
  refine ⟨(ReadState.gather .block first more).withRole .body, leading, ?_, rfl, rfl, hleading⟩
  have htag : ReadState.tag .body (ReadState.gather .block first more :: leading)
      = (ReadState.gather .block first more).withRole .body :: ReadState.tag .body leading := rfl
  simp only [hbuilt, htag, ReadState.tag_comments fun c hc => (hleading c hc).1]

/-- **The bodies of functions are blocks.** That of a literal is its last child, after a signature that
    declares nothing around it. -/
structure Tree.Bodied (t : Tree) : Prop where
  literal : ∀ r e cs, t = .node .funcLiteral r e cs → ∃ signature body, cs = signature ++ [body] ∧
    Lacks .body signature ∧ (∀ c ∈ signature, c.Closed) ∧ body.role = some .body ∧ body.kind = .block
  function : FileScope.isFunction t = true → ∀ c ∈ t.children, c.role = some .body → c.kind = .block

/-- Steps that make no function. -/
def Allowed.bodiless : Allowed where
  wrap
    | .funcLiteral | .functionDeclaration | .methodDeclaration => false
    | _ => true

/-- Steps that make functions only with a block for a body. -/
def Allowed.bodied : Allowed := { Allowed.bodiless with
  special
    | .seq (.seq g (.frame (.seq (.rule .block) (.tag .body)))) (.wrap k) =>
        k == .funcLiteral && g.uses (.lacking .body) && g.uses .closed && g.uses .bodiless
    | .seq (.seq g (.alt (.seq .sameLine (.frame (.seq (.rule .block) (.tag .body)))) .done)) (.wrap k) =>
        (k == .functionDeclaration || k == .methodDeclaration) && g.uses (.lacking .body)
          && g.uses .bodiless
    | _ => false }

theorem Grammar.uses_bodied {g : Grammar} (h : g.uses .bodiless = true) : g.uses .bodied = true := by
  induction g with
  | seq a b iha ihb | alt a b iha ihb =>
      obtain ⟨ha, hb⟩ := Bool.and_eq_true_iff.mp h
      exact Bool.and_eq_true_iff.mpr ⟨iha ha, ihb hb⟩
  | many a ih | within _ a ih => exact ih h
  | frame a ih => exact Bool.or_eq_true_iff.mpr (.inr (ih h))
  | _ => exact h

theorem Rules.uses_bodied (r : Rule) : (Rules.grammar r).uses .bodied = true := by
  cases r with
  | binary level =>
      show (Rules.binary level).uses .bodied = true
      unfold Rules.binary
      split
      next => rfl
      next => rfl
  | _ => rfl

theorem Tree.Bodied.withRole {t : Tree} (h : t.Bodied) (role : Role) : (t.withRole role).Bodied := by
  cases t with
  | leaf k r e text => exact ⟨fun _ _ _ heq => (nomatch heq), h.function⟩
  | node k r e cs =>
      refine ⟨fun r' e' cs' heq => ?_, h.function⟩
      obtain ⟨rfl, -, rfl, rfl⟩ := Tree.node.inj heq
      exact h.literal r e cs rfl

theorem bodied_inherited : Inherited .bodied (Tree.Every Tree.Bodied) where
  leaf := fun _ _ => .leaf ⟨fun _ _ _ heq => (nomatch heq), fun _ _ hc => absurd hc List.not_mem_nil⟩
  gather := by
    intro k t ts hallowed hts
    refine .node ⟨?_, ?_⟩ hts
    · intro _ _ _ heq
      obtain ⟨rfl, -⟩ := Tree.node.inj heq
      cases hallowed
    · intro hfunction
      have hkind : k = .functionDeclaration ∨ k = .methodDeclaration := by
        simpa [FileScope.isFunction, ReadState.gather, Tree.kind] using hfunction
      rcases hkind with rfl | rfl
      · cases hallowed
      · cases hallowed
  withRole := fun role _ _ _ h => h.withRole (h.here.withRole role)

/-- If the last tree of a frame is no comment, it is the last child of the node made of the frame. -/
theorem ReadState.wrap_cons (k : Kind) {last : Tree} (before : List Tree) (hlast : last.isComment = false) :
    ∃ first more earlier leading, wrap k (last :: before) = gather k first more :: leading ∧
      first :: more = earlier ++ [last] ∧ (∀ c ∈ earlier, c ∈ before) ∧ ∀ c ∈ leading, c ∈ before := by
  rcases wrap_cases k (last :: before) with ⟨hcomments, -⟩ | ⟨leading, first, more, hbuilt, -, heq⟩
  · exact absurd (hcomments last List.mem_cons_self) (by simp [hlast])
  · have hends := List.dropLast_concat_getLast (List.cons_ne_nil first more)
    rw [List.reverse_cons, ← hends, ← List.append_assoc] at hbuilt
    obtain ⟨hbefore, hsame⟩ := List.append_inj' hbuilt rfl
    have hmem : ∀ c ∈ leading ++ (first :: more).dropLast, c ∈ before := by
      rw [← hbefore]
      exact fun c hc => List.mem_reverse.mp hc
    refine ⟨first, more, (first :: more).dropLast, leading.reverse, heq, ?_, ?_, ?_⟩
    · rw [List.singleton_inj.mp hsame, hends]
    · exact fun c hc => hmem c (List.mem_append_right _ hc)
    · exact fun c hc => hmem c (List.mem_append_left _ (List.mem_reverse.mp hc))

/-- A literal whose body is read last has it for its last child. -/
theorem bodied_of_literal {fuel : Nat} {m : Reading} {s s' : ReadState}
    (h : (Grammar.playing .body (.rule .block)).run Rules.grammar fuel m s = some s')
    (hlacks : Lacks .body s.built) (hclosed : ∀ t ∈ s.built, t.Closed)
    (hbodied : ∀ t ∈ s'.built, t.Every Tree.Bodied) :
    ∀ t ∈ ReadState.wrap .funcLiteral s'.built, t.Every Tree.Bodied := by
  obtain ⟨body, comments, hbuilt, hrole, hkind, hcomments⟩ := exists_of_run_body h
  have hbody : body.isComment = false := by simp [Tree.isComment, hkind]
  obtain ⟨first, more, signature, leading, hwrap, hchildren, hsignature, hleading⟩ :=
    ReadState.wrap_cons .funcLiteral (comments ++ s.built) hbody
  rw [hbuilt] at hbodied ⊢
  rw [List.cons_append] at hbodied ⊢
  rw [hwrap]
  refine List.forall_mem_cons.mpr ⟨.node ⟨?_, by rintro ⟨⟩⟩ ?_, ?_⟩
  · intro r e cs heq
    obtain ⟨-, -, -, rfl⟩ := Tree.node.inj heq
    refine ⟨signature, body, hchildren, fun c hc => ?_, fun c hc => ?_, hrole, hkind⟩
    · rcases List.mem_append.mp (hsignature c hc) with hc | hc
      · obtain ⟨hcomment, hbare⟩ := hcomments c hc
        rw [(hbare hcomment).1]
        rintro ⟨⟩
      · exact hlacks c hc
    · rcases List.mem_append.mp (hsignature c hc) with hc | hc
      · obtain ⟨hcomment, hbare⟩ := hcomments c hc
        exact hbare.closed hcomment
      · exact hclosed c hc
  · intro c hc
    rw [hchildren] at hc
    rcases List.mem_append.mp hc with hc | hc
    · exact hbodied c (List.mem_cons_of_mem _ (hsignature c hc))
    · exact hbodied c (by simp [List.mem_singleton.mp hc])
  · exact fun c hc => hbodied c (List.mem_cons_of_mem _ (hleading c hc))

/-- A function declaration with a body read last, or with none, has a block or nothing for its body. -/
theorem bodied_of_declaration {fuel : Nat} {m : Reading} {k : Kind} {s s' : ReadState}
    (hk : k ≠ .funcLiteral)
    (h : (Grammar.opt (.sameLine ++ Grammar.playing .body (.rule .block))).run Rules.grammar fuel m s
      = some s')
    (hlacks : Lacks .body s.built) (hbodied : ∀ t ∈ s'.built, t.Every Tree.Bodied) :
    ∀ t ∈ ReadState.wrap k s'.built, t.Every Tree.Bodied := by
  have hblock : ∀ t ∈ s'.built, t.role = some .body → t.kind = .block := by
    intro t ht hrole
    obtain ⟨_, hsome | hdone⟩ := Grammar.exists_of_run_alt h
    · obtain ⟨_, u, hu, hbody⟩ := Grammar.exists_of_run_seq hsome
      rw [Grammar.eq_of_run_sameLine hu] at hbody
      obtain ⟨body, comments, hbuilt, -, hkind, hcomments⟩ := exists_of_run_body hbody
      simp only [hbuilt, List.cons_append, List.mem_cons, List.mem_append] at ht
      rcases ht with rfl | ht | ht
      · exact hkind
      · obtain ⟨hcomment, hbare⟩ := hcomments t ht
        rw [(hbare hcomment).1] at hrole
        cases hrole
      · exact absurd hrole (hlacks t ht)
    · obtain rfl := Grammar.eq_of_run_done hdone
      exact absurd hrole (hlacks t ht)
  intro t ht
  rcases ReadState.mem_wrap ht with ⟨ht, -⟩ | ⟨first, more, rfl, hmem⟩
  · exact hbodied t ht
  · refine .node ⟨?_, fun _ c hc => hblock c (hmem c hc)⟩ fun c hc => hbodied c (hmem c hc)
    intro r e cs heq
    exact absurd (Tree.node.inj heq).1 hk

/-- **Every reading makes functions with blocks for bodies.** -/
theorem bodied_of_run {fuel : Nat} {m : Reading} {g : Grammar} {s s' : ReadState}
    (hg : g.uses .bodied = true) (h : g.run Rules.grammar fuel m s = some s')
    (hs : ∀ t ∈ s.built, t.Every Tree.Bodied) : ∀ t ∈ s'.built, t.Every Tree.Bodied := by
  refine (bodied_inherited.kept rfl).run_special (fun r _ => Rules.uses_bodied r) ?_ hg h hs
  intro fuel ih m g s s' hspecial hrun hs t ht
  have hnone : ∀ t ∈ ([] : List Tree), t.Every Tree.Bodied := fun _ h => absurd h List.not_mem_nil
  rcases List.mem_append.mp ht with ht | ht
  · simp only [Allowed.bodied] at hspecial
    split at hspecial
    next part k =>
      -- a literal: signature and body are parts of it, so they are read with less fuel
      simp only [Bool.and_eq_true, beq_iff_eq] at hspecial
      obtain ⟨⟨⟨rfl, hlacking⟩, hclosed⟩, hpart⟩ := hspecial
      obtain ⟨n, hn, v, hv, hwrap⟩ := Grammar.exists_lt_of_run_seq hrun
      obtain ⟨n', hn', u, hu, hbody⟩ := Grammar.exists_lt_of_run_seq hv
      obtain rfl := Grammar.eq_of_run_wrap hwrap
      have hbefore := ih n' (by omega) m part _ u (Grammar.uses_bodied hpart) hu hnone
      refine bodied_of_literal hbody ?_ ?_ ?_ t ht
      · exact lacks_of_run hlacking hu fun _ h => absurd h List.not_mem_nil
      · exact closed_of_run hclosed hu fun _ h => absurd h List.not_mem_nil
      · exact ih n' (by omega) m _ u v rfl hbody hbefore
    next part k =>
      -- a declaration, which may lack the body
      simp only [Bool.and_eq_true, Bool.or_eq_true, beq_iff_eq] at hspecial
      obtain ⟨⟨hk, hlacking⟩, hpart⟩ := hspecial
      obtain ⟨n, hn, v, hv, hwrap⟩ := Grammar.exists_lt_of_run_seq hrun
      obtain ⟨n', hn', u, hu, hbody⟩ := Grammar.exists_lt_of_run_seq hv
      obtain rfl := Grammar.eq_of_run_wrap hwrap
      have hbefore := ih n' (by omega) m part _ u (Grammar.uses_bodied hpart) hu hnone
      refine bodied_of_declaration ?_ hbody ?_ ?_ t ht
      · rcases hk with rfl | rfl
        · decide
        · decide
      · exact lacks_of_run hlacking hu fun _ h => absurd h List.not_mem_nil
      · exact ih n' (by omega) m _ u v rfl hbody hbefore
    next => cases hspecial
  · exact hs t ht

/-! ## Files -/

namespace SourceFile

/-- What every item has that is read from items that have it, if comments and line ends have it too. -/
theorem forall_mem_parse {p : Tree → Prop}
    (hleaf : ∀ (l : Lexeme) (k : Kind), k = .mark ∨ k = .comment → p (l.toLeaf k))
    (hitem : ∀ steps s s', readItem steps s = some s' → (∀ t ∈ s.built, p t) → ∀ t ∈ s'.built, p t)
    {text : String} {t : Tree} (h : t ∈ (parse text).root.named) : p t := by
  refine readItems_keeps (fun s => ∀ t ∈ s.built, p t) ?_ ?_ ?_ ?_ _ _ _ ?_ t
    (mem_readSource_of_mem_parse h)
  · exact fun s s' hs hread => hitem _ s s' hread hs
  · intro s s' hs hend t ht
    rcases ReadState.mem_of_takeTerminator hend ht with ht | ⟨l, -, k, hk, rfl⟩
    · exact hs t ht
    · exact hleaf l k hk
  · exact fun _ hs => hs
  · intro s hs t ht
    rcases List.mem_append.mp ht with ht | ht
    · obtain ⟨l, -, rfl⟩ := List.mem_map.mp (List.mem_reverse.mp ht)
      exact hleaf l .comment (.inr rfl)
    · exact hs t ht
  · exact fun _ h => absurd h List.not_mem_nil

theorem spanned_readSource (text : String) :
    (readSource text).1.Spanned (Position.zero.advance text.toList).byte 0 := by
  refine readItems_keeps (ReadState.Spanned (Position.zero.advance text.toList).byte 0)
    ?_ ?_ ?_ ?_ _ _ _ ⟨?_, fun _ h => absurd h List.not_mem_nil⟩
  · intro s s' hs hread
    exact spanned_kept.run (fun _ _ => Grammar.uses_all _) (Grammar.uses_all _) hread (fun _ => rfl) 0 _ hs
  · exact fun s s' hs hend => spanned_kept.terminator s s' hend 0 _ hs
  · exact fun s hs => ⟨inOrder_skip hs.order, hs.built⟩
  · intro s hs
    refine ⟨inOrder_comments hs.order, fun t ht => ?_⟩
    rcases List.mem_append.mp ht with ht | ht
    · obtain ⟨l, hl, rfl⟩ := List.mem_map.mp (List.mem_reverse.mp ht)
      exact hs.leaf (List.mem_filter.mp hl).1 .comment
    · exact hs.built t ht
  · exact Lexeme.inOrder_scan Position.grows_byte text

/-- **The children of every node of a file follow one another inside it.** -/
theorem spans_of_mem_parse {text : String} {t : Tree} (h : t ∈ (parse text).root.named) :
    t.Every Tree.Spans :=
  (spanned_readSource text).built t (mem_readSource_of_mem_parse h)

/-- **The bodies of all functions of a file are blocks.** -/
theorem bodied_of_mem_parse {text : String} {t : Tree} (h : t ∈ (parse text).root.named) :
    t.Every Tree.Bodied :=
  forall_mem_parse (fun l k _ => bodied_inherited.leaf l k) (fun _ _ _ hread hs => bodied_of_run rfl hread hs) h

end SourceFile
end GoExcerpt
