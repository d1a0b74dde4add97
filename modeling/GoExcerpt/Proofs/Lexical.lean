import GoExcerpt.Proofs.Nesting

/-!
# `Proofs.Lexical` — which trees are single lexemes

Names, keywords and punctuation are leaves, and so is whatever plays a part that is read as text: a name,
the path of an import, a qualifier, a selected member or an operator. Comments play no part and have nothing
below them. All this holds of every tree of every file (`SourceFile.lexical_of_mem_parse`).
-/

namespace GoExcerpt

/-! ## Leaves -/

def Tree.isLeaf : Tree → Bool
  | leaf _ _ _ _ => true
  | node _ _ _ _ => false

/-- Kinds of names and of punctuation. -/
def Kind.isLexeme : Kind → Bool
  | .identifier | .typeIdentifier | .packageIdentifier | .mark => true
  | _ => false

/-- Parts that are read as text. -/
def Role.isLexeme : Role → Bool
  | .name | .path | .qualifier | .member | .operator => true
  | _ => false

/-- **What is read as text is a lexeme, and comments are bare.** -/
structure Tree.Lexical (t : Tree) : Prop where
  comment : t.Bare
  kind : t.kind.isLexeme = true → t.isLeaf = true
  role : ∀ role, t.role = some role → role.isLexeme = true → t.isLeaf = true

theorem Lexeme.lexical_toLeaf (l : Lexeme) (k : Kind) : (l.toLeaf k).Every Tree.Lexical :=
  .leaf ⟨fun _ => ⟨rfl, rfl⟩, fun _ => rfl, fun _ h => nomatch h⟩

/-! ## Readings that build leaves only -/

/-- Steps that make neither nodes nor parts. -/
def Allowed.leaves : Allowed where
  wrap _ := false
  tag _ := false
  rule _ := false

theorem leaves_inherited : Inherited .leaves fun t => t.isLeaf = true ∧ t.role = none where
  leaf := fun _ _ => ⟨rfl, rfl⟩
  gather := fun _ _ _ h => nomatch h
  withRole := fun _ _ h => nomatch h

theorem leaves_of_run {fuel : Nat} {m : Reading} {g : Grammar} {rest : List Lexeme} {s' : ReadState}
    (hg : g.uses .leaves = true) (h : g.run Rules.grammar fuel m ⟨rest, []⟩ = some s') :
    ∀ t ∈ s'.built, t.isLeaf = true ∧ t.role = none :=
  (leaves_inherited.kept rfl).run (fun _ hr => nomatch hr) hg h (fun _ => rfl)
    fun _ h => absurd h List.not_mem_nil

/-! ## All readings -/

/-- Steps that give a part that is read as text to leaves only. -/
def Allowed.lexical : Allowed where
  wrap k := k != .comment && !k.isLexeme
  tag role := !role.isLexeme
  special
    | .seq g (.tag _) => g.uses .leaves
    | _ => false

theorem Rules.uses_lexical (r : Rule) : (Rules.grammar r).uses .lexical = true := by
  cases r with
  | binary level =>
      show (Rules.binary level).uses .lexical = true
      unfold Rules.binary
      split
      next => rfl
      next => rfl
  | _ => rfl

theorem lexical_inherited : Inherited .lexical (Tree.Every Tree.Lexical) where
  leaf := Lexeme.lexical_toLeaf
  gather := by
    intro k t ts hallowed hts
    obtain ⟨hcomment, hk⟩ := Bool.and_eq_true_iff.mp hallowed
    refine .node ⟨fun h => ?_, fun h => ?_, fun _ h => nomatch h⟩ hts
    · exact absurd (beq_iff_eq.mp h) (bne_iff_ne.mp hcomment)
    · have hk' : k.isLexeme = true := h
      exact absurd hk' (by simpa using hk)
  withRole := by
    intro role t hallowed hcomment ht
    refine ht.withRole ⟨fun h => ?_, fun h => ?_, fun r hr h => ?_⟩
    · cases t <;> exact absurd (hcomment.symm.trans h) (by simp)
    · have hkind := ht.here.kind
      cases t <;> exact hkind h
    · obtain rfl : role = r := by cases t <;> exact Option.some.inj hr
      exact absurd h (by simpa [Allowed.lexical] using hallowed)

/-- **Every reading builds lexemes where text is read from.** -/
theorem lexical_of_run {fuel : Nat} {m : Reading} {g : Grammar} {s s' : ReadState}
    (hg : g.uses .lexical = true) (h : g.run Rules.grammar fuel m s = some s')
    (hs : ∀ t ∈ s.built, t.Every Tree.Lexical) : ∀ t ∈ s'.built, t.Every Tree.Lexical := by
  refine (lexical_inherited.kept rfl).run_special (fun r _ => Rules.uses_lexical r) ?_ hg h hs
  intro fuel _ m g s s' hspecial hrun hs t ht
  rcases List.mem_append.mp ht with ht | ht
  · unfold Allowed.lexical at hspecial
    simp only at hspecial
    split at hspecial
    next part role =>
      obtain ⟨n, u, hu, htag⟩ := Grammar.exists_of_run_seq hrun
      obtain rfl := Grammar.eq_of_run_tag htag
      have hleaves := leaves_of_run hspecial hu
      rcases ReadState.mem_tag ht with ⟨ht, hcomment⟩ | ⟨old, hold, hcomment, rfl⟩
      · obtain ⟨hleaf, hrole⟩ := hleaves t ht
        cases t with
        | leaf k r e text =>
            exact .leaf ⟨fun _ => ⟨hrole, rfl⟩, fun _ => rfl, fun _ _ _ => rfl⟩
        | node k r e cs => cases hleaf
      · obtain ⟨hleaf, -⟩ := hleaves old hold
        cases old with
        | leaf k r e text =>
            exact .leaf ⟨fun h => absurd (hcomment.symm.trans h) (by simp), fun _ => rfl, fun _ _ _ => rfl⟩
        | node k r e cs => cases hleaf
    next => cases hspecial
  · exact hs t ht

/-- **The names in a file are lexemes, its comments bare.** -/
theorem SourceFile.lexical_of_mem_parse {text : String} {t : Tree} (h : t ∈ (parse text).root.named) :
    t.Every Tree.Lexical :=
  forall_mem_parse (fun l k _ => l.lexical_toLeaf k) (fun _ _ _ hread hs => lexical_of_run rfl hread hs) h

end GoExcerpt
