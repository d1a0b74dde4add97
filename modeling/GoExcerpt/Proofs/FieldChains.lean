import GoExcerpt.Proofs.Contents
import GoExcerpt.Proofs.Counted
import GoExcerpt.Proofs.Naming

/-!
# `Proofs.FieldChains` — the type of an expression, part by part

The type of an expression is found by going down to the name at its bottom and from there through the selected fields
one after the other. It is the type that the expression has by its structure (`CallContext.chainType?`): parentheses
change nothing, a field has the type that the struct it is selected from gives it, and a name of an imported package
has no type but makes what is selected from it a variable of that package. Collecting the fields and applying them
later comes to the same because the fields of a selection are those of its operand and one more
(`CallContext.typeThrough?_concat`).

`FieldChain` is the structure, and `Tree.Spells` says which trees have it. Every node of every file has one, unless a
comment stands in its parentheses (`SourceFile.exists_spells_of_mem_parse`).
-/

namespace GoExcerpt

/-! ## Structure -/

/-- **What an expression is made of:** something at the bottom, fields selected from it, and parentheses. -/
inductive FieldChain where
  /-- a name -/
  | name (name : String)
  /-- anything else that is no selection and not in parentheses -/
  | other
  /-- `operand.field` -/
  | selection (operand : FieldChain) (field : String)
  /-- `(inner)` -/
  | parentheses (inner : FieldChain)

namespace Tree

/-- **A tree that is written as this structure says.** Nothing but the expression stands in its parentheses, not even
    a comment. -/
inductive Spells : Tree → FieldChain → Prop where
  | name {role : Option Role} {extent : Extent} {text : String} :
      Spells (.leaf .identifier role extent text) (.name text)
  | other {t : Tree} (hname : t.kind ≠ .identifier) (hselection : t.kind ≠ .selectorExpression)
      (hparentheses : t.kind ≠ .parenthesizedExpression) : Spells t .other
  | selection {t operand member : Tree} {chain : FieldChain} (hkind : t.kind = .selectorExpression)
      (hoperand : t.part? .operand = some operand) (hmember : t.part? .member = some member)
      (hchain : Spells operand chain) : Spells t (.selection chain member.text)
  | parentheses {t inner : Tree} {chain : FieldChain} (hkind : t.kind = .parenthesizedExpression)
      (hinner : t.named = [inner]) (hchain : Spells inner chain) : Spells t (.parentheses chain)

/-- **A comment stands in the parentheses of an expression,** or in those of what its fields are selected from. -/
inductive Interrupted : Tree → Prop where
  | here {t comment : Tree} (hkind : t.kind = .parenthesizedExpression) (hmem : comment ∈ t.children)
      (hcomment : comment.isComment = true) : Interrupted t
  | operand {t operand : Tree} (hkind : t.kind = .selectorExpression) (hoperand : t.part? .operand = some operand)
      (h : Interrupted operand) : Interrupted t
  | inner {t inner : Tree} (hkind : t.kind = .parenthesizedExpression) (hinner : inner ∈ t.named)
      (h : Interrupted inner) : Interrupted t

variable {t : Tree} {chain : FieldChain}

/-! ## Every node has a structure -/

/-- A selection that has what it needs has an operand and a member. -/
theorem Complete.selection (h : t.Complete) (hkind : t.kind = .selectorExpression) :
    (∃ operand, t.part? .operand = some operand) ∧ ∃ member, t.part? .member = some member := by
  have hadmits : (pieces t.children).any (·.role == some .operand) = true ∧
      (pieces t.children).any (·.role == some .member) = true := by
    have hcomplete := h
    unfold Complete at hcomplete
    rw [hkind] at hcomplete
    exact Bool.and_eq_true_iff.mp hcomplete
  exact ⟨exists_part?_of_pieces hadmits.1, exists_part?_of_pieces hadmits.2⟩

/-- Parentheses without comments that have what they need have one expression between them. -/
theorem Complete.parentheses (h : t.Complete) (hkind : t.kind = .parenthesizedExpression)
    (hcomments : ∀ c ∈ t.children, c.isComment = false) : ∃ inner, t.named = [inner] := by
  have hall : t.children.filter (!·.isComment) = t.children :=
    List.filter_eq_self.mpr fun c hc => by simp [hcomments c hc]
  have hone : ((pieces t.children).filter (·.named)).length = 1 := by
    have hcomplete := h
    unfold Complete at hcomplete
    rw [hkind] at hcomplete
    exact beq_iff_eq.mp hcomplete
  rw [pieces, hall, List.filter_map, List.length_map] at hone
  exact List.length_eq_one_iff.mp hone

/-- A tree has a structure if what is below it has, unless a comment interrupts it. -/
theorem exists_spells (hcomplete : t.Complete) (hlexical : t.Lexical)
    (hbelow : ∀ c ∈ t.children, c.Interrupted ∨ ∃ chain, c.Spells chain) :
    t.Interrupted ∨ ∃ chain, t.Spells chain := by
  by_cases hname : t.kind = .identifier
  · -- a name is a lexeme
    have hleaf := hlexical.kind (by rw [hname]; rfl)
    cases t with
    | leaf k role extent text =>
        obtain rfl : k = .identifier := hname
        exact .inr ⟨_, .name⟩
    | node k role extent cs => cases hleaf
  by_cases hselection : t.kind = .selectorExpression
  · obtain ⟨⟨operand, hoperand⟩, member, hmember⟩ := hcomplete.selection hselection
    rcases hbelow operand (List.mem_of_find?_eq_some hoperand) with hinterrupted | ⟨chain, hchain⟩
    · exact .inl (.operand hselection hoperand hinterrupted)
    · exact .inr ⟨_, .selection hselection hoperand hmember hchain⟩
  by_cases hparentheses : t.kind = .parenthesizedExpression
  · by_cases hcomment : ∃ c ∈ t.children, c.isComment = true
    · obtain ⟨c, hc, hcomment⟩ := hcomment
      exact .inl (.here hparentheses hc hcomment)
    · have hcomments : ∀ c ∈ t.children, c.isComment = false := fun c hc =>
        Bool.eq_false_iff.mpr fun h => hcomment ⟨c, hc, h⟩
      obtain ⟨inner, hinner⟩ := hcomplete.parentheses hparentheses hcomments
      have hmem : inner ∈ t.named := by simp [hinner]
      rcases hbelow inner (List.mem_filter.mp hmem).1 with hinterrupted | ⟨chain, hchain⟩
      · exact .inl (.inner hparentheses hmem hinterrupted)
      · exact .inr ⟨_, .parentheses hparentheses hinner hchain⟩
  · exact .inr ⟨_, .other hname hselection hparentheses⟩

theorem Every.exists_spells (hcomplete : t.Every Complete) (hlexical : t.Every Lexical) :
    t.Every fun t => t.Interrupted ∨ ∃ chain, t.Spells chain := by
  induction hcomplete with
  | leaf h => exact .leaf (Tree.exists_spells h hlexical.here fun _ hc => absurd hc List.not_mem_nil)
  | node h hcs ih =>
      have hbelow := fun c hc => ih c hc (hlexical.child hc)
      exact .node (Tree.exists_spells h hlexical.here fun c hc => (hbelow c hc).here) hbelow

end Tree

/-- **Every tree of a file has a structure,** unless a comment interrupts it. -/
theorem SourceFile.exists_spells_of_mem_parse {text : String} {item : Tree}
    (h : item ∈ (parse text).root.named) : item.Every fun t => t.Interrupted ∨ ∃ chain, t.Spells chain :=
  (complete_of_mem_parse h).exists_spells (lexical_of_mem_parse h)

/-! ## Chains taken apart -/

namespace FieldChain

/-- The name at the bottom, and the fields selected from it, innermost first. -/
def unwound : FieldChain → Option (String × List String)
  | name n => some (n, [])
  | other => none
  | selection operand field => operand.unwound.map fun (n, fields) => (n, fields ++ [field])
  | parentheses inner => inner.unwound

end FieldChain

/-- Going down a tree finds what is at the bottom of its structure, and the fields. -/
theorem Tree.Spells.unwound {t : Tree} {chain : FieldChain} (h : t.Spells chain) :
    t.fieldChain.map (fun (base, fields) => (base.text, fields)) = chain.unwound := by
  induction h with
  | name => rfl
  | @other t hname hselection hparentheses =>
      cases t with
      | leaf k role extent text =>
          have hk : (k == .identifier) = false := beq_eq_false_iff_ne.mpr hname
          rw [fieldChain, if_neg (by simp [hk])]
          rfl
      | node k role extent cs =>
          rw [fieldChain]
          · rfl
          · exact hselection
          · exact hparentheses
  | @selection t operand member chain hkind hoperand hmember hchain ih =>
      cases t with
      | leaf k role extent text => cases hoperand
      | node k role extent cs =>
          obtain rfl : k = .selectorExpression := hkind
          have hoperand' : cs.find? (·.role == some .operand) = some operand := hoperand
          have hmember' : cs.find? (·.role == some .member) = some member := hmember
          rw [FieldChain.unwound, ← ih, fieldChain, hmember', fieldChainOperand_eq, hoperand']
          simp only [Option.bind_eq_bind, Option.bind_some]
          cases operand.fieldChain with
          | none => rfl
          | some found => rfl
  | @parentheses t inner chain hkind hinner hchain ih =>
      cases t with
      | leaf k role extent text => cases hinner
      | node k role extent cs =>
          obtain rfl : k = .parenthesizedExpression := hkind
          have hinner' : cs.filter isNamed = [inner] := hinner
          rw [FieldChain.unwound, ← ih, fieldChain, fieldChainNamed_eq, hinner']
          rfl

/-! ## Types -/

namespace CallContext

variable {c : CallContext} {at_ : Nat} {n : String}

/-- The path of the imported package that an expression names by itself: by a name that nothing local hides. -/
def importedPath? (c : CallContext) (at_ : Nat) : FieldChain → Option String
  | .name n => if (c.scope.lookup n at_).isSome then none else c.file.imports.lookup n
  | .parentheses inner => c.importedPath? at_ inner
  | .selection _ _ | .other => none

/-- **The named type that an expression has by its structure.** A local name has the type of its binding, the name of
    an imported package has none by itself, and any other name that of the variable of the package. What is selected
    from the name of an imported package is a variable of it, and what is selected from a value a field of its type. -/
def chainType? (c : CallContext) (at_ : Nat) : FieldChain → Option TypeName
  | .name n =>
      match c.scope.lookup n at_ with
      | some binding => binding.type
      | none => if (c.file.imports.lookup n).isSome then none else c.types.var? c.file.package n
  | .other => none
  | .selection operand field =>
      match c.importedPath? at_ operand with
      | some path => c.types.var? path field
      | none => (c.chainType? at_ operand).bind fun type => c.types.field? type field
  | .parentheses inner => c.chainType? at_ inner

/-- The type reached from a name through the fields in turn. -/
def typeThrough? (c : CallContext) (at_ : Nat) (n : String) (fields : List String) : Option TypeName :=
  match c.scope.lookup n at_ with
  | some binding => binding.type.bind fun type => c.fieldType? type fields
  | none =>
      match c.file.imports.lookup n with
      | some path =>
          match fields with
          | [] => none
          | variable_ :: rest => (c.types.var? path variable_).bind fun type => c.fieldType? type rest
      | none => (c.types.var? c.file.package n).bind fun type => c.fieldType? type fields

theorem typeOf?_eq (t : Tree) :
    c.typeOf? at_ t = (t.fieldChain.map fun (base, fields) => (base.text, fields)).bind
      fun (n, fields) => c.typeThrough? at_ n fields := by
  unfold typeOf?
  cases t.fieldChain <;> rfl

theorem fieldType?_concat (type : TypeName) (fields : List String) (field : String) :
    c.fieldType? type (fields ++ [field]) = (c.fieldType? type fields).bind fun t => c.types.field? t field := by
  unfold fieldType?
  simp

@[simp] theorem bind_fieldType?_nil (found : Option TypeName) :
    (found.bind fun type => c.fieldType? type []) = found := by
  cases found <;> rfl

/-- A name by itself. -/
theorem typeThrough?_nil (c : CallContext) (at_ : Nat) (n : String) :
    c.typeThrough? at_ n [] = c.chainType? at_ (.name n) := by
  unfold typeThrough? chainType?
  split
  next binding hlocal => exact bind_fieldType?_nil _
  next hlocal =>
    cases c.file.imports.lookup n with
    | some path => rfl
    | none => exact bind_fieldType?_nil _

/-- What is selected from the name of an imported package. -/
theorem typeThrough?_imported {path : String} (h : c.importedPath? at_ (.name n) = some path) (field : String) :
    c.typeThrough? at_ n [field] = c.types.var? path field := by
  unfold importedPath? at h
  split at h
  next => cases h
  next hlocal =>
    rw [Option.not_isSome_iff_eq_none] at hlocal
    unfold typeThrough?
    simp only [hlocal, h]
    exact bind_fieldType?_nil _

/-- One more field, selected from anything else. -/
theorem typeThrough?_concat {fields : List String} (h : fields = [] → c.importedPath? at_ (.name n) = none)
    (field : String) : c.typeThrough? at_ n (fields ++ [field]) =
      (c.typeThrough? at_ n fields).bind fun type => c.types.field? type field := by
  unfold typeThrough?
  split
  next binding hlocal => simp only [fieldType?_concat, Option.bind_assoc]
  next hlocal =>
    cases himport : c.file.imports.lookup n with
    | none => simp only [fieldType?_concat, Option.bind_assoc]
    | some path =>
        cases fields with
        | nil =>
            have hnone := h rfl
            rw [importedPath?, hlocal, himport] at hnone
            cases hnone
        | cons variable_ rest => simp only [List.cons_append, fieldType?_concat, Option.bind_assoc]

/-- Only a name without fields names a package. -/
theorem importedPath?_eq (chain : FieldChain) :
    c.importedPath? at_ chain = chain.unwound.bind fun (n, fields) =>
      if fields = [] then c.importedPath? at_ (.name n) else none := by
  induction chain with
  | name n => rfl
  | other => rfl
  | parentheses inner ih => exact ih
  | selection operand field ih =>
      rw [FieldChain.unwound]
      cases operand.unwound with
      | none => rfl
      | some found => simp [importedPath?]

/-- **The fields applied one after the other give the type that the structure gives.** -/
theorem chainType?_eq (chain : FieldChain) :
    c.chainType? at_ chain = chain.unwound.bind fun (n, fields) => c.typeThrough? at_ n fields := by
  induction chain with
  | name n => exact (c.typeThrough?_nil at_ n).symm
  | other => rfl
  | parentheses inner ih => exact ih
  | selection operand field ih =>
      rw [chainType?, FieldChain.unwound, importedPath?_eq, ih]
      cases operand.unwound with
      | none => rfl
      | some found =>
          obtain ⟨n, fields⟩ := found
          simp only [Option.bind_some, Option.map_some]
          split
          next path himported =>
            -- the name of a package, from which a variable is selected
            split at himported
            next hnil =>
              subst hnil
              exact (typeThrough?_imported himported field).symm
            next => cases himported
          next hnone =>
            refine (typeThrough?_concat (fun hnil => ?_) field).symm
            rw [if_pos hnil] at hnone
            exact hnone

/-- **An expression has the type that its structure gives it,** whatever is in scope, imported and declared. And every
tree of every file has such a structure, unless a comment stands in its parentheses. -/
theorem typeOf?_compositional (c : CallContext) (at_ : Nat) :
    (∀ t chain, Tree.Spells t chain → c.typeOf? at_ t = c.chainType? at_ chain) ∧
    ∀ text, ∀ item ∈ (SourceFile.parse text).root.named,
      item.Every fun t => t.Interrupted ∨ ∃ chain, t.Spells chain := by
  refine ⟨fun t chain h => ?_, fun text item hitem => SourceFile.exists_spells_of_mem_parse hitem⟩
  rw [typeOf?_eq, h.unwound, chainType?_eq]

end CallContext

/-! ## A chain in a file -/

namespace Tree

open Load (treeAt partOf part?_eq_partOf exists_of_text_of_children)

variable {t : Tree} {chain : FieldChain}

/-- A name, by what can be computed of it. -/
theorem Spells.computedName {n : String}
    (h : t.kind = .identifier ∧ t.text = n ∧ n ≠ "" ∧ t.children.length = 0) : t.Spells (.name n) := by
  obtain ⟨hkind, htext, hname, hbelow⟩ := h
  obtain ⟨role, extent, rfl⟩ := exists_of_text_of_children hkind htext hname hbelow
  exact .name

/-- A selection, likewise. -/
theorem Spells.computedSelection {field : String} (h : t.kind = .selectorExpression ∧
      (t.part? .operand).isSome = true ∧ (t.part? .member).isSome = true ∧ (partOf t .member).text = field)
    (hchain : (partOf t .operand).Spells chain) : t.Spells (.selection chain field) := by
  obtain ⟨hkind, hoperand, hmember, rfl⟩ := h
  exact .selection hkind (part?_eq_partOf hoperand) (part?_eq_partOf hmember) hchain

/-- Parentheses, likewise. -/
theorem Spells.computedParentheses (h : t.kind = .parenthesizedExpression ∧ t.named.length = 1)
    (hchain : (treeAt t.named 0).Spells chain) : t.Spells (.parentheses chain) := by
  obtain ⟨inner, hinner⟩ := List.length_eq_one_iff.mp h.2
  rw [hinner] at hchain
  exact .parentheses h.1 hinner hchain

end Tree

namespace CallContext

/-- A field selected from a variable of another package, with parentheses around the package and the variable. -/
def stored : String :=
  "package m\n\nimport data \"x/data\"\n\nfunc Run(s T) \x7b\n\t((data).Store).conn.Close()\n\x7d\n"

/-- The function of the file, and what it calls. -/
def storedRun : Tree := Load.treeAt (SourceFile.parse stored).root.named 2

def storedBody : Tree := Load.partOf storedRun .body

def storedCallee : Tree :=
  Load.partOf (Load.treeAt (storedBody.preorder.filter (·.kind == .callExpression)) 0) .function

/-- The value whose method is called. -/
def storedValue : Tree := Load.partOf storedCallee .operand

/-- What it is resolved against: a variable `Store` of a type with a field `conn`. -/
def storedContext : CallContext :=
  let f : FileScope := ⟨"m", Imports.ofRoot [] (SourceFile.parse stored).root⟩
  let types := (TypeEnv.empty.addVar "x/data" "Store" ⟨"x/data", "Shelf"⟩).addField ⟨"x/data", "Shelf"⟩ "conn"
    ⟨"x/net", "Conn"⟩
  ⟨f, types, f.scopeOf storedRun storedBody⟩

theorem typeOf?_compositional_stored :
    storedValue.Spells (.selection (.parentheses (.selection (.parentheses (.name "data")) "Store")) "conn") ∧
    storedContext.typeOf? storedCallee.first storedValue = some ⟨"x/net", "Conn"⟩ ∧
    storedRun ∈ (SourceFile.parse stored).root.named ∧
      storedRun.Every fun t => t.Interrupted ∨ ∃ chain, t.Spells chain := by
  obtain ⟨htype, hspells⟩ := typeOf?_compositional storedContext storedCallee.first
  have hvalue : storedValue.Spells
      (.selection (.parentheses (.selection (.parentheses (.name "data")) "Store")) "conn") := by
    refine .computedSelection (by decide +kernel) (.computedParentheses (by decide +kernel) ?_)
    refine .computedSelection (by decide +kernel) (.computedParentheses (by decide +kernel) ?_)
    exact .computedName (by decide +kernel)
  have hmem : storedRun ∈ (SourceFile.parse stored).root.named := Load.treeAt_mem (by decide +kernel)
  refine ⟨hvalue, ?_, hmem, hspells stored storedRun hmem⟩
  rw [htype _ _ hvalue]
  decide +kernel

end CallContext
end GoExcerpt
