import GoExcerpt.Proofs.Counted
import Mathlib.Data.List.Basic

/-!
# `Proofs.Told` — types and names told without some comments

A file without comments that do not count tells the same types: of written types
(`FileScope.typeName?_without`), of values (`FileScope.valueType?_without`) and of all that it declares
(`FileScope.topLevelTypes_without`). The nodes of a function make the same bindings
(`FileScope.bindings_without`).
-/

namespace GoExcerpt

variable {gone : Extent → Bool}

/-! ## Types -/

namespace FileScope

open GoExcerpt.Tree (Told)

variable (f : FileScope) {t : Tree}

theorem typeName?_without (ht : t.Every (Told gone)) : f.typeName? (t.without gone) = f.typeName? t := by
  unfold typeName?
  rw [Tree.descend_throughType ht]
  cases hcore : t.descend Tree.throughType with
  | none => rfl
  | some core =>
      have hlexical : core.Every Tree.Lexical :=
        ((Tree.standsFor_of_descend t hcore).every ht).lexical
      simp only [Option.map_some, Option.bind_eq_bind, Option.bind_some, Tree.kind_without]
      split
      next hk => rw [hlexical.here.without_of_kind (by rw [hk]; rfl)]
      next => rw [Tree.part?_lexeme hlexical rfl, Tree.part?_lexeme hlexical rfl]
      next => rfl

theorem bind_typeName?_without (ht : t.Every (Told gone)) (role : Role) :
    ((t.without gone).part? role).bind f.typeName? = (t.part? role).bind f.typeName? := by
  rw [Tree.part?_without ht.lexical]
  cases hpart : t.part? role with
  | none => rfl
  | some type => exact f.typeName?_without (ht.part? hpart)

theorem literalType?_without (ht : t.Every (Told gone)) :
    f.literalType? (t.without gone) = f.literalType? t := by
  unfold literalType?
  rw [Tree.kind_without]
  split
  next => exact f.bind_typeName?_without ht .typ
  next => rfl

/-- The type that `new` allocates. -/
def allocatedType? (type : Tree) : Option TypeName :=
  match type.kind with
  | .identifier => some ⟨f.package, type.text⟩
  | .selectorExpression => do
      let operand ← type.part? .operand
      let member ← type.part? .member
      some ⟨← f.imports.lookup operand.text, member.text⟩
  | _ => f.typeName? type

theorem valueType?_call (h : t.kind = .callExpression) :
    f.valueType? t = t.allocated?.bind f.allocatedType? := by
  unfold valueType? Tree.allocated?
  rw [h]
  simp only [beq_self_eq_true, if_true, Option.bind_eq_bind]
  cases t.part? .function with
  | none => rfl
  | some function =>
      simp only [Option.bind_some]
      split
      next =>
        cases t.part? .arguments with
        | none => rfl
        | some arguments =>
            simp only [Option.bind_some]
            rfl
      next => rfl

/-- What `new` allocates is the same, if no comment stands in its place. -/
theorem allocated?_without (ht : t.Every (Told gone)) (h : t.allocated?.all (Tree.toldArgument gone) = true) :
    (t.without gone).allocated? = t.allocated?.map (Tree.without gone) := by
  unfold Tree.allocated? at h ⊢
  rw [Tree.kind_without, Tree.part?_without ht.lexical, Tree.part?_without ht.lexical]
  split
  next hcall =>
    rw [if_pos hcall] at h
    cases hfunction : t.part? .function with
    | none => rfl
    | some function =>
        have hlexical := (ht.part? hfunction).here.lexical
        have hsame : ((function.without gone).kind == .identifier && (function.without gone).text == "new")
            = (function.kind == .identifier && function.text == "new") := by
          rw [Tree.kind_without]
          cases hk : function.kind == .identifier with
          | false => rfl
          | true => rw [hlexical.without_of_kind (by rw [beq_iff_eq.mp hk]; rfl)]
        simp only [hfunction, Option.bind_eq_bind, Option.map_some, Option.bind_some, hsame] at h ⊢
        split
        next hnew =>
          rw [if_pos hnew] at h
          cases harguments : t.part? .arguments with
          | none => rfl
          | some arguments =>
              simp only [harguments, Option.map_some, Option.bind_some, Tree.named_without] at h ⊢
              refine Tree.head?_withoutAll ?_
              cases hhead : arguments.named.head? with
              | none => rfl
              | some type =>
                  rw [hhead, Option.all_some] at h
                  simpa using (Bool.and_eq_true_iff.mp h).1
        next => rfl
  next => rfl

theorem allocatedType?_without {type : Tree} (ht : type.Every (Told gone))
    (h : type.toldArgument gone = true) : f.allocatedType? (type.without gone) = f.allocatedType? type := by
  have htext := (Bool.and_eq_true_iff.mp h).2
  unfold allocatedType?
  rw [Tree.kind_without]
  split
  next hk => rw [ht.lexical.here.without_of_kind (by rw [hk]; rfl)]
  next =>
    rw [Tree.part?_without ht.lexical, Tree.part?_lexeme ht.lexical rfl]
    cases hoperand : type.part? .operand with
    | none => rfl
    | some operand =>
        rw [hoperand, Option.all_some, beq_iff_eq] at htext
        simp only [Option.bind_eq_bind, Option.map_some, Option.bind_some, htext]
  next => exact f.typeName?_without ht

/-- Everything below what is allocated is below the call. -/
theorem every_allocated? {p : Tree → Prop} {type : Tree} (ht : t.Every p) (h : t.allocated? = some type) :
    type.Every p := by
  unfold Tree.allocated? at h
  split at h
  next =>
    obtain ⟨function, -, h⟩ := Option.bind_eq_some_iff.mp h
    split at h
    next =>
      obtain ⟨arguments, harguments, h⟩ := Option.bind_eq_some_iff.mp h
      exact (ht.part? harguments).named (List.mem_of_mem_head? h)
    next => cases h
  next => cases h

/-- **A value tells the same type.** -/
theorem valueType?_without (ht : t.Every (Told gone)) (h : t.toldValue gone = true) :
    f.valueType? (t.without gone) = f.valueType? t := by
  have htold := (Bool.and_eq_true_iff.mp h).2
  -- only a call of `new` looks past the parts of the value
  by_cases hcall : t.kind = .callExpression
  · rw [f.valueType?_call hcall, f.valueType?_call (by rwa [Tree.kind_without]),
      allocated?_without ht htold]
    cases htype : t.allocated? with
    | none => rfl
    | some type =>
        rw [htype, Option.all_some] at htold
        exact f.allocatedType?_without (every_allocated? ht htype) htold
  · unfold valueType?
    rw [Tree.kind_without]
    split
    next => exact f.literalType?_without ht
    next =>
      rw [Tree.part?_without ht.lexical .operand, Tree.part?_lexeme ht.lexical rfl]
      cases hoperand : t.part? .operand with
      | none => rfl
      | some operand =>
          simp only [Option.bind_eq_bind, Option.map_some, Option.bind_some,
            f.literalType?_without (ht.part? hoperand)]
    next hk => exact absurd hk hcall
    next => rfl

/-! ## Declarations of values -/

/-- The values of a declaration stay at their positions. -/
theorem values_without {role : Role} (ht : t.Every (Told gone))
    (hvalues : t.positioned = ((t.part? role).map Tree.named).getD []) :
    (((t.without gone).part? role).map Tree.named).getD []
        = (((t.part? role).map Tree.named).getD []).map (Tree.without gone) ∧
      ∀ value ∈ ((t.part? role).map Tree.named).getD [],
        f.valueType? (value.without gone) = f.valueType? value := by
  rw [← hvalues]
  refine ⟨?_, fun value hvalue => ?_⟩
  · rw [Tree.part?_without ht.lexical, hvalues]
    cases hpart : t.part? role with
    | none => rfl
    | some list =>
        rw [hpart] at hvalues
        simp only [Option.map_some, Option.getD_some, Tree.named_without] at hvalues ⊢
        refine Tree.withoutAll_eq_map fun value hvalue => ?_
        have htold := ht.here.value (hvalues ▸ hvalue)
        simpa using (Bool.and_eq_true_iff.mp htold).1
  · refine f.valueType?_without ?_ (ht.here.value hvalue)
    rw [hvalues] at hvalue
    cases hpart : t.part? role with
    | none => simp [hpart] at hvalue
    | some list =>
        simp only [hpart, Option.map_some, Option.getD_some] at hvalue
        exact (ht.part? hpart).named hvalue

theorem specType?_without (ht : t.Every (Told gone)) (hk : t.kind = .varSpec ∨ t.kind = .constSpec)
    (i : Nat) : f.specType? (t.without gone) i = f.specType? t i := by
  have hvalues : t.positioned = ((t.part? .value).map Tree.named).getD [] := by
    unfold Tree.positioned
    rcases hk with hk | hk <;> rw [hk]
  obtain ⟨hlist, htypes⟩ := f.values_without ht hvalues
  have hspec : ∀ spec : Tree, (do f.valueType? (← (← spec.part? .value).named[i]?))
      = (((spec.part? .value).map Tree.named).getD [])[i]?.bind f.valueType? := fun spec => by
    cases spec.part? .value <;> rfl
  unfold specType?
  rw [f.bind_typeName?_without ht, hspec, hspec, hlist, List.getElem?_map]
  cases hvalue : (((t.part? .value).map Tree.named).getD [])[i]? with
  | none => rfl
  | some value => rw [Option.map_some, Option.bind_some, Option.bind_some,
      htypes value (List.mem_of_getElem? hvalue)]

/-! ## Bindings -/

theorem identifiers_without (ht : t.Every Tree.Lexical) : identifiers (t.without gone) = identifiers t := by
  unfold identifiers
  rw [Tree.kind_without]
  split
  next hk => rw [ht.here.without_of_kind (by rw [beq_iff_eq.mp hk]; rfl)]
  next =>
    rw [Tree.named_without, Tree.filter_kind_withoutAll (by decide), List.map_map]
    refine List.map_congr_left fun c hc => ?_
    obtain ⟨hc, hk⟩ := List.mem_filter.mp hc
    have hlexical := (ht.named hc).here
    exact congrArg Tree.text (hlexical.without_of_kind (by rw [beq_iff_eq.mp hk]; rfl))

theorem listed_without (ht : t.Every Tree.Lexical) (role : Role) :
    (((t.without gone).part? role).map identifiers).getD [] = ((t.part? role).map identifiers).getD [] := by
  rw [Tree.part?_without ht]
  cases hpart : t.part? role with
  | none => rfl
  | some list => exact identifiers_without (ht.part? hpart)

theorem untyped_without (ht : t.Every Tree.Lexical) (role : Role) :
    untyped (t.without gone) role = untyped t role := by
  rw [untyped, listed_without ht, untyped]

theorem shortNames_without (ht : t.Every (Told gone)) (hk : t.kind = .shortVarDeclaration) :
    f.shortNames (t.without gone) = f.shortNames t := by
  have hvalues : t.positioned = ((t.part? .right).map Tree.named).getD [] := by
    rw [Tree.positioned, hk]
  obtain ⟨hlist, htypes⟩ := f.values_without ht hvalues
  unfold shortNames
  have hmap : (((t.part? .right).map Tree.named).getD []).map (f.valueType? ∘ Tree.without gone)
      = (((t.part? .right).map Tree.named).getD []).map f.valueType? := List.map_congr_left htypes
  simp only [listed_without ht.lexical, hlist, List.length_map, List.map_map, hmap]

theorem parameterNames_without (ht : t.Every (Told gone)) :
    f.parameterNames (t.without gone) = f.parameterNames t := by
  unfold parameterNames
  rw [Tree.kind_without, Tree.named_without]
  split
  next => rfl
  next =>
    refine Tree.flatMap_withoutAll (fun p _ hgone => ?_) fun p hp _ => ?_
    · have hk : p.kind = .comment := Tree.kind_of_isGone hgone
      simp [hk]
    · have hp' := ht.named hp
      rw [Tree.kind_without, Tree.names_without hp'.lexical, f.bind_typeName?_without hp']

theorem parameterScope_without {body : Tree} (ht : t.Every (Told gone)) (roles : List Role) :
    f.parameterScope (t.without gone) (body.without gone) roles = f.parameterScope t body roles := by
  unfold parameterScope
  refine congrArg roles.flatMap (funext fun role => ?_)
  rw [Tree.part?_without ht.lexical]
  cases hlist : t.part? role with
  | none => rfl
  | some list =>
      simp only [Option.map_some, Tree.first_without, Tree.last_without,
        f.parameterNames_without (ht.part? hlist)]

/-- **A node makes the same bindings.** -/
theorem bindings_without (ht : t.Every (Told gone)) (stop : Nat) :
    f.bindings (t.without gone) stop = f.bindings t stop := by
  unfold bindings
  rw [Tree.kind_without, Tree.first_without, Tree.last_without]
  split
  next hk => rw [f.shortNames_without ht hk]
  next hk => simp only [Tree.names_without ht.lexical, f.specType?_without ht (.inl hk)]
  next hk => simp only [Tree.names_without ht.lexical, f.specType?_without ht (.inr hk)]
  next => rw [Tree.names_without ht.lexical]
  next => rw [Tree.names_without ht.lexical]
  next => rw [untyped_without ht.lexical]
  next => rw [untyped_without ht.lexical]
  next =>
    rw [Tree.part?_without ht.lexical, untyped_without ht.lexical]
    cases t.part? .binder with
    | none => rfl
    | some binder => simp only [Option.map_some, Tree.last_without]
  next =>
    rw [Tree.part?_without ht.lexical]
    cases t.part? .body with
    | none => rfl
    | some body => exact f.parameterScope_without ht _
  next => rfl

/-! ## Declared types -/

theorem specs_without (t : Tree) {kind group : Kind} (hkind : kind ≠ .comment) (hgroup : group ≠ .comment) :
    specs (t.without gone) kind group = (specs t kind group).map (Tree.without gone) := by
  unfold specs
  rw [Tree.named_without, List.map_flatMap]
  refine Tree.flatMap_withoutAll (fun child _ hgone => ?_) fun child _ _ => ?_
  · have hk : child.kind = .comment := Tree.kind_of_isGone hgone
    simp [hk, hkind.symm, hgroup.symm]
  · rw [Tree.kind_without, Tree.named_without, Tree.filter_kind_withoutAll hkind]
    split
    next => rfl
    next =>
      split
      next => rfl
      next => rfl

theorem every_specs {p : Tree → Prop} {kind group : Kind} {spec : Tree} (ht : t.Every p)
    (h : spec ∈ specs t kind group) : spec.kind = kind ∧ spec.Every p := by
  obtain ⟨child, hchild, h⟩ := List.mem_flatMap.mp h
  have hchild := ht.named hchild
  split at h
  next hk =>
    obtain rfl := List.mem_singleton.mp h
    exact ⟨beq_iff_eq.mp hk, hchild⟩
  next =>
    split at h
    next =>
      obtain ⟨hspec, hk⟩ := List.mem_filter.mp h
      exact ⟨beq_iff_eq.mp hk, hchild.named hspec⟩
    next => exact absurd h List.not_mem_nil

theorem addVars_without (ht : t.Every (Told gone)) (hk : t.kind = .varSpec) (table : TypeEnv) :
    f.addVars table (t.without gone) = f.addVars table t := by
  unfold addVars
  simp only [Tree.names_without ht.lexical, f.specType?_without ht (.inl hk)]

theorem addField_without (ht : t.Every (Told gone)) (owner : TypeName) (table : TypeEnv) :
    f.addField owner table (t.without gone) = f.addField owner table t := by
  unfold addField
  rw [f.bind_typeName?_without ht, Tree.names_without ht.lexical]

theorem addFields_without (ht : t.Every (Told gone)) (table : TypeEnv) :
    f.addFields table (t.without gone) = f.addFields table t := by
  have hname : (t.without gone).part? .name = t.part? .name := Tree.part?_lexeme ht.lexical rfl
  unfold addFields
  rw [hname, Tree.part?_without ht.lexical]
  cases t.part? .name with
  | none => rfl
  | some name =>
      cases htype : t.part? .typ with
      | none => rfl
      | some type =>
          have htype := ht.part? htype
          simp only [Option.map_some, Tree.kind_without, Tree.named_without,
            Tree.find?_kind_withoutAll (show Kind.fieldDeclarationList ≠ .comment by decide)]
          split
          next =>
            cases hlist : type.named.find? (·.kind == .fieldDeclarationList) with
            | none => rfl
            | some list =>
                have hlist := htype.named (List.mem_of_find?_eq_some hlist)
                simp only [Option.map_some, Tree.named_without,
                  Tree.filter_kind_withoutAll (show Kind.fieldDeclaration ≠ .comment by decide),
                  List.foldl_map]
                refine List.foldl_ext _ _ _ fun table field hfield => ?_
                exact f.addField_without
                  (hlist.named (List.mem_filter.mp hfield).1) _ table
          next => rfl

/-- **A file declares the same types.** -/
theorem topLevelTypes_without {root root' : Tree} (hroot : root'.named = Tree.withoutAll gone root.named)
    (hitems : ∀ t ∈ root.named, t.Every (Told gone)) : f.topLevelTypes root' = f.topLevelTypes root := by
  unfold topLevelTypes
  rw [hroot]
  refine Tree.foldl_withoutAll (fun table t _ hgone => ?_) (fun table t ht _ => ?_) _
  · have hk : t.kind = .comment := Tree.kind_of_isGone hgone
    simp [hk]
  · have ht := hitems t ht
    rw [Tree.kind_without, specs_without t (by decide) (by decide), specs_without t (by decide) (by decide),
      List.foldl_map, List.foldl_map]
    split
    next =>
      refine List.foldl_ext _ _ _ fun table spec hspec => ?_
      obtain ⟨hk, hspec⟩ := every_specs ht hspec
      exact f.addVars_without hspec hk table
    next =>
      split
      next => exact List.foldl_ext _ _ _ fun table spec hspec =>
        f.addFields_without (every_specs ht hspec).2 table
      next => rfl

end FileScope

end GoExcerpt
