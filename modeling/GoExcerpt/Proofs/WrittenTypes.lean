import GoExcerpt.Resolve.Unit

/-!
# `Proofs.WrittenTypes` — the named type behind a written type

Going down a tree is a walk along one child at a time (`StandsFor`, `descend_eq_some`). Where it goes through
pointers, parentheses and type arguments it ends at the name that a written type is about (`NamedBehind`). Both
readers of types find this name: the one for variables, which also says what package it belongs to
(`typeName?_eq_some`), and the one for receivers (`receiverBase?_eq_some`).
-/

namespace GoExcerpt

namespace Tree

variable {way : Kind → Option Descent} {t core : Tree}

/-! ## Going down -/

/-- **A tree stands for what the directions lead to.** -/
inductive StandsFor (way : Kind → Option Descent) : Tree → Tree → Prop where
  | here {t : Tree} (hway : way t.kind = none) : StandsFor way t t
  | part {t u core : Tree} {role : Role} (hway : way t.kind = some (.part role))
      (hu : t.part? role = some u) (hcore : StandsFor way u core) : StandsFor way t core
  | firstNamed {t u core : Tree} (hway : way t.kind = some .firstNamed)
      (hu : t.named.head? = some u) (hcore : StandsFor way u core) : StandsFor way t core

theorem descendPart_eq (role : Role) (ts : List Tree) :
    descendPart way role ts = (ts.find? (·.role == some role)).bind (descend way) := by
  induction ts with
  | nil => rfl
  | cons t ts ih =>
      rw [descendPart, List.find?_cons, ih]
      cases t.role == some role <;> rfl

theorem descendNamed_eq (ts : List Tree) :
    descendNamed way ts = (ts.filter isNamed).head?.bind (descend way) := by
  rw [List.head?_filter]
  induction ts with
  | nil => rfl
  | cons t ts ih =>
      rw [descendNamed, List.find?_cons, ih]
      cases t.isNamed <;> rfl

mutual
theorem standsFor_of_descend : (t : Tree) → t.descend way = some core → StandsFor way t core
  | .leaf k r e text, h => by
      rw [descend] at h
      split at h
      next => cases h
      next hway =>
        have hkind : way k = none := by simpa using hway
        exact Option.some.inj h ▸ .here hkind
  | .node k r e cs, h => by
      rw [descend] at h
      split at h
      next hway => exact Option.some.inj h ▸ .here hway
      next role hway =>
        obtain ⟨u, hu, hcore⟩ := standsFor_of_descendPart cs h
        exact .part hway hu hcore
      next hway =>
        obtain ⟨u, hu, hcore⟩ := standsFor_of_descendNamed cs h
        exact .firstNamed hway hu hcore

theorem standsFor_of_descendPart {role : Role} : (ts : List Tree) →
    descendPart way role ts = some core →
      ∃ u, ts.find? (·.role == some role) = some u ∧ StandsFor way u core
  | [], h => nomatch h
  | t :: ts, h => by
      rw [descendPart] at h
      split at h
      next hrole => exact ⟨t, List.find?_cons_of_pos hrole, standsFor_of_descend t h⟩
      next hrole =>
        obtain ⟨u, hu, hcore⟩ := standsFor_of_descendPart ts h
        exact ⟨u, by rw [List.find?_cons_of_neg (by exact hrole)]; exact hu, hcore⟩

theorem standsFor_of_descendNamed : (ts : List Tree) → descendNamed way ts = some core →
    ∃ u, (ts.filter isNamed).head? = some u ∧ StandsFor way u core
  | [], h => nomatch h
  | t :: ts, h => by
      rw [descendNamed] at h
      split at h
      next hnamed => exact ⟨t, by rw [List.filter_cons_of_pos hnamed]; rfl, standsFor_of_descend t h⟩
      next hnamed =>
        obtain ⟨u, hu, hcore⟩ := standsFor_of_descendNamed ts h
        exact ⟨u, by rw [List.filter_cons_of_neg hnamed]; exact hu, hcore⟩
end

/-- **Going down finds what a tree stands for.** -/
theorem descend_eq_some : t.descend way = some core ↔ StandsFor way t core := by
  refine ⟨standsFor_of_descend t, fun h => ?_⟩
  induction h with
  | @here t hway =>
      cases t with
      | leaf k r e text =>
          have hkind : way k = none := hway
          simp [descend, hkind]
      | node k r e cs =>
          have hkind : way k = none := hway
          simp [descend, hkind]
  | @part t u core role hway hu hcore ih =>
      cases t with
      | leaf k r e text => cases hu
      | node k r e cs =>
          have hkind : way k = some (.part role) := hway
          have hchild : cs.find? (·.role == some role) = some u := hu
          rw [descend, hkind]
          show descendPart way role cs = _
          rw [descendPart_eq, hchild]
          exact ih
  | @firstNamed t u core hway hu hcore ih =>
      cases t with
      | leaf k r e text => cases hu
      | node k r e cs =>
          have hkind : way k = some .firstNamed := hway
          have hchild : (cs.filter isNamed).head? = some u := hu
          rw [descend, hkind]
          show descendNamed way cs = _
          rw [descendNamed_eq, hchild]
          exact ih

/-! ## Through written types -/

/-- **The name behind the pointers, parentheses and type arguments of a written type.** -/
inductive NamedBehind : Tree → Tree → Prop where
  | name {t : Tree} (hkind : t.kind = .typeIdentifier ∨ t.kind = .qualifiedType) : NamedBehind t t
  | pointer {t u core : Tree} (hkind : t.kind = .pointerType) (hu : t.named.head? = some u)
      (hcore : NamedBehind u core) : NamedBehind t core
  | parentheses {t u core : Tree} (hkind : t.kind = .parenthesizedType)
      (hu : t.named.head? = some u) (hcore : NamedBehind u core) : NamedBehind t core
  | arguments {t u core : Tree} (hkind : t.kind = .genericType) (hu : t.part? .typ = some u)
      (hcore : NamedBehind u core) : NamedBehind t core

theorem NamedBehind.standsFor (h : NamedBehind t core) : StandsFor throughType t core := by
  induction h with
  | name hkind =>
      refine .here ?_
      rcases hkind with hkind | hkind <;> rw [hkind] <;> rfl
  | pointer hkind hu _ ih => exact .firstNamed (by rw [hkind]; rfl) hu ih
  | parentheses hkind hu _ ih => exact .firstNamed (by rw [hkind]; rfl) hu ih
  | arguments hkind hu _ ih => exact .part (by rw [hkind]; rfl) hu ih

theorem StandsFor.namedBehind (h : StandsFor throughType t core)
    (hkind : core.kind = .typeIdentifier ∨ core.kind = .qualifiedType) : NamedBehind t core := by
  induction h with
  | here => exact .name hkind
  | @part t u core role hway hu _ ih =>
      unfold throughType at hway
      split at hway
      next => cases hway
      next => cases hway
      next ht =>
        obtain rfl := Descent.part.inj (Option.some.inj hway)
        exact .arguments ht hu (ih hkind)
      next => cases hway
  | @firstNamed t u core hway hu _ ih =>
      unfold throughType at hway
      split at hway
      next ht => exact .pointer ht hu (ih hkind)
      next ht => exact .parentheses ht hu (ih hkind)
      next => cases hway
      next => cases hway

end Tree

namespace FileScope

variable {f : FileScope}

/-- **The named type that a written type is about:** one of the file's own package, or one of a package
    the file imports. -/
inductive Written (f : FileScope) (type : Tree) : TypeName → Prop where
  | own {core : Tree} (hcore : type.NamedBehind core) (hkind : core.kind = .typeIdentifier) :
      Written f type ⟨f.package, core.text⟩
  | imported {core qualifier name : Tree} {path : String} (hcore : type.NamedBehind core)
      (hkind : core.kind = .qualifiedType) (hqualifier : core.part? .qualifier = some qualifier)
      (hname : core.part? .name = some name)
      (himport : f.imports.lookup qualifier.text = some path) : Written f type ⟨path, name.text⟩

/-- **A written type is read as the named type it is about.** -/
theorem typeName?_eq_some {type : Tree} {t : TypeName} :
    f.typeName? type = some t ↔ f.Written type t := by
  unfold typeName?
  constructor
  · intro h
    obtain ⟨core, hcore, h⟩ := Option.bind_eq_some_iff.mp h
    have hstands := Tree.descend_eq_some.mp hcore
    split at h
    next hkind =>
      obtain rfl := Option.some.inj h
      exact .own (hstands.namedBehind (.inl hkind)) hkind
    next hkind =>
      obtain ⟨qualifier, hqualifier, h⟩ := Option.bind_eq_some_iff.mp h
      obtain ⟨name, hname, h⟩ := Option.bind_eq_some_iff.mp h
      obtain ⟨path, himport, h⟩ := Option.bind_eq_some_iff.mp h
      obtain rfl := Option.some.inj h
      exact .imported (hstands.namedBehind (.inr hkind)) hkind hqualifier hname himport
    next => cases h
  · intro h
    cases h with
    | @own core hcore hkind =>
        refine Option.bind_eq_some_iff.mpr ⟨core, Tree.descend_eq_some.mpr hcore.standsFor, ?_⟩
        rw [hkind]
    | @imported core qualifier name path hcore hkind hqualifier hname himport =>
        refine Option.bind_eq_some_iff.mpr ⟨core, Tree.descend_eq_some.mpr hcore.standsFor, ?_⟩
        rw [hkind]
        exact Option.bind_eq_some_iff.mpr ⟨qualifier, hqualifier,
          Option.bind_eq_some_iff.mpr ⟨name, hname, Option.bind_eq_some_iff.mpr ⟨path, himport, rfl⟩⟩⟩

/-- **The base type of a receiver,** by its own declaration. -/
structure BaseType (receiver core : Tree) : Prop where
  written : ∃ parameter type, receiver.named.find? (·.kind == .parameterDeclaration) = some parameter ∧
    parameter.part? .typ = some type ∧ type.NamedBehind core
  kind : core.kind = .typeIdentifier

theorem receiverBase?_eq_some {receiver : Tree} {base : String} :
    receiverBase? receiver = some base ↔ ∃ core, BaseType receiver core ∧ core.text = base := by
  unfold receiverBase?
  constructor
  · intro h
    obtain ⟨parameter, hparameter, h⟩ := Option.bind_eq_some_iff.mp h
    obtain ⟨type, htype, h⟩ := Option.bind_eq_some_iff.mp h
    obtain ⟨core, hcore, h⟩ := Option.bind_eq_some_iff.mp h
    split at h
    next hkind =>
      have hkind' := beq_iff_eq.mp hkind
      have hbehind := (Tree.descend_eq_some.mp hcore).namedBehind (.inl hkind')
      exact ⟨core, ⟨⟨parameter, type, hparameter, htype, hbehind⟩, hkind'⟩, Option.some.inj h⟩
    next => cases h
  · rintro ⟨core, ⟨⟨parameter, type, hparameter, htype, hbehind⟩, hkind⟩, rfl⟩
    refine Option.bind_eq_some_iff.mpr ⟨parameter, hparameter, Option.bind_eq_some_iff.mpr ⟨type, htype,
      Option.bind_eq_some_iff.mpr ⟨core, Tree.descend_eq_some.mpr hbehind.standsFor, ?_⟩⟩⟩
    rw [if_pos (beq_iff_eq.mpr hkind)]

end FileScope
end GoExcerpt
