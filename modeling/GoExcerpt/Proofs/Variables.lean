import GoExcerpt.Proofs.Loaded

/-!
# `Proofs.Variables` — which variable a name means, and its type

A name means the binding that starts last among those visible (`lookup_eq_some_of_latest`). A parameter or
local variable with a written type makes a binding of that type (`LocalVar.mem_scopeOf`), and a package
variable makes an entry in the table of types (`mem_vars_moduleTypes`), so where a package declares a
variable once the table gives its written type (`PackageVar.var?_eq`).
-/

namespace GoExcerpt

/-! ## Bindings -/

namespace Binding

/-- The binding that starts after all others survives the choice. -/
theorem foldl_latest {b : Binding} {bs : List Binding} {best : Option Binding}
    (hbest : ∀ a, best = some a → a = b ∨ a.start < b.start)
    (hothers : ∀ o ∈ bs, o = b ∨ o.start < b.start) (hthere : best = some b ∨ b ∈ bs) :
    bs.foldl latest best = some b := by
  induction bs generalizing best with
  | nil => exact hthere.resolve_right List.not_mem_nil
  | cons o rest ih =>
      have ho := hothers o List.mem_cons_self
      rw [List.foldl_cons]
      refine ih ?_ (fun o' ho' => hothers o' (List.mem_cons_of_mem _ ho')) ?_
      · intro a ha
        rcases latest_eq_or best o with h | h
        · obtain rfl := Option.some.inj (h.symm.trans ha)
          exact ho
        · exact hbest a (h.symm.trans ha)
      · -- `b` is held or comes next: then it is held now; or it comes later
        rcases hthere with rfl | hmem
        · rcases ho with rfl | hlt
          · exact .inl (by simp [latest])
          · exact .inl (if_neg (Nat.not_le.mpr hlt))
        · rcases List.mem_cons.mp hmem with rfl | hmem
          · refine .inl ?_
            cases best with
            | none => rfl
            | some a =>
                rcases hbest a rfl with rfl | hlt
                · exact if_pos (Nat.le_refl _)
                · exact if_pos (Nat.le_of_lt hlt)
          · exact .inr hmem

end Binding

/-- **A name means the visible binding that starts after all others of the name.** -/
theorem Scope.lookup_eq_some_of_latest {scope : Scope} {b : Binding} {at_ : Nat} (hmem : b ∈ scope)
    (hvisible : b.isVisible at_ = true)
    (hlatest : ∀ o ∈ scope, o.name = b.name → o.isVisible at_ = true → o = b ∨ o.start < b.start) :
    scope.lookup b.name at_ = some b := by
  refine Binding.foldl_latest (fun _ h => nomatch h) (fun o ho => ?_) (.inr ?_)
  · obtain ⟨ho, hname⟩ := List.mem_filter.mp ho
    obtain ⟨hname, hseen⟩ := Bool.and_eq_true_iff.mp hname
    exact hlatest o ho (beq_iff_eq.mp hname) hseen
  · exact List.mem_filter.mpr ⟨hmem, by simp [hvisible]⟩

/-- A name of which no binding is visible means none. -/
theorem Scope.lookup_eq_none {scope : Scope} {name : String} {at_ : Nat}
    (h : ∀ b ∈ scope, b.name = name → b.isVisible at_ = false) : scope.lookup name at_ = none := by
  have hfilter : (scope.filter fun b => b.name == name && b.isVisible at_) = [] := by
    rw [List.filter_eq_nil_iff]
    intro b hb hboth
    obtain ⟨hname, hvisible⟩ := Bool.and_eq_true_iff.mp hboth
    exact Bool.noConfusion ((h b hb (beq_iff_eq.mp hname)).symm.trans hvisible)
  unfold lookup
  rw [hfilter]
  rfl

namespace FileScope

variable {f : FileScope}

/-- **A parameter or local variable with a written type:** its name, the type, and the stretch of the
    file where it can be seen. -/
inductive LocalVar (caller body : Tree) (v : String) (type : Tree) : Nat → Nat → Prop where
  /-- a receiver, parameter or result of the function -/
  | parameter {role : Role} {list p : Tree} (hrole : role ∈ [Role.receiver, .parameters, .result])
      (hlist : caller.part? role = some list) (hkind : list.kind = .parameterList)
      (hp : p ∈ list.named) (hpkind : p.kind = .parameterDeclaration) (hv : v ∈ names p)
      (htype : p.part? .typ = some type) : LocalVar caller body v type body.first body.last
  /-- a variable or constant of the body -/
  | declared {spec : Tree} {stop : Nat} (hspec : (spec, stop) ∈ body.preorderScoped caller.last)
      (hkind : spec.kind = .varSpec ∨ spec.kind = .constSpec) (hv : v ∈ names spec)
      (htype : spec.part? .typ = some type) : LocalVar caller body v type spec.last stop
  /-- a parameter or result of a function literal in the body -/
  | literal {literal inner list p : Tree} {stop : Nat} {role : Role}
      (hliteral : (literal, stop) ∈ body.preorderScoped caller.last)
      (hliteralKind : literal.kind = .funcLiteral) (hinner : literal.part? .body = some inner)
      (hrole : role ∈ [Role.parameters, .result]) (hlist : literal.part? role = some list)
      (hkind : list.kind = .parameterList) (hp : p ∈ list.named)
      (hpkind : p.kind = .parameterDeclaration) (hv : v ∈ names p)
      (htype : p.part? .typ = some type) : LocalVar caller body v type inner.first inner.last

theorem mem_bind {start stop : Nat} {named : List (String × Option TypeName)} {v : String}
    {t : Option TypeName} (h : (v, t) ∈ named) (hv : v ≠ "_") :
    (⟨v, t, start, stop⟩ : Binding) ∈ bind start stop named :=
  List.mem_map.mpr ⟨(v, t), List.mem_filter.mpr ⟨h, by simpa using hv⟩, rfl⟩

/-- The names of a parameter are bound with its written type. -/
theorem mem_parameterScope {function body list p type : Tree} {roles : List Role} {role : Role}
    {v : String} {t : TypeName} (hrole : role ∈ roles) (hlist : function.part? role = some list)
    (hkind : list.kind = .parameterList) (hp : p ∈ list.named)
    (hpkind : p.kind = .parameterDeclaration) (hv : v ∈ names p) (htype : p.part? .typ = some type)
    (ht : f.typeName? type = some t) (hblank : v ≠ "_") :
    (⟨v, some t, body.first, body.last⟩ : Binding) ∈ f.parameterScope function body roles := by
  refine List.mem_flatMap.mpr ⟨role, hrole, ?_⟩
  rw [hlist]
  refine mem_bind ?_ hblank
  unfold parameterNames
  rw [if_neg (by simp [hkind])]
  refine List.mem_flatMap.mpr ⟨p, hp, ?_⟩
  rw [if_pos (beq_iff_eq.mpr hpkind)]
  refine List.mem_map.mpr ⟨v, hv, ?_⟩
  rw [htype]
  show (v, f.typeName? type) = (v, some t)
  rw [ht]

/-- The written type of a specification is the type of all its names. -/
theorem specType?_eq_some {spec type : Tree} {t : TypeName} (htype : spec.part? .typ = some type)
    (ht : f.typeName? type = some t) (i : Nat) : f.specType? spec i = some t := by
  unfold specType?
  rw [htype]
  show (f.typeName? type).or _ = some t
  rw [ht]
  rfl

theorem exists_mem_zipIdx {α : Type} {a : α} {l : List α} (h : a ∈ l) : ∃ i, (a, i) ∈ l.zipIdx := by
  obtain ⟨i, hi⟩ := List.getElem?_of_mem h
  exact ⟨i, List.mk_mem_zipIdx_iff_getElem?.mpr hi⟩

/-- **A local variable with a written type is bound with what that type means.** -/
theorem LocalVar.mem_scopeOf {caller body type : Tree} {v : String} {start stop : Nat}
    (h : LocalVar caller body v type start stop) {t : TypeName} (ht : f.typeName? type = some t)
    (hblank : v ≠ "_") : (⟨v, some t, start, stop⟩ : Binding) ∈ f.scopeOf caller body := by
  cases h with
  | parameter hrole hlist hkind hp hpkind hv htype =>
      exact List.mem_append_left _
        (mem_parameterScope hrole hlist hkind hp hpkind hv htype ht hblank)
  | @declared spec stop hspec hkind hv htype =>
      refine List.mem_append_right _ (List.mem_flatMap.mpr ⟨(spec, stop), hspec, ?_⟩)
      obtain ⟨i, hi⟩ := exists_mem_zipIdx hv
      have hnamed : (v, some t) ∈ (names spec).zipIdx.map fun listed => (listed.1, f.specType? spec listed.2) :=
        List.mem_map.mpr ⟨(v, i), hi, congrArg _ (specType?_eq_some htype ht i)⟩
      rcases hkind with hkind | hkind
      · simpa only [bindings, hkind] using mem_bind hnamed hblank
      · simpa only [bindings, hkind] using mem_bind hnamed hblank
  | @literal literal inner list p stop role hliteral hliteralKind hinner hrole hlist hkind hp hpkind
      hv htype =>
      refine List.mem_append_right _ (List.mem_flatMap.mpr ⟨(literal, stop), hliteral, ?_⟩)
      simp only [bindings, hliteralKind, hinner]
      exact mem_parameterScope hrole hlist hkind hp hpkind hv htype ht hblank

/-! ## The table of types -/

theorem mem_vars_foldl {α : Type} {step : TypeEnv → α → TypeEnv} {x : (String × String) × TypeName}
    (adds : α → Prop) (hstep : ∀ table a, x ∈ (step table a).vars ↔ x ∈ table.vars ∨ adds a)
    (l : List α) (table : TypeEnv) :
    x ∈ (l.foldl step table).vars ↔ x ∈ table.vars ∨ ∃ a ∈ l, adds a := by
  induction l generalizing table with
  | nil => simp
  | cons a rest ih =>
      rw [List.foldl_cons, ih, hstep, or_assoc]
      simp only [List.exists_mem_cons_iff]

/-- A specification lists a variable, which has the given type. -/
def Lists (f : FileScope) (spec : Tree) (v : String) (t : TypeName) : Prop :=
  ∃ i, (v, i) ∈ (names spec).zipIdx ∧ f.specType? spec i = some t

theorem mem_vars_addVars {table : TypeEnv} {spec : Tree} {package v : String} {t : TypeName} :
    ((package, v), t) ∈ (f.addVars table spec).vars ↔
      ((package, v), t) ∈ table.vars ∨ (package = f.package ∧ f.Lists spec v t) := by
  unfold addVars
  rw [mem_vars_foldl fun listed =>
    package = f.package ∧ v = listed.1 ∧ f.specType? spec listed.2 = some t]
  · refine or_congr_right ⟨?_, ?_⟩
    · rintro ⟨⟨name, i⟩, hlisted, hpackage, rfl, ht⟩
      exact ⟨hpackage, i, hlisted, ht⟩
    · rintro ⟨hpackage, i, hlisted, ht⟩
      exact ⟨(v, i), hlisted, hpackage, rfl, ht⟩
  · rintro table ⟨name, i⟩
    cases htype : f.specType? spec i with
    | none => simp [htype]
    | some type => simp [htype, TypeEnv.addVar, or_comm, and_assoc, eq_comm]

/-- Fields of structs are no variables. -/
theorem mem_vars_addField {owner : TypeName} {table : TypeEnv} {field : Tree}
    {x : (String × String) × TypeName} :
    x ∈ (f.addField owner table field).vars ↔ x ∈ table.vars := by
  unfold addField
  cases (field.part? .typ).bind f.typeName? with
  | none => rfl
  | some type =>
      cases names field with
      | nil => rfl
      | cons first more =>
          refine (mem_vars_foldl (fun _ => False) (fun table name => ?_) _ _).trans (by simp)
          simp [TypeEnv.addField]

theorem mem_vars_addFields {table : TypeEnv} {spec : Tree} {x : (String × String) × TypeName} :
    x ∈ (f.addFields table spec).vars ↔ x ∈ table.vars := by
  unfold addFields
  split
  next =>
    split
    next =>
      split
      next =>
        refine (mem_vars_foldl (fun _ => False) (fun table field => ?_) _ _).trans (by simp)
        simpa using mem_vars_addField
      next => rfl
    next => rfl
  next => rfl

/-- The variable specifications of a file. -/
def varSpecs (root : Tree) : List Tree :=
  (root.named.filter (·.kind == .varDeclaration)).flatMap (specs · .varSpec .varSpecList)

/-- **The table of a file has the types of its variable specifications.** -/
theorem mem_vars_topLevelTypes {root : Tree} {package v : String} {t : TypeName} :
    ((package, v), t) ∈ (f.topLevelTypes root).vars ↔
      package = f.package ∧ ∃ spec ∈ varSpecs root, f.Lists spec v t := by
  unfold topLevelTypes
  rw [mem_vars_foldl fun child => child.kind = .varDeclaration ∧
    ∃ spec ∈ specs child .varSpec .varSpecList, package = f.package ∧ f.Lists spec v t]
  · simp only [TypeEnv.empty, List.not_mem_nil, false_or]
    constructor
    · rintro ⟨child, hchild, hkind, spec, hspec, hpackage, hlists⟩
      exact ⟨hpackage, spec, List.mem_flatMap.mpr
        ⟨child, List.mem_filter.mpr ⟨hchild, beq_iff_eq.mpr hkind⟩, hspec⟩, hlists⟩
    · rintro ⟨hpackage, spec, hspec, hlists⟩
      obtain ⟨child, hchild, hspec⟩ := List.mem_flatMap.mp hspec
      obtain ⟨hchild, hkind⟩ := List.mem_filter.mp hchild
      exact ⟨child, hchild, beq_iff_eq.mp hkind, spec, hspec, hpackage, hlists⟩
  · intro table child
    by_cases hvar : child.kind = .varDeclaration
    · rw [if_pos (beq_iff_eq.mpr hvar)]
      simp only [hvar, true_and]
      refine mem_vars_foldl _ (fun table spec => ?_) _ _
      exact mem_vars_addVars
    · rw [if_neg (by simpa using hvar)]
      simp only [hvar, false_and, or_false]
      split
      next =>
        refine (mem_vars_foldl (fun _ => False) (fun table spec => ?_) _ _).trans (by simp)
        simpa using mem_vars_addFields
      next => rfl

end FileScope

namespace Load

variable {groups : List Pending}

/-- A variable specification of a package, with the file it stands in. -/
def VarSpec (groups : List Pending) (package : String) (f : FileScope) (spec : Tree) : Prop :=
  ∃ g ∈ groups, g.importPath = package ∧ ∃ p ∈ g.files,
    f = scopeOf (clauseNames groups) package p ∧ spec ∈ FileScope.varSpecs p.file.root

/-- **The table of a module has the types of the variable specifications of its packages.** -/
theorem mem_vars_moduleTypes {package v : String} {t : TypeName} :
    ((package, v), t) ∈ (moduleTypes (clauseNames groups) groups).vars ↔
      ∃ f spec, VarSpec groups package f spec ∧ f.Lists spec v t := by
  unfold moduleTypes
  rw [FileScope.mem_vars_foldl fun placed => ((package, v), t) ∈
    ((scopeOf (clauseNames groups) placed.1 placed.2).topLevelTypes placed.2.file.root).vars]
  · simp only [TypeEnv.empty, List.not_mem_nil, false_or, FileScope.mem_vars_topLevelTypes]
    constructor
    · rintro ⟨⟨path, p⟩, hp, hpath, spec, hspec, hlists⟩
      obtain ⟨g, hg, hp⟩ := List.mem_flatMap.mp hp
      obtain ⟨p, hfile, heq⟩ := List.mem_map.mp hp
      obtain ⟨rfl, rfl⟩ := Prod.mk.inj heq
      exact ⟨_, spec, ⟨g, hg, hpath.symm, p, hfile, by rw [hpath]; rfl, hspec⟩, hlists⟩
    · rintro ⟨f, spec, ⟨g, hg, rfl, p, hfile, rfl, hspec⟩, hlists⟩
      refine ⟨(g.importPath, p), List.mem_flatMap.mpr ⟨g, hg, List.mem_map_of_mem hfile⟩, ?_⟩
      exact ⟨rfl, spec, hspec, hlists⟩
  · intro table placed
    simp [TypeEnv.merge, or_comm]

/-- **A variable that a package declares, once, with a written type.** -/
structure PackageVar (groups : List Pending) (package v : String) (t : TypeName) : Prop where
  declared : ∃ f spec type, VarSpec groups package f spec ∧ v ∈ FileScope.names spec ∧
    spec.part? .typ = some type ∧ f.Written type t
  once : ∀ f spec f' spec', VarSpec groups package f spec → VarSpec groups package f' spec' →
    v ∈ FileScope.names spec → v ∈ FileScope.names spec' → f = f' ∧ spec = spec'

/-- A key with one value is found with it. -/
theorem lookup_eq_some_of_agree {α β : Type} [BEq α] [LawfulBEq α] {key : α} {value : β}
    {l : List (α × β)} (hmem : (key, value) ∈ l)
    (hagree : ∀ other, (key, other) ∈ l → other = value) : l.lookup key = some value := by
  induction l with
  | nil => exact absurd hmem List.not_mem_nil
  | cons first rest ih =>
      obtain ⟨k, b⟩ := first
      rw [List.lookup_cons]
      by_cases hk : key = k
      · subst hk
        rw [beq_self_eq_true]
        exact congrArg some (hagree b List.mem_cons_self)
      · rw [beq_eq_false_iff_ne.mpr hk]
        refine ih ?_ fun other h => hagree other (List.mem_cons_of_mem _ h)
        exact (List.mem_cons.mp hmem).resolve_left fun h => hk (Prod.mk.inj h).1

theorem PackageVar.var?_eq {package v : String} {t : TypeName} (h : PackageVar groups package v t) :
    (moduleTypes (clauseNames groups) groups).var? package v = some t := by
  obtain ⟨f, spec, type, hspec, hv, htype, hwritten⟩ := h.declared
  have ht := FileScope.typeName?_eq_some.mpr hwritten
  refine lookup_eq_some_of_agree ?_ fun other hother => ?_
  · obtain ⟨i, hi⟩ := FileScope.exists_mem_zipIdx hv
    exact mem_vars_moduleTypes.mpr ⟨f, spec, hspec, i, hi, FileScope.specType?_eq_some htype ht i⟩
  · obtain ⟨f', spec', hspec', i, hi, hother⟩ := mem_vars_moduleTypes.mp hother
    obtain ⟨rfl, rfl⟩ := h.once f spec f' spec' hspec hspec' hv (List.fst_mem_of_mem_zipIdx hi)
    exact Option.some.inj (hother.symm.trans (FileScope.specType?_eq_some htype ht i))

end Load
end GoExcerpt
