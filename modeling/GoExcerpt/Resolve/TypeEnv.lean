/-!
# `Resolve.TypeEnv` — what is known about types across a module

The table answers two questions: the named type of a package variable and of a struct field. A later
declaration of the same variable or field hides the earlier one.
-/

namespace GoExcerpt

/-- A named type, identified by its declaring package. -/
structure TypeName where
  package : String
  name : String
deriving DecidableEq, Repr, Inhabited

/-- Known types of package variables and struct fields, latest declaration first. -/
structure TypeEnv where
  vars : List ((String × String) × TypeName) := []
  fields : List ((TypeName × String) × TypeName) := []
deriving DecidableEq, Repr, Inhabited

namespace TypeEnv

def empty : TypeEnv := {}

def addVar (t : TypeEnv) (package name : String) (type : TypeName) : TypeEnv :=
  { t with vars := ((package, name), type) :: t.vars }

def addField (t : TypeEnv) (owner : TypeName) (field : String) (type : TypeName) : TypeEnv :=
  { t with fields := ((owner, field), type) :: t.fields }

/-- The type of a package variable. -/
def var? (t : TypeEnv) (package name : String) : Option TypeName := t.vars.lookup (package, name)

/-- The type of a struct field. -/
def field? (t : TypeEnv) (owner : TypeName) (field : String) : Option TypeName :=
  t.fields.lookup (owner, field)

/-- Both tables; where they disagree the second decides. -/
def merge (a b : TypeEnv) : TypeEnv :=
  { vars := b.vars ++ a.vars, fields := b.fields ++ a.fields }

/-! ## What the table answers -/

@[simp] theorem var?_empty (package name : String) : empty.var? package name = none := rfl

@[simp] theorem field?_empty (owner : TypeName) (field : String) : empty.field? owner field = none :=
  rfl

theorem var?_addVar (t : TypeEnv) (package name p n : String) (type : TypeName) :
    (t.addVar package name type).var? p n =
      if (p, n) = (package, name) then some type else t.var? p n := by
  by_cases h : (p, n) = (package, name)
  · simp [var?, addVar, h]
  · have hb : ((p, n) == (package, name)) = false := beq_eq_false_iff_ne.mpr h
    simp [var?, addVar, List.lookup_cons, hb, h]

theorem field?_addField (t : TypeEnv) (owner o : TypeName) (field f : String)
    (type : TypeName) :
    (t.addField owner field type).field? o f =
      if (o, f) = (owner, field) then some type else t.field? o f := by
  by_cases h : (o, f) = (owner, field)
  · simp [field?, addField, h]
  · have hb : ((o, f) == (owner, field)) = false := beq_eq_false_iff_ne.mpr h
    simp [field?, addField, List.lookup_cons, hb, h]

@[simp] theorem var?_merge (a b : TypeEnv) (package name : String) :
    (a.merge b).var? package name = (b.var? package name).or (a.var? package name) := by
  simp [var?, merge, List.lookup_append]

@[simp] theorem field?_merge (a b : TypeEnv) (owner : TypeName) (field : String) :
    (a.merge b).field? owner field = (b.field? owner field).or (a.field? owner field) := by
  simp [field?, merge, List.lookup_append]

end TypeEnv
end GoExcerpt
