import GoExcerpt.Load.Module

/-!
# `Proofs.FileOrder` — the order of files does not matter

Merging tables of types goes key by key: the second table answers where it has the very key asked for, and the
first one elsewhere. Fields kept in groups, a group for each struct, come to the same if groups are merged field
by field (`TypeEnv.Grouped.field?_merge`). So what a gathered table answers is what the last table with the key
answers (`TypeEnv.Question.ask_gather`), and where no two files give one key different types, any order of the
files gives the same answers. Resolving a file looks at nothing else of the table
(`FileScope.unitOf_of_alike`), so it comes out the same too (`gather_in_any_order`).
-/

namespace GoExcerpt

/-! ## Tables -/

namespace TypeEnv

/-- Whether two tables give the same answers. -/
structure Alike (a b : TypeEnv) : Prop where
  var : ∀ package name, a.var? package name = b.var? package name
  field : ∀ owner field, a.field? owner field = b.field? owner field

/-- Whether no two tables have one key with different types. -/
structure Agree (a b : TypeEnv) : Prop where
  var : ∀ package name type type', a.var? package name = some type →
    b.var? package name = some type' → type = type'
  field : ∀ owner field type type', a.field? owner field = some type →
    b.field? owner field = some type' → type = type'

theorem mem_of_lookup {α β : Type} [BEq α] [LawfulBEq α] {l : List (α × β)} {a : α} {b : β}
    (h : l.lookup a = some b) : (a, b) ∈ l := by
  obtain ⟨before, after, rfl, -⟩ := List.lookup_eq_some_iff.mp h
  exact List.mem_append_right _ List.mem_cons_self

/-- Tables agree if all their declarations do, those included that are hidden by later ones. -/
theorem Agree.of_declared {a b : TypeEnv} (hvars : ∀ x ∈ a.vars, ∀ y ∈ b.vars, x.1 = y.1 → x.2 = y.2)
    (hfields : ∀ x ∈ a.fields, ∀ y ∈ b.fields, x.1 = y.1 → x.2 = y.2) : a.Agree b where
  var := fun _ _ _ _ h h' => hvars _ (mem_of_lookup h) _ (mem_of_lookup h') rfl
  field := fun _ _ _ _ h h' => hfields _ (mem_of_lookup h) _ (mem_of_lookup h') rfl

/-! ## Laws of merging -/

/-- Asking a table for one key. -/
structure Question where
  ask : TypeEnv → Option TypeName
  empty : ask .empty = none
  merge : ∀ a b, ask (a.merge b) = (ask b).or (ask a)

def varQuestion (package name : String) : Question where
  ask := fun t => t.var? package name
  empty := var?_empty package name
  merge := fun a b => var?_merge a b package name

def fieldQuestion (owner : TypeName) (field : String) : Question where
  ask := fun t => t.field? owner field
  empty := field?_empty owner field
  merge := fun a b => field?_merge a b owner field

/-- Tables are alike if no question tells them apart. -/
theorem Alike.of_ask {a b : TypeEnv} (h : ∀ q : Question, q.ask a = q.ask b) : a.Alike b where
  var := fun package name => h (varQuestion package name)
  field := fun owner field => h (fieldQuestion owner field)

theorem merge_assoc (a b c : TypeEnv) : ((a.merge b).merge c).Alike (a.merge (b.merge c)) := by
  apply Alike.of_ask
  intro q
  rw [q.merge, q.merge, q.merge, q.merge, Option.or_assoc]

theorem merge_self (a : TypeEnv) : (a.merge a).Alike a := by
  apply Alike.of_ask
  intro q
  rw [q.merge, Option.or_self]

theorem merge_empty (a : TypeEnv) : (a.merge empty).Alike a := by
  apply Alike.of_ask
  intro q
  rw [q.merge, q.empty, Option.none_or]

theorem empty_merge (a : TypeEnv) : (empty.merge a).Alike a := by
  apply Alike.of_ask
  intro q
  rw [q.merge, q.empty, Option.or_none]

/-! ## Fields in groups -/

/-- Struct fields in groups, one for each struct. -/
abbrev Grouped := List (TypeName × List (String × TypeName))

namespace Grouped

def field? (g : Grouped) (owner : TypeName) (field : String) : Option TypeName :=
  (g.lookup owner).bind (·.lookup field)

/-- Puts fields into the group of a struct, where they hide those of the same names. -/
def extend (owner : TypeName) (new : List (String × TypeName)) : Grouped → Grouped
  | [] => [(owner, new)]
  | (o, fields) :: rest =>
      if o = owner then (o, new ++ fields) :: rest else (o, fields) :: extend owner new rest

/-- Group by group, puts the fields of the second table into the first. -/
def merge (a b : Grouped) : Grouped := b.foldl (fun g group => g.extend group.1 group.2) a

theorem lookup_cons_of_ne {α β : Type} [BEq α] [LawfulBEq α] {a k : α} (h : a ≠ k) (b : β)
    (l : List (α × β)) : ((k, b) :: l).lookup a = l.lookup a := by
  have hbeq : (a == k) = false := beq_eq_false_iff_ne.mpr h
  rw [List.lookup_cons, hbeq]

theorem field?_extend (g : Grouped) (owner : TypeName) (new : List (String × TypeName)) (o : TypeName)
    (field : String) : (g.extend owner new).field? o field
      = if o = owner then (new.lookup field).or (g.field? o field) else g.field? o field := by
  induction g with
  | nil =>
      unfold extend field?
      by_cases h : o = owner
      · rw [if_pos h, h, List.lookup_cons_self]
        exact (Option.or_none).symm
      · rw [if_neg h, lookup_cons_of_ne h]
  | cons group rest ih =>
      obtain ⟨k, fields⟩ := group
      unfold extend
      by_cases hk : k = owner
      · rw [if_pos hk]
        unfold field?
        by_cases h : o = owner
        · rw [if_pos h, h, hk, List.lookup_cons_self, List.lookup_cons_self]
          exact List.lookup_append
        · rw [if_neg h, lookup_cons_of_ne (hk ▸ h), lookup_cons_of_ne (hk ▸ h)]
      · rw [if_neg hk]
        by_cases ho : o = k
        · rw [if_neg (ho ▸ hk)]
          unfold field?
          rw [ho, List.lookup_cons_self, List.lookup_cons_self]
        · unfold field? at ih ⊢
          rw [lookup_cons_of_ne ho, lookup_cons_of_ne ho]
          exact ih

/-- Whether there is one group only for each struct. -/
def Distinct (g : Grouped) : Prop := (g.map Prod.fst).Nodup

theorem mem_extend {g : Grouped} {owner o : TypeName} {new : List (String × TypeName)} :
    o ∈ (g.extend owner new).map Prod.fst ↔ o = owner ∨ o ∈ g.map Prod.fst := by
  induction g with
  | nil => simp [extend]
  | cons group rest ih =>
      obtain ⟨k, fields⟩ := group
      unfold extend
      by_cases hk : k = owner
      · rw [if_pos hk, hk]
        simp
      · rw [if_neg hk, List.map_cons, List.mem_cons, ih, List.map_cons, List.mem_cons]
        exact or_left_comm

theorem Distinct.extend {g : Grouped} (h : g.Distinct) (owner : TypeName)
    (new : List (String × TypeName)) : (g.extend owner new).Distinct := by
  induction g with
  | nil => exact List.nodup_cons.mpr ⟨List.not_mem_nil, List.nodup_nil⟩
  | cons group rest ih =>
      obtain ⟨k, fields⟩ := group
      obtain ⟨hk, hrest⟩ := List.nodup_cons.mp h
      unfold Grouped.extend
      by_cases howner : k = owner
      · rw [if_pos howner]
        exact h
      · rw [if_neg howner]
        apply List.nodup_cons.mpr
        refine ⟨?_, ih hrest⟩
        intro hmem
        rcases mem_extend.mp hmem with heq | hmem
        · exact howner heq
        · exact hk hmem

theorem Distinct.merge {a : Grouped} (h : a.Distinct) (b : Grouped) : (a.merge b).Distinct := by
  induction b generalizing a with
  | nil => exact h
  | cons group rest ih => exact ih (h.extend group.1 group.2)

/-- **Groups are merged field by field,** and none replaces another. -/
theorem field?_merge (a : Grouped) {b : Grouped} (hb : b.Distinct) (owner : TypeName) (field : String) :
    (a.merge b).field? owner field = (b.field? owner field).or (a.field? owner field) := by
  induction b generalizing a with
  | nil => rfl
  | cons group rest ih =>
      obtain ⟨k, fields⟩ := group
      obtain ⟨hk, hrest⟩ := List.nodup_cons.mp hb
      show ((a.extend k fields).merge rest).field? owner field = _
      rw [ih (a.extend k fields) hrest, field?_extend]
      by_cases h : owner = k
      · -- the other groups belong to other structs
        have hnone : Grouped.field? rest owner field = none := by
          have hlookup : rest.lookup owner = none := by
            rw [List.lookup_eq_none_iff]
            intro other hother
            refine bne_iff_ne.mpr ?_
            intro hother_owner
            have hmem : other.1 ∈ rest.map Prod.fst := List.mem_map_of_mem hother
            rw [← hother_owner, h] at hmem
            exact hk hmem
          unfold field?
          rw [hlookup]
          rfl
        rw [if_pos h, hnone, Option.none_or]
        unfold field?
        rw [h, List.lookup_cons_self]
        rfl
      · rw [if_neg h]
        unfold field?
        rw [lookup_cons_of_ne h]

end Grouped

/-- **The fields of a table are those of groups,** one for each struct. -/
structure Shows (t : TypeEnv) (g : Grouped) : Prop where
  distinct : g.Distinct
  field : ∀ owner field, t.field? owner field = g.field? owner field

theorem Shows.addField {t : TypeEnv} {g : Grouped} (h : t.Shows g) (owner : TypeName) (field : String)
    (type : TypeName) : (t.addField owner field type).Shows (g.extend owner [(field, type)]) where
  distinct := h.distinct.extend owner _
  field := by
    intro o f
    rw [field?_addField, Grouped.field?_extend, ← h.field]
    by_cases ho : o = owner
    · rw [if_pos ho, List.lookup_cons]
      by_cases hf : f = field
      · rw [if_pos (by rw [ho, hf]), hf, beq_self_eq_true]
        rfl
      · rw [if_neg (by simp [hf]), beq_eq_false_iff_ne.mpr hf]
        rfl
    · rw [if_neg ho, if_neg (by simp [ho])]

theorem Shows.merge {a b : TypeEnv} {ga gb : Grouped} (ha : a.Shows ga) (hb : b.Shows gb) :
    (a.merge b).Shows (ga.merge gb) where
  distinct := ha.distinct.merge gb
  field := by
    intro owner field
    rw [TypeEnv.field?_merge, Grouped.field?_merge ga hb.distinct, ha.field, hb.field]

/-- Every table can be kept in groups. -/
theorem exists_shows (t : TypeEnv) : ∃ g, t.Shows g := by
  obtain ⟨vars, fields⟩ := t
  induction fields with
  | nil => exact ⟨[], List.nodup_nil, fun _ _ => rfl⟩
  | cons entry rest ih =>
      obtain ⟨g, hg⟩ := ih
      exact ⟨_, hg.addField entry.1.1 entry.1.2 entry.2⟩

/-! ## Many tables -/

/-- All tables, where they disagree the last one decides. -/
def gather (tables : List TypeEnv) : TypeEnv := tables.foldl merge empty

theorem Question.ask_foldl (q : Question) (tables : List TypeEnv) (start : TypeEnv) :
    q.ask (tables.foldl TypeEnv.merge start) = (tables.reverse.findSome? q.ask).or (q.ask start) := by
  induction tables generalizing start with
  | nil => rfl
  | cons t tables ih =>
      rw [List.foldl_cons, ih, q.merge, List.reverse_cons, List.findSome?_append, Option.or_assoc,
        List.findSome?_singleton]

/-- **Of all tables with a key the last one answers.** -/
theorem Question.ask_gather (q : Question) (tables : List TypeEnv) :
    q.ask (gather tables) = tables.reverse.findSome? q.ask := by
  unfold gather
  rw [q.ask_foldl, q.empty, Option.or_none]

/-- Where all that can be found is one and the same, it is found in any order. -/
theorem findSome?_eq_of_perm {α β : Type} {f : α → Option β} {a b : List α} (hperm : a.Perm b)
    (hone : ∀ x ∈ a, ∀ y ∈ a, ∀ u v, f x = some u → f y = some v → u = v) :
    a.findSome? f = b.findSome? f := by
  cases ha : a.findSome? f with
  | none =>
      symm
      rw [List.findSome?_eq_none_iff] at ha ⊢
      intro x hx
      exact ha x (hperm.mem_iff.mpr hx)
  | some u =>
      obtain ⟨x, hx, hxu⟩ := List.exists_of_findSome?_eq_some ha
      cases hb : b.findSome? f with
      | none =>
          rw [List.findSome?_eq_none_iff] at hb
          have hnone := hb x (hperm.mem_iff.mp hx)
          rw [hxu] at hnone
          cases hnone
      | some v =>
          obtain ⟨y, hy, hyv⟩ := List.exists_of_findSome?_eq_some hb
          rw [hone x hx y (hperm.mem_iff.mpr hy) u v hxu hyv]

/-- **Tables that agree are alike gathered in any order.** -/
theorem gather_perm {a b : List TypeEnv} (hperm : a.Perm b)
    (hagree : ∀ t ∈ a, ∀ t' ∈ a, t.Agree t') : (gather a).Alike (gather b) := by
  have hreverse : a.reverse.Perm b.reverse :=
    (List.reverse_perm a).trans (hperm.trans (List.reverse_perm b).symm)
  constructor
  · intro package name
    show (varQuestion package name).ask (gather a) = (varQuestion package name).ask (gather b)
    rw [Question.ask_gather, Question.ask_gather]
    apply findSome?_eq_of_perm hreverse
    intro t ht t' ht'
    exact (hagree t (List.mem_reverse.mp ht) t' (List.mem_reverse.mp ht')).var package name
  · intro owner field
    show (fieldQuestion owner field).ask (gather a) = (fieldQuestion owner field).ask (gather b)
    rw [Question.ask_gather, Question.ask_gather]
    apply findSome?_eq_of_perm hreverse
    intro t ht t' ht'
    exact (hagree t (List.mem_reverse.mp ht) t' (List.mem_reverse.mp ht')).field owner field

end TypeEnv

/-! ## Resolving with a table -/

section

variable {types types' : TypeEnv}

namespace CallContext

variable {f : FileScope} {scope : Scope}

theorem fieldType?_of_alike (h : types.Alike types') (start : TypeName) (fields : List String) :
    fieldType? ⟨f, types, scope⟩ start fields = fieldType? ⟨f, types', scope⟩ start fields := by
  unfold fieldType?
  simp only [h.field]

theorem typeOf?_of_alike (h : types.Alike types') (at_ : Nat) (expr : Tree) :
    typeOf? ⟨f, types, scope⟩ at_ expr = typeOf? ⟨f, types', scope⟩ at_ expr := by
  unfold typeOf?
  simp only [fieldType?_of_alike h, h.var]

theorem selected?_of_alike (h : types.Alike types') (at_ : Nat) (operand : Tree) (name : String) :
    selected? ⟨f, types, scope⟩ at_ operand name = selected? ⟨f, types', scope⟩ at_ operand name := by
  unfold selected? valueMethod?
  simp only [typeOf?_of_alike h, h.var]

theorem target?_of_alike (h : types.Alike types') (callee : Tree) :
    target? ⟨f, types, scope⟩ callee = target? ⟨f, types', scope⟩ callee := by
  unfold target?
  simp only [selected?_of_alike h]

theorem calls_of_alike (h : types.Alike types') (body : Tree) :
    calls ⟨f, types, scope⟩ body = calls ⟨f, types', scope⟩ body := by
  have hcall : call? ⟨f, types, scope⟩ = call? ⟨f, types', scope⟩ := by
    funext node
    unfold call?
    simp only [target?_of_alike h]
  unfold calls
  rw [hcall]

end CallContext

namespace FileScope

theorem declarationsAfter_of_alike (h : types.Alike types') (f : FileScope) (path : String)
    (before nodes : List Tree) :
    f.declarationsAfter types path before nodes = f.declarationsAfter types' path before nodes := by
  induction nodes generalizing before with
  | nil => rfl
  | cons node rest ih =>
      have hhere : f.declaration? types path node before = f.declaration? types' path node before := by
        unfold declaration?
        simp only [CallContext.calls_of_alike h]
      unfold declarationsAfter
      rw [hhere, ih]

/-- **A file is resolved alike with tables that are alike.** -/
theorem unitOf_of_alike (h : types.Alike types') (f : FileScope) (path : String) (root : Tree) :
    f.unitOf types path root = f.unitOf types' path root := by
  unfold unitOf
  rw [declarationsAfter_of_alike h]

end FileScope

end

/-! ## Files of a module -/

namespace Load

/-- The types that a file declares in the package with the given import path. -/
def declared (names : ClauseNames) (file : String × Parsed) : TypeEnv :=
  (scopeOf names file.1 file.2).topLevelTypes file.2.file.root

/-- The types declared in any of some files, each with the import path of its package. -/
def typesOf (names : ClauseNames) (files : List (String × Parsed)) : TypeEnv :=
  TypeEnv.gather (files.map (declared names))

/-- The files of groups, each with the import path of its group. -/
def filesOf (groups : List Pending) : List (String × Parsed) :=
  groups.flatMap fun g => g.files.map fun f => (g.importPath, f)

theorem moduleTypes_eq (names : ClauseNames) (groups : List Pending) :
    moduleTypes names groups = typesOf names (filesOf groups) := by
  unfold moduleTypes typesOf TypeEnv.gather
  rw [List.foldl_map]
  rfl

/-- Whether no variable of a package and no field of a struct is declared with two types. -/
def Unambiguous (names : ClauseNames) (files : List (String × Parsed)) : Prop :=
  ∀ a ∈ files, ∀ b ∈ files, (declared names a).Agree (declared names b)

/-- **Merging goes key by key, so files may come in any order.** The second of two tables answers where it has
the key, and the first one elsewhere, also where fields are kept in groups; so merging is associative,
idempotent, and neutral with the empty table. Files that declare no key with two types give alike tables in any
order, and any file is resolved alike with them, in particular those of a module that is loaded. -/
theorem gather_in_any_order :
    (∀ a b : TypeEnv,
      (∀ package name, (a.merge b).var? package name = (b.var? package name).or (a.var? package name)) ∧
      (∀ owner field, (a.merge b).field? owner field = (b.field? owner field).or (a.field? owner field)) ∧
      (∃ ga gb, a.Shows ga ∧ b.Shows gb) ∧
      ∀ ga gb, a.Shows ga → b.Shows gb → (a.merge b).Shows (ga.merge gb)) ∧
    (∀ a b c : TypeEnv, ((a.merge b).merge c).Alike (a.merge (b.merge c))) ∧
    (∀ a : TypeEnv, (a.merge a).Alike a ∧ (a.merge .empty).Alike a ∧ (TypeEnv.empty.merge a).Alike a) ∧
    ∀ (names : ClauseNames) (files files' : List (String × Parsed)), files.Perm files' →
      Unambiguous names files →
        (typesOf names files).Alike (typesOf names files') ∧
        (∀ file : String × Parsed,
          (scopeOf names file.1 file.2).unitOf (typesOf names files) file.2.path file.2.file.root
            = (scopeOf names file.1 file.2).unitOf (typesOf names files') file.2.path file.2.file.root) ∧
        ∀ groups g, filesOf groups = files →
          resolvePackage names (moduleTypes names groups) g = resolvePackage names (typesOf names files') g := by
  refine ⟨?_, TypeEnv.merge_assoc, ?_, ?_⟩
  · intro a b
    obtain ⟨ga, ha⟩ := a.exists_shows
    obtain ⟨gb, hb⟩ := b.exists_shows
    exact ⟨TypeEnv.var?_merge a b, TypeEnv.field?_merge a b, ⟨ga, gb, ha, hb⟩, fun _ _ ha hb => ha.merge hb⟩
  · intro a
    exact ⟨TypeEnv.merge_self a, TypeEnv.merge_empty a, TypeEnv.empty_merge a⟩
  · intro names files files' hperm hone
    have halike : (typesOf names files).Alike (typesOf names files') := by
      apply TypeEnv.gather_perm (hperm.map _)
      intro t ht t' ht'
      obtain ⟨a, ha, rfl⟩ := List.mem_map.mp ht
      obtain ⟨b, hb, rfl⟩ := List.mem_map.mp ht'
      exact hone a ha b hb
    refine ⟨halike, ?_, ?_⟩
    · intro file
      exact FileScope.unitOf_of_alike halike _ _ _
    · rintro groups g rfl
      rw [moduleTypes_eq]
      unfold resolvePackage
      simp only [FileScope.unitOf_of_alike halike]

/-- A file with a variable and the field of its type, in the package `m`. -/
def stored : String × Parsed :=
  ("m", ⟨"/s.go", SourceFile.parse "package m\ntype S struct \x7b db DB \x7d\nvar s S\n"⟩)

/-- A file of the same package with a call through that field. -/
def running : String × Parsed :=
  ("m", ⟨"/r.go", SourceFile.parse
    "package m\ntype DB struct \x7b\x7d\nfunc (DB) Run() \x7b\x7d\nfunc Do() \x7b s.db.Run() \x7d\n"⟩)

/-- The two files come out the same in both orders, with the call resolved. -/
theorem gather_in_any_order_running :
    [stored, running].Perm [running, stored] ∧ Unambiguous [("m", "m")] [stored, running] ∧
    (scopeOf [("m", "m")] "m" running.2).unitOf (typesOf [("m", "m")] [stored, running]) "/r.go"
          running.2.file.root
      = (scopeOf [("m", "m")] "m" running.2).unitOf (typesOf [("m", "m")] [running, stored]) "/r.go"
          running.2.file.root ∧
    ((scopeOf [("m", "m")] "m" running.2).unitOf (typesOf [("m", "m")] [running, stored]) "/r.go"
      running.2.file.root).functions.map Declaration.calls
        = [some [], some [⟨some (Symbol.method "m" "DB" "Run"), 4⟩]] := by
  have hperm : [stored, running].Perm [running, stored] := List.Perm.swap _ _ _
  have hdeclared : ∀ a ∈ [stored, running], ∀ b ∈ [stored, running],
      (∀ x ∈ (declared [("m", "m")] a).vars, ∀ y ∈ (declared [("m", "m")] b).vars, x.1 = y.1 → x.2 = y.2) ∧
      ∀ x ∈ (declared [("m", "m")] a).fields, ∀ y ∈ (declared [("m", "m")] b).fields, x.1 = y.1 → x.2 = y.2 := by
    decide +kernel
  have hone : Unambiguous [("m", "m")] [stored, running] := by
    intro a ha b hb
    obtain ⟨hvars, hfields⟩ := hdeclared a ha b hb
    exact .of_declared hvars hfields
  obtain ⟨-, -, -, horder⟩ := gather_in_any_order
  obtain ⟨-, hunits, -⟩ := horder [("m", "m")] [stored, running] [running, stored] hperm hone
  exact ⟨hperm, hone, hunits running, by decide +kernel⟩

end Load
end GoExcerpt
