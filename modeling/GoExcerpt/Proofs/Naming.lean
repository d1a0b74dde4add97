import GoExcerpt.Proofs.Indexing
import GoExcerpt.Proofs.Variables

/-!
# `Proofs.Naming` — declarations and the calls that name them

A function is given its identity twice: where it is declared (`FileScope.Declares`), and where a call names
it (`Names`). The two agree, and the call is found in the index, unless the name may be declared several
times: such a declaration is pinned to its place, which no call can tell (`called_eq_declared_iff`). Plain
functions of such names cannot be called, but a method `init` can (`init_method_missed`).
-/

namespace GoExcerpt

/-! ## Declarations -/

namespace FileScope

variable {f : FileScope}

/-- Every function node that declares an identity is a declaration of its file. -/
theorem exists_declaration (types : TypeEnv) (path : String) {root node : Tree} {s : Symbol}
    (hnode : node ∈ root.named) (hfunction : isFunction node = true)
    (hs : Declares f.package node s) :
    ∃ d ∈ (f.unitOf types path root).functions, d.span = LineRange.ofTree node ∧
      d.id = if isRepeatable s.name then s.pinned path (LineRange.ofTree node).start else s := by
  obtain ⟨earlier, later, hroot⟩ := List.append_of_mem hnode
  refine ⟨⟨_, _, _, _⟩, mem_unitOf.mpr ⟨earlier, node, later, hroot, hfunction,
    declaration?_eq_some.mpr ⟨declaredSymbol?_eq_some.mpr ⟨s, hs, rfl⟩, rfl, rfl, rfl⟩⟩, rfl, rfl⟩

end FileScope

/-! ## Selections -/

namespace Tree

/-- **What is called behind explicit type arguments.** -/
inductive Instantiated : Tree → Tree → Prop where
  | plain {t : Tree} (hkind : t.kind ≠ .indexExpression) : Instantiated t t
  | index {t u core : Tree} (hkind : t.kind = .indexExpression) (hu : t.part? .operand = some u)
      (hcore : Instantiated u core) : Instantiated t core

theorem Instantiated.descend_eq {t core : Tree} (h : Instantiated t core) :
    t.descend throughIndex = some core := by
  rw [descend_eq_some]
  induction h with
  | plain hkind =>
      refine .here ?_
      unfold throughIndex
      split
      next heq => exact absurd heq hkind
      next => rfl
  | index hkind hu _ ih => exact .part (by rw [hkind]; rfl) hu ih

end Tree

namespace CallContext

variable {c : CallContext} {at_ : Nat} {v : String} {t : TypeName}

/-- A selection from a local variable means a method of its type. -/
theorem selected?_of_local {b : Binding} (hlookup : c.scope.lookup v at_ = some b)
    (htype : b.type = some t) (role : Option Role) (extent : Extent) (name : String) :
    c.selected? at_ (.leaf .identifier role extent v) name
      = some (.method t.package t.name name) := by
  have hlookup' : c.scope.lookup (Tree.leaf .identifier role extent v).text at_ = some b := hlookup
  unfold selected? valueMethod? typeOf?
  simp [Tree.fieldChain, hlookup', htype, fieldType?]

/-- So does a selection from a package variable that neither a local name nor an imported package
    hides. -/
theorem selected?_of_var (hlookup : c.scope.lookup v at_ = none)
    (himport : c.file.imports.lookup v = none) (hvar : c.types.var? c.file.package v = some t)
    (role : Option Role) (extent : Extent) (name : String) :
    c.selected? at_ (.leaf .identifier role extent v) name
      = some (.method t.package t.name name) := by
  have hlookup' : c.scope.lookup (Tree.leaf .identifier role extent v).text at_ = none := hlookup
  have himport' : c.file.imports.lookup (Tree.leaf .identifier role extent v).text = none := himport
  have hvar' : c.types.var? c.file.package (Tree.leaf .identifier role extent v).text = some t := hvar
  unfold selected? valueMethod? typeOf?
  simp [Tree.fieldChain, hlookup', himport', hvar', fieldType?]

end CallContext

/-! ## Calls -/

namespace Load

open FileScope (Declares LocalVar isFunction isRepeatable)

variable {groups : List Pending}

/-- What the calls of a function are resolved against, in a file of the package at `path`. -/
def contextOf (groups : List Pending) (path : String) (file : Parsed) (caller body : Tree) :
    CallContext :=
  ⟨scopeOf (clauseNames groups) path file, moduleTypes (clauseNames groups) groups,
    (scopeOf (clauseNames groups) path file).scopeOf caller body⟩

/-- **The variable that a name means in the body of a function,** by the type written for it. -/
inductive Variable (groups : List Pending) (path : String) (file : Parsed) (caller body : Tree)
    (at_ : Nat) (v : String) (t : TypeName) : Prop where
  /-- a parameter or local variable that no other declaration of the name hides -/
  | inside {type : Tree} {start stop : Nat} (hlocal : LocalVar caller body v type start stop)
      (hblank : v ≠ "_")
      (htype : (contextOf groups path file caller body).file.Written type t)
      (hvisible : start ≤ at_ ∧ at_ < stop)
      (hlatest : ∀ b ∈ (contextOf groups path file caller body).scope, b.name = v →
        b.isVisible at_ = true → b = ⟨v, some t, start, stop⟩ ∨ b.start < start)
  /-- a variable of the package -/
  | outside (hlocal : ∀ b ∈ (contextOf groups path file caller body).scope, b.name = v →
        b.isVisible at_ = false)
      (himport : (contextOf groups path file caller body).file.imports.lookup v = none)
      (hvar : PackageVar groups path v t)

/-- **The function or method that a callee names.** -/
inductive Names (groups : List Pending) (path : String) (file : Parsed) (caller body callee : Tree) :
    Symbol → Prop where
  /-- a plain name, neither local nor predeclared -/
  | function {core : Tree} (hcore : callee.Instantiated core) (hkind : core.kind = .identifier)
      (hlocal : ∀ b ∈ (contextOf groups path file caller body).scope, b.name = core.text →
        b.isVisible callee.first = false)
      (hpredeclared : core.text ∉ predeclared) :
      Names groups path file caller body callee (.function path core.text)
  /-- a selection from a variable -/
  | method {core member : Tree} {role : Option Role} {extent : Extent} {v : String} {t : TypeName}
      (hcore : callee.Instantiated core) (hkind : core.kind = .selectorExpression)
      (hoperand : core.part? .operand = some (.leaf .identifier role extent v))
      (hmember : core.part? .member = some member)
      (hvariable : Variable groups path file caller body callee.first v t) :
      Names groups path file caller body callee (.method t.package t.name member.text)

section

variable {path v : String} {file : Parsed} {caller body callee : Tree}

/-- A selection from a variable means a method of its type. -/
theorem Variable.selected?_eq {at_ : Nat} {t : TypeName}
    (h : Variable groups path file caller body at_ v t) (role : Option Role) (extent : Extent)
    (name : String) :
    (contextOf groups path file caller body).selected? at_ (.leaf .identifier role extent v) name
      = some (.method t.package t.name name) := by
  cases h with
  | inside hlocal hblank htype hvisible hlatest =>
      have hread := FileScope.typeName?_eq_some.mpr htype
      have hlookup := Scope.lookup_eq_some_of_latest (hlocal.mem_scopeOf hread hblank)
        (by simpa [Binding.isVisible] using hvisible) hlatest
      exact CallContext.selected?_of_local hlookup rfl role extent name
  | outside hlocal himport hvar =>
      exact CallContext.selected?_of_var (Scope.lookup_eq_none hlocal) himport hvar.var?_eq role extent name

/-- **A call is resolved to what its callee names.** -/
theorem Names.target?_eq {s : Symbol} (h : Names groups path file caller body callee s) :
    (contextOf groups path file caller body).target? callee = some s := by
  cases h with
  | function hcore hkind hlocal hpredeclared =>
      simp only [CallContext.target?, hcore.descend_eq, Option.bind_eq_bind, Option.bind_some, hkind]
      rw [if_neg (by simp [Scope.lookup_eq_none hlocal, hpredeclared])]
      rfl
  | @method core member role extent v t hcore hkind hoperand hmember hvariable =>
      simp only [CallContext.target?, hcore.descend_eq, Option.bind_eq_bind, Option.bind_some, hkind,
        hoperand, hmember]
      exact hvariable.selected?_eq role extent member.text

theorem Names.site_eq {s : Symbol} (h : Names groups path file caller body callee s) :
    s.site = none := by
  cases h <;> rfl

end

/-! ## Agreement -/

/-- An identity without a place is indexed only if its name is declared once. -/
theorem contains_of_site_none {m : Manifest} {s : Symbol} (hs : s.site = none) :
    (Index.build (resolve groups) m).contains s = true ↔ isRepeatable s.name = false ∧
      ∃ p ∈ resolve groups, m.isMember p.path = true ∧ ∃ d ∈ p.declarations, d.id = s := by
  rw [Index.contains_build]
  constructor
  · rintro ⟨p, hp, hmember, d, hd, hkey⟩
    have hsite : d.id.site = none := by
      have hsite' : d.id.canonical.site = none := hkey ▸ hs
      exact Option.map_eq_none_iff.mp hsite'
    have hid : d.id = s := (Symbol.canonical_of_site_none hsite).symm.trans hkey
    obtain ⟨g, -, rfl⟩ := mem_resolve.mp hp
    obtain ⟨f, -, hunit⟩ := mem_declarations_packageOf.mp hd
    refine ⟨?_, _, hp, hmember, d, hd, hid⟩
    rw [← hid]
    exact (FileScope.site_of_mem_unitOf hunit).mp hsite
  · rintro ⟨-, p, hp, hmember, d, hd, rfl⟩
    exact ⟨p, hp, hmember, d, hd, Symbol.canonical_of_site_none hs⟩

/-- **Declarations and calls agree on identity, but for names that may be declared several times.** A call
    that names a function or method declared in the module is resolved to the identity its declaration
    has, and found in the index if the package is a member, exactly when the name is neither `init` nor
    blank. -/
theorem called_eq_declared_iff (groups : List Pending) (m : Manifest) (g : Pending) (hg : g ∈ groups)
    (file : Parsed) (hfile : file ∈ g.files) (node : Tree) (hnode : node ∈ file.file.root.named)
    (hfunction : isFunction node = true) (s : Symbol) (hdeclares : Declares g.importPath node s)
    (path : String) (calling : Parsed) (caller body callee : Tree)
    (hnames : Names groups path calling caller body callee s) :
    (contextOf groups path calling caller body).target? callee = some s ∧
    ∃ d ∈ (packageOf groups g).declarations, d.span = LineRange.ofTree node ∧
      ((contextOf groups path calling caller body).target? callee = some d.id ↔
        s.name ≠ "init" ∧ s.name ≠ "_") ∧
      ((Index.build (resolve groups) m).contains s = true ↔
        m.isMember g.importPath = true ∧ s.name ≠ "init" ∧ s.name ≠ "_") := by
  have htarget := hnames.target?_eq
  have hrepeats : isRepeatable s.name = false ↔ s.name ≠ "init" ∧ s.name ≠ "_" := by
    simp [isRepeatable]
  obtain ⟨d, hunit, hspan, hid⟩ := FileScope.exists_declaration
    (f := scopeOf (clauseNames groups) g.importPath file) (moduleTypes (clauseNames groups) groups)
    file.path hnode hfunction hdeclares
  have hd : d ∈ (packageOf groups g).declarations :=
    mem_declarations_packageOf.mpr ⟨file, hfile, hunit⟩
  have hagree : d.id = s ↔ isRepeatable s.name = false := by
    rw [hid]
    constructor
    · intro heq
      by_contra hrepeats
      rw [if_pos (by simpa using hrepeats)] at heq
      exact Option.some_ne_none _ ((congrArg Symbol.site heq).trans hnames.site_eq)
    · intro hrepeats
      rw [if_neg (by simp [hrepeats])]
  refine ⟨htarget, d, hd, hspan, ?_, ?_⟩
  · rw [htarget, Option.some.injEq, ← hrepeats, ← hagree, eq_comm]
  · rw [contains_of_site_none hnames.site_eq, ← hrepeats, and_comm]
    refine and_congr_left fun hs => ⟨?_, fun hmember => ?_⟩
    · rintro ⟨p, hp, hmember, d', hd', rfl⟩
      rw [← hdeclares.package_eq, package_of_mem_resolve hp hd']
      exact hmember
    · exact ⟨_, mem_resolve.mpr ⟨g, hg, rfl⟩, hmember, d, hd, hagree.mpr hs⟩

/-! ## A call that is found, and one that is not -/

/-- A file of a package `m`. -/
def fileOf (source : String) : Parsed := ⟨"m.go", SourceFile.parse source⟩

/-- Such a package, of one file. -/
def packed (file : Parsed) : Pending := ⟨"m", "m", [file]⟩

/-- One of several trees. -/
def treeAt (ts : List Tree) (i : Nat) : Tree := ts.getD i default

theorem treeAt_mem {ts : List Tree} {i : Nat} (h : i < ts.length) : treeAt ts i ∈ ts := by
  unfold treeAt
  rw [List.getD_eq_getElem?_getD, List.getElem?_eq_getElem h]
  exact List.getElem_mem h

/-- A part that a tree is known to have. -/
def partOf (t : Tree) (role : Role) : Tree := (t.part? role).getD default

theorem part?_eq_partOf {t : Tree} {role : Role} (h : (t.part? role).isSome = true) :
    t.part? role = some (partOf t role) := by
  obtain ⟨part, hpart⟩ := Option.isSome_iff_exists.mp h
  unfold partOf
  rw [hpart]
  rfl

/-- A method on a pointer, called on a parameter. -/
def pointerMethod : Parsed :=
  fileOf "package m\n\nfunc (t *T) Run() \x7b\x7d\n\nfunc Start(t *T) \x7b t.Run() \x7d\n"

/-- The method, and the function that calls it. -/
def runNode : Tree := treeAt pointerMethod.file.root.named 1

def startNode : Tree := treeAt pointerMethod.file.root.named 2

def startBody : Tree := partOf startNode .body

/-- What is called in the body. -/
def startCallee : Tree :=
  partOf (treeAt (startBody.preorder.filter (·.kind == .callExpression)) 0) .function

theorem declares_runNode : Declares "m" runNode (.method "m" "T" "Run") := by
  have hshape : runNode.kind = .methodDeclaration ∧ (runNode.part? .name).isSome = true ∧
      (partOf runNode .name).text = "Run" ∧ (runNode.part? .receiver).isSome = true ∧
      FileScope.receiverBase? (partOf runNode .receiver) = some "T" := by decide +kernel
  obtain ⟨hkind, hname, htext, hreceiver, hbase⟩ := hshape
  obtain ⟨base, hbase, hbaseText⟩ := FileScope.receiverBase?_eq_some.mp hbase
  rw [← htext, ← hbaseText]
  exact .method hkind (part?_eq_partOf hname) (part?_eq_partOf hreceiver) hbase

/-- The parameter of the calling function. -/
def startParameter : Tree := treeAt (partOf startNode .parameters).named 0

theorem variable_startNode :
    Variable [packed pointerMethod] "m" pointerMethod startNode startBody startCallee.first "t"
      ⟨"m", "T"⟩ := by
  have hshape : (startNode.part? .parameters).isSome = true ∧
      (partOf startNode .parameters).kind = .parameterList ∧
      0 < (partOf startNode .parameters).named.length ∧
      startParameter.kind = .parameterDeclaration ∧ "t" ∈ FileScope.names startParameter ∧
      (startParameter.part? .typ).isSome = true := by decide +kernel
  obtain ⟨hlist, hlistKind, hlength, hkind, hname, htype⟩ := hshape
  have hlocal : LocalVar startNode startBody "t" (partOf startParameter .typ) startBody.first
      startBody.last :=
    .parameter (by decide : Role.parameters ∈ _) (part?_eq_partOf hlist) hlistKind
      (treeAt_mem hlength) hkind hname (part?_eq_partOf htype)
  have hscope : (contextOf [packed pointerMethod] "m" pointerMethod startNode startBody).file.typeName?
        (partOf startParameter .typ) = some ⟨"m", "T"⟩ ∧
      (startBody.first ≤ startCallee.first ∧ startCallee.first < startBody.last) ∧
      (∀ b ∈ (contextOf [packed pointerMethod] "m" pointerMethod startNode startBody).scope,
        b.name = "t" → b.isVisible startCallee.first = true →
        b = ⟨"t", some ⟨"m", "T"⟩, startBody.first, startBody.last⟩ ∨ b.start < startBody.first) := by
    decide +kernel
  obtain ⟨hmeaning, hvisible, hlatest⟩ := hscope
  exact .inside hlocal (by decide) (FileScope.typeName?_eq_some.mp hmeaning) hvisible hlatest

/-- A tree of one name that has a text and nothing below it is that name. -/
theorem exists_of_text_of_children {t : Tree} {v : String} (hkind : t.kind = .identifier)
    (htext : t.text = v) (hname : v ≠ "") (hbelow : t.children.length = 0) :
    ∃ role extent, t = .leaf .identifier role extent v := by
  cases t with
  | leaf k role extent text =>
      obtain rfl : k = .identifier := hkind
      obtain rfl : text = v := htext
      exact ⟨role, extent, rfl⟩
  | node k role extent children =>
      obtain rfl : children = [] := List.eq_nil_of_length_eq_zero hbelow
      exact absurd htext.symm hname

theorem names_startCallee :
    Names [packed pointerMethod] "m" pointerMethod startNode startBody startCallee
      (.method "m" "T" "Run") := by
  have hshape : startCallee.kind = .selectorExpression ∧ (startCallee.part? .member).isSome = true ∧
      (partOf startCallee .member).text = "Run" ∧ (startCallee.part? .operand).isSome = true ∧
      (partOf startCallee .operand).kind = .identifier ∧ (partOf startCallee .operand).text = "t" ∧
      (partOf startCallee .operand).children.length = 0 := by decide +kernel
  obtain ⟨hkind, hmember, htext, hoperand, hname, hspelled, hbelow⟩ := hshape
  obtain ⟨role, extent, hleaf⟩ := exists_of_text_of_children hname hspelled (by decide) hbelow
  rw [← htext]
  exact .method (.plain (by rw [hkind]; decide)) hkind (hleaf ▸ part?_eq_partOf hoperand)
    (part?_eq_partOf hmember) variable_startNode

theorem called_eq_declared_pointerMethod :
    Declares "m" runNode (.method "m" "T" "Run") ∧
    Names [packed pointerMethod] "m" pointerMethod startNode startBody startCallee
      (.method "m" "T" "Run") ∧
    ∃ d ∈ (packageOf [packed pointerMethod] (packed pointerMethod)).declarations,
      (contextOf [packed pointerMethod] "m" pointerMethod startNode startBody).target? startCallee
        = some d.id ∧
      (Index.build (resolve [packed pointerMethod]) ⟨["m"]⟩).contains (.method "m" "T" "Run")
        = true := by
  obtain ⟨-, d, hd, -, hagree, hfound⟩ := called_eq_declared_iff [packed pointerMethod] ⟨["m"]⟩
    (packed pointerMethod) List.mem_cons_self pointerMethod List.mem_cons_self runNode
    (treeAt_mem (by decide +kernel)) (by decide +kernel) (.method "m" "T" "Run") declares_runNode
    "m" pointerMethod startNode startBody startCallee names_startCallee
  exact ⟨declares_runNode, names_startCallee, d, hd, hagree.mpr (by decide),
    hfound.mpr ⟨by decide, by decide⟩⟩

/-- A method `init`, called on a parameter. -/
def initMethod : Parsed :=
  fileOf "package m\n\nfunc (t T) init() \x7b\x7d\n\nfunc Run(t T) \x7b t.init() \x7d\n"

/-- **A call of a method `init` is not found.** The method is declared once and called, but its declaration
    is pinned to a place and the call is not. -/
theorem init_method_missed :
    (resolve [packed initMethod]).flatMap Package.declarations =
      [⟨(Symbol.method "m" "T" "init").pinned "m.go" 3, [], ⟨3, 3⟩, some []⟩,
        ⟨.function "m" "Run", [], ⟨5, 5⟩, some [⟨some (.method "m" "T" "init"), 5⟩]⟩] ∧
    (Index.build (resolve [packed initMethod]) ⟨["m"]⟩).contains (.method "m" "T" "init")
      = false := by
  constructor <;> decide +kernel

end Load
end GoExcerpt
