import GoExcerpt.Proofs.WrittenTypes

/-!
# `Proofs.Declared` — what a file declares

The declarations of a file are made one by one from the function and method nodes among its items, each
with the items before it (`mem_declarationsAfter`). The identity of a declaration says which package, which
receiver and which name it was read from (`Declares`); only names that may be declared several times are
pinned to their place.
-/

namespace GoExcerpt
namespace FileScope

variable {f : FileScope}

/-! ## One declaration -/

/-- The identity, without its place, that a node declares in a package. -/
inductive Declares (package : String) (node : Tree) : Symbol → Prop where
  /-- a plain function is known by its name -/
  | function {name : Tree} (hkind : node.kind ≠ .methodDeclaration)
      (hname : node.part? .name = some name) : Declares package node (.function package name.text)
  /-- a method also by the base type of its receiver -/
  | method {name receiver base : Tree} (hkind : node.kind = .methodDeclaration)
      (hname : node.part? .name = some name) (hreceiver : node.part? .receiver = some receiver)
      (hbase : BaseType receiver base) : Declares package node (.method package base.text name.text)

theorem Declares.package_eq {package : String} {node : Tree} {s : Symbol}
    (h : Declares package node s) : s.package = package := by
  cases h <;> rfl

theorem Declares.site_eq {package : String} {node : Tree} {s : Symbol}
    (h : Declares package node s) : s.site = none := by
  cases h <;> rfl

/-- **The identity of a declaration is what its node declares, pinned to its place where its name may
    be declared again.** -/
theorem declaredSymbol?_eq_some {path : String} {node : Tree} {line : Nat} {id : Symbol} :
    f.declaredSymbol? path node line = some id ↔
      ∃ s, Declares f.package node s ∧
        id = if isRepeatable s.name then s.pinned path line else s := by
  unfold declaredSymbol?
  constructor
  · intro h
    obtain ⟨name, hname, h⟩ := Option.bind_eq_some_iff.mp h
    by_cases hkind : node.kind = .methodDeclaration
    · rw [if_pos (beq_iff_eq.mpr hkind)] at h
      obtain ⟨receiver, hreceiver, h⟩ := Option.bind_eq_some_iff.mp h
      obtain ⟨_, hread, h⟩ := Option.bind_eq_some_iff.mp h
      obtain ⟨base, hbase, rfl⟩ := receiverBase?_eq_some.mp hread
      exact ⟨_, .method hkind hname hreceiver hbase, (Option.some.inj h).symm⟩
    · rw [if_neg (by simpa using hkind)] at h
      exact ⟨_, .function hkind hname, (Option.some.inj h).symm⟩
  · rintro ⟨s, hs, rfl⟩
    cases hs with
    | @function name hkind hname =>
        refine Option.bind_eq_some_iff.mpr ⟨name, hname, ?_⟩
        rw [if_neg (by simpa using hkind)]
        rfl
    | @method name receiver base hkind hname hreceiver hbase =>
        refine Option.bind_eq_some_iff.mpr ⟨name, hname, ?_⟩
        rw [if_pos (beq_iff_eq.mpr hkind)]
        exact Option.bind_eq_some_iff.mpr ⟨receiver, hreceiver, Option.bind_eq_some_iff.mpr
          ⟨base.text, receiverBase?_eq_some.mpr ⟨base, hbase, rfl⟩, rfl⟩⟩

theorem declaration?_eq_some {types : TypeEnv} {path : String} {node : Tree} {before : List Tree}
    {d : Declaration} :
    f.declaration? types path node before = some d ↔
      f.declaredSymbol? path node (LineRange.ofTree node).start = some d.id ∧
      d.doc = docLines node.extent.start.row [] before ∧ d.span = LineRange.ofTree node ∧
      d.calls = (node.part? .body).map fun body =>
        CallContext.calls ⟨f, types, f.scopeOf node body⟩ body := by
  simp only [declaration?]
  constructor
  · intro h
    obtain ⟨id, hid, h⟩ := Option.bind_eq_some_iff.mp h
    obtain rfl := Option.some.inj h
    exact ⟨hid, rfl, rfl, rfl⟩
  · rintro ⟨hid, hdoc, hspan, hcalls⟩
    rw [hid]
    obtain ⟨id, doc, span, calls⟩ := d
    cases hdoc
    cases hspan
    cases hcalls
    rfl

/-! ## All declarations of a file -/

/-- Whether a node is a function or method. -/
def isFunction (node : Tree) : Bool :=
  node.kind == .functionDeclaration || node.kind == .methodDeclaration

/-- **The declarations among some siblings are those of their function and method nodes, each seen
    with the siblings before it.** -/
theorem mem_declarationsAfter {types : TypeEnv} {path : String} {before nodes : List Tree}
    {d : Declaration} :
    d ∈ f.declarationsAfter types path before nodes ↔
      ∃ earlier node later, nodes = earlier ++ node :: later ∧ isFunction node = true ∧
        f.declaration? types path node (earlier.reverse ++ before) = some d := by
  induction nodes generalizing before with
  | nil => simp [declarationsAfter]
  | cons first rest ih =>
      have hhere : d ∈ (if first.kind == .functionDeclaration || first.kind == .methodDeclaration then
          (f.declaration? types path first before).toList else [])
          ↔ isFunction first = true ∧ f.declaration? types path first before = some d := by
        unfold isFunction
        split
        next h => simp [h]
        next h => simp [h]
      rw [declarationsAfter, List.mem_append, ih, hhere]
      constructor
      · rintro (⟨hkind, hd⟩ | ⟨earlier, node, later, rfl, hkind, hd⟩)
        · exact ⟨[], first, rest, rfl, hkind, hd⟩
        · exact ⟨first :: earlier, node, later, rfl, hkind, by simpa using hd⟩
      · rintro ⟨earlier, node, later, heq, hkind, hd⟩
        cases earlier with
        | nil =>
            obtain ⟨rfl, rfl⟩ := List.cons.inj heq
            exact .inl ⟨hkind, hd⟩
        | cons e earlier =>
            obtain ⟨rfl, rfl⟩ := List.cons.inj heq
            exact .inr ⟨earlier, node, later, rfl, hkind, by simpa using hd⟩

theorem mem_unitOf {types : TypeEnv} {path : String} {root : Tree} {d : Declaration} :
    d ∈ (f.unitOf types path root).functions ↔
      ∃ earlier node later, root.named = earlier ++ node :: later ∧ isFunction node = true ∧
        f.declaration? types path node earlier.reverse = some d := by
  show d ∈ f.declarationsAfter types path [] root.named ↔ _
  rw [mem_declarationsAfter]
  simp only [List.append_nil]

/-- Every declaration of a file carries the package of the file. -/
theorem package_of_mem_unitOf {types : TypeEnv} {path : String} {root : Tree} {d : Declaration}
    (h : d ∈ (f.unitOf types path root).functions) : d.id.package = f.package := by
  obtain ⟨_, node, _, -, -, hd⟩ := mem_unitOf.mp h
  obtain ⟨s, hs, hid⟩ := declaredSymbol?_eq_some.mp (declaration?_eq_some.mp hd).1
  rw [hid]
  split
  · exact hs.package_eq
  · exact hs.package_eq

/-- A declaration is pinned to the line it begins on where its name may be declared again. -/
theorem site_eq_of_mem_unitOf {types : TypeEnv} {path : String} {root : Tree} {d : Declaration}
    (h : d ∈ (f.unitOf types path root).functions) :
    d.id.site = if isRepeatable d.id.name then some ⟨path, d.span.start⟩ else none := by
  obtain ⟨_, node, _, -, -, hd⟩ := mem_unitOf.mp h
  obtain ⟨hdeclared, -, hspan, -⟩ := declaration?_eq_some.mp hd
  obtain ⟨s, hs, hid⟩ := declaredSymbol?_eq_some.mp hdeclared
  cases hrepeats : isRepeatable s.name with
  | true =>
      rw [if_pos hrepeats] at hid
      have hname : isRepeatable d.id.name = true := by rw [hid]; exact hrepeats
      rw [if_pos hname, hid, hspan]
      rfl
  | false =>
      rw [if_neg (by simp [hrepeats])] at hid
      rw [hid, if_neg (by simp [hrepeats])]
      exact hs.site_eq

/-- A declaration is pinned to a place exactly when its name may be declared again. -/
theorem site_of_mem_unitOf {types : TypeEnv} {path : String} {root : Tree} {d : Declaration}
    (h : d ∈ (f.unitOf types path root).functions) :
    d.id.site = none ↔ isRepeatable d.id.name = false := by
  rw [site_eq_of_mem_unitOf h]
  cases isRepeatable d.id.name with
  | true => exact iff_of_false (fun h => nomatch h) (fun h => nomatch h)
  | false => exact iff_of_true rfl rfl

end FileScope
end GoExcerpt
