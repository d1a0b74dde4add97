import GoExcerpt.Proofs.Bindings
import GoExcerpt.Proofs.Naming

/-!
# `Proofs.Initializers` — names in the values they are declared with

A declaration of values is over before its names are visible, so none of them is seen in its own values, and
a call there means what it would mean without the declaration. The one exception is a type switch: its name
is visible from the end of its binder on, and so in the value that is switched on
(`FileScope.initializer_uncaptured`, `FileScope.switch_captures_operand`).
-/

namespace GoExcerpt

/-! ## Values of declarations -/

namespace Tree

/-- Where a declaration of values holds them: its initial values, or what is ranged over, received from or
    switched on. -/
def valuePart? (t : Tree) : Option Tree :=
  match t.kind with
  | .shortVarDeclaration | .rangeClause | .receiveStatement => t.part? .right
  | .varSpec | .constSpec | .typeSwitchStatement => t.part? .value
  | _ => none

theorem mem_children_of_valuePart? {t values : Tree} (h : t.valuePart? = some values) :
    values ∈ t.children := by
  unfold valuePart? at h
  split at h
  all_goals first
    | exact List.mem_of_find?_eq_some h
    | cases h

/-- A type switch whose operand stands behind a name for it, as seen at the offset `at_`. -/
def NamesOperand (t : Tree) (at_ : Nat) : Prop :=
  t.kind = .typeSwitchStatement ∧ ∃ binder, t.part? .binder = some binder ∧ binder.last ≤ at_ ∧
    ∃ name ∈ FileScope.identifiers binder, name ≠ "_"

end Tree

namespace FileScope

variable {f : FileScope} {t values : Tree} {stop at_ : Nat}

/-- **A name is visible in the values of its own declaration only in a type switch.** -/
theorem exists_isVisible_iff (ht : t.Spans) (hvalues : t.valuePart? = some values)
    (hlast : at_ < values.last) :
    (∃ b ∈ f.bindings t stop, b.isVisible at_ = true) ↔ t.NamesOperand at_ := by
  have hinside : at_ < t.last := Nat.lt_of_lt_of_le hlast (ht.child (Tree.mem_children_of_valuePart? hvalues)).2.2
  constructor
  · rintro ⟨b, hb, hvisible⟩
    simp only [Binding.isVisible, Bool.and_eq_true, decide_eq_true_eq] at hvisible
    -- other declarations start where they end, behind their values
    have hlate : ∀ {named}, b ∉ bind t.last stop named := fun hb => by
      have := (Scope.mem_bind hb).1
      omega
    unfold bindings at hb
    unfold Tree.valuePart? at hvalues
    split at hb
    next => exact absurd hb hlate
    next => exact absurd hb hlate
    next => exact absurd hb hlate
    next hk => simp [hk] at hvalues
    next hk => simp [hk] at hvalues
    next => exact absurd hb hlate
    next => exact absurd hb hlate
    next hk =>
      split at hb
      next binder hbinder =>
        have hstart := (Scope.mem_bind hb).1
        refine ⟨hk, binder, hbinder, by omega, ?_⟩
        obtain ⟨⟨name, type⟩, hentry, rfl⟩ := List.mem_map.mp hb
        obtain ⟨hentry, hname⟩ := List.mem_filter.mp hentry
        obtain ⟨name', hname', heq⟩ := List.mem_map.mp hentry
        obtain ⟨rfl, -⟩ := Prod.mk.inj heq
        rw [hbinder] at hname'
        exact ⟨name', hname', by simpa using hname⟩
      next => exact absurd hb List.not_mem_nil
    next hk => simp [hk] at hvalues
    next => exact absurd hb List.not_mem_nil
  · rintro ⟨hk, binder, hbinder, hstart, name, hname, hblank⟩
    refine ⟨⟨name, none, binder.last, t.last⟩, ?_, by simp [Binding.isVisible, hstart, hinside]⟩
    simp only [bindings, hk, hbinder, bind, untyped, Option.map_some, Option.getD_some]
    refine List.mem_map.mpr ⟨(name, none), List.mem_filter.mpr ⟨?_, by simpa using hblank⟩, rfl⟩
    exact List.mem_map.mpr ⟨name, hname, rfl⟩

end FileScope

/-! ## Calls among the values -/

/-- What is visible nowhere near plays no part. -/
theorem Scope.lookup_of_invisible {before own after : Scope} {at_ : Nat}
    (h : ∀ b ∈ own, b.isVisible at_ = false) (name : String) :
    Scope.lookup (before ++ (own ++ after)) name at_ = Scope.lookup (before ++ after) name at_ := by
  have hnone : own.filter (fun b => b.name == name && b.isVisible at_) = [] :=
    List.filter_eq_nil_iff.mpr fun b hb => by simp [h b hb]
  unfold Scope.lookup
  rw [List.filter_append, List.filter_append, List.filter_append, hnone, List.nil_append]

namespace CallContext

variable {f : FileScope} {types : TypeEnv} {a b : Scope} {at_ : Nat}

theorem typeOf?_congr (h : ∀ name, a.lookup name at_ = b.lookup name at_) (expr : Tree) :
    typeOf? ⟨f, types, a⟩ at_ expr = typeOf? ⟨f, types, b⟩ at_ expr := by
  unfold typeOf?
  simp only [h]
  rfl

theorem selected?_congr (h : ∀ name, a.lookup name at_ = b.lookup name at_) (operand : Tree)
    (name : String) :
    selected? ⟨f, types, a⟩ at_ operand name = selected? ⟨f, types, b⟩ at_ operand name := by
  unfold selected? valueMethod?
  simp only [h, typeOf?_congr h]

/-- What a callee means depends on what names mean where it begins. -/
theorem target?_congr {callee : Tree}
    (h : ∀ name, a.lookup name callee.first = b.lookup name callee.first) :
    target? ⟨f, types, a⟩ callee = target? ⟨f, types, b⟩ callee := by
  unfold target?
  simp only [h, selected?_congr h]

end CallContext

namespace FileScope

/-- The local names of a function that some of the nodes in its body declare, beside its parameters. -/
def scopeFrom (f : FileScope) (declaration body : Tree) (nodes : List (Tree × Nat)) : Scope :=
  f.parameterScope declaration body [.receiver, .parameters, .result]
    ++ nodes.flatMap fun (node, stop) => f.bindings node stop

/-- **No declaration of values captures names in its own values, but for a type switch.** Of the nodes in
    the body of a function, let `node` be one that declares values. At no offset up to the end of the values
    a name of the declaration is visible, but behind the binder of a type switch; and where none is, a callee
    means what it means without the declaration. -/
theorem initializer_uncaptured (f : FileScope) (types : TypeEnv) (text : String)
    (declaration body : Tree) (hmem : declaration ∈ (SourceFile.parse text).root.named)
    (hbody : declaration.part? .body = some body) (earlier later : List (Tree × Nat)) (node : Tree)
    (stop : Nat) (hnode : body.preorderScoped declaration.last = earlier ++ (node, stop) :: later)
    (values : Tree) (hvalues : node.valuePart? = some values) :
    (∀ at_ < values.last,
      (∃ b ∈ f.bindings node stop, b.isVisible at_ = true) ↔ node.NamesOperand at_) ∧
    ∀ callee : Tree, callee.first < values.last → ¬ node.NamesOperand callee.first →
      CallContext.target? ⟨f, types, f.scopeOf declaration body⟩ callee
        = CallContext.target? ⟨f, types, f.scopeFrom declaration body (earlier ++ later)⟩ callee := by
  have hvisited : (node, stop) ∈ body.preorderScoped declaration.last := by simp [hnode]
  have hspans : node.Every Tree.Spans :=
    ((SourceFile.spans_of_mem_parse hmem).child (List.mem_of_find?_eq_some hbody)).of_mem_preorderScoped
      hvisited
  have hvisible : ∀ at_ < values.last,
      (∃ b ∈ f.bindings node stop, b.isVisible at_ = true) ↔ node.NamesOperand at_ :=
    fun _ hlast => exists_isVisible_iff hspans.here hvalues hlast
  refine ⟨hvisible, fun callee hlast hnone => CallContext.target?_congr fun name => ?_⟩
  have hown : ∀ b ∈ f.bindings node stop, b.isVisible callee.first = false := by
    intro b hb
    by_contra hseen
    exact hnone ((hvisible callee.first hlast).mp ⟨b, hb, by simpa using hseen⟩)
  unfold scopeOf scopeFrom
  rw [hnode, List.flatMap_append, List.flatMap_cons, List.flatMap_append, ← List.append_assoc,
    Scope.lookup_of_invisible hown, List.append_assoc]

/-- A variable that takes the name of the parameter its value is asked from. -/
def renewed : String :=
  "package m\n\nfunc Run(x T) \x7b\n\tx := x.load()\n\t_ = x\n\x7d\n"

theorem initializer_uncaptured_renewed :
    ∃ declaration ∈ (SourceFile.parse renewed).root.named, ∃ body,
      declaration.part? .body = some body ∧ ∃ earlier node stop later,
      body.preorderScoped declaration.last = earlier ++ (node, stop) :: later ∧
      ∃ values, node.valuePart? = some values ∧ ∃ callee ∈ values.preorder,
      callee.kind = .selectorExpression ∧
      CallContext.target? ⟨⟨"m", []⟩, {}, scopeOf ⟨"m", []⟩ declaration body⟩ callee
        = CallContext.target? ⟨⟨"m", []⟩, {}, scopeFrom ⟨"m", []⟩ declaration body (earlier ++ later)⟩
            callee := by
  have hshape : ((SourceFile.parse renewed).root.named.any fun declaration =>
      (declaration.part? .body).any fun body =>
        (body.preorderScoped declaration.last).any fun entry =>
          entry.1.kind == .shortVarDeclaration && entry.1.valuePart?.any fun values =>
            values.preorder.any fun callee =>
              callee.kind == .selectorExpression && callee.first < values.last) = true := by
    decide +kernel
  simp only [List.any_eq_true, Option.any_eq_true, Bool.and_eq_true, beq_iff_eq, decide_eq_true_eq]
    at hshape
  obtain ⟨declaration, hmem, body, hbody, ⟨node, stop⟩, hvisited, hkind, values, hvalues, callee, hcallee,
    hselector, hlast⟩ := hshape
  obtain ⟨earlier, later, hnode⟩ := List.append_of_mem hvisited
  refine ⟨declaration, hmem, body, hbody, earlier, node, stop, later, hnode, values, hvalues, callee, hcallee,
    hselector, ?_⟩
  have hswitch : ¬ node.NamesOperand callee.first := fun h => nomatch hkind.symm.trans h.1
  exact (initializer_uncaptured ⟨"m", []⟩ {} renewed declaration body hmem hbody earlier later node stop hnode
    values hvalues).2 callee hlast hswitch

/-- A type switch that takes the name of the parameter whose value is switched on. -/
def switched : String :=
  "package m\n\nfunc Run(x T) \x7b\n\tswitch x := x.load().(type) \x7b\n\tcase int:\n\t\t_ = x\n\t\x7d\n\x7d\n"

/-- **A type switch captures its operand:** the parameter tells what is called there, but the name that the
    switch declares is visible already. -/
theorem switch_captures_operand :
    (SourceFile.parse switched).broken = false ∧
    ∃ declaration ∈ (SourceFile.parse switched).root.named, ∃ body,
      declaration.part? .body = some body ∧ ∃ entry ∈ body.preorderScoped declaration.last,
      entry.1.kind = .typeSwitchStatement ∧ ∃ values, entry.1.valuePart? = some values ∧
      ∃ callee ∈ values.preorder, values.first ≤ callee.first ∧ callee.first < values.last ∧
      (∃ b ∈ bindings ⟨"m", []⟩ entry.1 entry.2, b.name = "x" ∧ b.isVisible callee.first = true) ∧
      CallContext.target? ⟨⟨"m", []⟩, {}, scopeOf ⟨"m", []⟩ declaration body⟩ callee = none ∧
      CallContext.target? ⟨⟨"m", []⟩, {}, scopeFrom ⟨"m", []⟩ declaration body []⟩ callee
        = some (.method "m" "T" "load") := by
  have hshape : ((SourceFile.parse switched).root.named.any fun declaration =>
      (declaration.part? .body).any fun body =>
        (body.preorderScoped declaration.last).any fun entry =>
          entry.1.kind == .typeSwitchStatement && entry.1.valuePart?.any fun values =>
            values.preorder.any fun callee =>
              values.first ≤ callee.first && (callee.first < values.last
                && ((bindings ⟨"m", []⟩ entry.1 entry.2).any (fun b =>
                    b.name == "x" && b.isVisible callee.first)
                  && (CallContext.target? ⟨⟨"m", []⟩, {}, scopeOf ⟨"m", []⟩ declaration body⟩ callee == none
                    && CallContext.target? ⟨⟨"m", []⟩, {}, scopeFrom ⟨"m", []⟩ declaration body []⟩ callee
                        == some (.method "m" "T" "load"))))) = true := by
    decide +kernel
  refine ⟨by decide +kernel, ?_⟩
  simpa only [List.any_eq_true, Option.any_eq_true, Bool.and_eq_true, beq_iff_eq, decide_eq_true_eq]
    using hshape

end FileScope
end GoExcerpt
