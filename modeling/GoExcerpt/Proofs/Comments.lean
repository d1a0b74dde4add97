import GoExcerpt.Load.Module
import GoExcerpt.Proofs.Blanking
import GoExcerpt.Proofs.Told

/-!
# `Proofs.Comments` — comments and what calls mean

A comment that does not stand where comments count changes nothing but documentation: with blanks in its place a
file declares the same types, and its functions make the same calls (`SourceFile.resolvedAlike_blanked`). One
that does count can change what is called (`SourceFile.comment_counted_as_type`).
-/

namespace GoExcerpt

variable {gone : Extent → Bool}

/-! ## Calls -/

namespace FileScope

open GoExcerpt.Tree (Told)

/-- **A function has the same local names.** -/
theorem scopeOf_without (f : FileScope) {declaration body : Tree} (hd : declaration.Every (Told gone))
    (hb : body.Every (Told gone)) (hbody : body.isGone gone = false) :
    f.scopeOf (declaration.without gone) (body.without gone) = f.scopeOf declaration body := by
  unfold scopeOf
  rw [f.parameterScope_without hd, Tree.last_without, Tree.preorderScoped_without hb.lexical hbody,
    Tree.flatMap_visitedWithout]
  · intro entry _ hgone
    have hk : entry.1.kind = .comment := Tree.kind_of_isGone hgone
    simp [bindings, hk]
  · exact fun entry hentry => f.bindings_without (hb.of_mem_preorderScoped hentry) entry.2

end FileScope

namespace CallContext

open GoExcerpt.Tree (Told)

variable (c : CallContext)

theorem selected?_without {operand : Tree} (ht : operand.Every (Told gone)) (at_ : Nat) (name : String) :
    c.selected? at_ (operand.without gone) name = c.selected? at_ operand name := by
  by_cases hk : operand.kind = .identifier
  · rw [ht.lexical.here.without_of_kind (by rw [hk]; rfl)]
  · have hk' : (operand.kind == .identifier) = false := beq_eq_false_iff_ne.mpr hk
    unfold selected? valueMethod? typeOf?
    rw [Tree.kind_without, hk', Tree.fieldChain_without ht]
    rfl

theorem target?_without {callee : Tree} (ht : callee.Every (Told gone)) :
    c.target? (callee.without gone) = c.target? callee := by
  unfold target?
  rw [Tree.first_without, Tree.descend_throughIndex ht]
  cases hcore : callee.descend Tree.throughIndex with
  | none => rfl
  | some core =>
      have hcore : core.Every (Told gone) := (Tree.standsFor_of_descend callee hcore).every ht
      simp only [Option.map_some, Option.bind_eq_bind, Option.bind_some, Tree.kind_without]
      split
      next hk => rw [hcore.lexical.here.without_of_kind (by rw [hk]; rfl)]
      next =>
        rw [Tree.part?_without hcore.lexical .operand, Tree.part?_lexeme hcore.lexical rfl]
        cases hoperand : core.part? .operand with
        | none => rfl
        | some operand =>
            simp only [Option.map_some, Option.bind_some,
              c.selected?_without (hcore.part? hoperand)]
      next => rfl

theorem call?_without {node : Tree} (ht : node.Every (Told gone)) :
    c.call? (node.without gone) = c.call? node := by
  unfold call?
  rw [Tree.part?_without ht.lexical, Tree.extent_without]
  cases hcallee : node.part? .function with
  | none => rfl
  | some callee =>
      simp only [Option.map_some, Option.bind_eq_bind, Option.bind_some,
        c.target?_without (ht.part? hcallee)]

/-- **A body makes the same calls.** -/
theorem calls_without {body : Tree} (hb : body.Every (Told gone)) (hbody : body.isGone gone = false) :
    c.calls (body.without gone) = c.calls body := by
  unfold calls
  rw [Tree.preorder_without hb.lexical hbody, Tree.filter_kind_withoutAll (by decide), List.filterMap_map]
  refine List.filterMap_congr fun node hnode => ?_
  exact c.call?_without (hb.of_mem_preorder (List.mem_filter.mp hnode).1)

end CallContext

/-! ## Functions -/

/-- A declaration without the places of its documentation. -/
def Declaration.undocumented (d : Declaration) : Declaration := { d with doc := [] }

theorem LineRange.ofTree_without (t : Tree) : LineRange.ofTree (t.without gone) = LineRange.ofTree t := by
  rw [LineRange.ofTree, Tree.extent_without, LineRange.ofTree]

namespace FileScope

open GoExcerpt.Tree (Told)

variable (f : FileScope) {t : Tree}

theorem receiverBase?_without (ht : t.Every (Told gone)) :
    receiverBase? (t.without gone) = receiverBase? t := by
  unfold receiverBase?
  rw [Tree.named_without, Tree.find?_kind_withoutAll (by decide)]
  cases hparameter : t.named.find? (·.kind == .parameterDeclaration) with
  | none => rfl
  | some parameter =>
      have hparameter : parameter.Every (Told gone) :=
        ht.named (List.mem_of_find?_eq_some hparameter)
      simp only [Option.map_some, Option.bind_eq_bind, Option.bind_some,
        Tree.part?_without hparameter.lexical]
      cases htype : parameter.part? .typ with
      | none => rfl
      | some type =>
          have htype : type.Every (Told gone) := hparameter.part? htype
          simp only [Option.map_some, Option.bind_some, Tree.descend_throughType htype]
          cases hcore : type.descend Tree.throughType with
          | none => rfl
          | some core =>
              have hcore := ((Tree.standsFor_of_descend type hcore).every htype).lexical.here
              simp only [Option.map_some, Option.bind_some, Tree.kind_without]
              split
              next hk => rw [hcore.without_of_kind (by rw [beq_iff_eq.mp hk]; rfl)]
              next => rfl

theorem declaredSymbol?_without (ht : t.Every (Told gone)) (path : String) (line : Nat) :
    f.declaredSymbol? path (t.without gone) line = f.declaredSymbol? path t line := by
  have hreceiver : ((t.without gone).part? .receiver).bind receiverBase?
      = (t.part? .receiver).bind receiverBase? := by
    rw [Tree.part?_without ht.lexical]
    cases hpart : t.part? .receiver with
    | none => rfl
    | some receiver => exact receiverBase?_without (ht.part? hpart)
  have hname : (t.without gone).part? .name = t.part? .name := Tree.part?_lexeme ht.lexical rfl
  unfold declaredSymbol?
  simp only [hname, Tree.kind_without, Option.bind_eq_bind, ← Option.bind_assoc, hreceiver]

/-- A declaration is the same, but for its documentation. -/
theorem declaration?_without (ht : t.Every (Told gone)) (types : TypeEnv) (path : String)
    (before before' : List Tree) :
    (f.declaration? types path (t.without gone) before').map Declaration.undocumented
      = (f.declaration? types path t before).map Declaration.undocumented := by
  have hcalls : (((t.without gone).part? .body).map fun body =>
        CallContext.calls ⟨f, types, f.scopeOf (t.without gone) body⟩ body)
      = (t.part? .body).map fun body => CallContext.calls ⟨f, types, f.scopeOf t body⟩ body := by
    rw [Tree.part?_without ht.lexical, Option.map_map]
    cases hpart : t.part? .body with
    | none => rfl
    | some body =>
        have hmem := List.mem_of_find?_eq_some hpart
        have hrole : (body.role == some .body) = true :=
          List.find?_some (p := fun c : Tree => c.role == some .body) hpart
        have hbody : body.isGone gone = false := Tree.not_gone_of_role ht.lexical hmem hrole
        simp only [Option.map_some, Function.comp_apply, f.scopeOf_without ht (ht.child hmem) hbody,
          CallContext.calls_without _ (ht.child hmem) hbody]
  unfold declaration?
  simp only [LineRange.ofTree_without, f.declaredSymbol?_without ht, hcalls, Option.bind_eq_bind]
  cases f.declaredSymbol? path t (LineRange.ofTree t).start with
  | none => rfl
  | some id => rfl

/-- **The declarations among items are the same, but for their documentation.** -/
theorem declarationsAfter_without {items : List Tree} (hitems : ∀ t ∈ items, t.Every (Told gone))
    (types : TypeEnv) (path : String) (before before' : List Tree) :
    (f.declarationsAfter types path before' (Tree.withoutAll gone items)).map Declaration.undocumented
      = (f.declarationsAfter types path before items).map Declaration.undocumented := by
  induction items generalizing before before' with
  | nil => simp [declarationsAfter]
  | cons t items ih =>
      have hrest : ∀ before before', _ := ih fun t ht => hitems t (.tail _ ht)
      rw [Tree.withoutAll_cons, declarationsAfter]
      split
      next hgone =>
        -- a comment among the items documents what follows, and declares nothing
        have hk : t.kind = .comment := Tree.kind_of_isGone hgone
        rw [hrest (t :: before) before']
        simp [hk]
      next =>
        rw [declarationsAfter, Tree.kind_without, List.map_append, List.map_append,
          hrest (t :: before) (t.without gone :: before')]
        congr 1
        split
        next =>
          have hsame := f.declaration?_without (hitems t (.head _)) types path before before'
          rw [← Option.toList_map, ← Option.toList_map, hsame]
        next => rfl

end FileScope

/-! ## Imports and the package name -/

theorem Imports.ofSpec_without (names : ClauseNames) {spec : Tree} (ht : spec.Every Tree.Lexical) :
    ofSpec names (spec.without gone) = ofSpec names spec := by
  unfold ofSpec
  rw [Tree.part?_lexeme ht rfl, Tree.part?_lexeme ht rfl]

theorem Imports.ofRoot_without (names : ClauseNames) {root root' : Tree}
    (hroot : root'.named = Tree.withoutAll gone root.named)
    (hitems : ∀ t ∈ root.named, t.Every Tree.Lexical) : ofRoot names root' = ofRoot names root := by
  have hspecs : ((root'.named.filter (·.kind == .importDeclaration)).flatMap Tree.preorder).filter
        (·.kind == .importSpec)
      = (((root.named.filter (·.kind == .importDeclaration)).flatMap Tree.preorder).filter
        (·.kind == .importSpec)).map (Tree.without gone) := by
    rw [hroot, Tree.filter_kind_withoutAll (by decide), List.flatMap_map, List.filter_flatMap,
      List.filter_flatMap, List.map_flatMap]
    refine List.flatMap_congr fun t ht => ?_
    obtain ⟨ht, hk⟩ := List.mem_filter.mp ht
    rw [Tree.preorder_without (hitems t ht) (Tree.not_gone_of_kind (by decide) hk),
      Tree.filter_kind_withoutAll (by decide)]
  unfold ofRoot
  simp only [hspecs, List.filterMap_map]
  refine congrArg _ (List.filterMap_congr fun spec hspec => ?_)
  obtain ⟨t, ht, hspec⟩ := List.mem_flatMap.mp (List.mem_filter.mp hspec).1
  exact ofSpec_without names ((hitems t (List.mem_filter.mp ht).1).of_mem_preorder hspec)

theorem SourceFile.packageName_without {a b : SourceFile}
    (hroot : b.root.named = Tree.withoutAll gone a.root.named)
    (hitems : ∀ t ∈ a.root.named, t.Every Tree.Lexical) : b.packageName = a.packageName := by
  unfold packageName
  rw [hroot, Tree.find?_kind_withoutAll (by decide)]
  cases hclause : a.root.named.find? (·.kind == .packageClause) with
  | none => rfl
  | some clause =>
      have hclause := hitems clause (List.mem_of_find?_eq_some hclause)
      simp only [Option.map_some, Option.bind_eq_bind, Option.bind_some, Tree.named_without,
        Tree.find?_kind_withoutAll (show Kind.packageIdentifier ≠ .comment by decide)]
      cases hname : clause.named.find? (·.kind == .packageIdentifier) with
      | none => rfl
      | some name =>
          have hlexical := (hclause.named (List.mem_of_find?_eq_some hname)).here
          have hk : (name.kind == .packageIdentifier) = true :=
            List.find?_some (p := fun c : Tree => c.kind == .packageIdentifier) hname
          rw [Option.map_some, hlexical.without_of_kind (by rw [beq_iff_eq.mp hk]; rfl)]

/-! ## Files -/

namespace SourceFile

/-- **Two files that are resolved alike,** but for the places of documentation: they declare the same types,
    and functions of the same identity and lines that make the same calls. -/
structure ResolvedAlike (a b : SourceFile) : Prop where
  packageName : a.packageName = b.packageName
  types : ∀ names package path, (Load.scopeOf names package ⟨path, a⟩).topLevelTypes a.root
    = (Load.scopeOf names package ⟨path, b⟩).topLevelTypes b.root
  functions : ∀ names package types path,
    ((Load.scopeOf names package ⟨path, a⟩).unitOf types path a.root).functions.map
        Declaration.undocumented
      = ((Load.scopeOf names package ⟨path, b⟩).unitOf types path b.root).functions.map
        Declaration.undocumented

/-- Without comments that stand where they do not count, a file is resolved alike. -/
theorem resolvedAlike_of_without {a b : SourceFile} (hroot : b.root.named = Tree.withoutAll gone a.root.named)
    (hitems : ∀ t ∈ a.root.named, t.Every (Tree.Told gone)) : ResolvedAlike b a := by
  have hlexical : ∀ t ∈ a.root.named, t.Every Tree.Lexical := fun t ht => (hitems t ht).lexical
  have hscope : ∀ names package path, Load.scopeOf names package ⟨path, b⟩
      = Load.scopeOf names package ⟨path, a⟩ := fun names package path => by
    rw [Load.scopeOf, Imports.ofRoot_without names hroot hlexical, Load.scopeOf]
  refine ⟨packageName_without hroot hlexical, fun names package path => ?_,
    fun names package types path => ?_⟩
  · rw [hscope, FileScope.topLevelTypes_without _ hroot hitems]
  · rw [hscope, FileScope.unitOf, hroot]
    exact FileScope.declarationsAfter_without _ hitems types path [] []

/-- **A comment that does not stand where comments count changes nothing,** unless it has a line end in it and
    follows code in its line: with blanks in its place the file still has no part that cannot be read, declares
    the same types, and its functions make the same calls. -/
theorem resolvedAlike_blanked (source : String) (l : Lexeme) (hbroken : (parse source).broken = false)
    (hl : l ∈ Lexeme.scan source) (hcomment : l.cls = .comment)
    (hline : '\n' ∉ l.text.toList ∨ Lexeme.opensLine (Lexeme.scan source) l = true)
    (huncounted : ∀ item ∈ (parse source).root.named, ∀ node ∈ item.preorder,
      node.uncounted (· == l.extent) = true) :
    (parse (Text.blanked source l.extent)).broken = false ∧
      ResolvedAlike (parse (Text.blanked source l.extent)) (parse source) := by
  obtain ⟨hunbroken, hchildren⟩ := parse_blanked hbroken hl hcomment hline
  -- the file is the one it was without the comment, and that is told alike
  refine ⟨hunbroken, resolvedAlike_of_without (Tree.named_of_children hchildren) fun item hitem => ?_⟩
  exact (lexical_of_mem_parse hitem).told (huncounted item hitem)

/-- A function with a comment over two lines before its only call. -/
def waiting : String :=
  "package m\n\ntype W struct\x7b\x7d\n\nfunc (w W) Do() \x7b\x7d\n\n"
    ++ "func Run(v W) \x7b\n\t/* not\n\t   yet */\n\tv.Do()\n\x7d\n"

theorem resolvedAlike_blanked_waiting :
    (parse waiting).broken = false ∧ ∃ l ∈ Lexeme.scan waiting, l.cls = .comment ∧
      '\n' ∈ l.text.toList ∧ (parse (Text.blanked waiting l.extent)).broken = false ∧
      ResolvedAlike (parse (Text.blanked waiting l.extent)) (parse waiting) := by
  have hbroken : (parse waiting).broken = false := by decide +kernel
  have hshape : ((Lexeme.scan waiting).any fun l =>
      l.cls == .comment && (l.text.toList.contains '\n' && (Lexeme.opensLine (Lexeme.scan waiting) l &&
        (parse waiting).root.named.all fun item => item.preorder.all fun node =>
          node.uncounted (· == l.extent)))) = true := by
    decide +kernel
  simp only [List.any_eq_true, Bool.and_eq_true, beq_iff_eq, List.contains_eq_mem, decide_eq_true_eq,
    List.all_eq_true] at hshape
  obtain ⟨l, hl, hcomment, hlines, hopens, huncounted⟩ := hshape
  exact ⟨hbroken, l, hl, hcomment, hlines,
    resolvedAlike_blanked waiting l hbroken hl hcomment (.inr hopens) huncounted⟩

/-- A function that allocates a value, with a comment before its type. -/
def idle : String :=
  "package m\n\ntype W struct\x7b\x7d\n\nfunc (w *W) Do() \x7b\x7d\n\n"
    ++ "func Run() \x7b\n\tw := new( /* idle */ W)\n\tw.Do()\n\x7d\n"

/-- The calls of the functions of a file that stands alone in its package. -/
def callsOf (file : SourceFile) : List (Option (List Call)) :=
  let scope := Load.scopeOf [] "m" ⟨"a.go", file⟩
  (scope.unitOf (scope.topLevelTypes file.root) "a.go" file.root).functions.map (·.calls)

/-- **A comment before the type that is allocated changes what is called:** with blanks in its place the
    second call means a method, with the comment nothing. -/
theorem comment_counted_as_type :
    (parse idle).broken = false ∧ ∃ l ∈ Lexeme.scan idle, l.cls = .comment ∧
      (parse (Text.blanked idle l.extent)).broken = false ∧
      callsOf (parse idle) = [some [], some [⟨none, 8⟩, ⟨none, 9⟩]] ∧
      callsOf (parse (Text.blanked idle l.extent))
        = [some [], some [⟨none, 8⟩, ⟨some (.method "m" "W" "Do"), 9⟩]] := by
  have hshape : ((Lexeme.scan idle).any fun l =>
      l.cls == .comment && ((parse (Text.blanked idle l.extent)).broken == false
        && (callsOf (parse idle) == [some [], some [⟨none, 8⟩, ⟨none, 9⟩]]
          && callsOf (parse (Text.blanked idle l.extent))
            == [some [], some [⟨none, 8⟩, ⟨some (.method "m" "W" "Do"), 9⟩]]))) = true := by
    decide +kernel
  refine ⟨by decide +kernel, ?_⟩
  simpa only [List.any_eq_true, Bool.and_eq_true, beq_iff_eq] using hshape

end SourceFile
end GoExcerpt
