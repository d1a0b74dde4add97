import GoExcerpt.Proofs.Bindings
import GoExcerpt.Proofs.Lexical
import GoExcerpt.Proofs.Uncommented
import GoExcerpt.Proofs.WrittenTypes
import GoExcerpt.Resolve.Calls

/-!
# `Proofs.Counted` — where a comment counts

Comments play no part, so a part of a node is the same tree without some comments, and what is read as text is
not changed at all. A comment counts only where a node stands for its first named child, where names are
given types by position, and where a type is allocated (`Tree.uncounted`). Elsewhere it makes no difference to
where a walk down a tree ends (`Tree.descend_without`, `Tree.fieldChain_without`), and the same nodes are
visited without it (`Tree.preorder_without`).
-/

namespace GoExcerpt

variable {gone : Extent → Bool}

/-! ## Children of a tree without some comments -/

namespace Tree

/-- Picking trees, comments apart, is the same without some comments. -/
theorem filter_withoutAll {p : Tree → Bool} {ts : List Tree} (hp : ∀ t, p (t.without gone) = p t)
    (hgone : ∀ t ∈ ts, p t = true → t.isGone gone = false) :
    (withoutAll gone ts).filter p = (ts.filter p).map (without gone) := by
  have hsame : p ∘ without gone = p := funext hp
  rw [withoutAll_eq, List.filter_map, hsame, List.filter_filter]
  refine congrArg _ (List.filter_congr fun t ht => ?_)
  cases hpt : p t with
  | false => rfl
  | true => simp [hgone t ht hpt]

theorem find?_withoutAll {p : Tree → Bool} {ts : List Tree} (hp : ∀ t, p (t.without gone) = p t)
    (hgone : ∀ t ∈ ts, p t = true → t.isGone gone = false) :
    (withoutAll gone ts).find? p = (ts.find? p).map (without gone) := by
  rw [← List.head?_filter, filter_withoutAll hp hgone, List.head?_map, List.head?_filter]

/-- The first tree stays first unless it is left out. -/
theorem head?_withoutAll {ts : List Tree} (h : ts.head?.any (isGone gone) = false) :
    (withoutAll gone ts).head? = ts.head?.map (without gone) := by
  cases ts with
  | nil => simp
  | cons t ts =>
      rw [withoutAll_cons, if_neg (by simpa using h)]
      rfl

theorem withoutAll_eq_map {ts : List Tree} (h : ∀ t ∈ ts, t.isGone gone = false) :
    withoutAll gone ts = ts.map (without gone) := by
  rw [withoutAll_eq, List.filter_eq_self.mpr]
  exact fun t ht => by simp [h t ht]

/-- What gives nothing for the comments left out, and the same for all else, gives the same. -/
theorem flatMap_withoutAll {α : Type} {g g' : Tree → List α} {ts : List Tree}
    (hgone : ∀ t ∈ ts, t.isGone gone = true → g t = [])
    (hg : ∀ t ∈ ts, t.isGone gone = false → g' (t.without gone) = g t) :
    (withoutAll gone ts).flatMap g' = ts.flatMap g := by
  induction ts with
  | nil => simp
  | cons t ts ih =>
      have hrest := ih (fun t ht => hgone t (.tail _ ht)) fun t ht => hg t (.tail _ ht)
      rw [withoutAll_cons, List.flatMap_cons]
      split
      next h => rw [hgone t (.head _) h, hrest, List.nil_append]
      next h => rw [List.flatMap_cons, hg t (.head _) (by simpa using h), hrest]

theorem foldl_withoutAll {α : Type} {step : α → Tree → α} {ts : List Tree}
    (hgone : ∀ a, ∀ t ∈ ts, t.isGone gone = true → step a t = a)
    (hstep : ∀ a, ∀ t ∈ ts, t.isGone gone = false → step a (t.without gone) = step a t) (a : α) :
    (withoutAll gone ts).foldl step a = ts.foldl step a := by
  induction ts generalizing a with
  | nil => simp
  | cons t ts ih =>
      have hrest := ih (fun a t ht => hgone a t (.tail _ ht)) fun a t ht => hstep a t (.tail _ ht)
      rw [withoutAll_cons, List.foldl_cons]
      split
      next h => rw [hgone a t (.head _) h, hrest]
      next h => rw [List.foldl_cons, hstep a t (.head _) (by simpa using h), hrest]

theorem isComment_of_isGone {t : Tree} (h : t.isGone gone = true) : t.isComment = true :=
  (Bool.and_eq_true_iff.mp h).1

theorem kind_of_isGone {t : Tree} (h : t.isGone gone = true) : t.kind = .comment :=
  beq_iff_eq.mp (isComment_of_isGone h)

theorem not_gone_of_kind {t : Tree} {k : Kind} (hk : k ≠ .comment) (h : (t.kind == k) = true) :
    t.isGone gone = false := by
  simp [isGone, isComment, beq_iff_eq.mp h, hk]

theorem filter_kind_withoutAll {k : Kind} (hk : k ≠ .comment) (ts : List Tree) :
    (withoutAll gone ts).filter (·.kind == k) = (ts.filter (·.kind == k)).map (without gone) :=
  filter_withoutAll (fun t => by rw [kind_without]) fun _ _ h => not_gone_of_kind hk h

theorem find?_kind_withoutAll {k : Kind} (hk : k ≠ .comment) (ts : List Tree) :
    (withoutAll gone ts).find? (·.kind == k) = (ts.find? (·.kind == k)).map (without gone) :=
  find?_withoutAll (fun t => by rw [kind_without]) fun _ _ h => not_gone_of_kind hk h

theorem named_of_children {t t' : Tree} (h : t'.children = withoutAll gone t.children) :
    t'.named = withoutAll gone t.named := by
  rw [named, h, withoutAll_eq, withoutAll_eq, List.filter_map, List.filter_filter, named,
    List.filter_filter]
  exact congrArg _ (List.filter_congr fun t _ => by simp [Bool.and_comm])

theorem named_without (t : Tree) : (t.without gone).named = withoutAll gone t.named :=
  named_of_children (children_without t)

section

variable {t : Tree} (ht : t.Every Lexical)

include ht

theorem not_gone_of_role {role : Role} {c : Tree} (hc : c ∈ t.children)
    (h : (c.role == some role) = true) : c.isGone gone = false := by
  by_contra hgone
  have hcomment : c.isComment = true := isComment_of_isGone (by simpa using hgone)
  rw [((ht.child hc).here.comment hcomment).1] at h
  cases h

theorem parts_without (role : Role) : (t.without gone).parts role = (t.parts role).map (without gone) := by
  rw [parts, children_without]
  exact filter_withoutAll (fun t => by rw [role_without]) fun _ hc h => not_gone_of_role ht hc h

theorem part?_without (role : Role) : (t.without gone).part? role = (t.part? role).map (without gone) := by
  rw [part?, children_without]
  exact find?_withoutAll (fun t => by rw [role_without]) fun _ hc h => not_gone_of_role ht hc h

end

/-! ## What is read as text -/

theorem without_of_isLeaf {t : Tree} (h : t.isLeaf = true) : t.without gone = t := by
  cases t with
  | leaf k r e text => rw [without]
  | node k r e cs => cases h

theorem Lexical.without_of_kind {t : Tree} (h : t.Lexical) (hk : t.kind.isLexeme = true) :
    t.without gone = t :=
  without_of_isLeaf (h.kind hk)

section

variable {t : Tree} (ht : t.Every Lexical)

include ht

theorem parts_lexeme {role : Role} (hr : role.isLexeme = true) :
    (t.without gone).parts role = t.parts role := by
  rw [parts_without ht]
  conv => rhs; rw [← List.map_id (t.parts role)]
  refine List.map_congr_left fun c hc => ?_
  obtain ⟨hc, hrole⟩ := List.mem_filter.mp hc
  exact without_of_isLeaf ((ht.child hc).here.role role (beq_iff_eq.mp hrole) hr)

theorem part?_lexeme {role : Role} (hr : role.isLexeme = true) :
    (t.without gone).part? role = t.part? role := by
  rw [part?, ← List.head?_filter, ← parts, parts_lexeme ht hr, parts, List.head?_filter, part?]

theorem names_without : FileScope.names (t.without gone) = FileScope.names t := by
  rw [FileScope.names, parts_lexeme ht rfl, FileScope.names]

end

/-! ## Places where comments count -/

/-- What `new` allocates, if the expression is a call of it. -/
def allocated? (expr : Tree) : Option Tree := do
  if expr.kind == .callExpression then
    let function ← expr.part? .function
    if function.kind == .identifier && function.text == "new" then
      (← expr.part? .arguments).named.head?
    else none
  else none

/-- The values of a declaration that gives its names the types of the values at their positions. -/
def positioned (t : Tree) : List Tree :=
  match t.kind with
  | .shortVarDeclaration => ((t.part? .right).map named).getD []
  | .varSpec | .constSpec => ((t.part? .value).map named).getD []
  | _ => []

/-- Whether a node stands for its first named child: a pointer type, or something in parentheses. -/
def standsForFirst (t : Tree) : Bool :=
  t.kind == .pointerType || t.kind == .parenthesizedType || t.kind == .parenthesizedExpression

section

variable (gone)

/-- Whether what `new` allocates is told by the same text. -/
def toldArgument (type : Tree) : Bool :=
  !type.isGone gone && (type.part? .operand).all fun operand => (operand.without gone).text == operand.text

/-- Whether a value at its position tells the same type. -/
def toldValue (value : Tree) : Bool :=
  !value.isGone gone && value.allocated?.all (toldArgument gone)

/-- Whether no comment that is left out stands where it counts: as the first named child of a pointer type
    or of parentheses, among the values of a declaration, or as what `new` allocates there. -/
def uncounted (t : Tree) : Bool :=
  !(t.standsForFirst && t.named.head?.any (isGone gone)) && t.positioned.all (toldValue gone)

end

/-- **A tree that is read alike without some comments.** -/
structure Told (gone : Extent → Bool) (t : Tree) : Prop where
  lexical : t.Lexical
  uncounted : t.uncounted gone = true

theorem Every.lexical {t : Tree} (h : t.Every (Told gone)) : t.Every Lexical := h.imp fun _ h => h.lexical

theorem Told.first {t : Tree} (h : Told gone t) (hfirst : t.standsForFirst = true) :
    t.named.head?.any (isGone gone) = false := by
  have huncounted := (Bool.and_eq_true_iff.mp h.uncounted).1
  rw [hfirst] at huncounted
  simpa using huncounted

theorem Told.value {t value : Tree} (h : Told gone t) (hvalue : value ∈ t.positioned) :
    value.toldValue gone = true :=
  List.all_eq_true.mp (Bool.and_eq_true_iff.mp h.uncounted).2 value hvalue

theorem mem_preorderNamed {ts : List Tree} {c n : Tree} (hc : c ∈ ts) (hnamed : c.isNamed = true)
    (hn : n ∈ c.preorder) : n ∈ preorderNamed ts := by
  induction ts with
  | nil => exact absurd hc List.not_mem_nil
  | cons t ts ih =>
      rw [preorderNamed]
      rcases List.mem_cons.mp hc with rfl | hc
      · rw [if_pos hnamed]
        exact List.mem_append_left _ hn
      · split
        next => exact List.mem_append_right _ (ih hc)
        next => exact ih hc

theorem uncounted_leaf (k : Kind) (r : Option Role) (e : Extent) (text : String) :
    (leaf k r e text).uncounted gone = true := by
  have hvalues : (leaf k r e text).positioned = [] := by
    unfold positioned
    split <;> rfl
  rw [uncounted, hvalues]
  simp [named, children]

/-- It is enough to look at the nodes visited: all others are punctuation. -/
theorem Every.told {t : Tree} (ht : t.Every Lexical) (h : ∀ n ∈ t.preorder, n.uncounted gone = true) :
    t.Every (Told gone) := by
  induction ht with
  | leaf hp => exact .leaf ⟨hp, uncounted_leaf _ _ _ _⟩
  | @node k r e cs hp hcs ih =>
      refine .node ⟨hp, h _ List.mem_cons_self⟩ fun c hc => ?_
      by_cases hnamed : c.isNamed = true
      · exact ih c hc fun n hn => h n (List.mem_cons_of_mem _ (mem_preorderNamed hc hnamed hn))
      · -- punctuation is not visited, but has nothing below it that could count
        have hmark : c.kind = .mark := by simpa [isNamed, Kind.isNamed] using hnamed
        have hleaf := (hcs c hc).here.kind (by rw [hmark]; rfl)
        cases c with
        | leaf k r e text => exact .leaf ⟨(hcs _ hc).here, uncounted_leaf _ _ _ _⟩
        | node k r e cs => cases hleaf

/-! ## Going down -/

section

variable {way : Kind → Option Descent} {t core : Tree}

theorem StandsFor.every {p : Tree → Prop} (h : StandsFor way t core) (ht : t.Every p) : core.Every p := by
  induction h with
  | here => exact ht
  | part _ hu _ ih => exact ih (ht.part? hu)
  | firstNamed _ hu _ ih => exact ih (ht.named (List.mem_of_mem_head? hu))

/-- Going down leads to the same tree, without the comments. -/
theorem descend_without (hway : ∀ t : Tree, way t.kind = some .firstNamed → t.standsForFirst = true)
    (ht : t.Every (Told gone)) : (t.without gone).descend way = (t.descend way).map (without gone) := by
  induction ht with
  | leaf h =>
      rw [without, descend]
      split
      next => rfl
      next => rw [Option.map_some, without]
  | @node k r e cs h hcs ih =>
      have hlexical : (node k r e cs).Every Lexical := Every.lexical (.node h hcs)
      rw [without, descend, descend]
      cases hk : way k with
      | none => simp [without]
      | some direction =>
          cases direction with
          | part role =>
              have hpart : (withoutAll gone cs).find? (·.role == some role)
                  = (cs.find? (·.role == some role)).map (without gone) :=
                part?_without hlexical role
              simp only [descendPart_eq, hpart]
              cases hfind : cs.find? (·.role == some role) with
              | none => rfl
              | some u => exact ih u (List.mem_of_find?_eq_some hfind)
          | firstNamed =>
              have hnamed : (withoutAll gone cs).filter isNamed = withoutAll gone (cs.filter isNamed) :=
                named_without (node k r e cs)
              have hfirst : (cs.filter isNamed).head?.any (isGone gone) = false := h.first (hway _ hk)
              simp only [descendNamed_eq, hnamed, head?_withoutAll hfirst]
              cases hhead : (cs.filter isNamed).head? with
              | none => rfl
              | some u => exact ih u (List.mem_filter.mp (List.mem_of_mem_head? hhead)).1

theorem descend_throughType (ht : t.Every (Told gone)) :
    (t.without gone).descend throughType = (t.descend throughType).map (without gone) := by
  refine descend_without (fun u hu => ?_) ht
  unfold throughType at hu
  unfold standsForFirst
  split at hu
  next hk => simp [hk]
  next hk => simp [hk]
  next => cases hu
  next => cases hu

theorem descend_throughIndex (ht : t.Every (Told gone)) :
    (t.without gone).descend throughIndex = (t.descend throughIndex).map (without gone) := by
  refine descend_without (fun u hu => ?_) ht
  unfold throughIndex at hu
  split at hu
  all_goals cases hu

theorem fieldChainOperand_eq (ts : List Tree) :
    fieldChainOperand ts = (ts.find? (·.role == some .operand)).bind fieldChain := by
  induction ts with
  | nil => rfl
  | cons t ts ih =>
      rw [fieldChainOperand, List.find?_cons, ih]
      cases t.role == some .operand <;> rfl

theorem fieldChainNamed_eq (ts : List Tree) :
    fieldChainNamed ts = (ts.filter isNamed).head?.bind fieldChain := by
  rw [List.head?_filter]
  induction ts with
  | nil => rfl
  | cons t ts ih =>
      rw [fieldChainNamed, List.find?_cons, ih]
      cases t.isNamed <;> rfl

/-- The chain of selections is the same. -/
theorem fieldChain_without (ht : t.Every (Told gone)) : (t.without gone).fieldChain = t.fieldChain := by
  induction ht with
  | leaf h => rw [without]
  | @node k r e cs h hcs ih =>
      have hlexical : (node k r e cs).Every Lexical := Every.lexical (.node h hcs)
      by_cases hselector : k = .selectorExpression
      · subst hselector
        have hmember : (withoutAll gone cs).find? (·.role == some .member)
            = cs.find? (·.role == some .member) := part?_lexeme hlexical rfl
        have hoperand : (withoutAll gone cs).find? (·.role == some .operand)
            = (cs.find? (·.role == some .operand)).map (without gone) := part?_without hlexical .operand
        rw [without, fieldChain, fieldChain, hmember, fieldChainOperand_eq, fieldChainOperand_eq, hoperand]
        cases hfind : cs.find? (·.role == some .operand) with
        | none => rfl
        | some u => rw [Option.map_some, Option.bind_some, Option.bind_some,
            ih u (List.mem_of_find?_eq_some hfind)]
      by_cases hparentheses : k = .parenthesizedExpression
      · subst hparentheses
        have hnamed : (withoutAll gone cs).filter isNamed = withoutAll gone (cs.filter isNamed) :=
          named_without (node .parenthesizedExpression r e cs)
        have hfirst : (cs.filter isNamed).head?.any (isGone gone) = false := h.first rfl
        rw [without, fieldChain, fieldChain, fieldChainNamed_eq, fieldChainNamed_eq, hnamed,
          head?_withoutAll hfirst]
        cases hhead : (cs.filter isNamed).head? with
        | none => rfl
        | some u => exact ih u (List.mem_filter.mp (List.mem_of_mem_head? hhead)).1
      · rw [without, fieldChain, fieldChain]
        all_goals first
          | exact hselector
          | exact hparentheses

end

/-! ## Nodes visited -/

variable (gone) in
/-- Nodes visited, without the comments left out. -/
def visitedWithout (entries : List (Tree × Nat)) : List (Tree × Nat) :=
  (entries.filter fun entry => !entry.1.isGone gone).map fun entry => (entry.1.without gone, entry.2)

theorem visitedWithout_append (a b : List (Tree × Nat)) :
    visitedWithout gone (a ++ b) = visitedWithout gone a ++ visitedWithout gone b := by
  simp [visitedWithout]

theorem flatMap_visitedWithout {α : Type} {g : Tree × Nat → List α} {entries : List (Tree × Nat)}
    (hgone : ∀ entry ∈ entries, entry.1.isGone gone = true → g entry = [])
    (hg : ∀ entry ∈ entries, g (entry.1.without gone, entry.2) = g entry) :
    (visitedWithout gone entries).flatMap g = entries.flatMap g := by
  rw [visitedWithout, List.flatMap_map]
  induction entries with
  | nil => rfl
  | cons entry entries ih =>
      have hrest := ih (fun e he => hgone e (.tail _ he)) fun e he => hg e (.tail _ he)
      by_cases h : entry.1.isGone gone = true
      · rw [List.filter_cons_of_neg (by simp [h]), hrest, List.flatMap_cons, hgone entry (.head _) h,
          List.nil_append]
      · rw [List.filter_cons_of_pos (by simp [h]), List.flatMap_cons, List.flatMap_cons, hrest,
          hg entry (.head _)]

/-- A comment has nothing below it to visit. -/
theorem preorderScoped_comment {t : Tree} (ht : t.Lexical) (h : t.isGone gone = true) (outer : Nat) :
    t.preorderScoped outer = [(t, outer)] := by
  cases t with
  | leaf k r e text => rfl
  | node k r e cs =>
      obtain ⟨-, rfl⟩ : r = none ∧ cs = [] := ht.comment (isComment_of_isGone h)
      rfl

theorem preorderScoped_without {t : Tree} (ht : t.Every Lexical) (h : t.isGone gone = false) (outer : Nat) :
    (t.without gone).preorderScoped outer = visitedWithout gone (t.preorderScoped outer) := by
  induction ht generalizing outer with
  | leaf hp => simp [without, preorderScoped, visitedWithout, h]
  | @node k r e cs hp hcs ih =>
      -- over the children from left to right, each of which has its own hypothesis
      have hall : ∀ outer, ∀ ts : List Tree, (∀ c ∈ ts, c ∈ cs) →
          preorderScopedNamed outer (withoutAll gone ts)
            = visitedWithout gone (preorderScopedNamed outer ts) := by
        intro outer ts
        induction ts with
        | nil => intro _; simp [preorderScopedNamed, visitedWithout]
        | cons c ts ihts =>
            intro hts
            have hc := hts c List.mem_cons_self
            have hrest := ihts fun c hc => hts c (List.mem_cons_of_mem _ hc)
            rw [withoutAll_cons, preorderScopedNamed]
            by_cases hgone : c.isGone gone = true
            · have hnamed : c.isNamed = true := by
                rw [isNamed, kind_of_isGone hgone]
                rfl
              rw [if_pos hgone, if_pos hnamed, visitedWithout_append,
                preorderScoped_comment (hcs c hc).here hgone, hrest]
              simp [visitedWithout, hgone]
            · rw [if_neg hgone, preorderScopedNamed, isNamed_without]
              split
              next => rw [ih c hc (by simpa using hgone), hrest, visitedWithout_append]
              next => exact hrest
      rw [without, preorderScoped, preorderScoped, hall _ cs fun _ h => h]
      simp [visitedWithout, h, without]

mutual
theorem preorder_eq (outer : Nat) : (t : Tree) → t.preorder = (t.preorderScoped outer).map Prod.fst
  | leaf k r e text => by simp [preorder, preorderScoped]
  | node k r e cs => by
      rw [preorder, preorderScoped, List.map_cons, preorderNamed_eq _ cs]

theorem preorderNamed_eq (outer : Nat) : (ts : List Tree) →
    preorderNamed ts = (preorderScopedNamed outer ts).map Prod.fst
  | [] => by simp [preorderNamed, preorderScopedNamed]
  | t :: ts => by
      rw [preorderNamed, preorderScopedNamed]
      split
      next => rw [List.map_append, preorder_eq outer t, preorderNamed_eq outer ts]
      next => exact preorderNamed_eq outer ts
end

theorem Every.of_mem_preorder {p : Tree → Prop} {t n : Tree} (ht : t.Every p) (h : n ∈ t.preorder) :
    n.Every p := by
  rw [preorder_eq 0] at h
  obtain ⟨entry, hentry, rfl⟩ := List.mem_map.mp h
  exact ht.of_mem_preorderScoped hentry

/-- **The same nodes are visited, without the comments.** -/
theorem preorder_without {t : Tree} (ht : t.Every Lexical) (h : t.isGone gone = false) :
    (t.without gone).preorder = withoutAll gone t.preorder := by
  rw [preorder_eq 0, preorderScoped_without ht h, preorder_eq 0 t, withoutAll_eq, visitedWithout,
    List.map_map, List.filter_map, List.map_map]
  rfl

end Tree
end GoExcerpt
