import GoExcerpt.Proofs.Nesting
import GoExcerpt.Resolve.Scope

/-!
# `Proofs.Bindings` — where the bindings of a function lie

A node makes bindings that start at one of its ends, after the binder of a type switch, or all over the body
of a literal (`FileScope.bindings_cases`). All that a tree declares starts in it, and stops where the scope
around it does or in it (`FileScope.declaredIn_bounds`); what closed trees declare is gone where they end
(`FileScope.declaredIn_stop_le`).
-/

namespace GoExcerpt

/-! ## Nodes visited -/

theorem Tree.mem_preorderScopedNamed {ts : List Tree} {outer : Nat} {entry : Tree × Nat}
    (h : entry ∈ Tree.preorderScopedNamed outer ts) : ∃ t ∈ ts, entry ∈ t.preorderScoped outer := by
  induction ts with
  | nil => exact absurd h List.not_mem_nil
  | cons t ts ih =>
      rw [Tree.preorderScopedNamed] at h
      split at h
      next =>
        rcases List.mem_append.mp h with h | h
        · exact ⟨t, List.mem_cons_self, h⟩
        · obtain ⟨u, hu, h⟩ := ih h
          exact ⟨u, List.mem_cons_of_mem t hu, h⟩
      next =>
        obtain ⟨u, hu, h⟩ := ih h
        exact ⟨u, List.mem_cons_of_mem t hu, h⟩

/-- What holds of a tree and all below holds of each node visited. -/
theorem Tree.Every.of_mem_preorderScoped {p : Tree → Prop} {t node : Tree} {outer stop : Nat}
    (ht : t.Every p) (h : (node, stop) ∈ t.preorderScoped outer) : node.Every p := by
  induction ht generalizing outer with
  | leaf hp =>
      obtain ⟨rfl, -⟩ := Prod.mk.inj (List.mem_singleton.mp h)
      exact .leaf hp
  | node hp hcs ih =>
      rcases List.mem_cons.mp h with h | h
      · obtain ⟨rfl, -⟩ := Prod.mk.inj h
        exact .node hp hcs
      · obtain ⟨c, hc, h⟩ := mem_preorderScopedNamed h
        exact ih c hc h

/-! ## Bindings of one node -/

theorem Scope.mem_bind {b : Binding} {start stop : Nat} {named : List (String × Option TypeName)}
    (h : b ∈ FileScope.bind start stop named) : b.start = start ∧ b.stop = stop := by
  obtain ⟨entry, -, rfl⟩ := List.mem_map.mp h
  exact ⟨rfl, rfl⟩

theorem Scope.mem_parameterScope {f : FileScope} {function body : Tree} {roles : List Role} {b : Binding}
    (h : b ∈ f.parameterScope function body roles) : b.start = body.first ∧ b.stop = body.last := by
  obtain ⟨role, -, hb⟩ := List.mem_flatMap.mp h
  split at hb
  next => exact mem_bind hb
  next => exact absurd hb List.not_mem_nil

namespace FileScope

variable {f : FileScope} {t : Tree} {stop : Nat} {b : Binding}

/-- **Where the bindings of a node start and stop:** at an end of a declaration that lasts as long as the
    scope around it, after the binder of a type switch, or all over the body of a literal. -/
theorem bindings_cases (h : b ∈ f.bindings t stop) :
    (t.kind.declares = true ∧ (b.start = t.first ∨ b.start = t.last) ∧ b.stop = stop) ∨
    (t.kind = .typeSwitchStatement ∧ ∃ binder ∈ t.children, b.start = binder.last ∧ b.stop = t.last) ∨
    (t.kind = .funcLiteral ∧ ∃ body, t.part? .body = some body ∧ b.start = body.first ∧
      b.stop = body.last) := by
  -- a declaration, whose names start at one of its ends
  have hdeclared : ∀ {start named}, t.kind.declares = true → start = t.first ∨ start = t.last →
      b ∈ bind start stop named → t.kind.declares = true ∧ (b.start = t.first ∨ b.start = t.last) ∧
        b.stop = stop := by
    intro start named hk hstart hb
    obtain ⟨rfl, hstop⟩ := Scope.mem_bind hb
    exact ⟨hk, hstart, hstop⟩
  unfold bindings at h
  split at h
  next hk => exact .inl (hdeclared (by rw [hk]; rfl) (.inr rfl) h)
  next hk => exact .inl (hdeclared (by rw [hk]; rfl) (.inr rfl) h)
  next hk => exact .inl (hdeclared (by rw [hk]; rfl) (.inr rfl) h)
  next hk => exact .inl (hdeclared (by rw [hk]; rfl) (.inl rfl) h)
  next hk => exact .inl (hdeclared (by rw [hk]; rfl) (.inl rfl) h)
  next hk => exact .inl (hdeclared (by rw [hk]; rfl) (.inr rfl) h)
  next hk => exact .inl (hdeclared (by rw [hk]; rfl) (.inr rfl) h)
  next hk =>
    split at h
    next binder hbinder =>
      exact .inr (.inl ⟨hk, binder, List.mem_of_find?_eq_some hbinder, Scope.mem_bind h⟩)
    next => exact absurd h List.not_mem_nil
  next hk =>
    split at h
    next body hbody => exact .inr (.inr ⟨hk, body, hbody, Scope.mem_parameterScope h⟩)
    next => exact absurd h List.not_mem_nil
  next => exact absurd h List.not_mem_nil

/-- A lexeme declares nothing. -/
theorem bindings_leaf (k : Kind) (r : Option Role) (e : Extent) (text : String) :
    f.bindings (.leaf k r e text) stop = [] := by
  have hnone : ∀ role, (Tree.leaf k r e text).part? role = none := fun _ => rfl
  unfold bindings
  split
  next => simp [shortNames, hnone, bind]
  next => rfl
  next => rfl
  next => rfl
  next => rfl
  next => simp [untyped, hnone, bind]
  next => simp [untyped, hnone, bind]
  next => simp [hnone]
  next => simp [hnone]
  next => rfl

/-- What a node that closes scopes declares does not depend on the scope around it. -/
theorem bindings_eq_of_closesScope (h : t.kind.closesScope = true) (stop stop' : Nat) :
    f.bindings t stop = f.bindings t stop' := by
  unfold bindings
  split
  all_goals first
    | rfl
    | next hk => rw [hk] at h; cases h

/-! ## All bindings of a tree -/

/-- The bindings made in a tree, in the order of the flat list. -/
def declaredIn (f : FileScope) (t : Tree) (stop : Nat) : Scope :=
  (t.preorderScoped stop).flatMap fun (node, stop) => f.bindings node stop

/-- The bindings made in several trees. -/
def declaredInAll (f : FileScope) (ts : List Tree) (stop : Nat) : Scope :=
  (Tree.preorderScopedNamed stop ts).flatMap fun (node, stop) => f.bindings node stop

@[simp] theorem declaredIn_leaf (k : Kind) (r : Option Role) (e : Extent) (text : String) :
    f.declaredIn (.leaf k r e text) stop = [] := by
  simp [declaredIn, Tree.preorderScoped, bindings_leaf]

theorem declaredIn_node (k : Kind) (r : Option Role) (e : Extent) (cs : List Tree) :
    f.declaredIn (.node k r e cs) stop = f.bindings (.node k r e cs) stop
      ++ f.declaredInAll cs (if k.closesScope then e.stop.byte else stop) := by
  simp [declaredIn, declaredInAll, Tree.preorderScoped]

@[simp] theorem declaredInAll_nil : f.declaredInAll [] stop = [] := rfl

theorem declaredInAll_cons (t : Tree) (ts : List Tree) :
    f.declaredInAll (t :: ts) stop =
      (if t.isNamed then f.declaredIn t stop else []) ++ f.declaredInAll ts stop := by
  unfold declaredInAll declaredIn
  rw [Tree.preorderScopedNamed]
  split
  next => rw [List.flatMap_append]
  next => rfl

theorem declaredInAll_append (ts us : List Tree) :
    f.declaredInAll (ts ++ us) stop = f.declaredInAll ts stop ++ f.declaredInAll us stop := by
  induction ts with
  | nil => rfl
  | cons t ts ih => rw [List.cons_append, declaredInAll_cons, declaredInAll_cons, ih, List.append_assoc]

theorem mem_declaredInAll {ts : List Tree} (h : b ∈ f.declaredInAll ts stop) :
    ∃ t ∈ ts, b ∈ f.declaredIn t stop := by
  obtain ⟨entry, hentry, hb⟩ := List.mem_flatMap.mp h
  obtain ⟨t, ht, hentry⟩ := Tree.mem_preorderScopedNamed hentry
  exact ⟨t, ht, List.mem_flatMap.mpr ⟨entry, hentry, hb⟩⟩

theorem declaredIn_eq_of_closesScope (h : t.kind.closesScope = true) (stop stop' : Nat) :
    f.declaredIn t stop = f.declaredIn t stop' := by
  cases t with
  | leaf k r e text => rw [declaredIn_leaf, declaredIn_leaf]
  | node k r e cs =>
      have hk : k.closesScope = true := h
      rw [declaredIn_node, declaredIn_node, if_pos hk, if_pos hk, bindings_eq_of_closesScope h stop stop']

/-! ## Where bindings lie -/

theorem bindings_bounds (ht : t.Spans) (h : b ∈ f.bindings t stop) :
    t.first ≤ b.start ∧ b.start ≤ t.last ∧ (b.stop = stop ∨ b.stop ≤ t.last) := by
  rcases bindings_cases h with ⟨-, hstart, hstop⟩ | ⟨-, binder, hbinder, hstart, hstop⟩ |
    ⟨-, body, hbody, hstart, hstop⟩
  · have := ht.le
    omega
  · have := ht.child hbinder
    omega
  · have := ht.child (List.mem_of_find?_eq_some hbody)
    omega

/-- What a tree declares starts in it, and lasts as long as the scope around it or stops in it too. -/
theorem declaredIn_bounds (ht : t.Every Tree.Spans) (h : b ∈ f.declaredIn t stop) :
    t.first ≤ b.start ∧ b.start ≤ t.last ∧ (b.stop = stop ∨ b.stop ≤ t.last) := by
  induction ht generalizing stop with
  | leaf => simp at h
  | @node k r e cs ht hcs ih =>
      rw [declaredIn_node] at h
      rcases List.mem_append.mp h with h | h
      · exact bindings_bounds ht h
      · obtain ⟨c, hc, h⟩ := mem_declaredInAll h
        obtain ⟨hfirst, hlast, hstop⟩ := ih c hc h
        have hchild := ht.child hc
        have hend : e.stop.byte = (Tree.node k r e cs).last := rfl
        refine ⟨by omega, by omega, ?_⟩
        split at hstop
        next => exact .inr (by omega)
        next => exact hstop.imp id fun h => by omega

/-- What a tree declares inside nodes that close scopes is gone where the tree ends. -/
theorem declaredIn_stop_le (hclosed : t.Closed) (ht : t.Every Tree.Spans) (h : b ∈ f.declaredIn t stop) :
    b.stop ≤ t.last := by
  induction hclosed generalizing stop with
  | leaf => simp at h
  | @scope k r e cs hk =>
      rw [declaredIn_node, if_pos hk] at h
      rcases List.mem_append.mp h with h | h
      · rw [bindings_eq_of_closesScope (t := .node k r e cs) hk stop (Tree.node k r e cs).last] at h
        obtain ⟨-, -, hstop⟩ := bindings_bounds ht.here h
        omega
      · obtain ⟨c, hc, h⟩ := mem_declaredInAll h
        obtain ⟨-, -, hstop⟩ := declaredIn_bounds (ht.child hc) h
        have hchild := ht.here.child hc
        have hend : e.stop.byte = (Tree.node k r e cs).last := rfl
        omega
  | @node k r e cs hk hcs ih =>
      rw [declaredIn_node] at h
      rcases List.mem_append.mp h with h | h
      · -- no declaration: the names of a type switch or of a literal
        rcases bindings_cases h with ⟨hdeclares, -⟩ | ⟨-, -, -, -, hstop⟩ | ⟨-, body, hbody, -, hstop⟩
        · exact absurd hdeclares (by simp [Tree.kind, hk])
        · exact Nat.le_of_eq hstop
        · have := ht.here.child (List.mem_of_find?_eq_some hbody)
          omega
      · obtain ⟨c, hc, h⟩ := mem_declaredInAll h
        have hchild := ht.here.child hc
        have := ih c hc (ht.child hc) h
        omega

end FileScope

/-! ## What is visible -/

/-- The part of a scope that is visible at an offset. -/
def Scope.visibleAt (scope : Scope) (at_ : Nat) : Scope := scope.filter (·.isVisible at_)

theorem Scope.visibleAt_append (a b : Scope) (at_ : Nat) :
    Scope.visibleAt (a ++ b) at_ = a.visibleAt at_ ++ b.visibleAt at_ := List.filter_append ..

theorem Scope.visibleAt_eq_nil {scope : Scope} {at_ : Nat}
    (h : ∀ b ∈ scope, b.start ≤ at_ → b.stop ≤ at_) : scope.visibleAt at_ = [] := by
  refine List.filter_eq_nil_iff.mpr fun b hb => ?_
  have := h b hb
  simp only [Binding.isVisible, Bool.and_eq_true, decide_eq_true_eq]
  omega

theorem Scope.mem_visibleAt {scope : Scope} {at_ : Nat} {b : Binding} :
    b ∈ scope.visibleAt at_ ↔ b ∈ scope ∧ b.start ≤ at_ ∧ at_ < b.stop := by
  simp [Scope.visibleAt, Binding.isVisible]

end GoExcerpt
