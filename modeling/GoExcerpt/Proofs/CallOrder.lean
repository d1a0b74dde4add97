import GoExcerpt.Proofs.Contents
import GoExcerpt.Proofs.Counted
import GoExcerpt.Proofs.Preorder
import GoExcerpt.Proofs.SourceText

/-!
# `Proofs.CallOrder` — calls come in source order

The calls of a declaration are its call expressions, one for each, as a loop over a stack meets them
(`FileScope.calls_sited`). A node begins before what is below it, and what is below one child ends before the next
begins, so such a loop meets nodes in the order of their beginnings (`Tree.pairwise_first_visit`). Places further on
in a text are in no earlier row, so the lines of the calls do not go back either, and none is outside the lines of
the declaration (`LineRange.mem_ofTree`).
-/

namespace GoExcerpt

/-! ## Places -/

namespace Position

variable {text : List Char} {p q : Position}

theorem Within.row_le (hp : p.Within text) (hq : q.Within text) (h : p.byte ≤ q.byte) : p.row ≤ q.row := by
  obtain ⟨a, ha, rfl⟩ := hp
  obtain ⟨b, hb, rfl⟩ := hq
  obtain ⟨more, rfl⟩ := prefix_of_byte_le ha hb h
  rw [advance_append]
  exact grows_row.advance _ more

/-- A place before the beginning of a line is in an earlier row. -/
theorem Within.row_lt (hp : p.Within text) (hq : q.Within text) (h : p.byte < q.byte) (hcolumn : q.column = 0) :
    p.row < q.row := by
  obtain ⟨a, ha, rfl⟩ := hp
  obtain ⟨b, hb, rfl⟩ := hq
  obtain ⟨more, rfl⟩ := prefix_of_byte_le ha hb (Nat.le_of_lt h)
  rw [advance_append] at hcolumn
  have hne : more ≠ [] := by
    rintro rfl
    simp at h
  obtain ⟨line, rfl⟩ := exists_concat_of_column hne hcolumn
  rw [advance_append, row_advance _ (line ++ ['\n']), List.count_append, List.count_singleton_self]
  omega

end Position

/-- **What begins inside a tree begins on a line of it.** -/
theorem LineRange.mem_ofTree {text : List Char} {t n : Tree} (ht : t.extent.Within text)
    (hn : n.extent.Within text) (hfirst : t.first ≤ n.first) (hlast : n.first < t.last) :
    (ofTree t).start ≤ n.extent.start.row + 1 ∧ n.extent.start.row + 1 ≤ (ofTree t).stop := by
  have hstart : t.extent.start.row ≤ n.extent.start.row := ht.start.row_le hn.start hfirst
  have hstop : n.extent.start.row ≤ t.extent.stop.row := hn.start.row_le ht.stop (Nat.le_of_lt hlast)
  unfold ofTree
  dsimp only
  refine ⟨Nat.succ_le_succ hstart, Nat.succ_le_succ ?_⟩
  split
  next hcut =>
    -- the tree ends at the beginning of a line, before which `n` begins
    rw [Bool.and_eq_true, beq_iff_eq] at hcut
    have hlt : n.extent.start.row < t.extent.stop.row := hn.start.row_lt ht.stop hlast hcut.1
    exact Nat.le_sub_one_of_lt hlt
  next => exact hstop

/-! ## Nodes in order -/

namespace Tree

variable {t n : Tree}

/-- What is below a tree lies inside it. -/
theorem Every.bounds_of_mem_preorder (ht : t.Every Spans) (hn : n ∈ t.preorder) :
    t.first ≤ n.first ∧ n.last ≤ t.last := by
  induction t using induction_named with
  | h t ih =>
      rw [preorder_eq_cons] at hn
      rcases List.mem_cons.mp hn with rfl | hn
      · exact ⟨Nat.le_refl _, Nat.le_refl _⟩
      · obtain ⟨c, hc, hn⟩ := List.mem_flatMap.mp hn
        obtain ⟨hfirst, -, hlast⟩ := ht.here.child (List.mem_filter.mp hc).1
        obtain ⟨hfirst', hlast'⟩ := ih c hc (ht.named hc) hn
        exact ⟨Nat.le_trans hfirst hfirst', Nat.le_trans hlast' hlast⟩

/-- **Nodes are visited in the order of their beginnings.** -/
theorem pairwise_first_preorder (ht : t.Every Spans) : t.preorder.Pairwise (·.first ≤ ·.first) := by
  induction t using induction_named with
  | h t ih =>
      rw [preorder_eq_cons]
      refine List.pairwise_cons.mpr ⟨fun n hn => ?_, List.pairwise_flatMap.mpr ⟨?_, ?_⟩⟩
      · refine (ht.bounds_of_mem_preorder ?_).1
        rw [preorder_eq_cons]
        exact List.mem_cons_of_mem _ hn
      · exact fun c hc => ih c hc (ht.named hc)
      · -- a child ends before the next begins, and so does all that is below it
        have hchildren : t.children.Pairwise fun c d => c.last ≤ d.first :=
          List.pairwise_map.mp (Extent.InOrder.pairwise ht.here)
        refine (hchildren.filter isNamed).imp_of_mem ?_
        intro c d hc hd hcd x hx y hy
        have hle : x.first ≤ x.last := ((ht.named hc).of_mem_preorder hx).here.le
        have hbefore := ((ht.named hc).bounds_of_mem_preorder hx).2
        have hafter := ((ht.named hd).bounds_of_mem_preorder hy).1
        omega

/-- The call expressions of a tree, as the loop meets them. -/
def callNodes (t : Tree) : List Tree := t.visit.filter (·.kind == .callExpression)

theorem mem_callNodes : n ∈ t.callNodes ↔ n ∈ t.preorder ∧ n.kind = .callExpression := by
  unfold callNodes
  rw [visit_eq_preorder, List.mem_filter, beq_iff_eq]

theorem pairwise_first_callNodes (ht : t.Every Spans) : t.callNodes.Pairwise (·.first ≤ ·.first) := by
  unfold callNodes
  rw [visit_eq_preorder]
  exact (pairwise_first_preorder ht).filter _

end Tree

/-! ## Calls -/

namespace CallContext

variable {c : CallContext} {body : Tree}

/-- Whether a call is that of a call expression. -/
structure Site (c : CallContext) (node : Tree) (call : Call) : Prop where
  target : ∃ callee, node.part? .function = some callee ∧ call.target = c.target? callee
  line : call.line = node.extent.start.row + 1

theorem site_of_call? {node : Tree} {call : Call} (h : c.call? node = some call) : c.Site node call := by
  obtain ⟨callee, hcallee, hcall⟩ := Option.bind_eq_some_iff.mp h
  obtain rfl := Option.some.inj hcall
  exact ⟨⟨callee, hcallee, rfl⟩, rfl⟩

/-- **Calls in source order,** one for each call expression of the body, and all on lines of `span`. -/
structure Sited (c : CallContext) (body : Tree) (span : LineRange) (calls : List Call) : Prop where
  each : List.Forall₂ c.Site body.callNodes calls
  offsets : body.callNodes.Pairwise (·.first ≤ ·.first)
  lines : calls.Pairwise (·.line ≤ ·.line)
  within : ∀ call ∈ calls, span.start ≤ call.line ∧ call.line ≤ span.stop

/-- Where every call has a callee, none is left out. -/
theorem forall₂_site_calls (hbody : body.Every Tree.Called) : List.Forall₂ c.Site body.callNodes (c.calls body) := by
  have hsome : ∀ n ∈ body.callNodes, ∃ call, c.call? n = some call := by
    intro n hn
    obtain ⟨hmem, hkind⟩ := Tree.mem_callNodes.mp hn
    obtain ⟨callee, hcallee⟩ := (hbody.of_mem_preorder hmem).here hkind
    exact ⟨_, by rw [call?, hcallee]; rfl⟩
  have hcalls : c.calls body = body.callNodes.filterMap c.call? := by
    rw [calls, Tree.callNodes, Tree.visit_eq_preorder]
  rw [hcalls]
  generalize body.callNodes = nodes at hsome
  induction nodes with
  | nil => exact .nil
  | cons n nodes ih =>
      obtain ⟨call, hcall⟩ := hsome n List.mem_cons_self
      rw [List.filterMap_cons_some hcall]
      exact .cons (site_of_call? hcall) (ih fun n hn => hsome n (List.mem_cons_of_mem _ hn))

/-- Such calls have the lines that the call expressions begin on. -/
theorem map_line_of_forall₂ {nodes : List Tree} {calls : List Call} (h : List.Forall₂ c.Site nodes calls) :
    calls.map Call.line = nodes.map fun n => n.extent.start.row + 1 := by
  induction h with
  | nil => rfl
  | cons hsite _ ih => rw [List.map_cons, List.map_cons, ih, hsite.line]

end CallContext

namespace FileScope

variable {f : FileScope} {types : TypeEnv} {path text : String} {d : Declaration} {calls : List Call}

/-- **Calls come in source order.** The loop over a stack visits the nodes of any tree in preorder and comes to an
end, so that each node is met once, at an address larger than those before. Hence the calls of a declaration of any
file are those of the call expressions in its body, one for each; the offsets and the lines where they begin do not
go back, and every line is one of the declaration. -/
theorem calls_sited :
    (∀ t : Tree, t.visit = t.preorder ∧ ∃ ns, Tree.Enumerates ns t) ∧
    (d ∈ (f.unitOf types path (SourceFile.parse text).root).functions → d.calls = some calls →
      ∃ node ∈ (SourceFile.parse text).root.named, ∃ body, isFunction node = true ∧
        node.part? .body = some body ∧ d.span = LineRange.ofTree node ∧
        CallContext.Sited ⟨f, types, f.scopeOf node body⟩ body d.span calls) := by
  refine ⟨fun t => ⟨t.visit_eq_preorder, t.exists_enumeration⟩, fun hd hcalls => ?_⟩
  obtain ⟨earlier, node, later, hroot, hfunction, hdeclared⟩ := mem_unitOf.mp hd
  have hnode : node ∈ (SourceFile.parse text).root.named := by
    rw [hroot]
    exact List.mem_append_right _ List.mem_cons_self
  obtain ⟨-, -, hspan, hbody⟩ := declaration?_eq_some.mp hdeclared
  obtain ⟨body, hpart, rfl⟩ := Option.map_eq_some_iff.mp (hbody.symm.trans hcalls)
  have hspans := SourceFile.spans_of_mem_parse hnode
  have hwithin := SourceFile.within_of_mem_parse hnode
  have heach : List.Forall₂ (CallContext.Site ⟨f, types, f.scopeOf node body⟩) body.callNodes _ :=
    CallContext.forall₂_site_calls ((SourceFile.called_of_mem_parse hnode).part? hpart)
  have hoffsets := Tree.pairwise_first_callNodes (hspans.part? hpart)
  have hlines := CallContext.map_line_of_forall₂ heach
  have hnodes : ∀ n ∈ body.callNodes, n.extent.Within text.toList := fun n hn =>
    ((hwithin.part? hpart).of_mem_preorder (Tree.mem_callNodes.mp hn).1).here
  refine ⟨node, hnode, body, hfunction, hpart, hspan, heach, hoffsets, ?_, ?_⟩
  · rw [← List.pairwise_map (f := Call.line) (R := (· ≤ ·)), hlines, List.pairwise_map]
    refine hoffsets.imp_of_mem ?_
    intro a b ha hb hab
    exact Nat.succ_le_succ ((hnodes a ha).start.row_le (hnodes b hb).start hab)
  · intro call hcall
    obtain ⟨n, hn, hline⟩ := List.mem_map.mp (hlines ▸ List.mem_map_of_mem (f := Call.line) hcall)
    obtain ⟨hfirst, -, hlast⟩ := hspans.here.child (List.mem_of_find?_eq_some hpart)
    have hmem := (Tree.mem_callNodes.mp hn).1
    obtain ⟨hfirst', hlast'⟩ := (hspans.part? hpart).bounds_of_mem_preorder hmem
    have hsize : n.first < n.last :=
      (((SourceFile.first_lt_last_of_mem_parse hnode).part? hpart).of_mem_preorder hmem).here
    rw [hspan, ← hline]
    exact LineRange.mem_ofTree hwithin.here (hnodes n hn) (by omega) (by omega)

/-- A function with calls in arguments, in a literal that is called itself, and in a chain over two lines. -/
def chained : String :=
  "package m\n\nfunc Run() \x7b\n\tfirst(second(),\n\t\tthird())\n\tgo func() \x7b a.b().\n\t\tc() \x7d()\n\x7d\n"

/-- Its calls, all on its lines 3 to 8. -/
def chainedRun : Declaration :=
  ⟨.function "m" "Run", [], ⟨3, 8⟩, some
    [⟨some (.function "m" "first"), 4⟩, ⟨some (.function "m" "second"), 4⟩, ⟨some (.function "m" "third"), 5⟩,
      ⟨none, 6⟩, ⟨none, 6⟩, ⟨some (.method "m" "a" "b"), 6⟩]⟩

theorem calls_sited_chained :
    chainedRun ∈ (unitOf ⟨"m", []⟩ {} "a.go" (SourceFile.parse chained).root).functions ∧
      ∃ calls, chainedRun.calls = some calls ∧ calls.length = 6 ∧
        ∃ node ∈ (SourceFile.parse chained).root.named, ∃ body, isFunction node = true ∧
          node.part? .body = some body ∧ chainedRun.span = LineRange.ofTree node ∧
          CallContext.Sited ⟨⟨"m", []⟩, {}, scopeOf ⟨"m", []⟩ node body⟩ body chainedRun.span calls := by
  have hd : chainedRun ∈ (unitOf ⟨"m", []⟩ {} "a.go" (SourceFile.parse chained).root).functions := by
    decide +kernel
  exact ⟨hd, _, rfl, rfl, calls_sited.2 hd rfl⟩

end FileScope
end GoExcerpt
