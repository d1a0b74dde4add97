import GoExcerpt.Syntax.Tree
import Mathlib.Data.List.Basic

/-!
# `Proofs.Preorder` — visiting the nodes of a tree with a stack

The nodes of a tree can be visited without recursion: a stack holds nodes that wait, its top at the end, and each
round takes the top and puts the named children of that node on the stack, the first child on top (`Tree.visitLoop`).
What waits on a stack is the trees on it from the top down, each with all its nodes, and a round takes the first of
these nodes and leaves the others as they are (`Tree.pending_push`). So the loop visits what waits in its order and
ends (`Tree.visitLoop_eq`), and begun with one tree it visits each node once, a node before those below it and what
is below one child before what is below the next (`Tree.visit_eq_preorder`, `Tree.Enumerates`).
-/

namespace GoExcerpt
namespace Tree

/-! ## Nodes below the named children -/

theorem preorderNamed_eq_flatMap (ts : List Tree) : preorderNamed ts = (ts.filter isNamed).flatMap preorder := by
  induction ts with
  | nil => rfl
  | cons t ts ih =>
      rw [preorderNamed, ih, List.filter_cons]
      split
      next => rw [List.flatMap_cons]
      next => rfl

/-- A node comes before what is below its named children. -/
theorem preorder_eq_cons (t : Tree) : t.preorder = t :: t.named.flatMap preorder := by
  cases t with
  | leaf k r e text => rfl
  | node k r e cs =>
      rw [preorder, preorderNamed_eq_flatMap]
      rfl

/-- A tree is larger than what is below a child. -/
theorem length_preorder_lt {t c : Tree} (hc : c ∈ t.named) : c.preorder.length < t.preorder.length := by
  obtain ⟨before, after, hnamed⟩ := List.append_of_mem hc
  rw [preorder_eq_cons t, hnamed, List.flatMap_append, List.flatMap_cons]
  simp only [List.length_cons, List.length_append]
  omega

/-- What holds of a tree if it holds of its named children holds of all trees. -/
theorem induction_named {p : Tree → Prop} (h : ∀ t, (∀ c ∈ t.named, p c) → p t) (t : Tree) : p t :=
  h t fun c _ => induction_named h c
termination_by t.preorder.length
decreasing_by exact length_preorder_lt ‹_›

/-! ## The loop -/

/-- The nodes that wait on a stack, in the order in which they are visited. -/
def pending (stack : List Tree) : List Tree := stack.reverse.flatMap preorder

/-- **A round takes the first node that waits.** The children of the top come in its place. -/
theorem pending_push (below : List Tree) (node : Tree) :
    pending (below ++ [node]) = node :: pending (below ++ node.named.reverse) := by
  unfold pending
  rw [List.reverse_append, List.reverse_append, List.reverse_reverse, List.reverse_singleton, List.singleton_append,
    List.flatMap_cons, preorder_eq_cons, List.cons_append, List.flatMap_append]

theorem pending_getLast? {stack : List Tree} {node : Tree} (h : stack.getLast? = some node) :
    pending stack = node :: pending (stack.dropLast ++ node.named.reverse) := by
  obtain ⟨below, rfl⟩ := List.getLast?_eq_some_iff.mp h
  rw [List.dropLast_concat, pending_push]

/-- Visits the nodes on a stack: takes the top, and puts its named children on the stack, last child first. -/
def visitLoop (visited stack : List Tree) : List Tree :=
  match _h : stack.getLast? with
  | none => visited
  | some top => visitLoop (visited ++ [top]) (stack.dropLast ++ top.named.reverse)
termination_by (pending stack).length
decreasing_by
  rw [pending_getLast? _h]
  exact Nat.lt_succ_self _

/-- Visits the nodes of a tree. -/
def visit (t : Tree) : List Tree := visitLoop [] [t]

/-- **The loop visits what waits on the stack, in its order.** -/
theorem visitLoop_eq (visited stack : List Tree) : visitLoop visited stack = visited ++ pending stack := by
  induction visited, stack using visitLoop.induct with
  | case1 visited stack h =>
      obtain rfl := List.getLast?_eq_none_iff.mp h
      rw [visitLoop]
      exact (List.append_nil visited).symm
  | case2 visited stack top h ih =>
      rw [visitLoop]
      split
      next hnone => exact absurd (h.symm.trans hnone) (by simp)
      next other hother =>
        obtain rfl := Option.some.inj (h.symm.trans hother)
        rw [ih, pending_getLast? h, List.append_assoc, List.singleton_append]

theorem visit_eq_preorder (t : Tree) : t.visit = t.preorder := by
  rw [visit, visitLoop_eq]
  exact List.append_nil t.preorder

/-! ## Addresses -/

/-- The node at an address, which says the way down by numbers of named children. -/
def at? (t : Tree) : List Nat → Option Tree
  | [] => some t
  | i :: address => t.named[i]?.bind (·.at? address)

/-- **The nodes of a tree, each once and in order.** An address comes before those below it, and before all that
    turn off to a later child. -/
structure Enumerates (ns : List (List Nat × Tree)) (t : Tree) : Prop where
  nodes : ns.map Prod.snd = t.preorder
  increasing : (ns.map Prod.fst).Pairwise (· < ·)
  mem_iff : ∀ address n, (address, n) ∈ ns ↔ t.at? address = some n

/-- Enumerations of the children, from child number `i` on, are put together to one of what is below them. -/
theorem exists_enumeration_of_children (i : Nat) (cs : List Tree) (h : ∀ c ∈ cs, ∃ ns, Enumerates ns c) :
    ∃ ns : List (List Nat × Tree), ns.map Prod.snd = cs.flatMap preorder ∧
      (ns.map Prod.fst).Pairwise (· < ·) ∧
      ∀ address n, (address, n) ∈ ns ↔
        ∃ j rest, address = (i + j) :: rest ∧ cs[j]?.bind (·.at? rest) = some n := by
  induction cs generalizing i with
  | nil => exact ⟨[], rfl, .nil, by simp⟩
  | cons c cs ih =>
      obtain ⟨first, hfirst⟩ := h c List.mem_cons_self
      obtain ⟨others, hnodes, hincreasing, hmem⟩ := ih (i + 1) fun c hc => h c (List.mem_cons_of_mem _ hc)
      refine ⟨first.map (fun p => (i :: p.1, p.2)) ++ others, ?_, ?_, ?_⟩
      · rw [List.map_append, List.map_map, hnodes, List.flatMap_cons, ← hfirst.nodes]
        rfl
      · rw [List.map_append, List.map_map]
        refine List.pairwise_append.mpr ⟨?_, hincreasing, ?_⟩
        · have hbelow := hfirst.increasing
          rw [List.pairwise_map] at hbelow ⊢
          exact hbelow.imp fun hlt => List.cons_lt_cons_iff.mpr (.inr ⟨rfl, hlt⟩)
        · -- the later children have larger numbers
          intro a ha b hb
          obtain ⟨p, -, rfl⟩ := List.mem_map.mp ha
          obtain ⟨q, hq, rfl⟩ := List.mem_map.mp hb
          obtain ⟨j, rest, hj, -⟩ := (hmem q.1 q.2).mp hq
          rw [hj]
          exact List.cons_lt_cons_iff.mpr (.inl (by omega))
      · intro address n
        rw [List.mem_append, hmem]
        constructor
        · rintro (hp | ⟨j, rest, rfl, hat⟩)
          · obtain ⟨⟨rest, below⟩, hbelow, heq⟩ := List.mem_map.mp hp
            obtain ⟨rfl, rfl⟩ := Prod.mk.inj heq
            exact ⟨0, rest, rfl, (hfirst.mem_iff rest below).mp hbelow⟩
          · exact ⟨j + 1, rest, by rw [Nat.add_right_comm, Nat.add_assoc], hat⟩
        · rintro ⟨j, rest, rfl, hat⟩
          cases j with
          | zero => exact .inl (List.mem_map.mpr ⟨(rest, n), (hfirst.mem_iff rest n).mpr hat, rfl⟩)
          | succ j => exact .inr ⟨j, rest, by rw [Nat.add_right_comm, Nat.add_assoc], hat⟩

/-- **Every tree has its nodes enumerated by visiting them.** -/
theorem exists_enumeration (t : Tree) : ∃ ns, Enumerates ns t := by
  induction t using induction_named with
  | h t ih =>
      obtain ⟨below, hnodes, hincreasing, hmem⟩ := exists_enumeration_of_children 0 t.named ih
      refine ⟨([], t) :: below, ?_, ?_, ?_⟩
      · rw [List.map_cons, hnodes, preorder_eq_cons]
      · rw [List.map_cons]
        refine List.pairwise_cons.mpr ⟨fun a ha => ?_, hincreasing⟩
        obtain ⟨p, hp, rfl⟩ := List.mem_map.mp ha
        obtain ⟨j, rest, hj, -⟩ := (hmem p.1 p.2).mp hp
        rw [hj]
        exact List.nil_lt_cons _ _
      · intro address n
        rw [List.mem_cons, hmem]
        cases address with
        | nil => simp [at?, eq_comm]
        | cons i rest => simp [at?]

end Tree
end GoExcerpt
