import GoExcerpt.Proofs.Environments

/-!
# `Proofs.Scoping` — looking up a name is lexical scoping

The flat list of a function's bindings and the open scopes at an offset agree on what is in force there: a
walk over a tree brings into force just what the list has for it (`Environment.Walked`), and keeps the scopes
properly nested. So a name means in the list what it means in the innermost scope that has it
(`FileScope.lookup_lexical`).

The proof follows the walk: over trees one after the other (`walked_all`), then over one node, which has no
scope of its own (`walks_of_open`), one scope (`walks_of_scope`), or is a literal with a scope for its
parameters inside its own (`walks_of_literal`).
-/

namespace GoExcerpt

/-! ## The walk -/

/-- How a tree is nested in its file. -/
structure Tree.Nested (t : Tree) : Prop where
  spans : t.Spans
  bodied : t.Bodied

namespace Environment

/-- What is in force has started where a tree around the offset begins, and lasts until it ends. -/
def Ready (at_ : Nat) (bs : Scope) (t : Tree) : Prop :=
  t.first ≤ at_ → at_ < t.last → ∀ b ∈ bs, b.start ≤ t.first ∧ t.last ≤ b.stop

/-- What a walk leaves: the open scopes are properly nested, what it met and is visible has come into
    force, and where it has `passed` what it walked over, no scope of it is open any more. -/
structure Walked (at_ : Nat) (frame : Frame) (outer after : Environment) (new : Scope) (passed : Prop) :
    Prop where
  proper : Proper at_ after
  inForce : inForce at_ after = Environment.inForce at_ (frame :: outer) ++ new.visibleAt at_
  closed : passed → ∃ declared, after = { frame with declared } :: outer

variable {f : FileScope} {at_ : Nat} {frame : Frame} {outer : Environment}

/-- Nothing is walked over that has not begun, or whose scopes have ended. -/
theorem Walked.refl (h : Proper at_ (frame :: outer)) {new : Scope} (hnew : new.visibleAt at_ = [])
    (passed : Prop) : Walked at_ frame outer (frame :: outer) new passed :=
  ⟨h, by rw [hnew, List.append_nil], fun _ => ⟨frame.declared, rfl⟩⟩

/-- Trees that begin after the offset are not walked over. -/
theorem environmentAt_of_lt {t : Tree} (h : at_ < t.first) (env : Environment) :
    t.environmentAt f at_ env = env := by
  cases t with
  | leaf k r e text => rfl
  | node k r e cs =>
      have hcovers : (Tree.node k r e cs).covers at_ = false := by simp [Tree.covers]; omega
      rw [Tree.environmentAt]
      simp [hcovers, h]

theorem environmentAtAll_of_lt {ts : List Tree} (h : ∀ t ∈ ts, at_ < t.first) (env : Environment) :
    Tree.environmentAtAll f at_ none env ts = env := by
  induction ts with
  | nil => rfl
  | cons t ts ih =>
      rw [Tree.environmentAtAll]
      simp only [environmentAt_of_lt (h t List.mem_cons_self), ite_self]
      exact ih fun t ht => h t (List.mem_cons_of_mem _ ht)

theorem visibleAt_of_lt {ts : List Tree} (hspans : ∀ t ∈ ts, t.Every Tree.Spans)
    (h : ∀ t ∈ ts, at_ < t.first) (stop : Nat) : (f.declaredInAll ts stop).visibleAt at_ = [] := by
  refine Scope.visibleAt_eq_nil fun b hb hstart => ?_
  obtain ⟨t, ht, hb⟩ := FileScope.mem_declaredInAll hb
  obtain ⟨hfirst, -⟩ := FileScope.declaredIn_bounds (hspans t ht) hb
  have := h t ht
  omega

/-- **A walk over a tree does what it should,** in every environment in which it may begin. -/
def Walks (f : FileScope) (at_ : Nat) (t : Tree) : Prop :=
  ∀ frame outer, Proper at_ (frame :: outer) → frame.first ≤ t.first → t.last ≤ frame.stop →
    Ready at_ (inForce at_ (frame :: outer)) t →
    Walked at_ frame outer (t.environmentAt f at_ (frame :: outer)) (f.declaredIn t frame.stop)
      (t.last ≤ at_)

/-- A walk over trees that follow one another, given that over each of them. -/
theorem walked_all {ts : List Tree} (hwalks : ∀ t ∈ ts, Walks f at_ t)
    (hspans : ∀ t ∈ ts, t.Every Tree.Spans) {lo hi : Nat}
    (horder : Extent.Bytes hi lo (ts.map Tree.extent)) (hproper : Proper at_ (frame :: outer))
    (hfirst : frame.first ≤ lo) (hstop : hi ≤ frame.stop)
    (hready : ∀ t ∈ ts, Ready at_ (inForce at_ (frame :: outer)) t) :
    Walked at_ frame outer (Tree.environmentAtAll f at_ none (frame :: outer) ts)
      (f.declaredInAll ts frame.stop) (∀ t ∈ ts, t.last ≤ at_) := by
  induction ts generalizing frame lo with
  | nil => exact .refl hproper rfl _
  | cons t ts ih =>
      obtain ⟨hlo, hle, horder⟩ := horder
      have hspans' := fun u hu => hspans u (List.mem_cons_of_mem t hu)
      have hwalks' := fun u hu => hwalks u (List.mem_cons_of_mem t hu)
      have hlater : ∀ u ∈ ts, t.last ≤ u.first ∧ u.last ≤ hi := fun u hu =>
        ⟨(horder.bounds (List.mem_map_of_mem hu)).1, (horder.bounds (List.mem_map_of_mem hu)).2.2⟩
      have hhi : t.last ≤ hi := horder.le
      rw [FileScope.declaredInAll_cons, Tree.environmentAtAll]
      by_cases hnamed : t.isNamed = true
      · have hwalk := hwalks t List.mem_cons_self frame outer hproper (Nat.le_trans hfirst hlo)
          (Nat.le_trans hhi hstop) (hready t List.mem_cons_self)
        simp only [hnamed, Bool.not_true, Bool.false_eq_true, if_false, if_true]
        by_cases hpassed : t.last ≤ at_
        · -- the tree is passed, so its siblings are walked over in the same scope
          obtain ⟨declared, hafter⟩ := hwalk.closed hpassed
          have hproper' : Proper at_ ({ frame with declared } :: outer) := hafter ▸ hwalk.proper
          have hrest := ih hwalks' hspans' horder hproper' (Nat.le_trans hfirst (Nat.le_trans hlo hle))
            hstop ?_
          · rw [hafter]
            refine ⟨hrest.proper, ?_, fun h => ?_⟩
            · rw [hrest.inForce, ← hafter, hwalk.inForce, List.append_assoc, Scope.visibleAt_append]
            · exact hrest.closed fun u hu => h u (List.mem_cons_of_mem t hu)
          · intro u hu hbegun hopen b hb
            rw [← hafter, hwalk.inForce] at hb
            rcases List.mem_append.mp hb with hb | hb
            · exact hready u (List.mem_cons_of_mem t hu) hbegun hopen b hb
            · obtain ⟨hb, -, hvisible⟩ := Scope.mem_visibleAt.mp hb
              have hbounds := FileScope.declaredIn_bounds (hspans t List.mem_cons_self) hb
              have := hlater u hu
              omega
        · -- the offset lies before the end of the tree: nothing after it has begun
          have hunbegun : ∀ u ∈ ts, at_ < u.first := fun u hu => by
            have := hlater u hu
            omega
          rw [environmentAtAll_of_lt hunbegun]
          refine ⟨hwalk.proper, ?_, fun h => absurd (h t List.mem_cons_self) hpassed⟩
          rw [hwalk.inForce, Scope.visibleAt_append, visibleAt_of_lt hspans' hunbegun, List.append_nil]
      · simp only [hnamed, Bool.not_false, Bool.false_eq_true, if_false, if_true, List.nil_append]
        have hrest := ih hwalks' hspans' (horder.lower (Nat.le_trans hlo hle)) hproper hfirst hstop
          fun u hu => hready u (List.mem_cons_of_mem t hu)
        exact ⟨hrest.proper, hrest.inForce, fun h => hrest.closed fun u hu => h u (List.mem_cons_of_mem t hu)⟩

/-- A node that declares names in the scope around it, or none. -/
theorem walks_of_open {k : Kind} {r : Option Role} {e : Extent} {cs : List Tree}
    (hk : k.closesScope = false) (ht : (Tree.node k r e cs).Every Tree.Spans)
    (hwalks : ∀ c ∈ cs, Walks f at_ c) : Walks f at_ (.node k r e cs) := by
  intro frame outer hproper hfirst hstop hready
  rw [Tree.environmentAt]
  simp only [hk, Bool.false_eq_true, if_false]
  by_cases hunbegun : at_ < (Tree.node k r e cs).first
  · rw [if_pos hunbegun]
    refine .refl hproper (Scope.visibleAt_eq_nil fun b hb hstart => ?_) _
    obtain ⟨hbegin, -⟩ := FileScope.declaredIn_bounds ht hb
    omega
  · rw [if_neg hunbegun]
    have hown : ∀ b ∈ f.bindings (.node k r e cs) frame.stop,
        (b.start = (Tree.node k r e cs).first ∨ b.start = (Tree.node k r e cs).last) ∧
          b.stop = frame.stop := by
      intro b hb
      rcases FileScope.bindings_cases hb with ⟨-, hb⟩ | ⟨rfl, -⟩ | ⟨rfl, -⟩
      · exact hb
      · cases hk
      · cases hk
    have hle := ht.here.le
    have hdeclared : Proper at_ (declare (f.bindings (.node k r e cs) frame.stop) (frame :: outer)) := by
      refine hproper.declare fun b hb => ?_
      have := hown b hb
      omega
    have hwalk := walked_all hwalks (fun c hc => ht.child hc) ht.here hdeclared hfirst hstop ?_
    · refine ⟨hwalk.proper, ?_, fun hpassed => ?_⟩
      · rw [FileScope.declaredIn_node, hk, Scope.visibleAt_append, ← List.append_assoc, ← inForce_declare]
        exact hwalk.inForce
      · refine hwalk.closed fun c hc => ?_
        have := ht.here.child hc
        omega
    · intro c hc hbegun hopen b hb
      have hchild := ht.here.child hc
      rw [← declare, inForce_declare] at hb
      rcases List.mem_append.mp hb with hb | hb
      · have := hready (by omega) (by omega) b hb
        omega
      · obtain ⟨hb, hvisible, -⟩ := Scope.mem_visibleAt.mp hb
        have := hown b hb
        omega

/-- Outside a node that closes scopes, nothing that it declares is visible. -/
theorem visibleAt_of_not_covers {t : Tree} (hclosed : t.Closed) (ht : t.Every Tree.Spans)
    (h : t.covers at_ = false) (stop : Nat) : (f.declaredIn t stop).visibleAt at_ = [] := by
  refine Scope.visibleAt_eq_nil fun b hb hstart => ?_
  obtain ⟨hbegin, -⟩ := FileScope.declaredIn_bounds ht hb
  have hend := FileScope.declaredIn_stop_le hclosed ht hb
  simp only [Tree.covers, Bool.and_eq_false_iff, decide_eq_false_iff_not] at h
  omega

/-- Opening a scope over a tree around the offset. -/
theorem Proper.opened {env : Environment} {t : Tree} {declared : Scope} (h : Proper at_ env)
    (hcovers : t.covers at_ = true) (hready : Ready at_ (Environment.inForce at_ env) t)
    (hdeclared : ∀ b ∈ declared, t.first ≤ b.start ∧ b.stop = t.last) :
    Proper at_ (env.opened t declared) := by
  simp only [Tree.covers, Bool.and_eq_true, decide_eq_true_eq] at hcovers
  exact ⟨hcovers.2, hdeclared, hready hcovers.1 hcovers.2, h⟩

/-- A node with a scope of its own, but no literal. -/
theorem walks_of_scope {k : Kind} {r : Option Role} {e : Extent} {cs : List Tree}
    (hk : k.closesScope = true) (hliteral : k ≠ .funcLiteral)
    (ht : (Tree.node k r e cs).Every Tree.Spans) (hwalks : ∀ c ∈ cs, Walks f at_ c) :
    Walks f at_ (.node k r e cs) := by
  intro frame outer hproper hfirst hstop hready
  rw [Tree.environmentAt]
  simp only [hk, if_true, beq_eq_false_iff_ne.mpr hliteral, Bool.false_eq_true, if_false]
  cases hcovers : (Tree.node k r e cs).covers at_ with
  | false => exact .refl hproper (visibleAt_of_not_covers (.scope hk) ht hcovers _) _
  | true =>
      have hown : ∀ b ∈ f.bindings (.node k r e cs) (Tree.node k r e cs).last,
          ∃ binder ∈ cs, b.start = binder.last ∧ b.stop = (Tree.node k r e cs).last := by
        intro b hb
        rcases FileScope.bindings_cases hb with ⟨hdeclares, -⟩ | ⟨-, hb⟩ | ⟨rfl, -⟩
        · exact absurd hdeclares (by simp [Tree.kind, Kind.declares_of_closesScope hk])
        · exact hb
        · exact absurd rfl hliteral
      have hopened := hproper.opened hcovers hready fun b hb => by
        obtain ⟨binder, hbinder, hb⟩ := hown b hb
        have := ht.here.child hbinder
        omega
      have hwalk := walked_all hwalks (fun c hc => ht.child hc) ht.here hopened (Nat.le_refl _)
        (Nat.le_refl _) ?_
      · refine ⟨hwalk.proper, ?_, fun hpassed => ?_⟩
        · have hsame := FileScope.bindings_eq_of_closesScope (f := f) (t := .node k r e cs) hk
            frame.stop (Tree.node k r e cs).last
          rw [FileScope.declaredIn_node, if_pos hk, Scope.visibleAt_append, ← List.append_assoc, hsame]
          exact hwalk.inForce
        · simp only [Tree.covers, Bool.and_eq_true, decide_eq_true_eq] at hcovers
          omega
      · intro c hc hbegun hopen b hb
        have hchild := ht.here.child hc
        rcases List.mem_append.mp hb with hb | hb
        · have := hready (by omega) (by omega) b hb
          omega
        · -- the name of a type switch is in force after its binder, so not in it and not before it
          obtain ⟨hb, hvisible, -⟩ := Scope.mem_visibleAt.mp hb
          obtain ⟨binder, hbinder, hstart, hend⟩ := hown b hb
          have hle := ht.here.child hbinder
          have hapart := Extent.InOrder.apart ht.here (List.mem_map_of_mem (f := Tree.extent) hbinder)
            (List.mem_map_of_mem (f := Tree.extent) hc)
          rcases hapart with heq | hbefore | hafter
          · have : binder.last = c.last := congrArg (·.stop.byte) heq
            omega
          · have : binder.last ≤ c.first := hbefore
            omega
          · have : c.last ≤ binder.first := hafter
            omega

/-- The signature of a literal is walked over as trees elsewhere are, its body in the scope of the
    `parameters`. -/
theorem environmentAtAll_literal {signature : List Tree} {body : Tree} (hlacks : Lacks .body signature)
    (hrole : body.role = some .body) (hkind : body.kind = .block) (parameters : Scope)
    (env : Environment) :
    Tree.environmentAtAll f at_ (some parameters) env (signature ++ [body]) =
      let after := Tree.environmentAtAll f at_ none env signature
      if body.covers at_ then body.environmentAt f at_ (after.opened body parameters) else after := by
  induction signature generalizing env with
  | nil =>
      have hnamed : body.isNamed = true := by simp [Tree.isNamed, hkind, Kind.isNamed]
      simp [Tree.environmentAtAll, hnamed, hrole]
  | cons c cs ih =>
      have hc : (c.role != some .body) = true := bne_iff_ne.mpr (hlacks c List.mem_cons_self)
      rw [List.cons_append, Tree.environmentAtAll, Tree.environmentAtAll,
        ih fun c hc => hlacks c (List.mem_cons_of_mem _ hc)]
      simp only [hc, if_true]

theorem part?_body_literal {signature : List Tree} {body : Tree} (hlacks : Lacks .body signature)
    (hrole : body.role = some .body) (k : Kind) (r : Option Role) (e : Extent) :
    (Tree.node k r e (signature ++ [body])).part? .body = some body := by
  have hnone : signature.find? (·.role == some .body) = none :=
    List.find?_eq_none.mpr fun c hc => by simpa using hlacks c hc
  simp [Tree.part?, Tree.children, List.find?_append, hnone, hrole]

/-- The walk over a body around the offset, in a scope that holds the parameters. -/
theorem walked_body {env : Environment} {body : Tree} {parameters : Scope} (hwalks : Walks f at_ body)
    (hblock : body.kind.closesScope = true)
    (hparameters : ∀ b ∈ parameters, b.start = body.first ∧ b.stop = body.last)
    (hproper : Proper at_ env) (hcovers : body.covers at_ = true)
    (hready : Ready at_ (inForce at_ env) body) (stop : Nat) :
    Proper at_ (body.environmentAt f at_ (env.opened body parameters)) ∧
      inForce at_ (body.environmentAt f at_ (env.opened body parameters)) =
        inForce at_ env ++ (parameters ++ f.declaredIn body stop).visibleAt at_ := by
  have hopened : Proper at_ (env.opened body parameters) := hproper.opened hcovers hready fun b hb =>
    ⟨Nat.le_of_eq (hparameters b hb).1.symm, (hparameters b hb).2⟩
  have hwalk := hwalks _ _ hopened (Nat.le_refl _) (Nat.le_refl _) ?_
  · refine ⟨hwalk.proper, ?_⟩
    rw [FileScope.declaredIn_eq_of_closesScope hblock stop body.last, Scope.visibleAt_append,
      ← List.append_assoc]
    exact hwalk.inForce
  · intro hbegun hopen b hb
    rcases List.mem_append.mp hb with hb | hb
    · exact hready hbegun hopen b hb
    · have := hparameters b (Scope.mem_visibleAt.mp hb).1
      omega

/-- The walk over the children of a literal `t` around the offset. -/
theorem walked_literal {env : Environment} {t body : Tree} {signature : List Tree} {parameters : Scope}
    (hchildren : t.children = signature ++ [body]) (ht : t.Every Tree.Spans)
    (hclosed : ∀ c ∈ signature, c.Closed) (hlacks : Lacks .body signature)
    (hrole : body.role = some .body) (hkind : body.kind = .block)
    (hwalks : ∀ c ∈ t.children, Walks f at_ c)
    (hparameters : ∀ b ∈ parameters, b.start = body.first ∧ b.stop = body.last)
    (hproper : Proper at_ env) (hcovers : t.covers at_ = true) (hready : Ready at_ (inForce at_ env) t) :
    let after := Tree.environmentAtAll f at_ (some parameters) (env.opened t []) (signature ++ [body])
    Proper at_ after ∧ inForce at_ after = inForce at_ env
      ++ (parameters ++ f.declaredInAll (signature ++ [body]) t.last).visibleAt at_ := by
  have hmem : ∀ c ∈ signature, c ∈ t.children := fun c hc => by simp [hchildren, hc]
  have hbody : body ∈ t.children := by simp [hchildren]
  have hspans : Extent.Bytes t.last t.first ((signature ++ [body]).map Tree.extent) := hchildren ▸ ht.here
  rw [List.map_append] at hspans
  obtain ⟨mid, hsignature, hmid, -⟩ := Extent.inOrder_append.mp hspans
  have hbefore : ∀ c ∈ signature, c.last ≤ body.first := fun c hc =>
    Nat.le_trans (hsignature.bounds (List.mem_map_of_mem hc)).2.2 hmid
  have hlast : mid ≤ t.last := by
    have : mid ≤ body.first := hmid
    have := ht.here.child hbody
    omega
  -- the signature, in a scope of its own that is empty so far
  have hopened : Proper at_ (env.opened t []) :=
    hproper.opened hcovers hready fun _ h => absurd h List.not_mem_nil
  have hinForce : inForce at_ (env.opened t []) = inForce at_ env := List.append_nil _
  have hwalk : Walked at_ ⟨t.first, t.last, []⟩ env
      (Tree.environmentAtAll f at_ none (env.opened t []) signature)
      (f.declaredInAll signature t.last) (∀ c ∈ signature, c.last ≤ at_) := by
    refine walked_all (fun c hc => hwalks c (hmem c hc)) (fun c hc => ht.child (hmem c hc)) hsignature
      hopened (Nat.le_refl _) hlast ?_
    intro c hc hbegun hopen b hb
    have hchild := ht.here.child (hmem c hc)
    have := hready (by omega) (by omega) b (hinForce ▸ hb)
    omega
  simp only [environmentAtAll_literal hlacks hrole hkind, FileScope.declaredInAll_append,
    Scope.visibleAt_append]
  have hnamed : body.isNamed = true := by simp [Tree.isNamed, hkind, Kind.isNamed]
  have hblock : body.kind.closesScope = true := by rw [hkind]; rfl
  rw [FileScope.declaredInAll_cons, if_pos hnamed, FileScope.declaredInAll_nil, List.append_nil]
  cases hin : body.covers at_ with
  | false =>
      have hnone : parameters.visibleAt at_ = [] := by
        refine Scope.visibleAt_eq_nil fun b hb hstart => ?_
        have := hparameters b hb
        simp only [Tree.covers, Bool.and_eq_false_iff, decide_eq_false_iff_not] at hin
        omega
      refine ⟨hwalk.proper, ?_⟩
      rw [visibleAt_of_not_covers (Tree.closed_of_closesScope hblock) (ht.child hbody) hin, hnone,
        List.append_nil, List.nil_append]
      exact hinForce ▸ hwalk.inForce
  | true =>
      have hbegun : body.first ≤ at_ := by
        simp only [Tree.covers, Bool.and_eq_true, decide_eq_true_eq] at hin
        exact hin.1
      -- nothing of the signature is visible in the body
      have hnone : (f.declaredInAll signature t.last).visibleAt at_ = [] := by
        refine Scope.visibleAt_eq_nil fun b hb hstart => ?_
        obtain ⟨c, hc, hb⟩ := FileScope.mem_declaredInAll hb
        have := FileScope.declaredIn_stop_le (hclosed c hc) (ht.child (hmem c hc)) hb
        have := hbefore c hc
        omega
      have hsame := hwalk.inForce
      rw [hnone, List.append_nil] at hsame
      replace hsame := hsame.trans hinForce
      have hbodyReady : Ready at_ (inForce at_ env) body := by
        intro hbegun hopen b hb
        have hchild := ht.here.child hbody
        have := hready (by omega) (by omega) b hb
        omega
      obtain ⟨hafter, heq⟩ := walked_body (hwalks body hbody) hblock hparameters hwalk.proper hin
        (hsame ▸ hbodyReady) t.last
      refine ⟨hafter, ?_⟩
      rw [hnone, List.nil_append, ← Scope.visibleAt_append, ← hsame]
      exact heq

/-- A literal: a scope over all of it, and one over its body that holds its parameters. -/
theorem walks_of_literal {r : Option Role} {e : Extent} {signature : List Tree} {body : Tree}
    (hlacks : Lacks .body signature) (hclosed : ∀ c ∈ signature, c.Closed)
    (hrole : body.role = some .body) (hkind : body.kind = .block)
    (ht : (Tree.node .funcLiteral r e (signature ++ [body])).Every Tree.Spans)
    (hwalks : ∀ c ∈ signature ++ [body], Walks f at_ c) :
    Walks f at_ (.node .funcLiteral r e (signature ++ [body])) := by
  intro frame outer hproper hfirst hstop hready
  have hsame := FileScope.bindings_eq_of_closesScope (f := f)
    (t := .node .funcLiteral r e (signature ++ [body])) rfl frame.stop
    (Tree.node .funcLiteral r e (signature ++ [body])).last
  have hparameters : ∀ b ∈ f.bindings (.node .funcLiteral r e (signature ++ [body]))
      (Tree.node .funcLiteral r e (signature ++ [body])).last, b.start = body.first ∧ b.stop = body.last := by
    intro b hb
    rcases FileScope.bindings_cases hb with ⟨hdeclares, -⟩ | ⟨hswitch, -⟩ | ⟨-, body', hbody', hb⟩
    · cases hdeclares
    · cases hswitch
    · rw [part?_body_literal hlacks hrole] at hbody'
      obtain rfl := Option.some.inj hbody'
      exact hb
  rw [Tree.environmentAt]
  simp only [Kind.closesScope, if_true, BEq.rfl]
  cases hcovers : (Tree.node .funcLiteral r e (signature ++ [body])).covers at_ with
  | false => exact .refl hproper (visibleAt_of_not_covers (.scope rfl) ht hcovers _) _
  | true =>
      obtain ⟨hafter, heq⟩ := walked_literal rfl ht hclosed hlacks hrole hkind hwalks hparameters hproper
        hcovers hready
      refine ⟨hafter, ?_, fun hpassed => ?_⟩
      · rw [FileScope.declaredIn_node, hsame]
        exact heq
      · simp only [Tree.covers, Bool.and_eq_true, decide_eq_true_eq] at hcovers
        omega

/-- **A walk over any tree of a file does what it should.** -/
theorem walks_of_nested {t : Tree} (ht : t.Every Tree.Nested) : Walks f at_ t := by
  induction ht with
  | leaf =>
      intro frame outer hproper _ _ _
      exact .refl hproper (by rw [FileScope.declaredIn_leaf]; rfl) _
  | @node k r e cs h hcs ih =>
      have hspans : (Tree.node k r e cs).Every Tree.Spans :=
        .node h.spans fun c hc => (hcs c hc).imp fun _ h => h.spans
      cases hk : k.closesScope with
      | false => exact walks_of_open hk hspans ih
      | true =>
          by_cases hliteral : k = .funcLiteral
          · subst hliteral
            obtain ⟨signature, body, rfl, hlacks, hclosed, hrole, hkind⟩ := h.bodied.literal r e cs rfl
            exact walks_of_literal hlacks hclosed hrole hkind hspans ih
          · exact walks_of_scope hk hliteral hspans ih

end Environment

/-! ## Functions -/

namespace Binding

/-- Two bindings that are never visible together. -/
def Disjoint (a b : Binding) : Prop := ∀ at_, ¬ (a.isVisible at_ = true ∧ b.isVisible at_ = true)

/-- A binding that is visible only where another one is. -/
def Within (a b : Binding) : Prop := ∀ at_, a.isVisible at_ = true → b.isVisible at_ = true

end Binding

namespace FileScope

open Environment (Proper inForce)

variable {f : FileScope} {at_ : Nat} {text : String} {declaration body : Tree}

/-- Environment and flat list of a function of a file agree on what is in force. -/
theorem inForce_environmentAt (hmem : declaration ∈ (SourceFile.parse text).root.named)
    (hfunction : isFunction declaration = true) (hbody : declaration.part? .body = some body)
    (hcovers : body.covers at_ = true) :
    Proper at_ (f.environmentAt declaration body at_) ∧
      inForce at_ (f.environmentAt declaration body at_) = (f.scopeOf declaration body).visibleAt at_ := by
  have hspans := SourceFile.spans_of_mem_parse hmem
  have hbodied := SourceFile.bodied_of_mem_parse hmem
  have hchild := List.mem_of_find?_eq_some hbody
  have hrole : body.role = some .body := by simpa using List.find?_some hbody
  have hkind : body.kind = .block := hbodied.here.function hfunction body hchild hrole
  have hnested : body.Every Tree.Nested :=
    (hspans.child hchild).and (hbodied.child hchild) fun _ h h' => ⟨h, h'⟩
  have hfunctionScope : Proper at_ (Environment.opened [] declaration []) := by
    refine ⟨?_, fun _ h => absurd h List.not_mem_nil, fun _ h => absurd h List.not_mem_nil, trivial⟩
    have := hspans.here.child hchild
    simp only [Tree.covers, Bool.and_eq_true, decide_eq_true_eq] at hcovers
    show at_ < declaration.last
    omega
  exact Environment.walked_body (Environment.walks_of_nested hnested) (by rw [hkind]; rfl)
    (fun b hb => Scope.mem_parameterScope hb) hfunctionScope hcovers
    (fun _ _ _ h => absurd h List.not_mem_nil) declaration.last

theorem lookup_visibleAt (scope : Scope) (name : String) :
    Scope.lookup (scope.visibleAt at_) name at_ = scope.lookup name at_ := by
  unfold Scope.lookup Scope.visibleAt
  rw [List.filter_filter]
  congr 2
  funext b
  cases b.isVisible at_ <;> simp

/-- What is visible anywhere is visible only in the body. -/
theorem covers_of_isVisible (hmem : declaration ∈ (SourceFile.parse text).root.named)
    (hfunction : isFunction declaration = true) (hbody : declaration.part? .body = some body)
    {b : Binding} (hb : b ∈ f.scopeOf declaration body) (hvisible : b.isVisible at_ = true) :
    body.covers at_ = true := by
  have hchild := List.mem_of_find?_eq_some hbody
  have hrole : body.role = some .body := by simpa using List.find?_some hbody
  have hkind := (SourceFile.bodied_of_mem_parse hmem).here.function hfunction body hchild hrole
  have hspans := (SourceFile.spans_of_mem_parse hmem).child hchild
  have hinside : body.first ≤ b.start ∧ b.stop ≤ body.last := by
    rcases List.mem_append.mp hb with hb | hb
    · have := Scope.mem_parameterScope hb
      omega
    · obtain ⟨hfirst, -⟩ := declaredIn_bounds hspans hb
      exact ⟨hfirst, declaredIn_stop_le (Tree.closed_of_closesScope (by rw [hkind]; rfl)) hspans hb⟩
  simp only [Binding.isVisible, Bool.and_eq_true, decide_eq_true_eq] at hvisible
  simp only [Tree.covers, Bool.and_eq_true, decide_eq_true_eq]
  omega

/-- **Looking up a name is lexical scoping.** In the body of every function of every file, a name means what
    it means in the innermost scope that has it, and of any two bindings the stretches where they are visible
    are nested or disjoint. -/
theorem lookup_lexical (f : FileScope) (text : String) (declaration body : Tree)
    (hmem : declaration ∈ (SourceFile.parse text).root.named) (hfunction : isFunction declaration = true)
    (hbody : declaration.part? .body = some body) :
    (∀ name at_, body.first ≤ at_ → at_ < body.last →
      (f.scopeOf declaration body).lookup name at_
        = (f.environmentAt declaration body at_).lookup name at_) ∧
    ∀ a ∈ f.scopeOf declaration body, ∀ b ∈ f.scopeOf declaration body,
      a.Disjoint b ∨ a.Within b ∨ b.Within a := by
  constructor
  · intro name at_ hfirst hlast
    have hcovers : body.covers at_ = true := by simp [Tree.covers, hfirst, hlast]
    obtain ⟨hproper, hinForce⟩ := inForce_environmentAt (f := f) hmem hfunction hbody hcovers
    rw [← lookup_visibleAt, ← hinForce, Environment.lookup_inForce hproper]
  · intro a ha b hb
    by_cases hdisjoint : a.Disjoint b
    · exact .inl hdisjoint
    · -- where both are visible, both are in force, and the open scopes are nested
      simp only [Binding.Disjoint, not_forall, not_not] at hdisjoint
      obtain ⟨at_, hvisible, hvisible'⟩ := hdisjoint
      have hcovers := covers_of_isVisible hmem hfunction hbody ha hvisible
      obtain ⟨hproper, hinForce⟩ := inForce_environmentAt (f := f) hmem hfunction hbody hcovers
      have hboth : ∀ c ∈ f.scopeOf declaration body, c.isVisible at_ = true →
          c ∈ inForce at_ (f.environmentAt declaration body at_) := by
        rw [hinForce]
        exact fun c hc hseen => List.mem_filter.mpr ⟨hc, hseen⟩
      have hnested := hproper.nested (hboth a ha hvisible) (hboth b hb hvisible')
      refine .inr (hnested.symm.imp (fun h => ?_) (fun h => ?_))
      · intro offset
        simp only [Binding.isVisible, Bool.and_eq_true, decide_eq_true_eq]
        omega
      · intro offset
        simp only [Binding.isVisible, Bool.and_eq_true, decide_eq_true_eq]
        omega

/-- A function with an inner block that declares the name of its parameter again. -/
def shadowing : String :=
  "package m\n\nfunc Run(x T) \x7b\n\t\x7b\n\t\tx := U\x7b\x7d\n\t\tx.Stop()\n\t\x7d\n\tx.Stop()\n\x7d\n"

theorem lookup_lexical_shadowing :
    ∃ declaration ∈ (SourceFile.parse shadowing).root.named, ∃ body,
      isFunction declaration = true ∧ declaration.part? .body = some body ∧
      ((∀ name at_, body.first ≤ at_ → at_ < body.last →
        (scopeOf ⟨"m", []⟩ declaration body).lookup name at_
          = (environmentAt ⟨"m", []⟩ declaration body at_).lookup name at_) ∧
      ∀ a ∈ scopeOf ⟨"m", []⟩ declaration body, ∀ b ∈ scopeOf ⟨"m", []⟩ declaration body,
        a.Disjoint b ∨ a.Within b ∨ b.Within a) := by
  have hshape : ((SourceFile.parse shadowing).root.named.any fun t =>
      isFunction t && (t.part? .body).isSome) = true := by decide +kernel
  obtain ⟨declaration, hmem, hdeclaration⟩ := List.any_eq_true.mp hshape
  obtain ⟨hfunction, hsome⟩ := Bool.and_eq_true_iff.mp hdeclaration
  obtain ⟨body, hbody⟩ := Option.isSome_iff_exists.mp hsome
  exact ⟨declaration, hmem, body, hfunction, hbody,
    lookup_lexical ⟨"m", []⟩ shadowing declaration body hmem hfunction hbody⟩

end FileScope

end GoExcerpt
