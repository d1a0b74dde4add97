import GoExcerpt.Proofs.Bindings

/-!
# `Proofs.Environments` — local names as open scopes

The local names of a function as a reader of the text would keep them: an `Environment` of open scopes,
innermost first, built by walking the tree up to an offset (`Tree.environmentAt`). Where the scopes are
properly nested, the binding that starts last is that of the innermost scope
(`Environment.lookup_inForce`).
-/

namespace GoExcerpt

/-! ## Environments -/

/-- An open scope: the stretch it covers, and what has been declared in it so far. -/
structure Frame where
  first : Nat
  stop : Nat
  declared : Scope

/-- The latest binding of `name` in a scope that is in force at `at_`. -/
def Frame.find? (frame : Frame) (name : String) (at_ : Nat) : Option Binding :=
  (frame.declared.filter fun b => b.name == name && b.start ≤ at_).foldl Binding.latest none

/-- The scopes that are open at some offset, innermost first. -/
abbrev Environment := List Frame

namespace Environment

/-- The binding of `name` in the innermost scope that has one in force. -/
def lookup (env : Environment) (name : String) (at_ : Nat) : Option Binding :=
  env.findSome? fun frame => frame.find? name at_

/-- Where what is declared now goes out of scope. -/
def stop : Environment → Nat
  | [] => 0
  | frame :: _ => frame.stop

/-- Declares names in the innermost scope. -/
def declare (new : Scope) : Environment → Environment
  | [] => []
  | frame :: outer => { frame with declared := frame.declared ++ new } :: outer

/-- Opens a scope over the tree `t`. -/
def opened (env : Environment) (t : Tree) (declared : Scope) : Environment :=
  ⟨t.first, t.last, declared⟩ :: env

end Environment

namespace Tree

/-- Whether the offset `at_` lies in a tree. -/
def covers (t : Tree) (at_ : Nat) : Bool := t.first ≤ at_ && at_ < t.last

mutual
/-- The environment at the offset `at_`, after walking a tree up to it in the environment `env`. A node
    that closes scopes has a scope of its own, which is gone where it ends. -/
def environmentAt (f : FileScope) (at_ : Nat) (env : Environment) : Tree → Environment
  | leaf _ _ _ _ => env
  | node k r e cs =>
      let t := node k r e cs
      if k.closesScope then
        if !t.covers at_ then env
        else if k == .funcLiteral then
          environmentAtAll f at_ (some (f.bindings t t.last)) (env.opened t []) cs
        else environmentAtAll f at_ none (env.opened t (f.bindings t t.last)) cs
      else if at_ < t.first then env
      else environmentAtAll f at_ none (env.declare (f.bindings t env.stop)) cs

/-- As `environmentAt` for several trees. The body of a function literal has a scope around it, which holds
    the `parameters`. -/
def environmentAtAll (f : FileScope) (at_ : Nat) (parameters : Option Scope) (env : Environment) :
    List Tree → Environment
  | [] => env
  | t :: ts =>
      let env :=
        if !t.isNamed then env
        else
          match parameters with
          | none => t.environmentAt f at_ env
          | some declared =>
              if t.role != some .body then t.environmentAt f at_ env
              else if t.covers at_ then t.environmentAt f at_ (env.opened t declared)
              else env
      environmentAtAll f at_ parameters env ts
end

end Tree

/-- The environment at an offset in the body of a function. Its parameters are in a scope around the body. -/
def FileScope.environmentAt (f : FileScope) (declaration body : Tree) (at_ : Nat) : Environment :=
  let function := Environment.opened [] declaration []
  body.environmentAt f at_
    (function.opened body (f.parameterScope declaration body [.receiver, .parameters, .result]))

/-! ## What is in force -/

namespace Environment

variable {at_ : Nat} {frame : Frame} {env : Environment}

/-- All that is visible at an offset, from the outermost scope to the innermost. -/
def inForce (at_ : Nat) : Environment → Scope
  | [] => []
  | frame :: outer => inForce at_ outer ++ frame.declared.visibleAt at_

/-- **Open scopes are properly nested:** what is declared in one starts inside it and stops where it does,
    and what is in force in outer ones starts before it and lasts as long. -/
def Proper (at_ : Nat) : Environment → Prop
  | [] => True
  | frame :: outer =>
      at_ < frame.stop ∧ (∀ b ∈ frame.declared, frame.first ≤ b.start ∧ b.stop = frame.stop) ∧
        (∀ b ∈ inForce at_ outer, b.start ≤ frame.first ∧ frame.stop ≤ b.stop) ∧ Proper at_ outer

theorem inForce_declare (new : Scope) :
    inForce at_ (declare new (frame :: env)) = inForce at_ (frame :: env) ++ new.visibleAt at_ := by
  simp [inForce, declare, Scope.visibleAt_append]

theorem Proper.declare (h : Proper at_ (frame :: env)) {new : Scope}
    (hnew : ∀ b ∈ new, frame.first ≤ b.start ∧ b.stop = frame.stop) :
    Proper at_ (Environment.declare new (frame :: env)) := by
  obtain ⟨hopen, hdeclared, houter⟩ := h
  refine ⟨hopen, fun b hb => ?_, houter⟩
  rcases List.mem_append.mp hb with hb | hb
  · exact hdeclared b hb
  · exact hnew b hb

/-- Of two bindings in force, one is visible only where the other is. -/
theorem Proper.nested (h : Proper at_ env) {a b : Binding} (ha : a ∈ inForce at_ env)
    (hb : b ∈ inForce at_ env) :
    a.start ≤ b.start ∧ b.stop ≤ a.stop ∨ b.start ≤ a.start ∧ a.stop ≤ b.stop := by
  induction env with
  | nil => exact absurd ha List.not_mem_nil
  | cons frame outer ih =>
      obtain ⟨-, hdeclared, houter, hproper⟩ := h
      rcases List.mem_append.mp ha with ha | ha <;> rcases List.mem_append.mp hb with hb | hb
      · exact ih hproper ha hb
      · have := houter a ha
        have := hdeclared b (Scope.mem_visibleAt.mp hb).1
        omega
      · have := houter b hb
        have := hdeclared a (Scope.mem_visibleAt.mp ha).1
        omega
      · have := hdeclared a (Scope.mem_visibleAt.mp ha).1
        have := hdeclared b (Scope.mem_visibleAt.mp hb).1
        omega

end Environment

/-! ## Looking up -/

namespace Binding

theorem foldl_latest_mem (best : Option Binding) (bs : List Binding) :
    bs.foldl latest best = best ∨ ∃ b ∈ bs, bs.foldl latest best = some b := by
  induction bs generalizing best with
  | nil => exact .inl rfl
  | cons b bs ih =>
      rw [List.foldl_cons]
      rcases ih (latest best b) with hbest | ⟨o, ho, hbest⟩
      · rw [hbest]
        exact (latest_eq_or best b).symm.imp_right fun h => ⟨b, List.mem_cons_self, h⟩
      · exact .inr ⟨o, List.mem_cons_of_mem _ ho, hbest⟩

theorem exists_foldl_latest (b : Binding) (bs : List Binding) :
    ∃ o, (b :: bs).foldl latest none = some o := by
  rw [List.foldl_cons]
  rcases foldl_latest_mem (some b) bs with hbest | ⟨o, -, hbest⟩
  · exact ⟨b, hbest⟩
  · exact ⟨o, hbest⟩

/-- What starts no earlier than all before it is better. -/
theorem foldl_latest_append {before : List Binding} {b : Binding} {bs : List Binding}
    (h : ∀ a ∈ before, a.start ≤ b.start) :
    (before ++ b :: bs).foldl latest none = (b :: bs).foldl latest none := by
  rw [List.foldl_append, List.foldl_cons, List.foldl_cons]
  congr 1
  rcases foldl_latest_mem none before with hbest | ⟨a, ha, hbest⟩
  · rw [hbest]
  · rw [hbest]
    exact if_pos (h a ha)

end Binding

theorem Frame.find?_eq {frame : Frame} {at_ : Nat} (hopen : at_ < frame.stop)
    (hdeclared : ∀ b ∈ frame.declared, b.stop = frame.stop) (name : String) :
    frame.find? name at_ = (frame.declared.visibleAt at_).lookup name at_ := by
  unfold find? Scope.lookup Scope.visibleAt
  rw [List.filter_filter]
  congr 1
  refine List.filter_congr fun b hb => ?_
  have hvisible : b.isVisible at_ = decide (b.start ≤ at_) := by
    simp [Binding.isVisible, hdeclared b hb, hopen]
  simp [hvisible]

/-- **In properly nested scopes the binding that starts last is that of the innermost scope.** -/
theorem Environment.lookup_inForce {at_ : Nat} {env : Environment} (h : Proper at_ env) (name : String) :
    Scope.lookup (inForce at_ env) name at_ = env.lookup name at_ := by
  induction env with
  | nil => rfl
  | cons frame outer ih =>
      obtain ⟨hopen, hdeclared, houter, hproper⟩ := h
      have hfind := Frame.find?_eq hopen (fun b hb => (hdeclared b hb).2) name
      have hfilter : (inForce at_ (frame :: outer)).filter (fun b => b.name == name && b.isVisible at_)
          = (inForce at_ outer).filter (fun b => b.name == name && b.isVisible at_)
            ++ (frame.declared.visibleAt at_).filter (fun b => b.name == name && b.isVisible at_) :=
        List.filter_append ..
      rw [lookup, List.findSome?_cons, hfind, Scope.lookup, hfilter]
      unfold Scope.lookup
      cases hown : (frame.declared.visibleAt at_).filter (fun b => b.name == name && b.isVisible at_) with
      | nil =>
          rw [List.append_nil]
          exact ih hproper
      | cons b bs =>
          -- all that is in force further out starts before the scope, so before `b`
          have hb : b ∈ frame.declared := by
            have hmem := hown ▸ List.mem_cons_self (a := b) (l := bs)
            exact (Scope.mem_visibleAt.mp (List.mem_filter.mp hmem).1).1
          rw [Binding.foldl_latest_append fun a ha => ?_]
          · obtain ⟨o, ho⟩ := Binding.exists_foldl_latest b bs
            rw [ho]
          · exact Nat.le_trans (houter a (List.mem_filter.mp ha).1).1 (hdeclared b hb).1

end GoExcerpt
