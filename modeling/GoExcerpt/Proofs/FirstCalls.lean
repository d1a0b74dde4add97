import GoExcerpt.Proofs.Bodies

/-!
# `Proofs.FirstCalls` — the calls that a walk goes by

A walk passes over a call that is not resolved or leads out of the index. It passes over a second call of the
same function too, whatever has happened since the first one: that function was reached then at the latest.
So the bodies of all functions may be pruned to the first calls of indexed functions (`Index.firstCalls`), and
every walk over the packages pruned so gives what it gave before (`Walk.run_pruned`).
-/

namespace GoExcerpt

/-! ## Pruning -/

/-- The identity of the function called, where it is known. -/
def Call.key? (c : Call) : Option Symbol := c.target.map Symbol.canonical

/-- The calls of a body that call a function of the index which no call before calls; `earlier` are the
    functions that have been called already. -/
def Index.firstCalls (i : Index) (earlier : List Symbol) : List Call → List Call
  | [] => []
  | c :: rest =>
      match c.key? with
      | none => i.firstCalls earlier rest
      | some key =>
          if i.contains key = true ∧ key ∉ earlier then c :: i.firstCalls (key :: earlier) rest
          else i.firstCalls earlier rest

/-- A function whose body, if there is one, has the first calls of indexed functions only. -/
def Declaration.pruned (i : Index) (d : Declaration) : Declaration :=
  { d with calls := d.calls.map (i.firstCalls []) }

def SourceUnit.pruned (i : Index) (u : SourceUnit) : SourceUnit :=
  { u with functions := u.functions.map (·.pruned i) }

def Package.pruned (i : Index) (p : Package) : Package := { p with units := p.units.map (·.pruned i) }

def Indexed.pruned (i : Index) (e : Indexed) : Indexed :=
  ⟨e.declaration.pruned i, e.unitPath, e.package.pruned i⟩

namespace Index

variable {i j : Index} {b : Nat}

/-! ## Traces -/

/-- **A trace goes by the first calls of a body.** The functions called earlier in the body have been
    reached when the trace comes to a call, so it passes over what is left out. -/
theorem trace_firstCalls (hsame : ∀ key, j.contains key = i.contains key) (body : List Call)
    {earlier : List Symbol} {log : Log} (hearlier : earlier ⊆ Log.keys log) :
    j.trace b ((i.firstCalls earlier body).filterMap Call.key?) log
      = j.trace b (body.filterMap Call.key?) log := by
  -- what the body has called so far is in the log, and stays there while the log grows
  induction body generalizing earlier log with
  | nil => rfl
  | cons c rest ih =>
      cases hkey : c.key? with
      | none =>
          rw [List.filterMap_cons_none hkey, firstCalls, hkey]
          exact ih hearlier
      | some key =>
          rw [List.filterMap_cons_some hkey, firstCalls, hkey]
          dsimp only
          split
          next hfirst =>
            have hreached := mem_keys_trace_singleton b log ((hsame key).trans hfirst.1)
            rw [List.filterMap_cons_some hkey]
            refine (trace_cons b key _ log).trans (.trans ?_ (trace_cons b key _ log).symm)
            refine ih (List.cons_subset.mpr ⟨hreached, ?_⟩)
            exact List.Subset.trans hearlier (keys_subset_trace b [key] log)
          next hlater =>
            have hpassed : j.contains key = true → key ∈ Log.keys log := by
              intro hin
              by_contra hnew
              exact hlater ⟨(hsame key).symm.trans hin, fun hmem => hnew (hearlier hmem)⟩
            rw [trace_passed hpassed]
            exact ih hearlier

/-! ## Pruned packages -/

theorem ofPackage_pruned (p : Package) : ofPackage (p.pruned i) = (ofPackage p).map (·.pruned i) := by
  unfold ofPackage Package.pruned
  rw [List.flatMap_map, List.map_flatMap]
  refine congrArg (List.flatMap · p.units) (funext fun u => ?_)
  unfold SourceUnit.pruned
  rw [List.map_map, List.map_map]
  rfl

theorem entries_build_pruned (packages : List Package) (m : Manifest) :
    (build (packages.map (·.pruned i)) m).entries = (build packages m).entries.map (·.pruned i) := by
  unfold build
  dsimp only
  rw [List.filter_map, List.flatMap_map, List.map_flatMap]
  simp only [ofPackage_pruned]
  rfl

/-- Pruning packages is a rewriting of the functions in their index. -/
theorem rewritten_pruned (packages : List Package) (m : Manifest) :
    Rewritten (build packages m) (build (packages.map (·.pruned (build packages m))) m)
      (·.pruned (build packages m)) := by
  have hfound : ∀ key, (build (packages.map (·.pruned (build packages m))) m).get? key
      = ((build packages m).get? key).map (·.pruned (build packages m)) := by
    intro key
    unfold get?
    rw [entries_build_pruned, ← List.map_reverse, List.find?_map]
    rfl
  refine ⟨hfound, fun _ => rfl, fun _ => rfl, fun _ => rfl, fun _ => rfl, ?_⟩
  intro e b log
  unfold Indexed.targets Indexed.pruned Declaration.pruned
  cases e.declaration.calls with
  | none => rfl
  | some body => exact trace_firstCalls (contains_of_found hfound) body (List.nil_subset _)

end Index

/-- **Only the first calls of indexed functions matter.** If all other calls are taken out of all bodies at
    once, a walk still has the same slots in the same order, with the same texts, or fails with the same
    fault. -/
theorem Walk.run_pruned (files : FileSystem) (packages : List Package) (m : Manifest) (excludeRoot : Bool)
    (entry : Symbol) (budget : Nat) :
    Walk.run ⟨files, Index.build (packages.map (·.pruned (Index.build packages m))) m, excludeRoot⟩
        entry budget
      = Walk.run ⟨files, Index.build packages m, excludeRoot⟩ entry budget :=
  (Index.rewritten_pruned packages m).run_eq files excludeRoot entry budget

end GoExcerpt
