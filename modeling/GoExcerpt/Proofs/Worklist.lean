import GoExcerpt.Proofs.WalkTrace

/-!
# `Proofs.Worklist` — a walk as a loop over a stack

The recursion of a walk can be laid flat: a stack holds the calls that are still to be followed, each with the
hops it has left, and the loop takes the topmost, passes over it if it is known or not indexed, and else collects
the function and puts its own calls on top (`Walk.workOff`). Calls wait on the stack while those above them mark
functions as visited, just as the rest of a body waits for the visits before it; so working off the calls of a
body and then the rest of the stack is visiting them one after the other and then working off the rest
(`workOff_calls`), and the loop that begins with the entry alone gives what the walk gives (`run_eq_workOff`).
-/

namespace GoExcerpt

/-! ## What is left to visit -/

namespace Index

variable {i : Index} {visited : List Symbol} {key : Symbol} {e : Indexed}

/-- The identities of the index that are not among those visited. -/
def unvisited (i : Index) (visited : List Symbol) : List Symbol := i.keys.filter (· ∉ visited)

/-- Visiting an indexed function leaves fewer to visit. -/
theorem length_unvisited_lt (hnew : key ∉ visited) (he : i.get? key = some e) :
    (i.unvisited (visited ++ [key])).length < (i.unvisited visited).length := by
  have hrest : i.unvisited (visited ++ [key]) = (i.unvisited visited).filter (· ≠ key) := by
    unfold unvisited
    rw [List.filter_filter]
    refine List.filter_congr fun k _ => ?_
    simp [and_comm]
  have hmem : key ∈ i.unvisited visited := by
    refine List.mem_filter.mpr ⟨contains_iff_mem_keys.mp (contains_of_get? he), ?_⟩
    simpa using hnew
  rw [hrest]
  exact List.length_filter_lt_length_iff_exists.mpr ⟨key, hmem, by simp⟩

end Index

namespace Walk

variable {w : Walk} {entry : Symbol}

/-! ## The loop -/

/-- A call that waits to be followed, and the hops that are left for it. -/
structure Waiting where
  key : Symbol
  hops : Nat
deriving DecidableEq, Repr

/-- What a function puts on the stack when it is reached: its calls, the first on top, as long as there is a
    hop left. -/
def callsOf (e : Indexed) : Nat → List Waiting
  | 0 => []
  | hops + 1 => e.targets.map fun target => ⟨target, hops⟩

/-- Works off a stack of calls, the topmost first. Every round takes a call from the stack or visits a function
    that was not visited before. -/
def workOff (w : Walk) (entry : Symbol) (s : WalkState) : List Waiting → Except Fault WalkState
  | [] => .ok s
  | top :: stack =>
      if top.key ∈ s.visited then w.workOff entry s stack
      else
        match _he : w.index.get? top.key with
        | none => w.workOff entry s stack
        | some e =>
            match w.collect (top.key == entry) e s.collected with
            | .error fault => .error fault
            | .ok collected =>
                w.workOff entry ⟨s.visited ++ [top.key], collected⟩ (callsOf e top.hops ++ stack)
termination_by stack => ((w.index.unvisited s.visited).length, stack.length)
decreasing_by
  · exact Prod.Lex.right _ (Nat.lt_succ_self _)
  · exact Prod.Lex.right _ (Nat.lt_succ_self _)
  · next hnew => exact Prod.Lex.left _ _ (Index.length_unvisited_lt hnew _he)

/-! ## Rounds of the loop -/

section

variable {s : WalkState} {key : Symbol} {hops : Nat} {stack : List Waiting} {e : Indexed}

theorem workOff_nil : w.workOff entry s [] = .ok s := by
  rw [workOff]

theorem workOff_seen (h : key ∈ s.visited) :
    w.workOff entry s (⟨key, hops⟩ :: stack) = w.workOff entry s stack := by
  rw [workOff, if_pos h]

theorem workOff_absent (h : w.index.get? key = none) :
    w.workOff entry s (⟨key, hops⟩ :: stack) = w.workOff entry s stack := by
  rw [workOff]
  split
  next => rfl
  next =>
    split
    next => rfl
    next e he => exact absurd (he.symm.trans h) (by simp)

/-- A function that is reached is noted, and its calls come before what waits already. -/
theorem workOff_reached (hnew : key ∉ s.visited) (he : w.index.get? key = some e) :
    w.workOff entry s (⟨key, hops⟩ :: stack)
      = ((w.noteOn (key == entry) e).map fun n => s.after [⟨e, hops⟩] [n]).bind fun s =>
          w.workOff entry s (callsOf e hops ++ stack) := by
  have hkey : e.key = key := Index.key_of_get? he
  rw [workOff, if_neg hnew]
  split
  next hnone => exact absurd (he.symm.trans hnone) (by simp)
  next e' he' =>
    obtain rfl := Option.some.inj (he.symm.trans he')
    rw [collect_eq]
    cases w.noteOn (key == entry) e with
    | error fault => rfl
    | ok n =>
        subst hkey
        rfl

end

/-! ## Recursion and loop side by side -/

/-- **Working off the calls of a body is visiting them one after the other.** What waits below them is worked off
    from the state that the visits leave, and a visit that fails ends both. The induction is along the trace of
    the visits; once the entry has been visited, no function that is reached is the entry. -/
theorem workOff_calls (b : Nat) (ks : List Symbol) (log : Log) :
    ∀ (s : WalkState) (stack : List Waiting), s.visited = Log.keys log → entry ∈ Log.keys log →
      w.workOff entry s (ks.map (⟨·, b⟩) ++ stack)
        = (ks.foldlM (fun s key => w.visit false b key s) s).bind fun s => w.workOff entry s stack := by
  induction b, ks, log using Index.trace_induction (i := w.index) with
  | nil b log => exact fun s stack _ _ => rfl
  | seen b key rest log hseen ih =>
      intro s stack hs hentry
      rw [List.map_cons, List.cons_append, workOff_seen (hs ▸ hseen), List.foldlM_cons,
        visit_seen (hs ▸ hseen)]
      exact ih s stack hs hentry
  | absent b key rest log hnone ih =>
      intro s stack hs hentry
      rw [List.map_cons, List.cons_append, workOff_absent hnone, List.foldlM_cons, visit_absent hnone]
      exact ih s stack hs hentry
  | spent key rest log e hnew he ih =>
      intro s stack hs hentry
      have hother : (key == entry) = false := beq_eq_false_iff_ne.mpr fun heq => hnew (heq ▸ hentry)
      rw [List.map_cons, List.cons_append, workOff_reached (hs ▸ hnew) he, hother, List.foldlM_cons,
        visit_spent (hs ▸ hnew) he]
      cases w.noteOn false e with
      | error fault => rfl
      | ok n =>
          refine ih _ stack ?_ (by simp [hentry])
          rw [Log.keys_append, ← hs]
          rfl
  | expanded hops key rest log e hnew he ihin ihout =>
      intro s stack hs hentry
      have hother : (key == entry) = false := beq_eq_false_iff_ne.mpr fun heq => hnew (heq ▸ hentry)
      rw [List.map_cons, List.cons_append, workOff_reached (hs ▸ hnew) he, hother, List.foldlM_cons,
        visit_expanded (hs ▸ hnew) he]
      cases w.noteOn false e with
      | error fault => rfl
      | ok n =>
          have hreached : (s.after [⟨e, hops + 1⟩] [n]).visited = Log.keys (log ++ [⟨e, hops + 1⟩]) := by
            rw [Log.keys_append, ← hs]
            rfl
          obtain ⟨new, htrace, hfold⟩ := foldlM_visit_eq (w := w) hops e.targets (log ++ [⟨e, hops + 1⟩])
          -- the calls of the function come first, then the rest of its caller's, then what waits below
          refine (ihin _ (rest.map (⟨·, hops + 1⟩) ++ stack) hreached (by simp [hentry])).trans ?_
          show _ = ((e.targets.foldlM (fun s key => w.visit false hops key s)
            (s.after [⟨e, hops + 1⟩] [n])).bind _).bind _
          rw [hfold _ hreached]
          cases w.notes false (new.map Stop.reached) with
          | error fault => rfl
          | ok ns =>
              refine ihout _ stack ?_ (Index.keys_subset_trace _ _ _ (by simp [hentry]))
              rw [htrace, Log.keys_append, ← hreached]
              rfl

/-- The visit of the entry and the loop that begins with it end in the same state. -/
theorem visit_eq_workOff (w : Walk) (entry : Symbol) (budget : Nat) :
    w.visit true budget entry {} = w.workOff entry {} [⟨entry, budget⟩] := by
  cases he : w.index.get? entry with
  | none => rw [visit_absent he, workOff_absent he, workOff_nil]
  | some e =>
      have hnew : entry ∉ ({} : WalkState).visited := List.not_mem_nil
      have hentry : entry ∈ Log.keys [⟨e, budget⟩] := List.mem_singleton.mpr (Index.key_of_get? he).symm
      rw [workOff_reached hnew he, beq_self_eq_true]
      cases budget with
      | zero =>
          rw [visit_spent hnew he]
          cases w.noteOn true e with
          | error fault => rfl
          | ok n => exact workOff_nil.symm
      | succ hops =>
          rw [visit_expanded hnew he]
          cases w.noteOn true e with
          | error fault => rfl
          | ok n =>
              -- nothing waits below the calls of the entry
              refine .trans ?_ (workOff_calls hops e.targets [⟨e, hops + 1⟩] _ [] rfl hentry).symm
              simp only [workOff_nil]
              exact (bind_pure _).symm

/-- **A walk is a loop over a stack of calls.** The loop begins with the entry and the whole budget, and gives the
    same slots with the same texts, or fails with the same fault. -/
theorem run_eq_workOff (w : Walk) (entry : Symbol) (budget : Nat) :
    w.run entry budget
      = (w.workOff entry.canonical {} [⟨entry.canonical, budget⟩]).map WalkState.collected := by
  unfold run
  rw [visit_eq_workOff]
  cases w.workOff entry.canonical {} [⟨entry.canonical, budget⟩] with
  | error fault => rfl
  | ok s => rfl

end Walk
end GoExcerpt
