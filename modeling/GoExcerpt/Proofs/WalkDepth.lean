import GoExcerpt.Proofs.WalkText
import Mathlib.Data.List.Nodup

/-!
# `Proofs.WalkDepth` — how far a walk gets

A walk with a budget of `N` hops reaches nothing that is further than `N` hops from its entry
(`run_budgeted`). It need not reach everything that is nearer: a function is expanded with the hops left
when it is reached *first*, and calls are followed depth first, so it may be reached by a detour with no hop
left and then not be expanded when the short way is tried (`shortcut_missed`). `run_complete_iff` says
exactly when this happens. It cannot happen when the budget is as large as the index
(`run_exact_of_large_budget`).
-/

namespace GoExcerpt

/-! ## Hops left -/

/-- The hops that were left where a function was reached. -/
def Log.leftAt (log : Log) (key : Symbol) : Nat := ((log.find? (·.key == key)).map Stop.left).getD 0

namespace Index

variable {i : Index} {entry : Symbol} {budget : Nat}

theorem Valid.leftAt {log : Log} (h : i.Valid log) {s : Stop} (hs : s ∈ log) :
    log.leftAt s.key = s.left := by
  have hsome : (log.find? (·.key == s.key)).isSome = true :=
    List.find?_isSome.mpr ⟨s, hs, by simp⟩
  obtain ⟨s', hs'⟩ := Option.isSome_iff_exists.mp hsome
  have hkey : s'.key = s.key := by
    have hbeq := List.find?_some hs'
    simpa using hbeq
  -- keys are not repeated, so the first stop with this key is `s`
  have heq : s' = s := List.inj_on_of_nodup_map h.nodup (List.mem_of_find?_eq_some hs') hs hkey
  unfold Log.leftAt
  rw [hs', heq]
  rfl

/-- **Functions with the hops that were left at them**, in the order of the visits: the entry has the whole
    budget, any other function was called by one visited before it that had one hop more, and a function
    with a hop left has all it calls visited. -/
structure Budgeted (i : Index) (entry : Symbol) (budget : Nat) (visited : List Symbol)
    (left : Symbol → Nat) : Prop where
  entry_mem : entry ∈ visited
  entry_left : left entry = budget
  left_le : ∀ f ∈ visited, left f ≤ budget
  caller : ∀ g ∈ visited, g ≠ entry →
    ∃ f, [f, g].Sublist visited ∧ i.Calls f g ∧ left f = left g + 1
  closed : ∀ f ∈ visited, 0 < left f → ∀ g, i.Calls f g → i.contains g = true → g ∈ visited

theorem log_budgeted (h : i.contains entry = true) (budget : Nat) :
    i.Budgeted entry budget (Log.keys (i.log budget entry)) (i.log budget entry).leftAt := by
  have hpaid := log_paid h budget
  have hvalid := log_valid (i := i) budget entry
  obtain ⟨e, rest, he, hlog⟩ := hpaid.head
  have hfirst : ⟨e, budget⟩ ∈ i.log budget entry := by
    rw [hlog]
    exact List.mem_cons_self
  have hkey : Stop.key ⟨e, budget⟩ = entry := key_of_get? he
  constructor
  · exact Log.mem_keys.mpr ⟨_, hfirst, hkey⟩
  · have hleft := hvalid.leftAt hfirst
    rw [hkey] at hleft
    exact hleft
  · intro f hf
    obtain ⟨s, hs, rfl⟩ := Log.mem_keys.mp hf
    obtain ⟨n, hn, -⟩ := hpaid.hops hs
    rw [hvalid.leftAt hs]
    omega
  · intro g hg hne
    obtain ⟨s, hs, rfl⟩ := Log.mem_keys.mp hg
    rcases hpaid.caller hs with hentry | ⟨f, hsub, hcall, hleft⟩
    · exact absurd hentry hne
    · have hf : f ∈ i.log budget entry := hsub.subset List.mem_cons_self
      refine ⟨f.key, hsub.map Stop.key, (calls_iff_of_get? (hvalid.indexed f hf)).mpr hcall, ?_⟩
      rw [hvalid.leftAt hf, hvalid.leftAt hs, hleft]
  · intro f hf hleft g hcall hin
    obtain ⟨s, hs, rfl⟩ := Log.mem_keys.mp hf
    rw [hvalid.leftAt hs] at hleft
    exact log_closed hs hleft ((calls_iff_of_get? (hvalid.indexed s hs)).mp hcall) hin

/-- What is reached lies within the budget. -/
theorem hops_of_mem_log (h : i.contains entry = true) {f : Symbol}
    (hf : f ∈ Log.keys (i.log budget entry)) : ∃ n ≤ budget, i.Hops entry n f := by
  obtain ⟨s, hs, rfl⟩ := Log.mem_keys.mp hf
  obtain ⟨n, hn, hpath⟩ := (log_paid h budget).hops hs
  exact ⟨n, by omega, hpath⟩

/-- A budget as large as the index reaches whatever can be reached. -/
theorem mem_log_of_hops (hentry : i.contains entry = true)
    (hsize : i.size ≤ budget + 1) {n : Nat} {g : Symbol} (path : i.Hops entry n g) :
    g ∈ Log.keys (i.log budget entry) := by
  have hbudgeted := log_budgeted hentry budget
  have hvalid := log_valid (i := i) budget entry
  refine path.mem_of_closed hbudgeted.entry_mem ?_ (Nat.le_refl n)
  intro m f _ _ hf h hcall hin
  obtain ⟨s, hs, rfl⟩ := Log.mem_keys.mp hf
  rcases Nat.eq_zero_or_pos s.left with hzero | hpos
  · -- the callers that used up the budget are as many as the index has functions
    have hlt := (log_paid hentry budget).budget_lt hs
    exact hvalid.full (by omega) hin
  · exact log_closed hs hpos ((calls_iff_of_get? (hvalid.indexed s hs)).mp hcall) hin

end Index

namespace Walk

/-- **A walk that succeeds has spent its hops on what it visited, and visited nothing beyond its budget.** -/
theorem run_budgeted (w : Walk) (entry : Symbol) (budget : Nat) (c : Collected)
    (hentry : w.index.contains entry.canonical = true) (h : w.run entry budget = .ok c) :
    ∃ s, w.visit true budget entry.canonical {} = .ok s ∧ s.collected = c ∧
      (∃ left, w.index.Budgeted entry.canonical budget s.visited left) ∧
      ∀ f ∈ s.visited, w.index.contains f = true ∧
        ∃ n ≤ budget, w.index.Hops entry.canonical n f := by
  obtain ⟨_, _, _, hvisit⟩ := exists_of_run h
  refine ⟨_, hvisit, rfl, ⟨_, Index.log_budgeted hentry budget⟩, ?_⟩
  intro f hf
  obtain ⟨n, hn, hpath⟩ := Index.hops_of_mem_log hentry hf
  exact ⟨hpath.contains, n, hn, hpath⟩

/-- Four functions on a line each: `A` calls `B` and `C`, `B` calls `C`, and `C` calls `D`. -/
def shortcut : Walk where
  files := ⟨.dir [("m.go", .file "func A()\nfunc B()\nfunc C()\nfunc D()\n".toUTF8)], []⟩
  index := ⟨Index.ofPackage ⟨"m", "m", [⟨"/m.go", [
    oneLine "m" "A" 1 [.function "m" "B", .function "m" "C"],
    oneLine "m" "B" 2 [.function "m" "C"],
    oneLine "m" "C" 3 [.function "m" "D"],
    oneLine "m" "D" 4 []]⟩]⟩⟩
  excludeRoot := false

theorem run_budgeted_shortcut :
    shortcut.index.contains (Symbol.function "m" "A").canonical = true ∧
    ∃ c, c = [⟨"m", "m", "\nfunc A()\n\nfunc B()\n\nfunc C()\n"⟩] ∧
      shortcut.run (.function "m" "A") 2 = .ok c ∧
      ∃ s, shortcut.visit true 2 (Symbol.function "m" "A").canonical {} = .ok s ∧ s.collected = c ∧
        (∃ left, shortcut.index.Budgeted (Symbol.function "m" "A").canonical 2 s.visited left) ∧
        ∀ f ∈ s.visited, shortcut.index.contains f = true ∧
          ∃ n ≤ 2, shortcut.index.Hops (Symbol.function "m" "A").canonical n f := by
  have hentry : shortcut.index.contains (Symbol.function "m" "A").canonical = true := by decide
  have hrun : shortcut.run (.function "m" "A") 2
      = .ok [⟨"m", "m", "\nfunc A()\n\nfunc B()\n\nfunc C()\n"⟩] := by decide +kernel
  exact ⟨hentry, _, rfl, hrun, run_budgeted shortcut _ 2 _ hentry hrun⟩

/-! ## Functions that are missed -/

/-- The text of a function is in the collection, under its package. -/
def Holds (w : Walk) (c : Collected) (f : Symbol) : Prop :=
  ∃ e, w.index.get? f = some e ∧ w.Readable e ∧
    ∃ before after, c.textOf e.package.path = before ++ ("\n" ++ w.source e) ++ after

theorem exists_join_eq {pieces : List String} {piece : String} (h : piece ∈ pieces) :
    ∃ before after, String.join pieces = before ++ piece ++ after := by
  obtain ⟨front, back, rfl⟩ := List.append_of_mem h
  refine ⟨String.join front, String.join back, ?_⟩
  rw [String.join_append, String.join_cons, String.append_assoc]

/-- Every function visited has its text collected, but for an excluded entry. -/
theorem holds_of_mem {w : Walk} {entry : Symbol} {budget : Nat} {c : Collected}
    (hentry : w.index.contains entry.canonical = true) (h : w.run entry budget = .ok c) {f : Symbol}
    (hf : f ∈ Log.keys (w.index.log budget entry.canonical))
    (hkept : ¬ (w.excludeRoot = true ∧ f = entry.canonical)) : w.Holds c f := by
  obtain ⟨-, hread, htext⟩ := collected_of_run hentry h
  obtain ⟨e, rest, he, hlog⟩ := (Index.log_paid hentry budget).head
  have hvalid := Index.log_valid (i := w.index) budget entry.canonical
  have hkey : Stop.key ⟨e, budget⟩ = entry.canonical := Index.key_of_get? he
  obtain ⟨s, hs, rfl⟩ := Log.mem_keys.mp hf
  rw [hlog] at hread htext hvalid hs
  have hmem : s.reached ∈ w.emitted ((⟨e, budget⟩ :: rest).map Stop.reached) :=
    (reached_mem_emitted_iff hvalid hs).mpr (hkey ▸ hkept)
  refine ⟨s.reached, hvalid.indexed s hs, hread _ hmem, ?_⟩
  rw [htext s.reached.package.path]
  apply exists_join_eq
  exact List.mem_map.mpr ⟨s.reached, List.mem_filter.mpr ⟨hmem, by simp⟩, rfl⟩

/-- **When a walk misses nothing within its budget.** Every function within the budget is visited, and its
    text collected, exactly if each function that was reached with no hop left, though it is nearer than
    that, has all it calls visited by other ways. -/
theorem run_complete_iff (w : Walk) (entry : Symbol) (budget : Nat) (c : Collected)
    (hentry : w.index.contains entry.canonical = true) (h : w.run entry budget = .ok c) :
    ∃ s, w.visit true budget entry.canonical {} = .ok s ∧ s.collected = c ∧
      (∃ left, w.index.Budgeted entry.canonical budget s.visited left) ∧
      ∀ left, w.index.Budgeted entry.canonical budget s.visited left →
        ((∀ n g, n ≤ budget → w.index.Hops entry.canonical n g → g ∈ s.visited ∧
            (¬ (w.excludeRoot = true ∧ g = entry.canonical) → w.Holds c g)) ↔
          ∀ f ∈ s.visited, left f = 0 → (∃ n < budget, w.index.Hops entry.canonical n f) →
            ∀ g, w.index.Calls f g → w.index.contains g = true → g ∈ s.visited) := by
  obtain ⟨_, _, _, hvisit⟩ := exists_of_run h
  refine ⟨_, hvisit, rfl, ⟨_, Index.log_budgeted hentry budget⟩, fun left hleft => ⟨?_, ?_⟩⟩
  · rintro hall f - - ⟨n, hn, hpath⟩ g hcall hin
    exact (hall (n + 1) g hn (.call hpath hcall hin)).1
  · intro hspent n g hn hpath
    -- along the path, a function with a hop left was expanded, and one with none is as assumed
    have hg : g ∈ Log.keys (w.index.log budget entry.canonical) := by
      refine hpath.mem_of_closed hleft.entry_mem ?_ hn
      intro m f hm hf hmem g' hcall hin
      rcases Nat.eq_zero_or_pos (left f) with hzero | hpos
      · exact hspent f hmem hzero ⟨m, hm, hf⟩ g' hcall hin
      · exact hleft.closed f hmem hpos g' hcall hin
    exact ⟨hg, holds_of_mem hentry h hg⟩

theorem run_complete_iff_shortcut :
    shortcut.index.contains (Symbol.function "m" "A").canonical = true ∧
    ∃ c, shortcut.run (.function "m" "A") 3 = .ok c ∧
      ∀ n g, n ≤ 3 → shortcut.index.Hops (Symbol.function "m" "A").canonical n g →
        shortcut.Holds c g := by
  have hentry : shortcut.index.contains (Symbol.function "m" "A").canonical = true := by decide
  have hrun : shortcut.run (.function "m" "A") 3
      = .ok [⟨"m", "m", "\nfunc A()\n\nfunc B()\n\nfunc C()\n\nfunc D()\n"⟩] := by decide +kernel
  have hvisit : shortcut.visit true 3 (Symbol.function "m" "A").canonical {}
      = .ok ⟨[.function "m" "A", .function "m" "B", .function "m" "C", .function "m" "D"],
          [⟨"m", "m", "\nfunc A()\n\nfunc B()\n\nfunc C()\n\nfunc D()\n"⟩]⟩ := by decide +kernel
  obtain ⟨s, hs, -, ⟨left, hleft⟩, hiff⟩ := run_complete_iff shortcut _ 3 _ hentry hrun
  obtain rfl := Except.ok.inj (hvisit.symm.trans hs)
  -- all four functions are visited, so whatever one of them calls is
  have hall : ∀ g, shortcut.index.contains g = true → g ∈
      [Symbol.function "m" "A", .function "m" "B", .function "m" "C", .function "m" "D"] := by
    intro g hg
    have hkeys : shortcut.index.keys
        = [Symbol.function "m" "A", .function "m" "B", .function "m" "C", .function "m" "D"] := by
      decide
    exact hkeys ▸ Index.contains_iff_mem_keys.mp hg
  refine ⟨hentry, _, hrun, fun n g hn hpath => ?_⟩
  have hmem := (hiff left hleft).mpr (fun f _ _ _ g _ hg => hall g hg) n g hn hpath
  exact hmem.2 fun hc => absurd hc.1 (by decide)

/-- **A function within the budget can be missed.** `D` is two hops from `A`, but `C` is reached through `B`
    first, when no hop is left. -/
theorem shortcut_missed :
    ∃ s, shortcut.visit true 2 (Symbol.function "m" "A").canonical {} = .ok s ∧
      shortcut.run (.function "m" "A") 2 = .ok s.collected ∧
      shortcut.index.Hops (Symbol.function "m" "A").canonical 2 (.function "m" "D") ∧
      Symbol.function "m" "D" ∉ s.visited := by
  have hvisit : shortcut.visit true 2 (Symbol.function "m" "A").canonical {}
      = .ok ⟨[.function "m" "A", .function "m" "B", .function "m" "C"],
          [⟨"m", "m", "\nfunc A()\n\nfunc B()\n\nfunc C()\n"⟩]⟩ := by decide +kernel
  have hA : shortcut.index.Hops (Symbol.function "m" "A").canonical 0 (.function "m" "A") :=
    .here (by decide)
  have hC : shortcut.index.Hops (Symbol.function "m" "A").canonical 1 (.function "m" "C") :=
    .call hA (by decide) (by decide)
  have hD : shortcut.index.Hops (Symbol.function "m" "A").canonical 2 (.function "m" "D") :=
    .call hC (by decide) (by decide)
  exact ⟨_, hvisit, by decide +kernel, hD, by decide⟩

/-! ## Budgets as large as the index -/

/-- **With a budget as large as the index a walk visits exactly what can be reached, and a larger one
    changes nothing.** -/
theorem run_exact_of_large_budget (w : Walk) (entry : Symbol)
    (hentry : w.index.contains entry.canonical = true) :
    (∀ budget c, w.index.size ≤ budget + 1 → w.run entry budget = .ok c →
      ∃ s, w.visit true budget entry.canonical {} = .ok s ∧ s.collected = c ∧
        ∀ g, g ∈ s.visited ↔ ∃ n, w.index.Hops entry.canonical n g) ∧
    ∀ b₁ b₂, w.index.size ≤ b₁ + 1 → w.index.size ≤ b₂ + 1 → w.run entry b₁ = w.run entry b₂ := by
  constructor
  · intro budget c hsize h
    obtain ⟨_, _, _, hvisit⟩ := exists_of_run h
    refine ⟨_, hvisit, rfl, fun g => ⟨?_, ?_⟩⟩
    · intro hg
      obtain ⟨n, -, hpath⟩ := Index.hops_of_mem_log hentry hg
      exact ⟨n, hpath⟩
    · rintro ⟨n, hpath⟩
      exact Index.mem_log_of_hops hentry hsize hpath
  · intro b₁ b₂ h₁ h₂
    have hkeys := Index.keys_log_eq h₁ h₂ entry.canonical
    rw [run_eq, run_eq, (Index.log_valid b₁ _).reached_eq (Index.log_valid b₂ _) hkeys]

theorem run_exact_shortcut :
    shortcut.index.contains (Symbol.function "m" "A").canonical = true ∧
    shortcut.index.size ≤ 3 + 1 ∧
    (∃ s, shortcut.visit true 3 (Symbol.function "m" "A").canonical {} = .ok s ∧
      s.collected = [⟨"m", "m", "\nfunc A()\n\nfunc B()\n\nfunc C()\n\nfunc D()\n"⟩] ∧
      ∀ g, g ∈ s.visited ↔ ∃ n, shortcut.index.Hops (Symbol.function "m" "A").canonical n g) ∧
    shortcut.run (.function "m" "A") 3 = shortcut.run (.function "m" "A") 1000 := by
  have hentry : shortcut.index.contains (Symbol.function "m" "A").canonical = true := by decide
  have hsize : shortcut.index.size = 4 := by decide
  have hrun : shortcut.run (.function "m" "A") 3
      = .ok [⟨"m", "m", "\nfunc A()\n\nfunc B()\n\nfunc C()\n\nfunc D()\n"⟩] := by decide +kernel
  obtain ⟨hexact, hsame⟩ := run_exact_of_large_budget shortcut (.function "m" "A") hentry
  exact ⟨hentry, by omega, hexact 3 _ (by omega) hrun, hsame 3 1000 (by omega) (by omega)⟩

end Walk
end GoExcerpt
