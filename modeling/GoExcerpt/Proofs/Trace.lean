import GoExcerpt.Proofs.CallGraph

/-!
# `Proofs.Trace` — where a walk goes

Which functions a walk reaches, and in which order, depends on the index alone; the text of the files only
decides whether it gets to the end. `Index.trace` is that order: the same depth-first recursion on logs of
*stops*, functions with the hops that were left when they were reached.

* `trace_valid` — a log holds functions of the index, none twice;
* `trace_paid` — every stop but the first has a caller earlier in the log with one more hop left;
* `trace_continues` — a stop with a hop left has all its indexed targets in the log;
* `keys_trace_eq_of_le` — budgets that cannot run out before the index does give the same functions.

Each is one induction along `trace`: nothing left to visit, a function already in the log, one that is
not indexed, one reached with no hop left, and one that is expanded.
-/

namespace GoExcerpt

/-- A function that was reached, and the hops that were left there. -/
structure Stop where
  reached : Indexed
  left : Nat

/-- The identity of the function of a stop. -/
def Stop.key (s : Stop) : Symbol := s.reached.key

/-- Stops in the order in which they were made. -/
abbrev Log := List Stop

namespace Log

/-- The identities of the functions reached. -/
def keys (log : Log) : List Symbol := log.map Stop.key

@[simp] theorem keys_nil : keys [] = [] := rfl

@[simp] theorem keys_cons (s : Stop) (log : Log) : keys (s :: log) = s.key :: keys log := rfl

@[simp] theorem keys_append (log new : Log) : keys (log ++ new) = keys log ++ keys new :=
  List.map_append

@[simp] theorem length_keys (log : Log) : (keys log).length = log.length := List.length_map _

theorem mem_keys {log : Log} {key : Symbol} : key ∈ keys log ↔ ∃ s ∈ log, s.key = key := List.mem_map

theorem key_mem_keys {log : Log} {s : Stop} (h : s ∈ log) : s.key ∈ keys log := mem_keys.mpr ⟨s, h, rfl⟩

end Log

namespace Index

variable {i : Index}

/-- Visits functions one after the other with a budget of hops, adding a stop for each one reached. -/
def trace (i : Index) : Nat → List Symbol → Log → Log
  | _, [], log => log
  | budget, key :: rest, log =>
      if key ∈ Log.keys log then i.trace budget rest log
      else
        match i.get? key with
        | none => i.trace budget rest log
        | some e =>
            match budget with
            | 0 => i.trace 0 rest (log ++ [⟨e, 0⟩])
            | hops + 1 =>
                i.trace (hops + 1) rest (i.trace hops e.targets (log ++ [⟨e, hops + 1⟩]))
termination_by budget keys => (budget, keys.length)

/-! ## The cases of a visit -/

theorem trace_nil (b : Nat) (log : Log) : i.trace b [] log = log := by
  rw [trace]

theorem trace_seen {b : Nat} {key : Symbol} {rest : List Symbol} {log : Log}
    (h : key ∈ Log.keys log) : i.trace b (key :: rest) log = i.trace b rest log := by
  rw [trace, if_pos h]

theorem trace_absent {b : Nat} {key : Symbol} {rest : List Symbol} {log : Log}
    (h : i.get? key = none) : i.trace b (key :: rest) log = i.trace b rest log := by
  rw [trace]
  split
  · rfl
  · rw [h]

theorem trace_spent {key : Symbol} {rest : List Symbol} {log : Log} {e : Indexed}
    (hnew : key ∉ Log.keys log) (h : i.get? key = some e) :
    i.trace 0 (key :: rest) log = i.trace 0 rest (log ++ [⟨e, 0⟩]) := by
  rw [trace, if_neg hnew, h]

theorem trace_expanded {b : Nat} {key : Symbol} {rest : List Symbol} {log : Log} {e : Indexed}
    (hnew : key ∉ Log.keys log) (h : i.get? key = some e) :
    i.trace (b + 1) (key :: rest) log
      = i.trace (b + 1) rest (i.trace b e.targets (log ++ [⟨e, b + 1⟩])) := by
  rw [trace, if_neg hnew, h]

/-- Induction along a trace, with its cases named. -/
theorem trace_induction {motive : Nat → List Symbol → Log → Prop}
    (nil : ∀ b log, motive b [] log)
    (seen : ∀ b key rest log, key ∈ Log.keys log → motive b rest log → motive b (key :: rest) log)
    (absent : ∀ b key rest log, i.get? key = none → motive b rest log → motive b (key :: rest) log)
    (spent : ∀ key rest log e, key ∉ Log.keys log → i.get? key = some e →
      motive 0 rest (log ++ [⟨e, 0⟩]) → motive 0 (key :: rest) log)
    (expanded : ∀ b key rest log e, key ∉ Log.keys log → i.get? key = some e →
      motive b e.targets (log ++ [⟨e, b + 1⟩]) →
      motive (b + 1) rest (i.trace b e.targets (log ++ [⟨e, b + 1⟩])) →
      motive (b + 1) (key :: rest) log)
    (b : Nat) (ks : List Symbol) (log : Log) : motive b ks log := by
  fun_induction trace i b ks log with
  | case1 b log => exact nil b log
  | case2 b key rest log hseen ih => exact seen b key rest log hseen ih
  | case3 b key rest log _ hnone ih => exact absent b key rest log hnone ih
  | case4 key rest log hnew e he ih => exact spent key rest log e hnew he ih
  | case5 key rest log hnew e he b ihin ihout => exact expanded b key rest log e hnew he ihin ihout

/-- A trace adds to the end of a log. -/
theorem prefix_trace (b : Nat) (ks : List Symbol) (log : Log) : log <+: i.trace b ks log := by
  induction b, ks, log using trace_induction (i := i) with
  | nil b log =>
      exact ⟨[], by rw [trace_nil, List.append_nil]⟩
  | seen b key rest log hseen ih =>
      rw [trace_seen hseen]
      exact ih
  | absent b key rest log hnone ih =>
      rw [trace_absent hnone]
      exact ih
  | spent key rest log e hnew he ih =>
      rw [trace_spent hnew he]
      exact (List.prefix_append _ _).trans ih
  | expanded b key rest log e hnew he ihin ihout =>
      rw [trace_expanded hnew he]
      exact ((List.prefix_append _ _).trans ihin).trans ihout

theorem keys_subset_trace (b : Nat) (ks : List Symbol) (log : Log) :
    Log.keys log ⊆ Log.keys (i.trace b ks log) :=
  List.map_subset _ (prefix_trace b ks log).subset

theorem length_le_trace (b : Nat) (ks : List Symbol) (log : Log) :
    log.length ≤ (i.trace b ks log).length :=
  (prefix_trace b ks log).length_le

/-! ## Functions of the index, none twice -/

/-- The stops are what the index has under their keys, and no key occurs twice. -/
structure Valid (i : Index) (log : Log) : Prop where
  indexed : ∀ s ∈ log, i.get? s.key = some s.reached
  nodup : (Log.keys log).Nodup

theorem Valid.nil : i.Valid [] := ⟨fun _ hs => by simp at hs, List.nodup_nil⟩

/-- A function that is found under a new key may be added. -/
theorem Valid.snoc {log : Log} {key : Symbol} {e : Indexed} (h : i.Valid log)
    (hnew : key ∉ Log.keys log) (he : i.get? key = some e) (left : Nat) :
    i.Valid (log ++ [⟨e, left⟩]) := by
  constructor
  · intro s hs
    rcases List.mem_append.mp hs with hs | hs
    · exact h.indexed s hs
    · rw [List.mem_singleton.mp hs]
      exact get?_key he
  · rw [Log.keys_append]
    refine List.nodup_append.mpr ⟨h.nodup, by simp, ?_⟩
    intro a ha b hb hab
    have hb' : b = key := by rw [List.mem_singleton.mp hb]; exact key_of_get? he
    exact hnew (hb' ▸ hab ▸ ha)

theorem trace_valid {b : Nat} {ks : List Symbol} {log : Log} (h : i.Valid log) :
    i.Valid (i.trace b ks log) := by
  induction b, ks, log using trace_induction (i := i) with
  | nil b log =>
      rw [trace_nil]
      exact h
  | seen b key rest log hseen ih =>
      rw [trace_seen hseen]
      exact ih h
  | absent b key rest log hnone ih =>
      rw [trace_absent hnone]
      exact ih h
  | spent key rest log e hnew he ih =>
      rw [trace_spent hnew he]
      exact ih (h.snoc hnew he 0)
  | expanded b key rest log e hnew he ihin ihout =>
      rw [trace_expanded hnew he]
      exact ihout (ihin (h.snoc hnew he (b + 1)))

theorem Valid.contains {log : Log} (h : i.Valid log) {key : Symbol} (hkey : key ∈ Log.keys log) :
    i.contains key = true := by
  obtain ⟨s, hs, rfl⟩ := Log.mem_keys.mp hkey
  exact contains_of_get? (h.indexed s hs)

/-- A log that is as long as the index has all of it. -/
theorem Valid.full {log : Log} (h : i.Valid log) (hlen : i.size ≤ log.length) {key : Symbol}
    (hkey : i.contains key = true) : key ∈ Log.keys log :=
  mem_of_size_le h.nodup (fun _ hk => h.contains hk) (by rw [Log.length_keys]; exact hlen) hkey

/-- The functions of a log are what is found under its keys. -/
theorem Valid.map_get?_keys {log : Log} (h : i.Valid log) :
    (Log.keys log).map i.get? = (log.map Stop.reached).map some := by
  unfold Log.keys
  rw [List.map_map, List.map_map]
  apply List.map_congr_left
  intro s hs
  exact h.indexed s hs

/-- Logs with the same keys are of the same functions. -/
theorem Valid.reached_eq {log₁ log₂ : Log} (h₁ : i.Valid log₁) (h₂ : i.Valid log₂)
    (hkeys : Log.keys log₁ = Log.keys log₂) : log₁.map Stop.reached = log₂.map Stop.reached := by
  have hsome : (log₁.map Stop.reached).map some = (log₂.map Stop.reached).map some := by
    rw [← h₁.map_get?_keys, ← h₂.map_get?_keys, hkeys]
  exact (List.map_inj_right fun _ _ => Option.some.inj).mp hsome

/-! ## Every hop is paid for -/

/-- Logs of a walk from `entry` with `budget` hops: it begins at the entry with all of them, and each
    further stop was called by an earlier one that had one hop more. -/
inductive Paid (i : Index) (entry : Symbol) (budget : Nat) : Log → Prop where
  | start {e : Indexed} (he : i.get? entry = some e) : Paid i entry budget [⟨e, budget⟩]
  | call {log : Log} {f : Stop} {e : Indexed} {left : Nat} (paid : Paid i entry budget log)
      (hf : f ∈ log) (hleft : f.left = left + 1) (hcall : e.key ∈ f.reached.targets)
      (he : i.get? e.key = some e) : Paid i entry budget (log ++ [⟨e, left⟩])

/-- Visiting targets of a stop with one hop less than it had keeps a log paid for. -/
theorem trace_paid {entry : Symbol} {budget b : Nat} {ks : List Symbol} {log : Log} {f : Stop}
    (h : i.Paid entry budget log) (hf : f ∈ log) (hleft : f.left = b + 1)
    (hks : ∀ k ∈ ks, k ∈ f.reached.targets) : i.Paid entry budget (i.trace b ks log) := by
  induction b, ks, log using trace_induction (i := i) generalizing f with
  | nil b log =>
      rw [trace_nil]
      exact h
  | seen b key rest log hseen ih =>
      rw [trace_seen hseen]
      exact ih h hf hleft (List.forall_mem_cons.mp hks).2
  | absent b key rest log hnone ih =>
      rw [trace_absent hnone]
      exact ih h hf hleft (List.forall_mem_cons.mp hks).2
  | spent key rest log e hnew he ih =>
      obtain ⟨hkey, hrest⟩ := List.forall_mem_cons.mp hks
      have hstep : i.Paid entry budget (log ++ [⟨e, 0⟩]) :=
        .call h hf hleft (key_of_get? he ▸ hkey) (get?_key he)
      rw [trace_spent hnew he]
      exact ih hstep (List.mem_append_left _ hf) hleft hrest
  | expanded b key rest log e hnew he ihin ihout =>
      obtain ⟨hkey, hrest⟩ := List.forall_mem_cons.mp hks
      have hstep : i.Paid entry budget (log ++ [⟨e, b + 1⟩]) :=
        .call h hf hleft (key_of_get? he ▸ hkey) (get?_key he)
      -- the targets of the new stop are charged to it, those that remain to `f` as before
      have hdeep : i.Paid entry budget (i.trace b e.targets (log ++ [⟨e, b + 1⟩])) :=
        ihin hstep (List.mem_append_right _ (List.mem_singleton_self _)) rfl fun _ hk => hk
      have hf' : f ∈ i.trace b e.targets (log ++ [⟨e, b + 1⟩]) :=
        (prefix_trace _ _ _).subset (List.mem_append_left _ hf)
      rw [trace_expanded hnew he]
      exact ihout hdeep hf' hleft hrest

namespace Paid

variable {entry : Symbol} {budget : Nat} {log : Log}

theorem head (h : i.Paid entry budget log) :
    ∃ e rest, i.get? entry = some e ∧ log = ⟨e, budget⟩ :: rest := by
  induction h with
  | @start e he => exact ⟨e, [], he, rfl⟩
  | @call log f e left _ _ _ _ _ ih =>
      obtain ⟨e₀, rest, he₀, rfl⟩ := ih
      exact ⟨e₀, rest ++ [⟨e, left⟩], he₀, rfl⟩

/-- A property that the entry has, that later stops do not take away, and that passes from a stop to the
    functions it calls, is a property of all stops. -/
theorem induction_mem {P : Log → Stop → Prop} (h : i.Paid entry budget log)
    (start : ∀ e, i.get? entry = some e → P [⟨e, budget⟩] ⟨e, budget⟩)
    (keep : ∀ log s new, P log s → P (log ++ [new]) s)
    (call : ∀ log f e left, i.Paid entry budget log → f ∈ log → P log f → f.left = left + 1 →
      e.key ∈ f.reached.targets → i.get? e.key = some e → P (log ++ [⟨e, left⟩]) ⟨e, left⟩)
    {g : Stop} (hg : g ∈ log) : P log g := by
  induction h generalizing g with
  | @start e he =>
      rw [List.mem_singleton.mp hg]
      exact start e he
  | @call log f e left paid hf hleft hcall he ih =>
      rcases List.mem_append.mp hg with hg | hg
      · exact keep log g _ (ih hg)
      · rw [List.mem_singleton.mp hg]
        exact call log f e left paid hf (ih hf) hleft hcall he

theorem indexed (h : i.Paid entry budget log) {g : Stop} (hg : g ∈ log) :
    i.get? g.key = some g.reached := by
  refine h.induction_mem (P := fun _ g => i.get? g.key = some g.reached) ?_ ?_ ?_ hg
  · intro e he
    exact get?_key he
  · intro _ _ _ hs
    exact hs
  · intro _ _ _ _ _ _ _ _ _ he
    exact he

/-- A stop that is not the entry has its caller before it. -/
theorem caller (h : i.Paid entry budget log) {g : Stop} (hg : g ∈ log) :
    g.key = entry ∨
      ∃ f, [f, g].Sublist log ∧ g.key ∈ f.reached.targets ∧ f.left = g.left + 1 := by
  refine h.induction_mem (P := fun log g => g.key = entry ∨
    ∃ f, [f, g].Sublist log ∧ g.key ∈ f.reached.targets ∧ f.left = g.left + 1) ?_ ?_ ?_ hg
  · intro e he
    exact Or.inl (key_of_get? he)
  · rintro log s new (hentry | ⟨f, hsub, hf⟩)
    · exact Or.inl hentry
    · exact Or.inr ⟨f, hsub.trans (List.sublist_append_left _ _), hf⟩
  · intro log f e left _ hf _ hleft hcall _
    have hsub : [f, ⟨e, left⟩].Sublist (log ++ [⟨e, left⟩]) :=
      (List.singleton_sublist.mpr hf).append (List.Sublist.refl _)
    exact Or.inr ⟨f, hsub, hcall, hleft⟩

/-- The hops that a stop lacks are the length of a path to it. -/
theorem hops (h : i.Paid entry budget log) {g : Stop} (hg : g ∈ log) :
    ∃ n, n + g.left = budget ∧ i.Hops entry n g.key := by
  refine h.induction_mem (P := fun _ g => ∃ n, n + g.left = budget ∧ i.Hops entry n g.key)
    ?_ ?_ ?_ hg
  · intro e he
    refine ⟨0, Nat.zero_add _, ?_⟩
    show i.Hops entry 0 e.key
    rw [key_of_get? he]
    exact .here (contains_of_get? he)
  · intro _ _ _ hs
    exact hs
  · rintro log f e left paid hf ⟨n, hn, hpath⟩ hleft hcall he
    have hcalls : i.Calls f.key e.key := (calls_iff_of_get? (paid.indexed hf)).mpr hcall
    refine ⟨n + 1, ?_, .call hpath hcalls (contains_of_get? he)⟩
    show n + 1 + left = budget
    omega

/-- A stop that lacks many hops stands in a long log: the callers that lead to it are all in it. -/
theorem budget_lt (h : i.Paid entry budget log) {g : Stop} (hg : g ∈ log) :
    budget < g.left + log.length := by
  refine h.induction_mem (P := fun log g => budget < g.left + log.length) ?_ ?_ ?_ hg
  · intro e _
    exact Nat.lt_succ_self budget
  · intro log s new hs
    rw [List.length_append, List.length_singleton]
    omega
  · intro log f e left _ _ hlt hleft _ _
    show budget < left + (log ++ [_]).length
    rw [List.length_append, List.length_singleton]
    omega

end Paid

/-! ## A stop with a hop left is expanded -/

/-- `log'` continues `log`, and whatever it adds with a hop left has all its indexed targets in it. -/
def Continues (i : Index) (log log' : Log) : Prop :=
  ∃ new, log' = log ++ new ∧
    ∀ s ∈ new, 0 < s.left → ∀ t ∈ s.reached.targets, i.contains t = true → t ∈ Log.keys log'

theorem Continues.refl (log : Log) : i.Continues log log :=
  ⟨[], (List.append_nil log).symm, fun _ hs => by simp at hs⟩

theorem Continues.trans {log₁ log₂ log₃ : Log} (h₁ : i.Continues log₁ log₂)
    (h₂ : i.Continues log₂ log₃) : i.Continues log₁ log₃ := by
  obtain ⟨new₁, rfl, hc₁⟩ := h₁
  obtain ⟨new₂, rfl, hc₂⟩ := h₂
  refine ⟨new₁ ++ new₂, List.append_assoc _ _ _, ?_⟩
  intro s hs hleft t ht hin
  rcases List.mem_append.mp hs with hs | hs
  · have hmem := hc₁ s hs hleft t ht hin
    rw [Log.keys_append]
    exact List.mem_append_left _ hmem
  · exact hc₂ s hs hleft t ht hin

/-- A stop may be added once its targets are in what follows, if it has a hop left at all. -/
theorem Continues.of_snoc {log log' : Log} {s : Stop} (h : i.Continues (log ++ [s]) log')
    (hs : 0 < s.left → ∀ t ∈ s.reached.targets, i.contains t = true → t ∈ Log.keys log') :
    i.Continues log log' := by
  obtain ⟨new, rfl, hc⟩ := h
  refine ⟨s :: new, by rw [List.append_assoc]; rfl, ?_⟩
  intro s' hs'
  rcases List.mem_cons.mp hs' with rfl | hs'
  · exact hs
  · exact hc s' hs'

/-- **What a trace adds is expanded, and what it was asked to visit is there if it is indexed.** -/
theorem trace_continues (b : Nat) (ks : List Symbol) (log : Log) :
    i.Continues log (i.trace b ks log) ∧
      ∀ k ∈ ks, i.contains k = true → k ∈ Log.keys (i.trace b ks log) := by
  induction b, ks, log using trace_induction (i := i) with
  | nil b log =>
      rw [trace_nil]
      exact ⟨.refl log, fun k hk => by simp at hk⟩
  | seen b key rest log hseen ih =>
      rw [trace_seen hseen]
      exact ⟨ih.1, List.forall_mem_cons.mpr ⟨fun _ => keys_subset_trace _ _ _ hseen, ih.2⟩⟩
  | absent b key rest log hnone ih =>
      have hout : i.contains key = true → key ∈ Log.keys (i.trace b rest log) := by
        intro hin
        obtain ⟨e, he⟩ := exists_of_contains hin
        rw [hnone] at he
        cases he
      rw [trace_absent hnone]
      exact ⟨ih.1, List.forall_mem_cons.mpr ⟨hout, ih.2⟩⟩
  | spent key rest log e hnew he ih =>
      have hkey : key ∈ Log.keys (log ++ [⟨e, 0⟩]) := by simp [Stop.key, key_of_get? he]
      rw [trace_spent hnew he]
      refine ⟨ih.1.of_snoc fun hleft => absurd hleft (Nat.lt_irrefl 0), ?_⟩
      exact List.forall_mem_cons.mpr ⟨fun _ => keys_subset_trace _ _ _ hkey, ih.2⟩
  | expanded b key rest log e hnew he ihin ihout =>
      have hkey : key ∈ Log.keys (log ++ [⟨e, b + 1⟩]) := by simp [Stop.key, key_of_get? he]
      -- the targets of the new stop are what was visited first after it
      have hdeep : i.Continues log (i.trace b e.targets (log ++ [⟨e, b + 1⟩])) :=
        ihin.1.of_snoc fun _ => ihin.2
      rw [trace_expanded hnew he]
      refine ⟨hdeep.trans ihout.1, List.forall_mem_cons.mpr ⟨fun _ => ?_, ihout.2⟩⟩
      exact keys_subset_trace _ _ _ (keys_subset_trace _ _ _ hkey)

/-! ## Budgets that do not run out -/

/-- Where everything indexed has been reached, nothing is added. -/
theorem trace_of_full {log : Log} (hfull : ∀ k, i.contains k = true → k ∈ Log.keys log) (b : Nat)
    (ks : List Symbol) : i.trace b ks log = log := by
  induction ks with
  | nil => exact trace_nil b log
  | cons key rest ih =>
      cases he : i.get? key with
      | none => rw [trace_absent he, ih]
      | some e => rw [trace_seen (hfull key (contains_of_get? he)), ih]

/-- **A budget that lasts for what is not yet reached reaches what any larger one does.** The two logs may
    differ in the hops left, never in the keys. -/
theorem keys_trace_eq_of_le {b b₂ : Nat} {ks : List Symbol} {log log₂ : Log} (hv : i.Valid log)
    (hkeys : Log.keys log = Log.keys log₂) (hle : b ≤ b₂) (hb : i.size ≤ b + log.length + 1) :
    Log.keys (i.trace b ks log) = Log.keys (i.trace b₂ ks log₂) := by
  induction b, ks, log using trace_induction (i := i) generalizing b₂ log₂ with
  | nil b log =>
      rw [trace_nil, trace_nil]
      exact hkeys
  | seen b key rest log hseen ih =>
      rw [trace_seen hseen, trace_seen (hkeys ▸ hseen)]
      exact ih hv hkeys hle hb
  | absent b key rest log hnone ih =>
      rw [trace_absent hnone, trace_absent hnone]
      exact ih hv hkeys hle hb
  | spent key rest log e hnew he ih =>
      -- the last hop is spent on the last function of the index, so nothing is left for either
      have hfull : ∀ k, i.contains k = true → k ∈ Log.keys (log ++ [⟨e, 0⟩]) := by
        intro k hk
        refine (hv.snoc hnew he 0).full ?_ hk
        rw [List.length_append, List.length_singleton]
        omega
      have hsame : ∀ left, Log.keys (log₂ ++ [⟨e, left⟩]) = Log.keys (log ++ [⟨e, 0⟩]) := by
        intro left
        rw [Log.keys_append, Log.keys_append, hkeys]
        rfl
      have hfull₂ : ∀ left k, i.contains k = true → k ∈ Log.keys (log₂ ++ [⟨e, left⟩]) := by
        intro left k hk
        rw [hsame left]
        exact hfull k hk
      rw [trace_spent hnew he, trace_of_full hfull]
      cases b₂ with
      | zero => rw [trace_spent (hkeys ▸ hnew) he, trace_of_full (hfull₂ 0), hsame]
      | succ r =>
          rw [trace_expanded (hkeys ▸ hnew) he, trace_of_full (hfull₂ (r + 1)) r,
            trace_of_full (hfull₂ (r + 1)), hsame]
  | expanded b key rest log e hnew he ihin ihout =>
      -- the hop that is spent is made up for by the function that is reached, here and further down
      obtain ⟨r, rfl⟩ : ∃ r, b₂ = r + 1 := ⟨b₂ - 1, by omega⟩
      have hv' : i.Valid (log ++ [⟨e, b + 1⟩]) := hv.snoc hnew he (b + 1)
      have hlen : (log ++ [Stop.mk e (b + 1)]).length = log.length + 1 := by
        rw [List.length_append, List.length_singleton]
      have hgrow := length_le_trace (i := i) b e.targets (log ++ [Stop.mk e (b + 1)])
      have hdeep : Log.keys (i.trace b e.targets (log ++ [⟨e, b + 1⟩]))
          = Log.keys (i.trace r e.targets (log₂ ++ [⟨e, r + 1⟩])) := by
        refine ihin hv' ?_ (by omega) (by omega)
        rw [Log.keys_append, Log.keys_append, hkeys]
        rfl
      rw [trace_expanded hnew he, trace_expanded (hkeys ▸ hnew) he]
      exact ihout (trace_valid hv') hdeep hle (by omega)

/-! ## The log of a walk -/

/-- The log of a walk from an entry. -/
def log (i : Index) (budget : Nat) (entry : Symbol) : Log := i.trace budget [entry] []

variable {entry : Symbol}

theorem log_valid (budget : Nat) (entry : Symbol) : i.Valid (i.log budget entry) := trace_valid .nil

/-- The log of a walk from an entry that is not indexed is empty. -/
theorem log_of_absent (budget : Nat) (h : i.get? entry = none) : i.log budget entry = [] := by
  unfold log
  rw [trace_absent h, trace_nil]

theorem log_zero {e : Indexed} (h : i.get? entry = some e) : i.log 0 entry = [⟨e, 0⟩] := by
  unfold log
  rw [trace_spent (by simp) h, trace_nil]
  rfl

theorem log_succ {e : Indexed} (h : i.get? entry = some e) (b : Nat) :
    i.log (b + 1) entry = i.trace b e.targets [⟨e, b + 1⟩] := by
  unfold log
  rw [trace_expanded (by simp) h, trace_nil]
  rfl

theorem log_paid (h : i.contains entry = true) (budget : Nat) :
    i.Paid entry budget (i.log budget entry) := by
  obtain ⟨e, he⟩ := exists_of_contains h
  cases budget with
  | zero =>
      rw [log_zero he]
      exact .start he
  | succ b =>
      rw [log_succ he]
      exact trace_paid (.start he) (List.mem_singleton_self _) rfl fun _ hk => hk

/-- The first stop of a walk is at its entry. -/
theorem log_eq_cons {e : Indexed} (he : i.get? entry = some e) (budget : Nat) :
    ∃ stops, i.log budget entry = ⟨e, budget⟩ :: stops := by
  obtain ⟨e', stops, he', hlog⟩ := (log_paid (contains_of_get? he) budget).head
  obtain rfl := Option.some.inj (he.symm.trans he')
  exact ⟨stops, hlog⟩

/-- A function that was reached with a hop left has its indexed targets reached too. -/
theorem log_closed {budget : Nat} {s : Stop} (hs : s ∈ i.log budget entry) (hleft : 0 < s.left)
    {t : Symbol} (ht : t ∈ s.reached.targets) (hin : i.contains t = true) :
    t ∈ Log.keys (i.log budget entry) := by
  obtain ⟨new, hnew, hclosed⟩ := (trace_continues (i := i) budget [entry] []).1
  rw [List.nil_append] at hnew
  unfold log at hs ⊢
  rw [hnew] at hs
  exact hclosed s hs hleft t ht hin

/-- **Budgets for which the index is too small reach the same functions in the same order.** -/
theorem keys_log_eq {b₁ b₂ : Nat} (h₁ : i.size ≤ b₁ + 1) (h₂ : i.size ≤ b₂ + 1) (entry : Symbol) :
    Log.keys (i.log b₁ entry) = Log.keys (i.log b₂ entry) := by
  rcases Nat.le_total b₁ b₂ with hle | hle
  · exact keys_trace_eq_of_le .nil rfl hle h₁
  · exact (keys_trace_eq_of_le .nil rfl hle h₂).symm

end Index
end GoExcerpt
