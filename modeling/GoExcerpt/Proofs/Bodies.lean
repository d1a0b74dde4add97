import GoExcerpt.Proofs.WalkTrace

/-!
# `Proofs.Bodies` — other bodies, the same walk

A walk takes from a function its identity, its text, the label of its package, and the way its calls lead.
Where the functions of an index are rewritten and all of that stays (`Index.Rewritten`), every walk gives
what it gave before (`Rewritten.run_eq`). That the calls lead the same way is asked for one body at a time,
from any point of a trace; the bodies of a whole index then change together (`Rewritten.trace_map`).
-/

namespace GoExcerpt

/-- The stop at a function after it has been rewritten. -/
def Stop.rewritten (f : Indexed → Indexed) (s : Stop) : Stop := ⟨f s.reached, s.left⟩

namespace Index

variable {i j : Index} {f : Indexed → Indexed} {b : Nat} {key : Symbol}

/-! ## One visit after another -/

/-- A trace is the visit of its first function followed by that of the others. -/
theorem trace_cons (b : Nat) (key : Symbol) (rest : List Symbol) (log : Log) :
    i.trace b (key :: rest) log = i.trace b rest (i.trace b [key] log) := by
  by_cases hseen : key ∈ Log.keys log
  · rw [trace_seen hseen, trace_seen hseen, trace_nil]
  · cases he : i.get? key with
    | none => rw [trace_absent he, trace_absent he, trace_nil]
    | some e =>
        cases b with
        | zero => rw [trace_spent hseen he, trace_spent hseen he, trace_nil]
        | succ hops => rw [trace_expanded hseen he, trace_expanded hseen he, trace_nil]

/-- A function that has been reached, or is not indexed, is passed over. -/
theorem trace_passed {rest : List Symbol} {log : Log}
    (h : i.contains key = true → key ∈ Log.keys log) :
    i.trace b (key :: rest) log = i.trace b rest log := by
  cases he : i.get? key with
  | none => exact trace_absent he
  | some e => exact trace_seen (h (contains_of_get? he))

/-- An indexed function has been reached once it was visited. -/
theorem mem_keys_trace_singleton (b : Nat) (log : Log) (h : i.contains key = true) :
    key ∈ Log.keys (i.trace b [key] log) :=
  (trace_continues b [key] log).2 key (List.mem_singleton_self key) h

/-! ## Rewritten functions -/

/-- Rewriting functions where they stand leaves the same identities in the index. -/
theorem contains_of_found (h : ∀ key, j.get? key = (i.get? key).map f) (key : Symbol) :
    j.contains key = i.contains key := by
  unfold contains
  rw [h, Option.isSome_map]

/-- **The functions of `i`, rewritten by `f`, are those of `j`,** and a walk cannot tell: identities, texts
    and labels are the same, and the calls of a body lead every trace to the same end. -/
structure Rewritten (i j : Index) (f : Indexed → Indexed) : Prop where
  found : ∀ key, j.get? key = (i.get? key).map f
  key : ∀ e, (f e).key = e.key
  unitPath : ∀ e, (f e).unitPath = e.unitPath
  ranges : ∀ e, (f e).declaration.ranges = e.declaration.ranges
  label : ∀ e, (f e).package.label = e.package.label
  trace : ∀ e b log, j.trace b (f e).targets log = j.trace b e.targets log

namespace Rewritten

variable (h : Rewritten i j f)
include h

theorem keys_map (log : Log) : Log.keys (log.map (Stop.rewritten f)) = Log.keys log := by
  unfold Log.keys
  rw [List.map_map]
  apply List.map_congr_left
  intro s _
  exact h.key s.reached

/-- **The stops of a trace are at the rewritten functions.** -/
theorem trace_map (b : Nat) (ks : List Symbol) (log : Log) :
    j.trace b ks (log.map (Stop.rewritten f)) = (i.trace b ks log).map (Stop.rewritten f) := by
  -- the induction is on the trace of `i`; `j` passes over, stops and goes deeper where `i` does
  induction b, ks, log using trace_induction (i := i) with
  | nil b log => rw [trace_nil, trace_nil]
  | seen b key rest log hseen ih => rw [trace_seen hseen, ← ih, trace_seen (by rwa [h.keys_map])]
  | absent b key rest log hnone ih =>
      have hnone' : j.get? key = none := by rw [h.found, hnone]; rfl
      rw [trace_absent hnone, ← ih, trace_absent hnone']
  | spent key rest log e hnew he ih =>
      have he' : j.get? key = some (f e) := by rw [h.found, he]; rfl
      rw [trace_spent hnew he, ← ih, trace_spent (by rwa [h.keys_map]) he', List.map_append]
      rfl
  | expanded hops key rest log e hnew he ihin ihout =>
      have he' : j.get? key = some (f e) := by rw [h.found, he]; rfl
      rw [trace_expanded hnew he, ← ihout, ← ihin, trace_expanded (by rwa [h.keys_map]) he', h.trace,
        List.map_append]
      rfl

theorem log_eq (budget : Nat) (entry : Symbol) :
    j.log budget entry = (i.log budget entry).map (Stop.rewritten f) :=
  h.trace_map budget [entry] []

end Rewritten
end Index

/-! ## Notes on rewritten functions -/

/-- A note counts with the label of its package. -/
theorem Collected.note_congr (c : Collected) {p q : Package} (h : p.label = q.label)
    (text : Option String) : c.note ⟨p, text⟩ = c.note ⟨q, text⟩ := by
  obtain ⟨hpath, hname⟩ := Prod.mk.inj h
  have hmention : c.mention p = c.mention q := by
    unfold mention
    rw [hpath, hname]
  cases text with
  | none => exact hmention
  | some text =>
      show c.add p text = c.add q text
      unfold add
      rw [hmention, hpath]

/-- A first note and those after it are replayed one after the other. -/
theorem Collected.map_foldl_cons (c : Collected) (n : Note) (rest : Except Fault (List Note)) :
    (rest.bind fun ns => .ok (n :: ns)).map (·.foldl note c) = rest.map (·.foldl note (c.note n)) := by
  cases rest with
  | error fault => rfl
  | ok ns => rfl

namespace Index.Rewritten

variable {i j : Index} {f : Indexed → Indexed} {files : FileSystem} {excludeRoot : Bool}

/-- The texts of the functions are read from the same lines of the same files. -/
theorem excerpt_eq (h : Rewritten i j f) (e : Indexed) :
    (f e).declaration.excerpt files (f e).unitPath = e.declaration.excerpt files e.unitPath := by
  unfold Declaration.excerpt Declaration.excerptOf
  rw [h.unitPath, h.ranges]

/-- Notes on a function and on what it is rewritten to differ in the value of their package at most. -/
theorem noteOn_cases (h : Rewritten i j f) (files : FileSystem) (excludeRoot isEntry : Bool)
    (e : Indexed) :
    (∃ fault, (⟨files, j, excludeRoot⟩ : Walk).noteOn isEntry (f e) = .error fault ∧
      (⟨files, i, excludeRoot⟩ : Walk).noteOn isEntry e = .error fault) ∨
    ∃ text, (⟨files, j, excludeRoot⟩ : Walk).noteOn isEntry (f e) = .ok ⟨(f e).package, text⟩ ∧
      (⟨files, i, excludeRoot⟩ : Walk).noteOn isEntry e = .ok ⟨e.package, text⟩ := by
  unfold Walk.noteOn
  rw [h.excerpt_eq]
  split
  next => exact .inr ⟨none, rfl, rfl⟩
  next =>
    cases e.declaration.excerpt files e.unitPath with
    | error fault => exact .inl ⟨fault, rfl, rfl⟩
    | ok text => exact .inr ⟨some text, rfl, rfl⟩

/-- Notes on the rewritten functions can be taken where those on the others can, and lead to the same. -/
theorem map_notes (h : Rewritten i j f) (isEntry : Bool) (es : List Indexed) (c : Collected) :
    ((⟨files, j, excludeRoot⟩ : Walk).notes isEntry (es.map f)).map (·.foldl Collected.note c)
      = ((⟨files, i, excludeRoot⟩ : Walk).notes isEntry es).map (·.foldl Collected.note c) := by
  induction es generalizing isEntry c with
  | nil => rfl
  | cons e rest ih =>
      rw [List.map_cons, Walk.notes, Walk.notes]
      rcases h.noteOn_cases files excludeRoot isEntry e with
        ⟨fault, hf, he⟩ | ⟨text, hf, he⟩
      · rw [hf, he]
        rfl
      · rw [hf, he]
        refine (c.map_foldl_cons _ _).trans (.trans ?_ (c.map_foldl_cons _ _).symm)
        rw [c.note_congr (h.label e)]
        exact ih false _

/-- **A walk over the rewritten functions gives the same slots with the same texts, or the same fault.** -/
theorem run_eq (h : Rewritten i j f) (files : FileSystem) (excludeRoot : Bool) (entry : Symbol)
    (budget : Nat) :
    Walk.run ⟨files, j, excludeRoot⟩ entry budget = Walk.run ⟨files, i, excludeRoot⟩ entry budget := by
  have hreached : (j.log budget entry.canonical).map Stop.reached
      = ((i.log budget entry.canonical).map Stop.reached).map f := by
    rw [h.log_eq, List.map_map, List.map_map]
    rfl
  rw [Walk.run_eq, Walk.run_eq, hreached]
  exact h.map_notes true _ []

end Index.Rewritten
end GoExcerpt
