import GoExcerpt.Walk
import GoExcerpt.Proofs.Trace
import GoExcerpt.Proofs.Replay

/-!
# `Proofs.WalkTrace` — a walk takes notes along its log

A walk does two things at once: it decides where to go next, and it reads the text of every function it
comes to. This module takes the two apart. `foldlM_visit_eq` says that visits extend the log of the index as
`Index.trace` does, and that what they collect is what `Walk.notes`, the notes on the new stops in order,
leads to; they fail exactly where taking the notes fails, with the same fault. So a whole walk is
`run_eq`: the notes on `Index.log`, replayed.
-/

namespace GoExcerpt

/-! ## Results -/

/-- A sequence of two steps succeeds where both do. -/
theorem bind_eq_ok {ε α β : Type} {x : Except ε α} {f : α → Except ε β} {b : β}
    (h : x >>= f = .ok b) : ∃ a, x = .ok a ∧ f a = .ok b := by
  cases x with
  | error fault => cases h
  | ok a => exact ⟨a, rfl, h⟩

theorem map_eq_ok {ε α β : Type} {x : Except ε α} {f : α → β} {b : β} (h : x.map f = .ok b) :
    ∃ a, x = .ok a ∧ f a = b := by
  cases x with
  | error fault => cases h
  | ok a => exact ⟨a, rfl, Except.ok.inj h⟩

/-! ## Notes of a walk -/

/-- The state after further stops and the notes taken on them. -/
def WalkState.after (s : WalkState) (new : Log) (notes : List Note) : WalkState :=
  ⟨s.visited ++ Log.keys new, notes.foldl Collected.note s.collected⟩

theorem WalkState.after_nil (s : WalkState) : s.after [] [] = s := by
  unfold after
  rw [Log.keys_nil, List.append_nil]
  rfl

theorem WalkState.after_append (s : WalkState) (new more : Log) (notes others : List Note) :
    (s.after new notes).after more others = s.after (new ++ more) (notes ++ others) := by
  unfold after
  rw [Log.keys_append, List.append_assoc, List.foldl_append]

namespace Walk

variable {w : Walk}

/-- The note on a function that is reached: its package, and its text unless it is an excluded entry. -/
def noteOn (w : Walk) (isEntry : Bool) (e : Indexed) : Except Fault Note :=
  if isEntry && w.excludeRoot then .ok ⟨e.package, none⟩
  else (e.declaration.excerpt w.files e.unitPath).map fun text => ⟨e.package, some text⟩

/-- The notes on functions in order, of which only the first can be the entry. -/
def notes (w : Walk) : Bool → List Indexed → Except Fault (List Note)
  | _, [] => .ok []
  | isEntry, e :: rest => do
      let n ← w.noteOn isEntry e
      let ns ← w.notes false rest
      .ok (n :: ns)

theorem notes_append (es fs : List Indexed) :
    w.notes false (es ++ fs)
      = (w.notes false es).bind fun ns => (w.notes false fs).map fun ms => ns ++ ms := by
  induction es with
  | nil =>
      show w.notes false fs = (w.notes false fs).map fun ms => ms
      cases w.notes false fs <;> rfl
  | cons e rest ih =>
      rw [List.cons_append, notes, ih, notes]
      cases w.noteOn false e with
      | error f => rfl
      | ok n =>
          cases w.notes false rest with
          | error f => rfl
          | ok ns =>
              cases w.notes false fs with
              | error f => rfl
              | ok ms => rfl

/-! ## The cases of a visit -/

/-- Collecting a function is taking the note on it. -/
theorem collect_eq (isEntry : Bool) (e : Indexed) (c : Collected) :
    w.collect isEntry e c = (w.noteOn isEntry e).map c.note := by
  unfold collect noteOn
  split
  · rfl
  · cases e.declaration.excerpt w.files e.unitPath with
    | error f => rfl
    | ok text => rfl

theorem visit_seen {isEntry : Bool} {b : Nat} {key : Symbol} {s : WalkState} (h : key ∈ s.visited) :
    w.visit isEntry b key s = .ok s := by
  rw [visit, if_pos (List.contains_iff_mem.mpr h)]

theorem visit_absent {isEntry : Bool} {b : Nat} {key : Symbol} {s : WalkState}
    (h : w.index.get? key = none) : w.visit isEntry b key s = .ok s := by
  rw [visit]
  split
  · rfl
  · rw [h]

theorem visit_spent {isEntry : Bool} {key : Symbol} {s : WalkState} {e : Indexed}
    (hnew : key ∉ s.visited) (he : w.index.get? key = some e) :
    w.visit isEntry 0 key s = (w.noteOn isEntry e).map fun n => s.after [⟨e, 0⟩] [n] := by
  have hkey : e.key = key := Index.key_of_get? he
  rw [visit, if_neg fun hc => hnew (List.contains_iff_mem.mp hc), he]
  simp only [collect_eq]
  cases w.noteOn isEntry e with
  | error f => rfl
  | ok n =>
      subst hkey
      rfl

theorem visit_expanded {isEntry : Bool} {b : Nat} {key : Symbol} {s : WalkState} {e : Indexed}
    (hnew : key ∉ s.visited) (he : w.index.get? key = some e) :
    w.visit isEntry (b + 1) key s
      = ((w.noteOn isEntry e).map fun n => s.after [⟨e, b + 1⟩] [n]).bind fun s =>
          e.targets.foldlM (fun s target => w.visit false b target s) s := by
  have hkey : e.key = key := Index.key_of_get? he
  rw [visit, if_neg fun hc => hnew (List.contains_iff_mem.mp hc), he]
  simp only [collect_eq]
  cases w.noteOn isEntry e with
  | error f => rfl
  | ok n =>
      subst hkey
      rfl

/-! ## Visits along a trace -/

/-- What takes the notes on `more` after a first stop takes the notes on all of them. -/
theorem bind_noteOn {isEntry : Bool} {e : Indexed} {left : Nat} {s : WalkState} {more : Log}
    {next : WalkState → Except Fault WalkState}
    (hnext : ∀ n, next (s.after [⟨e, left⟩] [n])
      = (w.notes false (more.map Stop.reached)).map ((s.after [⟨e, left⟩] [n]).after more)) :
    ((w.noteOn isEntry e).map fun n => s.after [⟨e, left⟩] [n]).bind next
      = (w.notes isEntry (e :: more.map Stop.reached)).map (s.after (⟨e, left⟩ :: more)) := by
  rw [notes]
  cases w.noteOn isEntry e with
  | error f => rfl
  | ok n =>
      show next (s.after [⟨e, left⟩] [n]) = _
      rw [hnext n]
      cases w.notes false (more.map Stop.reached) with
      | error f => rfl
      | ok ns => exact congrArg Except.ok (WalkState.after_append s [⟨e, left⟩] more [n] ns)

theorem bind_notes {s : WalkState} {new more : Log} {next : WalkState → Except Fault WalkState}
    (hnext : ∀ ns, next (s.after new ns)
      = (w.notes false (more.map Stop.reached)).map ((s.after new ns).after more)) :
    ((w.notes false (new.map Stop.reached)).map (s.after new)).bind next
      = (w.notes false ((new ++ more).map Stop.reached)).map (s.after (new ++ more)) := by
  rw [List.map_append, notes_append]
  cases w.notes false (new.map Stop.reached) with
  | error f => rfl
  | ok ns =>
      show next (s.after new ns) = _
      rw [hnext ns]
      cases w.notes false (more.map Stop.reached) with
      | error f => rfl
      | ok ms => exact congrArg Except.ok (WalkState.after_append s new more ns ms)

/-- **Visits one after the other extend the log as a trace does, and take the notes on what is new.**
    The induction is along the trace; the state has to agree with the log on what has been visited. -/
theorem foldlM_visit_eq (b : Nat) (ks : List Symbol) (log : Log) :
    ∃ new, w.index.trace b ks log = log ++ new ∧ ∀ s : WalkState, s.visited = Log.keys log →
      ks.foldlM (fun s key => w.visit false b key s) s
        = (w.notes false (new.map Stop.reached)).map (s.after new) := by
  induction b, ks, log using Index.trace_induction (i := w.index) with
  | nil b log =>
      refine ⟨[], by rw [Index.trace_nil, List.append_nil], fun s _ => ?_⟩
      show Except.ok s = Except.ok (s.after [] [])
      rw [WalkState.after_nil]
  | seen b key rest log hseen ih =>
      obtain ⟨new, htrace, hfold⟩ := ih
      refine ⟨new, by rw [Index.trace_seen hseen, htrace], fun s hs => ?_⟩
      rw [List.foldlM_cons, visit_seen (hs ▸ hseen)]
      exact hfold s hs
  | absent b key rest log hnone ih =>
      obtain ⟨new, htrace, hfold⟩ := ih
      refine ⟨new, by rw [Index.trace_absent hnone, htrace], fun s hs => ?_⟩
      rw [List.foldlM_cons, visit_absent hnone]
      exact hfold s hs
  | spent key rest log e hnew he ih =>
      obtain ⟨new, htrace, hfold⟩ := ih
      refine ⟨⟨e, 0⟩ :: new, ?_, fun s hs => ?_⟩
      · rw [Index.trace_spent hnew he, htrace, List.append_assoc]
        rfl
      rw [List.foldlM_cons, visit_spent (hs ▸ hnew) he]
      refine bind_noteOn fun n => hfold _ ?_
      rw [Log.keys_append, ← hs]
      rfl
  | expanded hops key rest log e hnew he ihin ihout =>
      obtain ⟨deep, hdeep, hfoldin⟩ := ihin
      obtain ⟨new, htrace, hfoldout⟩ := ihout
      refine ⟨⟨e, hops + 1⟩ :: deep ++ new, ?_, fun s hs => ?_⟩
      · rw [Index.trace_expanded hnew he, htrace, hdeep]
        simp only [List.append_assoc, List.cons_append, List.nil_append]
      -- one visit takes the notes on the stop and on what its targets lead to
      have hstep : w.visit false (hops + 1) key s
          = (w.notes false ((⟨e, hops + 1⟩ :: deep).map Stop.reached)).map
              (s.after (⟨e, hops + 1⟩ :: deep)) := by
        rw [visit_expanded (hs ▸ hnew) he]
        refine bind_noteOn fun n => hfoldin _ ?_
        rw [Log.keys_append, ← hs]
        rfl
      rw [List.foldlM_cons, hstep]
      refine bind_notes fun ns => hfoldout _ ?_
      rw [hdeep, List.append_assoc, Log.keys_append, ← hs]
      rfl

/-! ## Whole walks -/

/-- **The visit of an entry takes the notes on the log of the walk.** -/
theorem visit_entry_eq (entry : Symbol) (budget : Nat) :
    w.visit true budget entry {}
      = (w.notes true ((w.index.log budget entry).map Stop.reached)).map fun notes =>
          ⟨Log.keys (w.index.log budget entry), Collected.replay notes⟩ := by
  cases he : w.index.get? entry with
  | none =>
      rw [visit_absent he, Index.log_of_absent budget he]
      rfl
  | some e =>
      cases budget with
      | zero =>
          rw [visit_spent (by simp) he, Index.log_zero he, List.map_singleton, notes]
          cases w.noteOn true e with
          | error f => rfl
          | ok n => rfl
      | succ b =>
          -- only the first note can be the entry's: from here on no visit is one of an entry
          obtain ⟨new, htrace, hfold⟩ := foldlM_visit_eq (w := w) b e.targets [⟨e, b + 1⟩]
          rw [visit_expanded (by simp) he, Index.log_succ he, htrace]
          exact bind_noteOn fun n => hfold _ rfl

/-- **A walk is the notes on its log, replayed.** -/
theorem run_eq (entry : Symbol) (budget : Nat) :
    w.run entry budget
      = (w.notes true ((w.index.log budget entry.canonical).map Stop.reached)).map
          Collected.replay := by
  unfold run
  rw [visit_entry_eq]
  cases w.notes true ((w.index.log budget entry.canonical).map Stop.reached) with
  | error f => rfl
  | ok ns => rfl

/-- A walk that succeeds has visited the functions of its log, and its notes can all be taken. -/
theorem exists_of_run {entry : Symbol} {budget : Nat} {c : Collected}
    (h : w.run entry budget = .ok c) :
    ∃ notes, w.notes true ((w.index.log budget entry.canonical).map Stop.reached) = .ok notes ∧
      c = Collected.replay notes ∧
      w.visit true budget entry.canonical {}
        = .ok ⟨Log.keys (w.index.log budget entry.canonical), c⟩ := by
  rw [run_eq] at h
  obtain ⟨notes, hnotes, rfl⟩ := map_eq_ok h
  refine ⟨notes, hnotes, rfl, ?_⟩
  rw [visit_entry_eq, hnotes]
  rfl

end Walk
end GoExcerpt
