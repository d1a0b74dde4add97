import GoExcerpt.Document
import GoExcerpt.Proofs.Replay

/-!
# `Proofs.Layout` — a document is blocks with gaps between them

A document is written slot by slot, each slot knowing its number and how many there are. Seen as a whole it
is a list of blocks with a gap between any two: the body of the first slot shown, and header and body of
every later one (`render_eq`). Leaving out the root slot is therefore the same as rendering the slots after
it (`render_excludeRoot`). Written out with all its marks, labels and texts this is `render_laidOut`.
-/

namespace GoExcerpt
namespace Format

variable {f : Format}

/-- What stands between two blocks. -/
def gap : String := "\n\n"

/-- The block of a slot that is not the first one shown. -/
def block (f : Format) (s : Slot) : String := f.header s ++ "\n" ++ f.body s

/-- The blocks of the slots shown: the first without a header. -/
def blocks (f : Format) : Collected → List String
  | [] => []
  | s :: rest => f.body s :: rest.map f.block

/-- The slots that are shown. -/
def shown (f : Format) (c : Collected) : Collected := if f.excludeRoot then c.tail else c

/-- Whether slot number `k` comes after the first one shown. -/
def isLater (f : Format) (k : Nat) : Bool := k > 1 || (k = 1 && !f.excludeRoot)

/-! ## Pieces of slots -/

theorem piece_of_isLater {count k : Nat} (s : Slot) (hk : f.isLater k = true) :
    f.piece count k s = f.block s ++ (if k + 1 < count then gap else "") := by
  have hpos : ¬ (decide (k = 0) && f.excludeRoot) = true := by
    intro hzero
    simp only [Bool.and_eq_true, decide_eq_true_eq] at hzero
    obtain ⟨rfl, -⟩ := hzero
    simp [isLater] at hk
  have hhead : (decide (k > 1) || (decide (k = 1) && !f.excludeRoot)) = true := hk
  rw [piece, if_neg hpos, if_pos hhead]
  rfl

/-- The first slot shown has number zero, or one where the root is left out. -/
theorem piece_of_first {count k : Nat} (s : Slot) (hk : k = if f.excludeRoot then 1 else 0) :
    f.piece count k s = f.body s ++ (if k + 1 < count then gap else "") := by
  subst hk
  unfold piece
  cases f.excludeRoot <;> simp [gap]

theorem isLater_succ {k : Nat} (hk : (if f.excludeRoot then 1 else 0) ≤ k) :
    f.isLater (k + 1) = true := by
  unfold isLater
  cases hx : f.excludeRoot with
  | false =>
      rw [Bool.or_eq_true, Bool.and_eq_true, decide_eq_true_eq, decide_eq_true_eq]
      exact (Nat.eq_zero_or_pos k).elim (fun h => .inr ⟨by omega, rfl⟩) fun h => .inl (by omega)
  | true =>
      rw [hx, if_pos rfl] at hk
      rw [Bool.or_eq_true, decide_eq_true_eq]
      exact .inl (by omega)

/-! ## Runs of pieces -/

/-- What slots add to a document of `count` slots, the first of them having number `k`. -/
def renderFrom (f : Format) (count k : Nat) (c : Collected) : String :=
  String.join ((c.zipIdx k).map fun (s, k) => f.piece count k s)

theorem renderFrom_cons (count k : Nat) (s : Slot) (rest : Collected) :
    f.renderFrom count k (s :: rest) = f.piece count k s ++ f.renderFrom count (k + 1) rest := by
  unfold renderFrom
  rw [List.zipIdx_cons, List.map_cons, String.join_cons]

/-- A piece that is followed by others ends in a gap, the last one does not. -/
theorem renderFrom_cons_eq {count k : Nat} {text : String} {s : Slot} {rest : Collected}
    (hlen : k + (s :: rest).length = count)
    (hs : f.piece count k s = text ++ (if k + 1 < count then gap else ""))
    (hrest : f.renderFrom count (k + 1) rest = gap.intercalate (rest.map f.block)) :
    f.renderFrom count k (s :: rest) = gap.intercalate (text :: rest.map f.block) := by
  rw [renderFrom_cons, hrest, hs]
  rw [List.length_cons] at hlen
  cases rest with
  | nil =>
      rw [List.length_nil] at hlen
      rw [if_neg (by omega), List.map_nil, String.intercalate_nil, String.intercalate_singleton,
        String.append_empty, String.append_empty]
  | cons t ts =>
      rw [List.length_cons] at hlen
      rw [if_pos (by omega), List.map_cons, String.intercalate_cons_cons]

theorem renderFrom_later {count k : Nat} (c : Collected) (hk : (if f.excludeRoot then 1 else 0) < k)
    (hlen : k + c.length = count) :
    f.renderFrom count k c = gap.intercalate (c.map f.block) := by
  induction c generalizing k with
  | nil => rfl
  | cons s rest ih =>
      obtain ⟨j, rfl⟩ : ∃ j, k = j + 1 := ⟨k - 1, by omega⟩
      have hlater : f.isLater (j + 1) = true := isLater_succ (Nat.le_of_lt_succ hk)
      refine renderFrom_cons_eq hlen (piece_of_isLater s hlater) (ih (by omega) ?_)
      rw [List.length_cons] at hlen
      omega

theorem renderFrom_first {count k : Nat} (c : Collected) (hk : k = if f.excludeRoot then 1 else 0)
    (hlen : k + c.length = count) : f.renderFrom count k c = gap.intercalate (f.blocks c) := by
  cases c with
  | nil => rfl
  | cons s rest =>
      refine renderFrom_cons_eq hlen (piece_of_first s hk) (renderFrom_later rest (by omega) ?_)
      rw [List.length_cons] at hlen
      omega

/-! ## Whole documents -/

/-- **A document is the blocks of the slots shown, with gaps between them.** -/
theorem render_eq (f : Format) (c : Collected) : f.render c = gap.intercalate (f.blocks (f.shown c)) := by
  show f.renderFrom c.length 0 c = _
  unfold shown
  cases hx : f.excludeRoot with
  | false => exact renderFrom_first c (by rw [hx]; rfl) (Nat.zero_add _)
  | true =>
      cases c with
      | nil => rfl
      | cons root rest =>
          -- the root slot takes part in the numbering and adds nothing
          have hroot : f.piece (root :: rest).length 0 root = "" := by simp [piece, hx]
          rw [renderFrom_cons, hroot, String.empty_append]
          refine renderFrom_first rest (by rw [hx]; rfl) ?_
          rw [List.length_cons]
          omega

/-- Blocks do not depend on whether the root slot is shown. -/
theorem blocks_excludeRoot (f : Format) (x : Bool) (c : Collected) :
    ({ f with excludeRoot := x } : Format).blocks c = f.blocks c := by
  cases c <;> rfl

/-- **Leaving out the root slot is rendering what comes after it.** -/
theorem render_excludeRoot (f : Format) (root : Slot) (rest : Collected) :
    ({ f with excludeRoot := true } : Format).render (root :: rest)
      = ({ f with excludeRoot := false } : Format).render rest := by
  rw [render_eq, render_eq, blocks_excludeRoot, blocks_excludeRoot]
  rfl

/-- A document with the root slot shown begins with its body; if there is more, a gap and the header of
    the next slot follow. -/
theorem render_cons_cons {f : Format} (hx : f.excludeRoot = false) (root next : Slot)
    (rest : Collected) :
    f.render (root :: next :: rest)
      = f.body root ++ gap ++ f.header next ++ "\n" ++ f.render (next :: rest) := by
  have hshown : ∀ c, f.shown c = c := fun c => by
    unfold shown
    rw [hx]
    rfl
  rw [render_eq, render_eq, hshown, hshown]
  show gap.intercalate (f.body root :: (f.header next ++ "\n" ++ f.body next) :: rest.map f.block)
    = f.body root ++ gap ++ f.header next ++ "\n"
      ++ gap.intercalate (f.body next :: rest.map f.block)
  rw [String.intercalate_cons_cons, String.intercalate_cons_append]
  simp only [String.append_assoc]

theorem render_singleton {f : Format} (hx : f.excludeRoot = false) (root : Slot) :
    f.render [root] = f.body root := by
  rw [render_eq]
  unfold shown
  rw [hx]
  exact String.intercalate_singleton

/-! ## Blocks by number -/

/-- The block of slot number `k` among those shown. -/
def numbered (f : Format) (s : Slot) (k : Nat) : String :=
  (if k = 0 then "" else f.header s ++ "\n") ++ f.body s

theorem numbered_zero (f : Format) (s : Slot) : f.numbered s 0 = f.body s := by
  rw [numbered, if_pos rfl, String.empty_append]

theorem numbered_succ (f : Format) (s : Slot) (k : Nat) : f.numbered s (k + 1) = f.block s := by
  rw [numbered, if_neg (Nat.succ_ne_zero k), block]

theorem map_block_eq (f : Format) (c : Collected) (k : Nat) :
    c.map f.block = (c.zipIdx (k + 1)).map fun (s, k) => f.numbered s k := by
  induction c generalizing k with
  | nil => rfl
  | cons s rest ih =>
      rw [List.map_cons, List.zipIdx_cons, List.map_cons, ih (k + 1), ← numbered_succ f s k]

theorem blocks_eq_map_zipIdx (f : Format) (c : Collected) :
    f.blocks c = c.zipIdx.map fun (s, k) => f.numbered s k := by
  cases c with
  | nil => rfl
  | cons s rest =>
      rw [blocks, map_block_eq f rest 0, List.zipIdx_cons, List.map_cons, ← numbered_zero f s]

theorem header_eq (f : Format) (s : Slot) :
    f.header s = (if f.codeOnly then "// " else "") ++ if f.qualifiedHeaders then s.path else s.name := by
  unfold header
  cases f.codeOnly with
  | true => rfl
  | false => exact String.empty_append.symm

/-- **How a document is laid out.** It is the blocks of the slots shown with an empty line between any two: for
    every slot but the first a header on a line of its own, and then its text, fenced unless bare code is wanted.
    Without slots it is empty. The text of a slot is what was noted for its package. -/
theorem render_laidOut (f : Format) (c : Collected) :
    f.render c = "\n\n".intercalate ((if f.excludeRoot then c.drop 1 else c).zipIdx.map fun (s, k) =>
      (if k = 0 then ""
        else (if f.codeOnly then "// " else "") ++ (if f.qualifiedHeaders then s.path else s.name) ++ "\n")
      ++ if f.codeOnly then s.text else "```" ++ f.fenceInfo.getD "" ++ s.text ++ "```") ∧
    ((if f.excludeRoot then c.drop 1 else c) = [] → f.render c = "") ∧
    ∀ notes, c = Collected.replay notes → ∀ s ∈ c,
      s.text = String.join ((notes.filter (·.package.path == s.path)).map Note.piece) := by
  have hshown : (if f.excludeRoot then c.drop 1 else c) = f.shown c := by
    unfold shown
    rw [List.drop_one]
  rw [hshown]
  refine ⟨?_, fun hnone => ?_, ?_⟩
  · rw [render_eq, blocks_eq_map_zipIdx]
    unfold numbered
    simp only [header_eq]
    rfl
  · rw [render_eq, hnone]
    rfl
  · rintro notes rfl s hs
    rw [← Collected.textOf_of_mem (Collected.nodup_paths_replay notes) hs, Collected.textOf_replay]

/-- An entry that is left out, and what two packages add to it. -/
def rootDropped : List Note :=
  [⟨⟨"m", "main", []⟩, none⟩, ⟨⟨"m/p1", "p1", []⟩, some "one"⟩, ⟨⟨"m/p2", "p2", []⟩, some "two"⟩]

/-- Bare code with import paths in headers and without the root slot. -/
def bareCode : Format := { excludeRoot := true, codeOnly := true, qualifiedHeaders := true }

/-- Where the first package is left out the second goes without a header. -/
theorem render_laidOut_rootDropped :
    bareCode.render (Collected.replay rootDropped) = "\none" ++ "\n\n" ++ "// m/p2" ++ "\n" ++ "\ntwo" ∧
    bareCode.render (Collected.replay (rootDropped.take 1)) = "" ∧
    ∀ s ∈ Collected.replay rootDropped, s.path = "m/p2" → s.text = "\ntwo" := by
  obtain ⟨hrender, -, htext⟩ := render_laidOut bareCode (Collected.replay rootDropped)
  obtain ⟨-, hempty, -⟩ := render_laidOut bareCode (Collected.replay (rootDropped.take 1))
  refine ⟨hrender.trans (by decide +kernel), hempty (by decide +kernel), fun s hs hpath => ?_⟩
  rw [htext rootDropped rfl s hs, hpath]
  decide +kernel

end Format
end GoExcerpt
