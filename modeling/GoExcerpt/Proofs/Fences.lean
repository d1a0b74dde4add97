import GoExcerpt.Proofs.Layout
import GoExcerpt.Proofs.LineRanges
import GoExcerpt.Proofs.WalkText
import Mathlib.Data.List.Infix

/-!
# `Proofs.Fences` — a fenced document can be taken apart again

The parts of a document stand one after the other, without lengths and without escapes. They can be told apart all
the same: what a walk collects for a slot ends with a line (`Walk.endsLine_of_run`), so where it holds no fence of
its own, the next fence is the one that closes it (`Format.Clear.append_fence_inj`), and in front of a slot that is
not the first, the next fence is the one that opens it, so all before that is its header. Two walks with the same
document have therefore shown the same texts under the same headers (`Format.render_decodable`).
-/

namespace GoExcerpt

/-- A text that ends with a line end. -/
def EndsLine (cs : List Char) : Prop := ∃ front, cs = front ++ ['\n']

theorem EndsLine.append {cs : List Char} (h : EndsLine cs) (before : List Char) : EndsLine (before ++ cs) := by
  obtain ⟨front, rfl⟩ := h
  exact ⟨before ++ front, (List.append_assoc ..).symm⟩

/-! ## Texts of functions -/

namespace LineRange

theorem endsLine_flatMap {lines : List (List Char)} (h : lines ≠ []) :
    EndsLine (lines.flatMap (· ++ ['\n'])) := by
  obtain ⟨front, last, rfl⟩ := List.eq_nil_or_concat lines |>.resolve_left h
  rw [List.concat_eq_append, List.flatMap_append, List.flatMap_singleton]
  exact EndsLine.append ⟨last, rfl⟩ _

/-- A range that fits has a line to copy. -/
theorem endsLine_copy {r : LineRange} {lines : List (List Char)} (h : r.fits lines.length = true) :
    EndsLine (r.copy lines) := by
  obtain ⟨hstart, hle, hstop⟩ := le_of_fits h
  refine endsLine_flatMap fun hnil => ?_
  have hlen := congrArg List.length hnil
  rw [List.length_take, List.length_drop, List.length_nil] at hlen
  omega

theorem endsLine_copyAll {lines : List (List Char)} {ranges : List LineRange} {copied : List Char}
    (hne : ranges ≠ []) (h : copyAll lines ranges = .ok copied) : EndsLine copied := by
  induction ranges generalizing copied with
  | nil => exact absurd rfl hne
  | cons r ranges ih =>
      rw [copyAll] at h
      split at h
      next hfits =>
        cases hrest : copyAll lines ranges with
        | error fault =>
            rw [hrest] at h
            cases h
        | ok rest =>
            rw [hrest] at h
            obtain rfl := Except.ok.inj h
            by_cases hlast : ranges = []
            · subst hlast
              obtain rfl := Except.ok.inj hrest
              rw [List.append_nil]
              exact endsLine_copy hfits
            · exact (ih hlast hrest).append _
      next => cases h

end LineRange

/-- **The text of a declaration ends with a line,** for the lines of the declaration itself come last. -/
theorem Declaration.endsLine_excerpt {d : Declaration} {fs : FileSystem} {path source : String}
    (h : d.excerpt fs path = .ok source) : EndsLine source.toList := by
  obtain ⟨content, -, h⟩ := bind_eq_ok h
  unfold excerptOf at h
  cases hcopied : LineRange.copyAll (Text.splitOn '\n' content.toList) d.ranges with
  | error fault =>
      rw [hcopied] at h
      cases h
  | ok copied =>
      rw [hcopied] at h
      obtain rfl := Except.ok.inj h
      rw [String.toList_ofList]
      exact LineRange.endsLine_copyAll (by simp [ranges]) hcopied

/-! ## Texts of slots -/

namespace Collected

variable {c : Collected} {k : Nat}

/-- A slot that gets a text ends with it, and the others keep theirs. The first `k` slots may hold anything. -/
theorem endsLine_add (hk : k ≤ c.length) (h : ∀ s ∈ c.drop k, EndsLine s.text.toList) (p : Package)
    {text : String} (htext : EndsLine text.toList) : ∀ s ∈ (c.add p text).drop k, EndsLine s.text.toList := by
  intro s hs
  unfold add at hs
  rw [← List.map_drop] at hs
  obtain ⟨old, hold, rfl⟩ := List.mem_map.mp hs
  by_cases hpath : (old.path == p.path) = true
  · rw [if_pos hpath, String.toList_append]
    exact htext.append _
  · rw [if_neg hpath]
    -- a slot that is new would be the one of the package
    unfold mention at hold
    split at hold
    next => exact h old hold
    next =>
      rw [List.drop_append_of_le_length hk] at hold
      rcases List.mem_append.mp hold with hold | hold
      · exact h old hold
      · obtain rfl := List.mem_singleton.mp hold
        exact absurd (beq_self_eq_true _) hpath

theorem length_le_add (c : Collected) (p : Package) (text : String) : c.length ≤ (c.add p text).length := by
  unfold add mention
  rw [List.length_map]
  split
  next => exact Nat.le_refl _
  next => exact List.length_append ▸ Nat.le_add_right _ _

/-- Notes that all bring a text leave slots that end with a line. -/
theorem endsLine_foldl_note {notes : List Note}
    (hnotes : ∀ n ∈ notes, ∃ text, n.text = some text ∧ EndsLine text.toList) (hk : k ≤ c.length)
    (h : ∀ s ∈ c.drop k, EndsLine s.text.toList) :
    ∀ s ∈ (notes.foldl note c).drop k, EndsLine s.text.toList := by
  induction notes generalizing c with
  | nil => exact h
  | cons n rest ih =>
      obtain ⟨⟨text, htext, hends⟩, hrest⟩ := List.forall_mem_cons.mp hnotes
      have hnote : c.note n = c.add n.package text := by
        unfold note
        rw [htext]
      rw [List.foldl_cons, hnote]
      exact ih hrest (hk.trans (length_le_add c _ _)) (endsLine_add hk h _ hends)

end Collected

namespace Walk

variable {w : Walk} {entry : Symbol} {budget : Nat} {c : Collected}

theorem endsLine_source {e : Indexed} (h : w.Readable e) : EndsLine (w.source e).toList :=
  Declaration.endsLine_excerpt h

/-- **What a walk collects ends with a line, slot by slot,** the slot of an excluded entry apart. -/
theorem endsLine_of_run (h : w.run entry budget = .ok c) :
    ∀ s ∈ if w.excludeRoot then c.tail else c, EndsLine s.text.toList := by
  obtain ⟨notes, hnotes, rfl, -⟩ := exists_of_run h
  cases hlog : (w.index.log budget entry.canonical).map Stop.reached with
  | nil =>
      rw [hlog] at hnotes
      obtain rfl := Except.ok.inj hnotes
      intro s hs
      simp [Collected.replay] at hs
  | cons e es =>
      rw [hlog] at hnotes
      obtain ⟨hread, rfl⟩ := notes_entry_ok hnotes
      have htexts : (∀ f ∈ es, w.Readable f) → ∀ n ∈ es.map fun f => Note.mk f.package (some (w.source f)),
          ∃ text, n.text = some text ∧ EndsLine text.toList := by
        intro hes n hn
        obtain ⟨f, hf, rfl⟩ := List.mem_map.mp hn
        exact ⟨_, rfl, endsLine_source (hes f hf)⟩
      unfold Collected.replay
      unfold emitted at hread
      cases hx : w.excludeRoot with
      | true =>
          -- the entry has claimed the first slot, and nothing is said about that
          rw [hx] at hread
          rw [if_pos rfl, ← List.drop_one, List.foldl_cons]
          exact Collected.endsLine_foldl_note (htexts hread) (Nat.le_refl 1)
            fun s hs => absurd hs List.not_mem_nil
      | false =>
          rw [hx] at hread
          obtain ⟨hentry, hes⟩ := List.forall_mem_cons.mp hread
          exact Collected.endsLine_foldl_note (k := 0)
            (List.forall_mem_cons.mpr ⟨⟨_, rfl, endsLine_source hentry⟩, htexts hes⟩) (Nat.zero_le _)
            fun s hs => absurd hs List.not_mem_nil

end Walk

/-! ## Fences -/

namespace Format

/-- The character that fences are made of. -/
def tick : Char := Char.ofNat 96

theorem toList_fence : fence.toList = [tick, tick, tick] := rfl

/-- A text up to which a fence can be looked for: it has none in it, and does not end in a part of one. -/
structure Clear (cs : List Char) : Prop where
  without : ¬ fence.toList <:+: cs
  ending : cs.getLast? ≠ some tick

/-- Where a fence stands behind a clear text, no fence stands earlier. -/
theorem Clear.eq_nil {a d r s : List Char} (hclear : Clear (a ++ d))
    (h : fence.toList ++ r = d ++ (fence.toList ++ s)) : d = [] := by
  by_contra hne
  rcases List.append_eq_append_iff.mp h with ⟨more, rfl, -⟩ | ⟨more, hfence, -⟩
  · exact hclear.without ⟨a, more, List.append_assoc ..⟩
  · -- the text would end in ticks
    refine hclear.ending ?_
    have hmem : d.getLast hne ∈ fence.toList := hfence ▸ List.mem_append_left _ (List.getLast_mem hne)
    have htick : d.getLast hne = tick := by simpa [toList_fence] using hmem
    rw [List.getLast?_append, List.getLast?_eq_some_getLast hne, htick]
    rfl

/-- **A clear text ends where the next fence begins.** -/
theorem Clear.append_fence_inj {a b r s : List Char} (ha : Clear a) (hb : Clear b)
    (h : a ++ (fence.toList ++ r) = b ++ (fence.toList ++ s)) : a = b ∧ r = s := by
  have hab : a = b := by
    rcases List.append_eq_append_iff.mp h with ⟨d, rfl, hd⟩ | ⟨d, rfl, hd⟩
    · rw [hb.eq_nil hd, List.append_nil]
    · rw [ha.eq_nil hd, List.append_nil]
  subst hab
  exact ⟨rfl, List.append_cancel_left (List.append_cancel_left h)⟩

theorem Clear.of_endsLine {cs : List Char} (h : EndsLine cs) (hfence : ¬ fence.toList <:+: cs) : Clear cs := by
  refine ⟨hfence, ?_⟩
  obtain ⟨front, rfl⟩ := h
  rw [List.getLast?_concat]
  decide

/-- A header and its line end are clear, unless the header has a tick in it. -/
theorem Clear.of_header {cs : List Char} (h : tick ∉ cs) : Clear (cs ++ ['\n']) := by
  refine .of_endsLine ⟨cs, rfl⟩ fun hfence => ?_
  have hmem : tick ∈ cs ++ ['\n'] := hfence.subset (toList_fence ▸ List.mem_cons_self)
  rcases List.mem_append.mp hmem with hmem | hmem
  · exact h hmem
  · exact absurd (List.mem_singleton.mp hmem) (by decide)

/-! ## Documents -/

variable {f : Format}

/-- What slots after the first shown add to a document. -/
def laterText (f : Format) (slots : Collected) : List Char := slots.flatMap fun s => (gap ++ f.block s).toList

theorem laterText_cons (s : Slot) (rest : Collected) :
    f.laterText (s :: rest) = gap.toList ++ ((f.block s).toList ++ f.laterText rest) := by
  unfold laterText
  rw [List.flatMap_cons, String.toList_append, List.append_assoc]

theorem toList_intercalate_gap (text : String) (slots : Collected) :
    (gap.intercalate (text :: slots.map f.block)).toList = text.toList ++ f.laterText slots := by
  induction slots generalizing text with
  | nil =>
      rw [List.map_nil, String.intercalate_singleton]
      exact (List.append_nil _).symm
  | cons s rest ih =>
      rw [List.map_cons, String.intercalate_cons_cons, String.toList_append, String.toList_append, ih,
        laterText_cons, List.append_assoc]

/-- A document is the body of its first slot, then what the later ones add. -/
theorem toList_render {c : Collected} {s : Slot} {rest : Collected} (h : f.shown c = s :: rest) :
    (f.render c).toList = (f.body s).toList ++ f.laterText rest := by
  rw [render_eq, h]
  exact toList_intercalate_gap _ _

theorem toList_body (hcode : f.codeOnly = false) (s : Slot) (rest : List Char) :
    (f.body s).toList ++ rest
      = fence.toList ++ ((f.fenceInfo.getD "").toList ++ (s.text.toList ++ (fence.toList ++ rest))) := by
  unfold body
  rw [hcode, if_neg Bool.false_ne_true]
  simp only [String.toList_append, List.append_assoc]

/-- The text of a fenced slot, and what comes after the slot, can be told. -/
theorem body_inj (hcode : f.codeOnly = false) {s t : Slot} {rest more : List Char} (hs : Clear s.text.toList)
    (ht : Clear t.text.toList) (h : (f.body s).toList ++ rest = (f.body t).toList ++ more) :
    s.text = t.text ∧ rest = more := by
  rw [toList_body hcode, toList_body hcode] at h
  obtain ⟨htext, hrest⟩ := hs.append_fence_inj ht (List.append_cancel_left (List.append_cancel_left h))
  exact ⟨String.toList_inj.mp htext, hrest⟩

/-- The same with the header in front. -/
theorem block_inj (hcode : f.codeOnly = false) {s t : Slot} {rest more : List Char} (hs : Clear s.text.toList)
    (ht : Clear t.text.toList) (hsh : tick ∉ (f.header s).toList) (hth : tick ∉ (f.header t).toList)
    (h : (f.block s).toList ++ rest = (f.block t).toList ++ more) :
    f.header s = f.header t ∧ s.text = t.text ∧ rest = more := by
  have hblock : ∀ (u : Slot) (tail : List Char), (f.block u).toList ++ tail
      = ((f.header u).toList ++ ['\n']) ++ ((f.body u).toList ++ tail) := by
    intro u tail
    unfold block
    simp only [String.toList_append, List.append_assoc]
    rfl
  rw [hblock, hblock, toList_body hcode, toList_body hcode] at h
  -- the header ends where the fence of its slot opens
  obtain ⟨hheader, hbody⟩ := (Clear.of_header hsh).append_fence_inj (.of_header hth) h
  obtain ⟨htext, hrest⟩ := hs.append_fence_inj ht (List.append_cancel_left hbody)
  exact ⟨String.toList_inj.mp (List.append_cancel_right hheader), String.toList_inj.mp htext, hrest⟩

/-- **Slots after the first can be told from what they add to a document,** with their headers. -/
theorem laterText_inj (hcode : f.codeOnly = false) {a b : Collected}
    (ha : ∀ s ∈ a, Clear s.text.toList ∧ tick ∉ (f.header s).toList)
    (hb : ∀ s ∈ b, Clear s.text.toList ∧ tick ∉ (f.header s).toList) (h : f.laterText a = f.laterText b) :
    a.map Slot.text = b.map Slot.text ∧ a.map f.header = b.map f.header := by
  induction a generalizing b with
  | nil =>
      cases b with
      | nil => exact ⟨rfl, rfl⟩
      | cons t more =>
          rw [laterText_cons] at h
          cases h
  | cons s rest ih =>
      cases b with
      | nil =>
          rw [laterText_cons] at h
          cases h
      | cons t more =>
          obtain ⟨⟨hs, hsh⟩, hrest⟩ := List.forall_mem_cons.mp ha
          obtain ⟨⟨ht, hth⟩, hmore⟩ := List.forall_mem_cons.mp hb
          rw [laterText_cons, laterText_cons] at h
          obtain ⟨hheader, htext, h⟩ := block_inj hcode hs ht hsh hth (List.append_cancel_left h)
          obtain ⟨htexts, hheaders⟩ := ih hrest hmore h
          exact ⟨by rw [List.map_cons, List.map_cons, htext, htexts],
            by rw [List.map_cons, List.map_cons, hheader, hheaders]⟩

/-- Whether no text that is shown holds a fence, and no header that is shown a tick. -/
structure Unfenced (f : Format) (c : Collected) : Prop where
  texts : ∀ s ∈ f.shown c, ¬ fence.toList <:+: s.text.toList
  headers : ∀ s ∈ (f.shown c).tail, tick ∉ (f.header s).toList

instance (f : Format) (c : Collected) : Decidable (f.Unfenced c) :=
  decidable_of_iff ((∀ s ∈ f.shown c, ¬ fence.toList <:+: s.text.toList) ∧
      ∀ s ∈ (f.shown c).tail, tick ∉ (f.header s).toList)
    ⟨fun h => ⟨h.1, h.2⟩, fun h => ⟨h.texts, h.headers⟩⟩

/-- The texts that a walk shows are clear unless they hold a fence. -/
theorem Unfenced.clear {c : Collected} (hc : f.Unfenced c) {w : Walk} (hx : w.excludeRoot = f.excludeRoot)
    {entry : Symbol} {budget : Nat} (h : w.run entry budget = .ok c) :
    ∀ s ∈ f.shown c, Clear s.text.toList := by
  intro s hs
  refine .of_endsLine (Walk.endsLine_of_run h s ?_) (hc.texts s hs)
  rw [hx]
  exact hs

/-- A document without slots is empty, and no other is. -/
theorem render_eq_empty_iff (hcode : f.codeOnly = false) {c : Collected} :
    f.render c = "" ↔ f.shown c = [] := by
  cases hshown : f.shown c with
  | nil =>
      rw [render_eq, hshown]
      exact iff_of_true rfl rfl
  | cons s rest =>
      refine iff_of_false (fun hempty => ?_) (List.cons_ne_nil _ _)
      have hlist := toList_render hshown
      rw [hempty, toList_body hcode, toList_fence] at hlist
      cases hlist

/-- `A` of a root package calls `Z` of another one. -/
def rootedAt (root : String) : Walk where
  files := ⟨.dir [("m.go", .file "func A()\n".toUTF8), ("z.go", .file "func Z()\n".toUTF8)], []⟩
  index := ⟨Index.ofPackage ⟨root, "m", [⟨"/m.go", [Walk.oneLine root "A" 1 [.function "z" "Z"]]⟩]⟩
    ++ Index.ofPackage ⟨"z", "z", [⟨"/z.go", [Walk.oneLine "z" "Z" 1 []]⟩]⟩⟩
  excludeRoot := false

/-- What that walk collects. -/
def collectedAt (root : String) : Collected :=
  [⟨root, "m", "\nfunc A()\n"⟩, ⟨"z", "z", "\nfunc Z()\n"⟩]

/-- Fences for Go under headers with import paths. -/
def qualified : Format where
  fenceInfo := some "go"
  qualifiedHeaders := true

end Format
end GoExcerpt
