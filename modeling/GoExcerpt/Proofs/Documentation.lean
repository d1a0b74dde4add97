import GoExcerpt.Proofs.WholeLines

/-!
# `Proofs.Documentation` — documentation and the code around it

The documentation of a declaration is a stack of comments right above it (`LineRange.exists_docLines`). What follows
a comment of the stack begins on a line below it, so only code above can have a line in common with documentation,
and only with the topmost comment (`Documented.above_of_meets`). Whether it has is decided by a look at the one item
before that comment. This is enough where the item is code; if it is another comment, code before that one on the
line is not seen, and its line is taken (`FileScope.doc_apart_iff`, `FileScope.trailing_comment_taken`).

Items are the named children of a file's root. Statement ends between them are neither code nor comments here.
-/

namespace GoExcerpt

/-! ## The comments that are taken -/

namespace LineRange

/-- Whether two ranges have a line in common. -/
def Meets (r s : LineRange) : Prop :=
  ∃ line, (r.start ≤ line ∧ line ≤ r.stop) ∧ s.start ≤ line ∧ line ≤ s.stop

theorem meets_iff {r s : LineRange} :
    r.Meets s ↔ (r.start ≤ r.stop ∧ s.start ≤ s.stop) ∧ r.start ≤ s.stop ∧ s.start ≤ r.stop := by
  constructor
  · rintro ⟨line, hr, hs⟩
    omega
  · rintro ⟨hle, hrs, hsr⟩
    exact ⟨max r.start s.start, by omega, by omega⟩

instance (r s : LineRange) : Decidable (r.Meets s) := decidable_of_iff' _ meets_iff

/-- **Documentation is a stack of comments:** the siblings closest to the declaration, the topmost of which does
    not trail the one before it. -/
theorem exists_docLines (next : Nat) (taken : List LineRange) (before : List Tree) :
    ∃ docs above, before = docs.reverse ++ above ∧
      docLines next taken before = docs.map ofTree ++ taken ∧ (∀ t ∈ docs, t.isComment = true) ∧
      ∀ first rest, docs = first :: rest → trails first above = false := by
  induction before generalizing next taken with
  | nil => exact ⟨[], [], rfl, rfl, by simp, fun _ _ h => nomatch h⟩
  | cons comment before ih =>
      rw [docLines]
      split
      next => exact ⟨[], _, rfl, rfl, by simp, fun _ _ h => nomatch h⟩
      next hcomment =>
        dsimp only
        split
        next => exact ⟨[], _, rfl, rfl, by simp, fun _ _ h => nomatch h⟩
        next htaken =>
          rw [Bool.or_eq_true, not_or, Bool.not_eq_true, Bool.not_eq_true] at htaken
          obtain ⟨docs, above, rfl, hlines, hdocs, hfirst⟩ :=
            ih ((ofTree comment).start - 1) (ofTree comment :: taken)
          refine ⟨docs ++ [comment], above, by simp, by simp [hlines], ?_, ?_⟩
          · intro t ht
            rcases List.mem_append.mp ht with ht | ht
            · exact hdocs t ht
            · obtain rfl := List.mem_singleton.mp ht
              simpa using hcomment
          · intro first rest heq
            cases docs with
            | nil =>
                obtain ⟨rfl, -⟩ := List.cons.inj heq
                exact htaken.2
            | cons c docs =>
                obtain ⟨rfl, -⟩ := List.cons.inj heq
                exact hfirst _ _ rfl

/-- Ranges that follow one another all end above the last. -/
theorem stop_lt_of_isChain {doc : List LineRange} {span r : LineRange} (hr : r ∈ doc)
    (hle : ∀ r ∈ doc, r.start ≤ r.stop) (hchain : (doc ++ [span]).IsChain Follows) :
    r.stop < span.start := by
  induction doc with
  | nil => exact absurd hr List.not_mem_nil
  | cons first doc ih =>
      obtain ⟨-, hdoc⟩ := List.forall_mem_cons.mp hle
      have hrest := (List.isChain_cons.mp hchain).2
      rcases List.mem_cons.mp hr with rfl | hr
      · have hnext := start_le_of_isChain hdoc hrest
        rw [start_head_of_isChain hchain] at hnext
        exact hnext
      · exact ih hr hdoc hrest

theorem start_le_stop_ofTree {t : Tree} (h : t.extent.start.row ≤ t.extent.stop.row) :
    (ofTree t).start ≤ (ofTree t).stop := by
  unfold ofTree
  dsimp only
  split
  next hcut =>
    rw [Bool.and_eq_true, decide_eq_true_eq] at hcut
    omega
  next => omega

/-- A node covers no line after the one it ends on. -/
theorem stop_ofTree_le (t : Tree) : (ofTree t).stop ≤ t.extent.stop.row + 1 := by
  unfold ofTree
  dsimp only
  split
  next => omega
  next => exact Nat.le_refl _

/-- A node that begins and ends on one row covers its line. -/
theorem stop_ofTree_of_row {t : Tree} (h : t.extent.stop.row ≤ t.extent.start.row) :
    (ofTree t).stop = t.extent.stop.row + 1 := by
  unfold ofTree
  dsimp only
  rw [if_neg]
  rw [Bool.and_eq_true, decide_eq_true_eq]
  omega

end LineRange

/-! ## Code around documentation -/

/-- Of nodes that stand one after the other, the first begins on the first row. -/
theorem start_le_of_mem {first n : Tree} {rest : List Tree} (hfirst : first.extent.start.row ≤ first.extent.stop.row)
    (hpairs : (first :: rest).Pairwise fun s t => s.extent.stop.row ≤ t.extent.start.row) (hn : n ∈ first :: rest) :
    first.extent.start.row ≤ n.extent.start.row := by
  rcases List.mem_cons.mp hn with rfl | hn
  · exact Nat.le_refl _
  · exact Nat.le_trans hfirst ((List.pairwise_cons.mp hpairs).1 n hn)

/-- The last of the nodes above that is no comment, with the comments after it, if there is one. -/
theorem exists_last_code {above : List Tree} {n : Tree} (hn : n ∈ above) (hcode : n.isComment = false) :
    ∃ between code earlier, above = between ++ code :: earlier ∧ code.isComment = false ∧
      ∀ t ∈ between, t.isComment = true := by
  cases hfound : above.find? (!·.isComment) with
  | none => exact absurd (List.find?_eq_none.mp hfound n hn) (by simp [hcode])
  | some code =>
      obtain ⟨hcode, between, earlier, rfl, hbetween⟩ := List.find?_eq_some_iff_append.mp hfound
      exact ⟨between, code, earlier, rfl, by simpa using hcode, by simpa using hbetween⟩

/-- **Whether code is hidden from the documentation of a declaration:** it ends on the first line of the
    documentation, and of what stands between, at least one comment, all are comments. -/
def Declaration.HidesCode (d : Declaration) (root : Tree) : Prop :=
  ∃ earlier code between first docs node later,
    root.named = earlier ++ code :: (between ++ first :: docs ++ node :: later) ∧
    d.span = LineRange.ofTree node ∧ d.doc = (first :: docs).map LineRange.ofTree ∧
    code.isComment = false ∧ between ≠ [] ∧ (∀ t ∈ between, t.isComment = true) ∧
    (LineRange.ofTree code).stop = (LineRange.ofTree first).start

/-- **How a declaration is documented:** of the items of its file, those right above it are its documentation, the
    topmost of which does not trail the item before it. -/
structure Declaration.Documented (d : Declaration) (text : String) (above docs : List Tree) (node : Tree)
    (later : List Tree) : Prop where
  items : (SourceFile.parse text).root.named = above.reverse ++ docs ++ node :: later
  span : d.span = LineRange.ofTree node
  doc : d.doc = docs.map LineRange.ofTree
  comments : ∀ t ∈ docs, t.isComment = true
  untrailed : ∀ first rest, docs = first :: rest → trails first above = false
  ends : ∀ r ∈ d.doc, r.stop < d.span.start

namespace Declaration.Documented

open LineRange (ofTree)

variable {d : Declaration} {text : String} {above docs later : List Tree} {node n : Tree}

/-- An item does not end before it begins. -/
theorem start_le (h : d.Documented text above docs node later) {t : Tree}
    (ht : t ∈ above ∨ t ∈ docs ∨ t ∈ node :: later) : t.extent.start.row ≤ t.extent.stop.row := by
  have hmem : t ∈ (SourceFile.parse text).root.named := by
    rw [h.items]
    simpa [or_assoc] using ht
  exact (SourceFile.wellPlaced_of_mem_parse hmem).start_le

/-- What is above ends before the documentation begins. -/
theorem stop_le_start (h : d.Documented text above docs node later) {s t : Tree} (hs : s ∈ above) (ht : t ∈ docs) :
    s.extent.stop.row ≤ t.extent.start.row := by
  have hpairs := SourceFile.pairwise_parse text
  rw [h.items] at hpairs
  obtain ⟨hpairs, -, -⟩ := List.pairwise_append.mp hpairs
  exact (List.pairwise_append.mp hpairs).2.2 s (List.mem_reverse.mpr hs) t ht

/-- The code that has a line in common with the documentation stands above it, and ends where it begins or
    below. -/
theorem above_of_meets (h : d.Documented text above docs node later)
    (hn : n ∈ (SourceFile.parse text).root.named) (hcode : n.isComment = false) {r : LineRange} (hr : r ∈ d.doc)
    (hmeets : r.Meets (ofTree n)) :
    n ∈ above ∧ ∃ first rest, docs = first :: rest ∧ (ofTree first).start ≤ (ofTree n).stop := by
  have hpairs := SourceFile.pairwise_parse text
  rw [h.items] at hn hpairs
  obtain ⟨hpairs, hbelow, -⟩ := List.pairwise_append.mp hpairs
  obtain ⟨-, hstack, -⟩ := List.pairwise_append.mp hpairs
  obtain ⟨-, hstart, hstop⟩ := LineRange.meets_iff.mp hmeets
  constructor
  · rcases List.mem_append.mp hn with hn | hn
    · rcases List.mem_append.mp hn with hn | hn
      · exact List.mem_reverse.mp hn
      · rw [h.comments n hn] at hcode
        cases hcode
    · -- the declaration and what follows it begin below all documentation
      have hend := h.ends r hr
      rw [h.span] at hend
      have hrow : (ofTree node).start ≤ (ofTree n).start := by
        apply Nat.add_le_add_right
        exact start_le_of_mem (h.start_le (.inr (.inr List.mem_cons_self))) hbelow hn
      omega
  · rw [h.doc] at hr
    obtain ⟨t, ht, rfl⟩ := List.mem_map.mp hr
    obtain ⟨first, rest, rfl⟩ := List.exists_cons_of_ne_nil (List.ne_nil_of_mem ht)
    refine ⟨first, rest, rfl, Nat.le_trans ?_ hstart⟩
    apply Nat.add_le_add_right
    exact start_le_of_mem (h.start_le (.inr (.inl List.mem_cons_self))) hstack ht

/-- If some code above goes on to the first line of the documentation, the last code above ends there. -/
theorem stop_of_last {first code : Tree} {rest between earlier : List Tree}
    (h : d.Documented text (between ++ code :: earlier) (first :: rest) node later)
    (hn : n = code ∨ n ∈ earlier) (hmeet : (ofTree first).start ≤ (ofTree n).stop) :
    (ofTree code).stop = (ofTree first).start := by
  have hpairs := SourceFile.pairwise_parse text
  rw [h.items] at hpairs
  obtain ⟨hpairs, -, -⟩ := List.pairwise_append.mp hpairs
  obtain ⟨habove, -, -⟩ := List.pairwise_append.mp hpairs
  have hcode : code.extent.stop.row ≤ first.extent.start.row := h.stop_le_start (by simp) List.mem_cons_self
  have hfirst : first.extent.start.row + 1 ≤ (ofTree n).stop := hmeet
  have hstop := LineRange.stop_ofTree_le n
  show _ = first.extent.start.row + 1
  rcases hn with rfl | hn
  · omega
  · -- the last code is then all on this line
    have hbefore : n.extent.stop.row ≤ code.extent.start.row := by
      rw [List.reverse_append, List.pairwise_append, List.reverse_cons, List.pairwise_append] at habove
      exact habove.1.2.2 n (List.mem_reverse.mpr hn) code List.mem_cons_self
    have hrow : code.extent.start.row ≤ code.extent.stop.row := h.start_le (.inl (by simp))
    rw [LineRange.stop_ofTree_of_row (by omega)]
    omega

/-- **Documentation takes a line of code only from code that is hidden from it.** -/
theorem hidesCode (h : d.Documented text above docs node later)
    (hn : n ∈ (SourceFile.parse text).root.named) (hcode : n.isComment = false) {r : LineRange} (hr : r ∈ d.doc)
    (hmeets : r.Meets (ofTree n)) : d.HidesCode (SourceFile.parse text).root := by
  obtain ⟨hn, first, rest, rfl, hmeet⟩ := h.above_of_meets hn hcode hr hmeets
  obtain ⟨between, code, earlier, rfl, hlast, hbetween⟩ := exists_last_code hn hcode
  have hn : n = code ∨ n ∈ earlier := by
    rcases List.mem_append.mp hn with hn | hn
    · rw [hbetween n hn] at hcode
      cases hcode
    · exact List.mem_cons.mp hn
  have hstop := h.stop_of_last hn hmeet
  refine ⟨earlier.reverse, code, between.reverse, first, rest, node, later, ?_, h.span, h.doc, hlast, ?_, ?_, hstop⟩
  · rw [h.items]
    simp
  · -- right before the comment the code would have been seen
    intro hnil
    obtain rfl := List.reverse_eq_nil_iff.mp hnil
    have htrails := h.untrailed first rest rfl
    have hover : code.extent.stop.row ≤ first.extent.start.row := h.stop_le_start (by simp) List.mem_cons_self
    have hrow : (ofTree code).stop = first.extent.start.row + 1 := hstop
    have hcodeStop := LineRange.stop_ofTree_le code
    have heq : code.extent.stop.row = first.extent.start.row := by omega
    rw [List.nil_append, trails, hlast, heq] at htrails
    simp at htrails
  · exact fun s hs => hbetween s (List.mem_reverse.mp hs)

end Declaration.Documented

namespace FileScope

open LineRange (ofTree)

variable {f : FileScope} {types : TypeEnv} {path text : String} {d : Declaration}

/-- **Every declaration of a file is documented in this way.** -/
theorem exists_documented (h : d ∈ (f.unitOf types path (SourceFile.parse text).root).functions) :
    ∃ above docs node later, d.Documented text above docs node later := by
  obtain ⟨earlier, node, later, hroot, -, hd⟩ := mem_unitOf.mp h
  obtain ⟨-, hdoc, hspan, -⟩ := declaration?_eq_some.mp hd
  obtain ⟨docs, above, hbefore, hlines, hcomments, huntrailed⟩ :=
    LineRange.exists_docLines node.extent.start.row [] earlier.reverse
  have hearlier : earlier = above.reverse ++ docs := by
    rw [← List.reverse_reverse earlier, hbefore, List.reverse_append, List.reverse_reverse]
  rw [hearlier] at hroot
  rw [hlines, List.append_nil] at hdoc
  refine ⟨above, docs, node, later, hroot, hspan, hdoc, hcomments, huntrailed, fun r hr => ?_⟩
  refine LineRange.stop_lt_of_isChain hr (fun s hs => ?_) (isChain_ranges h)
  exact (LineRange.le_of_fits (fits_of_mem_ranges h (List.mem_append_left _ hs))).2.1

/-- **Documentation takes no line of other code, unless code is hidden from it.** Of a declaration of any file, no
line of its documentation is a line of an item that is no comment, exactly when it is not so that such an item ends
on the first of these lines with nothing but other comments between them. -/
theorem doc_apart_iff (f : FileScope) (types : TypeEnv) (path text : String) (d : Declaration)
    (h : d ∈ (f.unitOf types path (SourceFile.parse text).root).functions) :
    (∀ r ∈ d.doc, ∀ n ∈ (SourceFile.parse text).root.named, n.isComment = false → ¬ r.Meets (ofTree n)) ↔
      ¬ d.HidesCode (SourceFile.parse text).root := by
  have hle : ∀ t ∈ (SourceFile.parse text).root.named, (ofTree t).start ≤ (ofTree t).stop :=
    fun t ht => LineRange.start_le_stop_ofTree (SourceFile.wellPlaced_of_mem_parse ht).start_le
  constructor
  · rintro hapart ⟨earlier, code, between, first, docs, node, later, hroot, -, hdoc, hcode, -, -, hmeet⟩
    have hmem : code ∈ (SourceFile.parse text).root.named ∧ first ∈ (SourceFile.parse text).root.named := by
      rw [hroot]
      simp
    apply hapart (ofTree first) (by simp [hdoc]) code hmem.1 hcode
    have hfirst := hle first hmem.2
    have hlast := hle code hmem.1
    exact LineRange.meets_iff.mpr ⟨⟨hfirst, hlast⟩, by omega, by omega⟩
  · intro hhides r hr n hn hcode hmeets
    obtain ⟨above, docs, node, later, hdocumented⟩ := exists_documented h
    exact hhides (hdocumented.hidesCode hn hcode hr hmeets)

/-- A declaration with documentation below a comment that trails other code. -/
def heldAbove : String := "package m\n\nvar x = 1 // held\n// Run runs.\nfunc Run() \x7b\x7d\n"

theorem doc_apart_iff_heldAbove :
    ∃ d ∈ (unitOf ⟨"m", []⟩ {} "a.go" (SourceFile.parse heldAbove).root).functions, d.doc = [⟨4, 4⟩] ∧
      ∀ r ∈ d.doc, ∀ n ∈ (SourceFile.parse heldAbove).root.named, n.isComment = false →
        ¬ r.Meets (ofTree n) := by
  have hshape : ((unitOf ⟨"m", []⟩ {} "a.go" (SourceFile.parse heldAbove).root).functions.any
      fun d => d.doc == [⟨4, 4⟩]) = true := by decide +kernel
  have hcode : ((SourceFile.parse heldAbove).root.named.all
      fun n => n.isComment || (ofTree n).stop != 4) = true := by decide +kernel
  simp only [List.any_eq_true, beq_iff_eq] at hshape
  obtain ⟨d, hd, hdoc⟩ := hshape
  refine ⟨d, hd, hdoc, (doc_apart_iff _ _ _ heldAbove d hd).mpr ?_⟩
  rintro ⟨earlier, code, between, first, docs, node, later, hroot, -, htaken, hcomment, -, -, hstop⟩
  have hfirst : ofTree first = ⟨4, 4⟩ := by
    rw [hdoc] at htaken
    exact (List.cons.inj htaken).1.symm
  have hmem : code ∈ (SourceFile.parse heldAbove).root.named := by
    rw [hroot]
    simp
  have hother := List.all_eq_true.mp hcode code hmem
  rw [hcomment, hstop, hfirst] at hother
  cases hother

/-- A function on a line with two comments after it, and another function below. -/
def trailedTwice : String := "package m\n\nfunc A() \x7b\x7d /* a */ // b\nfunc B() \x7b\x7d\n"

/-- **A comment that trails other code is taken as documentation** if another comment stands between, and with it
    the line of the code. -/
theorem trailing_comment_taken :
    (SourceFile.parse trailedTwice).broken = false ∧
      ∃ d ∈ (unitOf ⟨"m", []⟩ {} "a.go" (SourceFile.parse trailedTwice).root).functions,
        d.id = .function "m" "B" ∧ ∃ r ∈ d.doc, ∃ n ∈ (SourceFile.parse trailedTwice).root.named,
          n.isComment = false ∧ r.Meets (ofTree n) := by
  have hshape : ((unitOf ⟨"m", []⟩ {} "a.go" (SourceFile.parse trailedTwice).root).functions.any fun d =>
      d.id == .function "m" "B" && d.doc.any fun r =>
        (SourceFile.parse trailedTwice).root.named.any fun n => n.isComment == false && decide (r.Meets (ofTree n)))
      = true := by decide +kernel
  refine ⟨by decide +kernel, ?_⟩
  simpa only [List.any_eq_true, Bool.and_eq_true, beq_iff_eq, decide_eq_true_eq] using hshape

end FileScope
end GoExcerpt
