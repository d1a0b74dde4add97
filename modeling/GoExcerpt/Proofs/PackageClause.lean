import GoExcerpt.Proofs.Boundaries
import GoExcerpt.Proofs.Constraints
import GoExcerpt.Proofs.SourceText

/-!
# `Proofs.PackageClause` — constraints before the package clause

The header is searched by lines, and the package clause is read from lexemes. Where the clause is on the first line
that begins with `package` and a space, both end at the same place up to blanks (`Constraint.stands_header_of_foremost`).
A line further above that looks the same, say in a comment, ends the header too soon; and where not even the line of
the clause looks so, since a tab follows the keyword or a comment comes before it, the header goes on behind the
clause. These are the only two ways in which a constraint before the clause is missed, or one behind it is found
(`Constraint.excludes_eq_iff`).
-/

namespace GoExcerpt

/-! ## Lines begun -/

namespace Text

/-- Cutting a text put together of two: the last line of the one goes on with the first line of the other. -/
theorem splitOn_append {sep : Char} {a b lead line : List Char} {above below : List (List Char)}
    (ha : splitOn sep a = above ++ [lead]) (hb : splitOn sep b = line :: below) :
    splitOn sep (a ++ b) = above ++ (lead ++ line) :: below := by
  induction a generalizing above lead with
  | nil =>
      cases above with
      | nil =>
          obtain rfl := List.singleton_inj.mp ha
          exact hb
      | cons piece above => simp at ha
  | cons c a ih =>
      by_cases hc : c = sep
      · rw [hc, splitOn_cons_self] at ha
        rw [hc, List.cons_append, splitOn_cons_self]
        cases above with
        | nil => exact absurd (List.cons.inj ha).2 (splitOn_ne_nil sep a)
        | cons piece above =>
            obtain ⟨rfl, ha'⟩ := List.cons.inj ha
            rw [ih ha']
            rfl
      · obtain ⟨first, more, hpieces⟩ := List.exists_cons_of_ne_nil (splitOn_ne_nil sep a)
        rw [splitOn_cons_of_ne hc, hpieces, List.modifyHead_cons] at ha
        rw [List.cons_append, splitOn_cons_of_ne hc]
        cases above with
        | nil =>
            obtain ⟨rfl, rfl⟩ := List.cons.inj ha
            rw [@ih first [] hpieces]
            rfl
        | cons piece above =>
            obtain ⟨rfl, rfl⟩ := List.cons.inj ha
            rw [@ih lead (first :: above) hpieces]
            rfl

/-- The lines of a text up to the one in which a beginning of it ends. -/
def linesTo (before text : List Char) : List (List Char) :=
  (splitOn '\n' text).take (before.count '\n' + 1)

/-- The characters of a text that begin before a byte of it. -/
def upTo : Nat → List Char → List Char
  | _, [] => []
  | 0, _ => []
  | n + 1, c :: cs => c :: upTo (n + 1 - c.utf8Size) cs

theorem upTo_append (a b : List Char) : upTo (String.utf8Len a) (a ++ b) = a := by
  induction a with
  | nil => cases b <;> rfl
  | cons c a ih =>
      obtain ⟨n, hn⟩ : ∃ n, String.utf8Len (c :: a) = n + 1 := by
        have hsize := c.utf8Size_pos
        exact ⟨String.utf8Len (c :: a) - 1, by rw [String.utf8Len_cons]; omega⟩
      rw [List.cons_append, hn, upTo, ← hn, String.utf8Len_cons, Nat.add_sub_cancel, ih]

end Text

namespace Constraint

open Text (splitOn linesTo upTo isBlank trimStart Blanks)
open Lexeme (Apart)

variable {before rest : List Char}

/-! ## Lines up to the clause -/

/-- Where the line of the keyword begins, and how it goes on. -/
theorem exists_lines (before rest : List Char) :
    ∃ above lead more below, splitOn '\n' before = above ++ [lead] ∧
      before = above.flatMap (· ++ ['\n']) ++ lead ∧
      splitOn '\n' (before ++ 'p' :: rest) = above ++ (lead ++ 'p' :: more) :: below ∧
      linesTo before (before ++ 'p' :: rest) = above ++ [lead ++ 'p' :: more] := by
  obtain ⟨more, below, hmore⟩ := List.exists_cons_of_ne_nil (Text.splitOn_ne_nil '\n' rest)
  obtain hnone | ⟨above, lead, hbefore⟩ := (splitOn '\n' before).eq_nil_or_concat'
  · exact absurd hnone (Text.splitOn_ne_nil '\n' before)
  have hrest : splitOn '\n' ('p' :: rest) = ('p' :: more) :: below := by
    rw [Text.splitOn_cons_of_ne (by decide), hmore, List.modifyHead_cons]
  have hsplit := Text.splitOn_append hbefore hrest
  refine ⟨above, lead, more, below, hbefore, ?_, hsplit, ?_⟩
  · have hends := Text.flatMap_splitOn '\n' before
    rw [hbefore, List.flatMap_append, List.flatMap_singleton, ← List.append_assoc] at hends
    exact (List.append_cancel_right hends).symm
  · have hcount : before.count '\n' + 1 = (above ++ [lead ++ 'p' :: more]).length := by
      rw [← Text.length_splitOn, hbefore, List.length_append, List.length_append]
      rfl
    rw [linesTo, hsplit, hcount, List.append_cons above _ below, List.take_left]

/-- **A line before the clause that looks like one ends the header,** whatever comes after. -/
theorem header_append_of_opens (h : ∃ line ∈ splitOn '\n' before, opensPackage line = true) (rest : List Char) :
    header (before ++ rest) = header before := by
  obtain ⟨kept, line, below, hsplit, hkept, hline⟩ := exists_cut h
  obtain ⟨first, more, hrest⟩ := List.exists_cons_of_ne_nil (Text.splitOn_ne_nil '\n' rest)
  rw [header_of_cut hsplit hkept hline]
  rcases below.eq_nil_or_concat' with rfl | ⟨between, lead, rfl⟩
  · exact header_of_cut (Text.splitOn_append hsplit hrest) hkept (opensPackage_append hline first)
  · rw [← List.cons_append, ← List.append_assoc] at hsplit
    have hboth := Text.splitOn_append hsplit hrest
    rw [List.append_assoc, List.cons_append] at hboth
    exact header_of_cut hboth hkept hline

/-- The line of the clause is the first that looks like one. -/
def Foremost (before text : List Char) : Prop :=
  (∀ line ∈ splitOn '\n' before, opensPackage line = false) ∧ ∃ line ∈ linesTo before text, opensPackage line = true

instance (before text : List Char) : Decidable (Foremost before text) := inferInstanceAs (Decidable (_ ∧ _))

/-- **Where the line of the clause is the first that looks like one,** the header has the constraints before the
    clause and no others. -/
theorem stands_header_of_foremost (h : Foremost before (before ++ 'p' :: rest)) :
    Stands true (header (before ++ 'p' :: rest)) ↔ Stands true before := by
  obtain ⟨above, lead, more, below, hbefore, hcut, hsplit, hlines⟩ := exists_lines before rest
  obtain ⟨hplain, line, hmem, hline⟩ := h
  rw [hbefore] at hplain
  obtain ⟨habove, hlead⟩ := List.forall_mem_append.mp hplain
  have hopens : opensPackage (lead ++ 'p' :: more) = true := by
    rw [hlines, List.mem_append, List.mem_singleton] at hmem
    rcases hmem with hmem | rfl
    · rw [habove line hmem] at hline
      cases hline
    · exact hline
  have hblanks : Blanks lead := by
    refine (opensPackage_or_blanks hopens).resolve_left ?_
    simp [hlead lead (List.mem_singleton_self lead)]
  rw [header_of_cut hsplit habove hopens, hcut]
  exact (Stands.append_blanks_iff hblanks).symm

/-- Where no line up to the one of the clause looks like a clause, the header goes on behind it. -/
theorem exists_header_of_plain
    (h : ∀ line ∈ linesTo before (before ++ 'p' :: rest), opensPackage line = false) :
    ∃ more, header (before ++ 'p' :: rest) = before ++ 'p' :: more := by
  obtain ⟨above, lead, more, below, -, hcut, hsplit, hlines⟩ := exists_lines before rest
  rw [hlines] at h
  by_cases hopens : ∃ line ∈ below, opensPackage line = true
  · obtain ⟨kept, line, further, hbelow, hkept, hline⟩ := exists_cut hopens
    have hsplit' : splitOn '\n' (before ++ 'p' :: rest)
        = (above ++ [lead ++ 'p' :: more] ++ kept) ++ line :: further := by
      rw [hsplit, hbelow]
      simp
    rw [header_of_cut hsplit' (List.forall_mem_append.mpr ⟨h, hkept⟩) hline, hcut]
    exact ⟨more ++ '\n' :: kept.flatMap (· ++ ['\n']), by simp⟩
  · have hbelow : ∀ line ∈ below, opensPackage line = false := by simpa using hopens
    refine ⟨rest, header_of_plain ?_⟩
    rw [hsplit, List.append_cons]
    exact List.forall_mem_append.mpr ⟨h, hbelow⟩

/-- Such a header has all the constraints before the clause, as the word does not go on with the keyword. -/
theorem stands_header_of_plain
    (h : ∀ line ∈ linesTo before (before ++ 'p' :: rest), opensPackage line = false)
    (hapart : Apart before ('p' :: rest)) (hstands : Stands true before) :
    Stands true (header (before ++ 'p' :: rest)) := by
  obtain ⟨more, hheader⟩ := exists_header_of_plain h
  rw [hheader]
  refine hstands.append fun hword => absurd ?_ (hapart 'p' rest rfl (by decide))
  have hends : ['r', 'e'] <:+ word := ⟨"igno".toList, by decide⟩
  exact hends.trans hword

/-! ## The two ways to part -/

/-- A constraint stands before the clause, but behind a line that looks like a clause. -/
def Hidden (before : List Char) : Prop := ignoresFrom true before = true ∧ ignoresFrom true (header before) = false

instance (before : List Char) : Decidable (Hidden before) := inferInstanceAs (Decidable (_ ∧ _))

/-- No line up to the one of the clause looks like a clause, and a constraint stands in the header that goes on behind
    it, but none before it. -/
def Stray (before text : List Char) : Prop :=
  (∀ line ∈ linesTo before text, opensPackage line = false) ∧ ignoresFrom true (header text) = true ∧
    ignoresFrom true before = false

instance (before text : List Char) : Decidable (Stray before text) := inferInstanceAs (Decidable (_ ∧ _))

/-- **The header has a constraint just when the text before the clause has one,** unless that is hidden or another
    strays in. -/
theorem ignores_header_iff (hapart : Apart before ('p' :: rest)) :
    ignoresFrom true (header (before ++ 'p' :: rest)) = ignoresFrom true before ↔
      ¬ Hidden before ∧ ¬ Stray before (before ++ 'p' :: rest) := by
  constructor
  · intro heq
    refine ⟨fun hhidden => ?_, fun hstray => ?_⟩
    · obtain ⟨hbefore, hheader⟩ := hhidden
      by_cases hopens : ∃ line ∈ splitOn '\n' before, opensPackage line = true
      · rw [header_append_of_opens hopens, hheader, hbefore] at heq
        cases heq
      · rw [header_of_plain (by simpa using hopens), hbefore] at hheader
        cases hheader
    · rw [hstray.2.1, hstray.2.2] at heq
      cases heq
  · rintro ⟨hhidden, hstray⟩
    rw [Bool.eq_iff_iff]
    by_cases hopens : ∃ line ∈ splitOn '\n' before, opensPackage line = true
    · rw [header_append_of_opens hopens]
      refine ⟨fun h => ignoresFrom_iff.mpr (stands_of_header (ignoresFrom_iff.mp h)), fun h => ?_⟩
      by_contra hnone
      exact hhidden ⟨h, by simpa using hnone⟩
    by_cases hline : ∃ line ∈ linesTo before (before ++ 'p' :: rest), opensPackage line = true
    · rw [ignoresFrom_iff, ignoresFrom_iff]
      exact stands_header_of_foremost ⟨by simpa using hopens, hline⟩
    · have hplain : ∀ line ∈ linesTo before (before ++ 'p' :: rest), opensPackage line = false := by
        simpa using hline
      refine ⟨fun h => ?_, fun h => ?_⟩
      · by_contra hnone
        exact hstray ⟨hplain, h, by simpa using hnone⟩
      · exact ignoresFrom_iff.mpr (stands_header_of_plain hplain hapart (ignoresFrom_iff.mp h))

end Constraint

/-! ## Clauses -/

/-- A package clause opens with its keyword. -/
def Tree.Keyworded (t : Tree) : Prop :=
  t.kind = .packageClause → ∃ k e more, t.children = .leaf k none e "package" :: more

theorem Lexeme.keyworded_toLeaf (l : Lexeme) {k : Kind} (hk : k ≠ .packageClause) : (l.toLeaf k).Keyworded :=
  fun h => absurd h hk

/-- Steps that make package clauses only of what the keyword opens. -/
def Allowed.keyworded : Allowed where
  token _ k := k != .packageClause
  wrap k := k != .packageClause
  special
    | .seq (.seq (.token (.oneOf texts) k) g) (.wrap _) => texts == ["package"] && k != .comment && g.uses .adding
    | _ => false

theorem Rules.uses_keyworded (r : Rule) : (Rules.grammar r).uses .keyworded = true := by
  cases r with
  | binary level =>
      show (Rules.binary level).uses .keyworded = true
      unfold Rules.binary
      split
      next => rfl
      next => rfl
  | _ => rfl

theorem keyworded_kept :
    Kept .keyworded fun s s' => (∀ t ∈ s.built, t.Keyworded) → ∀ t ∈ s'.built, t.Keyworded := by
  refine kept_of_trees rfl ?_ ?_ ?_
  · rintro l k (rfl | rfl | ⟨w, hallowed⟩)
    · exact l.keyworded_toLeaf (by decide)
    · exact l.keyworded_toLeaf (by decide)
    · exact l.keyworded_toLeaf (bne_iff_ne.mp hallowed)
  · exact fun k t ts hallowed _ hk => absurd hk (bne_iff_ne.mp hallowed)
  · intro role t _ _ ht
    cases t <;> exact ht

/-- If the first tree of a frame is no comment, it is the first child of the node made of the frame. -/
theorem ReadState.wrap_concat (k : Kind) {first : Tree} (later : List Tree) {comments : List Tree}
    (hfirst : first.isComment = false) (hcomments : ∀ c ∈ comments, c.isComment = true) :
    wrap k (later ++ first :: comments) = gather k first later.reverse :: comments := by
  have hinOrder : (later ++ first :: comments).reverse = comments.reverse ++ first :: later.reverse := by simp
  have hleading : ∀ c ∈ comments.reverse, c.isComment = true := fun c hc => hcomments c (List.mem_reverse.mp hc)
  have htake : (comments.reverse ++ first :: later.reverse).takeWhile Tree.isComment = comments.reverse := by
    rw [List.takeWhile_append_of_pos hleading, List.takeWhile_cons_of_neg (by simp [hfirst]), List.append_nil]
  have hdrop : (comments.reverse ++ first :: later.reverse).dropWhile Tree.isComment = first :: later.reverse := by
    rw [List.dropWhile_append_of_pos hleading, List.dropWhile_cons_of_neg (by simp [hfirst])]
  unfold wrap
  simp only [hinOrder, htake, hdrop, List.reverse_reverse]

/-- A frame that begins with the keyword makes a node that the keyword opens. -/
theorem keyworded_of_frame {fuel : Nat} {m : Reading} {k kind : Kind} {g : Grammar} {rest : List Lexeme}
    {s' : ReadState} (hk : k ≠ .comment) (hg : g.uses .adding = true)
    (h : (.token (.oneOf ["package"]) k ++ g ++ .wrap kind : Grammar).run Rules.grammar fuel m ⟨rest, []⟩ = some s') :
    ∀ t ∈ s'.built, t.Keyworded := by
  obtain ⟨_, u, hu, hwrap⟩ := Grammar.exists_of_run_seq h
  obtain ⟨_, v, hv, hmore⟩ := Grammar.exists_of_run_seq hu
  obtain ⟨comments, l, -, hsat, hbuilt⟩ := ReadState.exists_of_take (Grammar.take_of_run_token hv)
  obtain ⟨new, hnew⟩ := exists_append_of_run hg hmore
  have htext : l.text = "package" := by simpa using (Bool.and_eq_true_iff.mp hsat).2
  have hfirst : (l.toLeaf k).isComment = false := by
    simpa [Lexeme.toLeaf, Tree.isComment, Tree.kind] using hk
  have hcomments : ∀ c ∈ (comments.map (·.toLeaf .comment)).reverse, c.isComment = true := by
    intro c hc
    obtain ⟨l', -, rfl⟩ := List.mem_map.mp (List.mem_reverse.mp hc)
    rfl
  rw [List.append_nil] at hbuilt
  have hwhole : s'.built
      = ReadState.gather kind (l.toLeaf k) new.reverse :: (comments.map (·.toLeaf .comment)).reverse := by
    rw [Grammar.eq_of_run_wrap hwrap, ← ReadState.wrap_concat kind new hfirst hcomments, hnew, hbuilt]
  rw [hwhole]
  refine List.forall_mem_cons.mpr ⟨fun _ => ⟨k, l.extent, new.reverse, ?_⟩, fun t ht => ?_⟩
  · rw [← htext]
    rfl
  · obtain ⟨c, -, rfl⟩ := List.mem_map.mp (List.mem_reverse.mp ht)
    exact c.keyworded_toLeaf (by decide)

/-- **Every reading makes package clauses that the keyword opens.** -/
theorem keyworded_of_run {fuel : Nat} {m : Reading} {g : Grammar} {s s' : ReadState}
    (hg : g.uses .keyworded = true) (h : g.run Rules.grammar fuel m s = some s')
    (hs : ∀ t ∈ s.built, t.Keyworded) : ∀ t ∈ s'.built, t.Keyworded := by
  refine keyworded_kept.run_special (fun r _ => Rules.uses_keyworded r) ?_ hg h hs
  intro fuel _ m g s s' hspecial hrun hs t ht
  rcases List.mem_append.mp ht with ht | ht
  · unfold Allowed.keyworded at hspecial
    simp only at hspecial
    split at hspecial
    next texts k g kind =>
      simp only [Bool.and_eq_true, beq_iff_eq, bne_iff_ne] at hspecial
      obtain ⟨⟨rfl, hk⟩, hg⟩ := hspecial
      exact keyworded_of_frame hk hg hrun t ht
    next => cases hspecial
  · exact hs t ht

namespace Tree.MadeOf

variable {ls : List Lexeme} {t c : Tree} {more : List Tree}

/-- A leaf is one of the lexemes. -/
theorem exists_lexeme {k : Kind} {r : Option Role} {e : Extent} {text : String}
    (h : (Tree.leaf k r e text).MadeOf ls) : ∃ l ∈ ls, l.extent = e ∧ l.text = text := by
  cases h with
  | leaf hl => exact ⟨_, hl, rfl, rfl⟩

/-- A node begins with its first child. -/
theorem start_eq (h : t.MadeOf ls) (hchildren : t.children = c :: more) : t.extent.start = c.extent.start := by
  cases h with
  | leaf hl => cases hchildren
  | node =>
      obtain ⟨rfl, -⟩ := List.cons.inj hchildren
      rfl

end Tree.MadeOf

namespace SourceFile

variable {source : String} {clause : Tree}

theorem keyworded_of_mem_parse (h : clause ∈ (parse source).root.named) : clause.Keyworded := by
  refine forall_mem_parse ?_ (fun _ _ _ hread hs => keyworded_of_run rfl hread hs) h
  rintro l k (rfl | rfl)
  · exact l.keyworded_toLeaf (by decide)
  · exact l.keyworded_toLeaf (by decide)

/-- **A package clause begins with its keyword, at a place where no word goes on.** -/
theorem exists_place_of_packageClause (h : clause ∈ (parse source).root.named) (hkind : clause.kind = .packageClause) :
    ∃ before after, source.toList = before ++ 'p' :: after ∧ clause.first = String.utf8Len before ∧
      Lexeme.Apart before ('p' :: after) := by
  obtain ⟨k, e, more, hchildren⟩ := keyworded_of_mem_parse h hkind
  have hmade := madeOf_of_mem_parse h
  have hleaf : (Tree.leaf k none e "package").MadeOf (Lexeme.scan source) :=
    (hmade.child (hchildren ▸ List.mem_cons_self)).here
  obtain ⟨l, hl, rfl, htext⟩ := hleaf.exists_lexeme
  obtain ⟨before, after, hsource, hstart, hapart⟩ := Lexeme.exists_place_of_mem_scan hl
  rw [htext] at hsource hapart
  refine ⟨before, "ackage".toList ++ after, hsource, ?_, hapart⟩
  have hfirst : clause.extent.start = Position.zero.advance before := (hmade.here.start_eq hchildren).trans hstart
  rw [Tree.first, hfirst, Position.byte_advance]
  exact Nat.zero_add _

end SourceFile

namespace Constraint

open Text (upTo)

/-- **A constraint takes a file out of the build just when it stands before the package clause,** if the line of the
    clause is the first that looks like one; and else as well, unless a line that looks like a clause hides it, or
    nothing on the lines up to the clause looks like one and a constraint strays in from behind. -/
theorem excludes_eq_iff {source : String} {clause : Tree}
    (h : (SourceFile.parse source).root.named.find? (·.kind == .packageClause) = some clause) :
    (Foremost (upTo clause.first source.toList) source.toList →
      excludes source = ignoresFrom true (upTo clause.first source.toList)) ∧
    (excludes source = ignoresFrom true (upTo clause.first source.toList) ↔
      ¬ Hidden (upTo clause.first source.toList) ∧ ¬ Stray (upTo clause.first source.toList) source.toList) := by
  have hkind : clause.kind = .packageClause := by simpa using List.find?_some h
  obtain ⟨before, after, hsource, hfirst, hapart⟩ :=
    SourceFile.exists_place_of_packageClause (List.mem_of_find?_eq_some h) hkind
  rw [excludes, hfirst, hsource, Text.upTo_append]
  refine ⟨fun hforemost => ?_, ignores_header_iff hapart⟩
  rw [Bool.eq_iff_iff, ignoresFrom_iff, ignoresFrom_iff]
  exact stands_header_of_foremost hforemost

/-- A generated file, its lines ended by a carriage return and a line feed. -/
def generated : String := "// généré\r\n//go:build ignore\r\n\r\npackage main\r\n"

theorem excludes_eq_iff_generated :
    ∃ clause, (SourceFile.parse generated).root.named.find? (·.kind == .packageClause) = some clause ∧
      Foremost (upTo clause.first generated.toList) generated.toList ∧ excludes generated = true ∧
      excludes generated = ignoresFrom true (upTo clause.first generated.toList) := by
  have hfirst : ((SourceFile.parse generated).root.named.find? (·.kind == .packageClause)).map Tree.first
      = some 35 := by decide +kernel
  obtain ⟨clause, hclause, hbyte⟩ := Option.map_eq_some_iff.mp hfirst
  have hforemost : Foremost (upTo clause.first generated.toList) generated.toList := by
    rw [hbyte]
    decide +kernel
  exact ⟨clause, hclause, hforemost, by decide +kernel, (excludes_eq_iff hclause).1 hforemost⟩

/-- A file with a tab after the keyword, and a constraint at its end. -/
def tabbed : String := "package\tm\n\nfunc A() \x7b\x7d\n\n//go:build ignore\n"

/-- A file with a constraint below a comment that has a line like a package clause in it. -/
def commented : String := "/*\npackage docs\n*/\n//go:build ignore\n\npackage m\n\nfunc G() \x7b\x7d\n"

/-- The one is taken out of the build by what stands behind the clause, the other is kept in it although a
    constraint stands before the clause. -/
theorem tabbed_excluded_commented_kept :
    (∃ clause, (SourceFile.parse tabbed).root.named.find? (·.kind == .packageClause) = some clause ∧
      (SourceFile.parse tabbed).broken = false ∧ excludes tabbed = true ∧
      ignoresFrom true (upTo clause.first tabbed.toList) = false) ∧
    ∃ clause, (SourceFile.parse commented).root.named.find? (·.kind == .packageClause) = some clause ∧
      (SourceFile.parse commented).broken = false ∧ excludes commented = false ∧
      ignoresFrom true (upTo clause.first commented.toList) = true := by
  have htabbed : (SourceFile.parse tabbed).broken = false ∧
      ((SourceFile.parse tabbed).root.named.find? (·.kind == .packageClause)).map Tree.first = some 0 := by
    decide +kernel
  have hcommented : (SourceFile.parse commented).broken = false ∧
      ((SourceFile.parse commented).root.named.find? (·.kind == .packageClause)).map Tree.first = some 38 := by
    decide +kernel
  obtain ⟨first, hfirst, hbyte⟩ := Option.map_eq_some_iff.mp htabbed.2
  obtain ⟨second, hsecond, hbyte'⟩ := Option.map_eq_some_iff.mp hcommented.2
  refine ⟨⟨first, hfirst, htabbed.1, by decide +kernel, ?_⟩, second, hsecond, hcommented.1, by decide +kernel, ?_⟩
  · rw [hbyte]
    decide +kernel
  · rw [hbyte']
    decide +kernel

end Constraint
end GoExcerpt
