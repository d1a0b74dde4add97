import GoExcerpt.Proofs.ManifestLines

/-!
# `Proofs.ManifestText` — a manifest is read back however it is laid out

Items can be written down with blanks, comments, quotes and lines without words wherever these may stand
(`Written`), and with line ends of two kinds (`Ended`). Any way to write down an item leaves the reader where the
item itself puts it (`Progress.after`), with no block open. By induction over the items this holds of all lines of
a manifest (`Written.foldl_line`). Any items can be written down (`exists_written`), so module and required paths
are read back from some text, and from every one (`parse_of_written`).
-/

namespace GoExcerpt.Manifest

open Text

/-! ## Items -/

/-- A word that can stand anywhere in a manifest. -/
structure Word where
  text : List Char
  isWord : IsWord text
  unmarked : Unmarked text

/-- A path as manifests name it. -/
structure ModulePath extends Word where
  unquoted : ∀ c ∈ text, isQuote c = false
  ne_open : text ≠ ['(']

/-- **What manifests consist of.** Directives that are not looked at have any other name, and what stands in their
blocks is not part of the item. -/
inductive Item where
  | module (path : ModulePath)
  | require (path : ModulePath) (version : Word)
  | requires (entries : List (ModulePath × Word))
  | directive (name : Word) (arguments : List Word) (hmodule : name.text ≠ "module".toList)
      (hrequire : name.text ≠ "require".toList) (hopen : ∀ w ∈ arguments.head?, w.text ≠ ['('])
  | block (name : Word) (hrequire : name.text ≠ "require".toList)

def ModulePath.name (path : ModulePath) : String := String.ofList path.text

namespace Item

/-- The path that an item gives to the module. -/
def module? : Item → Option String
  | module path => some path.name
  | _ => none

/-- The paths that an item requires. -/
def required : Item → List String
  | require path _ => [path.name]
  | requires entries => entries.map (·.1.name)
  | _ => []

end Item

/-! ## Layouts -/

/-- **A path as it is, or in quotes** of either kind. -/
inductive Spelled (path : ModulePath) : List Char → Prop where
  | plain : Spelled path path.text
  | quoted {q : Char} (hq : isQuote q = true) : Spelled path (q :: path.text ++ [q])

/-- **Lines of a block of required paths,** lines without words among them. None of them may close the block. -/
inductive Entries : List (ModulePath × Word) → List (List Char) → Prop where
  | nil : Entries [] []
  | idle {entries : List (ModulePath × Word)} {line : List Char} {lines : List (List Char)}
      (hline : Laid [] line) (hrest : Entries entries lines) : Entries entries (line :: lines)
  | entry {path : ModulePath} {version : Word} {entries : List (ModulePath × Word)} {spelling line : List Char}
      {lines : List (List Char)} (hpath : Spelled path spelling) (hline : Laid [spelling, version.text] line)
      (hclose : ¬ Laid [[')']] line) (hrest : Entries entries lines) :
      Entries ((path, version) :: entries) (line :: lines)

/-- **Lines that write down items one after another,** lines without words among them. A comment follows neither
a module path nor a lone argument `(/` so closely that its slashes make three in a row. -/
inductive Written : List Item → List (List Char) → Prop where
  | nil : Written [] []
  | idle {items : List Item} {line : List Char} {lines : List (List Char)} (hline : Laid [] line)
      (hrest : Written items lines) : Written items (line :: lines)
  | module {path : ModulePath} {items : List Item} {spelling content comment : List Char}
      {lines : List (List Char)} (hpath : Spelled path spelling)
      (hline : Spread ["module".toList, spelling] content) (hcomment : Comment comment)
      (hapart : Apart content comment) (hrest : Written items lines) :
      Written (.module path :: items) ((content ++ comment) :: lines)
  | require {path : ModulePath} {version : Word} {items : List Item} {spelling line : List Char}
      {lines : List (List Char)} (hpath : Spelled path spelling)
      (hline : Laid ["require".toList, spelling, version.text] line) (hrest : Written items lines) :
      Written (.require path version :: items) (line :: lines)
  | requires {entries : List (ModulePath × Word)} {items : List Item} {opening closing : List Char}
      {inner lines : List (List Char)} (hopening : Laid ["require".toList, ['(']] opening)
      (hinner : Entries entries inner) (hclosing : Laid [[')']] closing) (hrest : Written items lines) :
      Written (.requires entries :: items) (opening :: inner ++ closing :: lines)
  | directive {name : Word} {arguments : List Word} {hmodule hrequire hopen} {items : List Item}
      {content comment : List Char} {lines : List (List Char)}
      (hline : Spread (name.text :: arguments.map (·.text)) content) (hcomment : Comment comment)
      (hapart : arguments.map (·.text) = [['(', '/']] → Apart content comment) (hrest : Written items lines) :
      Written (.directive name arguments hmodule hrequire hopen :: items) ((content ++ comment) :: lines)
  | block {name : Word} {hrequire} {items : List Item} {opening closing : List Char}
      {inner lines : List (List Char)} (hopening : Laid [name.text, ['(']] opening)
      (hinner : ∀ line ∈ inner, ¬ Laid [[')']] line) (hclosing : Laid [[')']] closing)
      (hrest : Written items lines) : Written (.block name hrequire :: items) (opening :: inner ++ closing :: lines)

/-- **The text of lines,** each with a line feed at its end, or a carriage return and a line feed. The last line
may go without. -/
inductive Ended : List (List Char) → List Char → Prop where
  | nil : Ended [] []
  | last {line : List Char} (hline : '\n' ∉ line) : Ended [line] line
  | lf {line text : List Char} {lines : List (List Char)} (hline : '\n' ∉ line) (hrest : Ended lines text) :
      Ended (line :: lines) (line ++ '\n' :: text)
  | crlf {line text : List Char} {lines : List (List Char)} (hline : '\n' ∉ line) (hrest : Ended lines text) :
      Ended (line :: lines) (line ++ '\r' :: '\n' :: text)

namespace Spelled

variable {path : ModulePath} {spelling : List Char}

theorem isQuote_ne {q c : Char} (hq : isQuote q = true) (hc : isQuote c = false) : q ≠ c := by
  rintro rfl
  rw [hq] at hc
  cases hc

theorem unmarked (h : Spelled path spelling) : Unmarked spelling := by
  cases h with
  | plain => exact path.unmarked
  | @quoted q hq =>
      have hslash : q ≠ '/' := isQuote_ne hq (by decide)
      have hquote : Unmarked [q] := unmarked_of_not_mem (by simpa using hslash.symm)
      have hfront : Unmarked ([q] ++ path.text) := by
        apply hquote.append path.unmarked
        intro hlast
        exact absurd (Option.some.inj hlast) hslash
      apply hfront.append hquote
      intro _ hhead
      exact hslash (Option.some.inj hhead)

theorem ne_open (h : Spelled path spelling) : spelling ≠ ['('] := by
  cases h with
  | plain => exact path.ne_open
  | quoted hq =>
      intro heq
      exact isQuote_ne hq (by decide) (List.cons.inj heq).1

/-- **Taking the quotes away gives the path.** -/
theorem unquote_eq (h : Spelled path spelling) : unquote spelling = path.name := by
  unfold unquote ModulePath.name
  cases h with
  | plain =>
      have hself : trimWhile isQuote ([] ++ path.text ++ []) = path.text :=
        trimWhile_append (fun _ h => nomatch h) (fun _ h => nomatch h) path.unquoted
      rw [List.nil_append, List.append_nil] at hself
      rw [hself]
  | @quoted q hq =>
      have hone : ∀ c ∈ [q], isQuote c = true := by simpa using hq
      have hinner : trimWhile isQuote ([q] ++ path.text ++ [q]) = path.text :=
        trimWhile_append hone hone path.unquoted
      exact congrArg String.ofList hinner

end Spelled

theorem unmarked_module : Unmarked "module".toList := unmarked_of_not_mem (by decide)

theorem unmarked_require : Unmarked "require".toList := unmarked_of_not_mem (by decide)

theorem unmarked_open : Unmarked ['('] := unmarked_of_not_mem (by decide)

theorem unmarked_close : Unmarked [')'] := unmarked_of_not_mem (by decide)

/-! ## What a line does -/

namespace Progress

variable {p : Progress} {line : List Char}

/-- Where an item leaves the reader. -/
def after (p : Progress) (item : Item) : Progress :=
  { p with module? := item.module?.or p.module?, requires := item.required.reverse ++ p.requires }

theorem line_idle (h : Laid [] line) (p : Progress) : p.line line = p := by
  have hwords : words line = [] := words_eq_of_laid h (fun _ hw => nomatch hw) (fun _ hw => nomatch hw)
  rw [line_eq_take, hwords, take_nil]

theorem take_of_closed (hp : p.block? = none) (words : List (List Char)) : p.take words = p.outside words := by
  unfold take
  rw [hp]

theorem take_of_open {directive : String} (hp : p.block? = some directive) (words : List (List Char)) :
    p.take words = p.inside directive words := by
  unfold take
  rw [hp]

theorem line_module {path : ModulePath} {spelling content comment : List Char} (hp : p.block? = none)
    (hpath : Spelled path spelling) (hline : Spread ["module".toList, spelling] content)
    (hcomment : Comment comment) (hapart : Apart content comment) :
    p.line (content ++ comment) = p.after (.module path) := by
  have hwords : words (content ++ comment) = ["module".toList, spelling] := by
    refine words_of_spread hline ?_ hcomment hapart
    simpa using ⟨unmarked_module, hpath.unmarked⟩
  rw [line_eq_take, hwords, take_of_closed hp, outside, if_neg hpath.ne_open, if_pos rfl, hpath.unquote_eq]
  rfl

theorem line_require {path : ModulePath} {version : Word} {spelling : List Char} (hp : p.block? = none)
    (hpath : Spelled path spelling) (hline : Laid ["require".toList, spelling, version.text] line) :
    p.line line = p.after (.require path version) := by
  have hunmarked : ∀ w ∈ ["require".toList, spelling, version.text], Unmarked w := by
    simpa using ⟨unmarked_require, hpath.unmarked, version.unmarked⟩
  obtain ⟨more, hwords⟩ : ∃ more, words line = ["require".toList, spelling] ++ more :=
    exists_words_of_laid hline hunmarked
  have hkeyword : "require".toList ≠ "module".toList := by decide
  rw [line_eq_take, hwords, take_of_closed hp, List.cons_append, List.cons_append, outside, if_neg hpath.ne_open,
    if_neg hkeyword, if_pos rfl, hpath.unquote_eq]
  rfl

theorem outside_eq_self {words : List (List Char)}
    (h : ∀ directive first more, words = directive :: first :: more →
      first ≠ ['('] ∧ directive ≠ "module".toList ∧ directive ≠ "require".toList) : p.outside words = p := by
  rcases words with _ | ⟨directive, _ | ⟨first, more⟩⟩
  · rfl
  · rfl
  · obtain ⟨hopen, hmodule, hrequire⟩ := h directive first more rfl
    rw [outside, if_neg hopen, if_neg hmodule, if_neg hrequire]

/-- **Other directives change nothing,** whether all their words are read or a slash is lost at the end. -/
theorem line_directive {name : Word} {arguments : List Word} {content comment : List Char} (hp : p.block? = none)
    (hmodule : name.text ≠ "module".toList) (hrequire : name.text ≠ "require".toList)
    (hopen : ∀ w ∈ arguments.head?, w.text ≠ ['(']) (hline : Spread (name.text :: arguments.map (·.text)) content)
    (hcomment : Comment comment) (hapart : arguments.map (·.text) = [['(', '/']] → Apart content comment) :
    p.line (content ++ comment) = p := by
  have hunmarked : ∀ w ∈ name.text :: arguments.map (·.text), Unmarked w := by
    simpa using ⟨name.unmarked, fun w _ => w.unmarked⟩
  rw [line_eq_take, take_of_closed hp]
  apply outside_eq_self
  intro directive first more hwords
  have hlaid : Laid (name.text :: arguments.map (·.text)) (content ++ comment) :=
    ⟨content, comment, hline, hcomment, rfl⟩
  obtain ⟨rfl, hfirst | hlone⟩ := heads_of_laid hlaid hunmarked hwords
  · obtain ⟨w, hw, rfl⟩ := Option.map_eq_some_iff.mp (List.head?_map ▸ hfirst)
    exact ⟨hopen w hw, hmodule, hrequire⟩
  · refine ⟨?_, hmodule, hrequire⟩
    -- a lone argument `(/` is read in full, so what is read cannot be its first character
    rintro rfl
    rw [words_of_spread hline hunmarked hcomment (hapart hlone), hlone] at hwords
    cases hwords

/-- A line opens the block of a directive. -/
theorem line_open {name : List Char} (hp : p.block? = none) (hname : Unmarked name)
    (hline : Laid [name, ['(']] line) : p.line line = { p with block? := some (String.ofList name) } := by
  have hwords : words line = [name, ['(']] := by
    apply words_eq_of_laid hline
    · simpa using ⟨hname, unmarked_open⟩
    · simp
  rw [line_eq_take, hwords, take_of_closed hp, outside, if_pos rfl]

/-- The lines laid out as the end of a block are those read as one. -/
theorem words_eq_close_iff : words line = [[')']] ↔ Laid [[')']] line := by
  constructor
  · exact laid_of_words
  · intro hlaid
    apply words_eq_of_laid hlaid
    · simpa using unmarked_close
    · simp

theorem line_close {directive : String} (hp : p.block? = some directive) (hline : Laid [[')']] line) :
    p.line line = { p with block? := none } := by
  rw [line_eq_take, words_eq_close_iff.mpr hline, take_of_open hp, inside, if_pos rfl]

theorem line_entry {path : ModulePath} {version : Word} {spelling : List Char} (hp : p.block? = some "require")
    (hpath : Spelled path spelling) (hline : Laid [spelling, version.text] line) (hclose : ¬ Laid [[')']] line) :
    p.line line = { p with requires := path.name :: p.requires } := by
  have hunmarked : ∀ w ∈ [spelling, version.text], Unmarked w := by
    simpa using ⟨hpath.unmarked, version.unmarked⟩
  obtain ⟨more, hwords⟩ : ∃ more, words line = [spelling] ++ more := exists_words_of_laid hline hunmarked
  rw [line_eq_take, take_of_open hp]
  unfold inside
  rw [if_neg (mt words_eq_close_iff.mp hclose), if_pos (beq_self_eq_true _), hwords, ← hpath.unquote_eq]
  rfl

theorem line_ignored {directive : String} (hp : p.block? = some directive) (hdirective : directive ≠ "require")
    (hclose : ¬ Laid [[')']] line) : p.line line = p := by
  rw [line_eq_take, take_of_open hp]
  unfold inside
  rw [if_neg (mt words_eq_close_iff.mp hclose), if_neg (by simpa using hdirective)]

/-! ## What items do -/

theorem foldl_entries {entries : List (ModulePath × Word)} {inner : List (List Char)} (h : Entries entries inner)
    (hp : p.block? = some "require") :
    inner.foldl Progress.line p = { p with requires := (entries.map (·.1.name)).reverse ++ p.requires } := by
  induction h generalizing p with
  | nil => rfl
  | idle hline _ ih =>
      rw [List.foldl_cons, line_idle hline]
      exact ih hp
  | entry hpath hline hclose _ ih =>
      rw [List.foldl_cons, line_entry hp hpath hline hclose, List.map_cons, List.reverse_cons, List.append_assoc]
      exact ih hp

theorem foldl_requires {entries : List (ModulePath × Word)} {opening closing : List Char}
    {inner : List (List Char)} (hp : p.block? = none) (hopening : Laid ["require".toList, ['(']] opening)
    (hinner : Entries entries inner) (hclosing : Laid [[')']] closing) :
    (opening :: inner ++ [closing]).foldl Progress.line p = p.after (.requires entries) := by
  rw [List.cons_append, List.foldl_cons, line_open hp unmarked_require hopening, String.ofList_toList,
    List.foldl_append, foldl_entries hinner rfl, List.foldl_cons, line_close rfl hclosing]
  unfold after
  rw [← hp]
  rfl

theorem foldl_ignored {directive : String} {inner : List (List Char)} (hp : p.block? = some directive)
    (hdirective : directive ≠ "require") (hinner : ∀ line ∈ inner, ¬ Laid [[')']] line) :
    inner.foldl Progress.line p = p := by
  induction inner with
  | nil => rfl
  | cons line inner ih =>
      rw [List.foldl_cons, line_ignored hp hdirective (hinner line List.mem_cons_self)]
      exact ih fun other hother => hinner other (List.mem_cons_of_mem line hother)

/-- **Blocks of other directives change nothing,** whatever stands in them. -/
theorem foldl_block {name : Word} {opening closing : List Char} {inner : List (List Char)} (hp : p.block? = none)
    (hrequire : name.text ≠ "require".toList) (hopening : Laid [name.text, ['(']] opening)
    (hinner : ∀ line ∈ inner, ¬ Laid [[')']] line) (hclosing : Laid [[')']] closing) :
    (opening :: inner ++ [closing]).foldl Progress.line p = p := by
  have hdirective : String.ofList name.text ≠ "require" := by
    intro heq
    apply hrequire
    rw [← heq, String.toList_ofList]
  rw [List.cons_append, List.foldl_cons, line_open hp name.unmarked hopening, List.foldl_append,
    foldl_ignored rfl hdirective hinner, List.foldl_cons, line_close rfl hclosing, ← hp]
  rfl

end Progress

/-- **The lines of items leave the reader where the items put it,** with no block open before or after. -/
theorem Written.foldl_line {items : List Item} {lines : List (List Char)} (h : Written items lines) {p : Progress}
    (hp : p.block? = none) : lines.foldl Progress.line p = items.foldl Progress.after p := by
  induction h generalizing p with
  | nil => rfl
  | idle hline _ ih =>
      rw [List.foldl_cons, Progress.line_idle hline]
      exact ih hp
  | module hpath hline hcomment hapart _ ih =>
      rw [List.foldl_cons, Progress.line_module hp hpath hline hcomment hapart]
      exact ih hp
  | require hpath hline _ ih =>
      rw [List.foldl_cons, Progress.line_require hp hpath hline]
      exact ih hp
  | requires hopening hinner hclosing _ ih =>
      rw [List.append_cons, List.foldl_append, Progress.foldl_requires hp hopening hinner hclosing]
      exact ih hp
  | @directive _ _ hmodule hrequire hopen _ _ _ _ hline hcomment hapart _ ih =>
      rw [List.foldl_cons, Progress.line_directive hp hmodule hrequire hopen hline hcomment hapart]
      exact ih hp
  | @block _ hrequire _ _ _ _ _ hopening hinner hclosing _ ih =>
      rw [List.append_cons, List.foldl_append, Progress.foldl_block hp hrequire hopening hinner hclosing]
      exact ih hp

/-- **However the lines end, they are read one by one.** -/
theorem Ended.foldl_line {lines : List (List Char)} {text : List Char} (h : Ended lines text) (p : Progress) :
    (splitOn '\n' text).foldl Progress.line p = lines.foldl Progress.line p := by
  induction h generalizing p with
  | nil => exact p.line_idle ⟨[], [], .blanks blanks_nil, .inl rfl, rfl⟩
  | last hline => rw [splitOn_of_not_mem hline]
  | lf hline _ ih =>
      rw [splitOn_append_cons, splitOn_of_not_mem hline, List.foldl_append, List.foldl_cons]
      exact ih _
  | @crlf line text lines hline _ ih =>
      have hreturn : '\n' ∉ line ++ ['\r'] := by simpa using hline
      have hsame : p.line (line ++ ['\r']) = p.line line := by
        rw [Progress.line_eq_take, Progress.line_eq_take, words_append_blank (by decide)]
      rw [List.append_cons, splitOn_append_cons, splitOn_of_not_mem hreturn, List.foldl_append, List.foldl_cons,
        hsame]
      exact ih _

/-! ## What items amount to -/

theorem requires_foldl_after (items : List Item) (p : Progress) :
    (items.foldl Progress.after p).requires = (items.flatMap Item.required).reverse ++ p.requires := by
  induction items generalizing p with
  | nil => rfl
  | cons item items ih =>
      rw [List.foldl_cons, ih, List.flatMap_cons, List.reverse_append, List.append_assoc]
      rfl

theorem module?_foldl_after (items : List Item) (p : Progress) :
    (items.foldl Progress.after p).module? = (items.filterMap Item.module?).getLast?.or p.module? := by
  induction items generalizing p with
  | nil => rfl
  | cons item items ih =>
      rw [List.foldl_cons, ih]
      show _ = (List.filterMap Item.module? (item :: items)).getLast?.or p.module?
      cases hitem : item.module? with
      | none =>
          rw [List.filterMap_cons_none hitem]
          unfold Progress.after
          rw [hitem]
          rfl
      | some path =>
          rw [List.filterMap_cons_some hitem, List.getLast?_cons]
          unfold Progress.after
          rw [hitem]
          cases (items.filterMap Item.module?).getLast? <;> rfl

/-- The items give no path to the module just if none of them is for it. -/
theorem getLast?_module?_eq_none_iff (items : List Item) :
    (items.filterMap Item.module?).getLast? = none ↔ ∀ path, Item.module path ∉ items := by
  rw [List.getLast?_eq_none_iff, List.filterMap_eq_nil_iff]
  constructor
  · intro h path hmem
    cases h _ hmem
  · intro h item hmem
    cases item with
    | module path => exact absurd hmem (h path)
    | _ => rfl

/-- **What is read from lines that write down items.** -/
theorem Written.parse_eq {items : List Item} {lines : List (List Char)} {text : String}
    (hlines : Written items lines) (htext : Ended lines text.toList) (origin : String) :
    parse text origin = (items.filterMap Item.module?).getLast?.elim (.error (.noModuleDirective origin))
      fun path => .ok ⟨path :: items.flatMap Item.required⟩ := by
  have hfold : (splitOn '\n' text.toList).foldl Progress.line {} = items.foldl Progress.after {} :=
    (htext.foldl_line {}).trans (hlines.foldl_line rfl)
  unfold parse
  simp only [hfold, module?_foldl_after, requires_foldl_after, Option.or_none, List.append_nil, List.reverse_reverse]
  cases (items.filterMap Item.module?).getLast? <;> rfl

/-! ## Items without anything between -/

/-- The words that write down an item, line by line. -/
def Item.rows : Item → List (List (List Char))
  | .module path => [["module".toList, path.text]]
  | .require path version => [["require".toList, path.text, version.text]]
  | .requires entries =>
      ["require".toList, ['(']] :: entries.map (fun e => [e.1.text, e.2.text]) ++ [[[')']]]
  | .directive name arguments _ _ _ => [name.text :: arguments.map (·.text)]
  | .block name _ => [[name.text, ['(']], [[')']]]

theorem isWord_of_mem_rows {item : Item} {row : List (List Char)} {w : List Char} (hrow : row ∈ item.rows)
    (hw : w ∈ row) : IsWord w := by
  have hmodule : IsWord "module".toList := by decide
  have hrequire : IsWord "require".toList := by decide
  have hopen : IsWord ['('] := by decide
  cases item with
  | module path =>
      rw [List.mem_singleton.mp hrow] at hw
      exact List.forall_mem_cons.mpr ⟨hmodule, by simpa using path.isWord⟩ w hw
  | require path version =>
      rw [List.mem_singleton.mp hrow] at hw
      exact List.forall_mem_cons.mpr ⟨hrequire, by simpa using ⟨path.isWord, version.isWord⟩⟩ w hw
  | requires entries =>
      simp only [Item.rows, List.cons_append, List.mem_cons, List.mem_append, List.mem_map, List.not_mem_nil,
        or_false] at hrow
      rcases hrow with rfl | ⟨e, -, rfl⟩ | rfl
      · exact List.forall_mem_cons.mpr ⟨hrequire, by simpa using hopen⟩ w hw
      · exact List.forall_mem_cons.mpr ⟨e.1.isWord, by simpa using e.2.isWord⟩ w hw
      · rw [List.mem_singleton.mp hw]
        exact isWord_close
  | directive name arguments =>
      rw [List.mem_singleton.mp hrow] at hw
      exact List.forall_mem_cons.mpr ⟨name.isWord, by simpa using fun x _ => x.isWord⟩ w hw
  | block name =>
      rcases List.mem_cons.mp hrow with rfl | hrow
      · exact List.forall_mem_cons.mpr ⟨name.isWord, by simpa using hopen⟩ w hw
      · rw [List.mem_singleton.mp hrow, List.mem_singleton] at hw
        rw [hw]
        exact isWord_close

theorem laid_of_spread {words : List (List Char)} {line : List Char} (h : Spread words line) : Laid words line :=
  ⟨line, [], h, .inl rfl, (List.append_nil line).symm⟩

/-- A line of two words does not close a block. -/
theorem entries_rows (entries : List (ModulePath × Word)) :
    Entries entries ((entries.map fun e => [e.1.text, e.2.text]).map ([' '].intercalate ·)) := by
  induction entries with
  | nil => exact .nil
  | cons entry entries ih =>
      obtain ⟨path, version⟩ := entry
      have hspread : Spread [path.text, version.text] ([' '].intercalate [path.text, version.text]) :=
        spread_intercalate (by simpa using ⟨path.isWord, version.isWord⟩)
      refine .entry .plain (laid_of_spread hspread) ?_ ih
      intro hlaid
      have hunmarked : ∀ w ∈ [path.text, version.text], Unmarked w := by
        simpa using ⟨path.unmarked, version.unmarked⟩
      have htwo := words_of_spread hspread hunmarked (.inl rfl) (fun _ => rfl)
      rw [List.append_nil, Progress.words_eq_close_iff.mpr hlaid] at htwo
      exact absurd (congrArg List.length htwo) (by simp)

theorem written_rows (items : List Item) :
    Written items ((items.flatMap Item.rows).map ([' '].intercalate ·)) := by
  induction items with
  | nil => exact .nil
  | cons item items ih =>
      have hspread : ∀ row ∈ item.rows, Spread row ([' '].intercalate row) := by
        intro row hrow
        exact spread_intercalate fun w hw => isWord_of_mem_rows hrow hw
      have hlaid : ∀ row ∈ item.rows, Laid row ([' '].intercalate row) := fun row hrow =>
        laid_of_spread (hspread row hrow)
      rw [List.flatMap_cons, List.map_append]
      cases item with
      | module path =>
          have h := Written.module .plain (hspread _ List.mem_cons_self) (.inl rfl) (fun _ => rfl) ih
          rw [List.append_nil] at h
          exact h
      | require path version => exact .require .plain (hlaid _ List.mem_cons_self) ih
      | requires entries =>
          have hopening := hlaid _ List.mem_cons_self
          have hclosing := hlaid [[')']] (by simp [Item.rows])
          rw [Item.rows, List.map_append, List.append_assoc]
          exact .requires hopening (entries_rows entries) hclosing ih
      | directive name arguments hmodule hrequire hopen =>
          have h : Written (.directive name arguments hmodule hrequire hopen :: items) _ :=
            .directive (hspread _ List.mem_cons_self) (.inl rfl) (fun _ _ => rfl) ih
          rw [List.append_nil] at h
          exact h
      | block name =>
          have hopening := hlaid _ List.mem_cons_self
          have hclosing := hlaid [[')']] (by simp [Item.rows])
          have hnone : ∀ line ∈ ([] : List (List Char)), ¬ Laid [[')']] line := fun _ h => nomatch h
          exact .block hopening hnone hclosing ih

/-- Lines can be put one after another. -/
theorem exists_ended {lines : List (List Char)} (h : ∀ line ∈ lines, '\n' ∉ line) :
    ∃ text : String, Ended lines text.toList := by
  induction lines with
  | nil => exact ⟨"", .nil⟩
  | cons line lines ih =>
      obtain ⟨text, htext⟩ := ih fun other hother => h other (List.mem_cons_of_mem line hother)
      refine ⟨String.ofList (line ++ '\n' :: text.toList), ?_⟩
      rw [String.toList_ofList]
      exact .lf (h line List.mem_cons_self) htext

/-- **Any items can be written down.** -/
theorem exists_written (items : List Item) :
    ∃ (lines : List (List Char)) (text : String), Written items lines ∧ Ended lines text.toList := by
  have hunbroken : ∀ line ∈ (items.flatMap Item.rows).map ([' '].intercalate ·), '\n' ∉ line := by
    intro line hline
    obtain ⟨row, hrow, rfl⟩ := List.mem_map.mp hline
    obtain ⟨item, -, hrow⟩ := List.mem_flatMap.mp hrow
    apply not_mem_intercalate (by decide)
    intro w hw hfeed
    exact absurd ((isWord_of_mem_rows hrow hw).unbroken _ hfeed) (by decide)
  obtain ⟨text, htext⟩ := exists_ended hunbroken
  exact ⟨_, text, written_rows items, htext⟩

/-! ## Whole manifests -/

/-- **A manifest is read back however it is laid out,** and any items can be laid out. The result is the path of the
last module item with all required paths behind it, in the order of the items. Reading fails just if there is no
module item. -/
theorem parse_of_written (items : List Item) (origin : String) :
    (∃ (lines : List (List Char)) (text : String), Written items lines ∧ Ended lines text.toList) ∧
    ∀ (lines : List (List Char)) (text : String), Written items lines → Ended lines text.toList →
      (∀ path, (items.filterMap Item.module?).getLast? = some path →
        parse text origin = .ok ⟨path :: items.flatMap Item.required⟩) ∧
      ∀ fault, parse text origin = .error fault ↔
        fault = .noModuleDirective origin ∧ ∀ path, Item.module path ∉ items := by
  refine ⟨exists_written items, ?_⟩
  intro lines text hlines htext
  rw [hlines.parse_eq htext origin]
  constructor
  · intro path hpath
    rw [hpath]
    rfl
  · intro fault
    rw [← getLast?_module?_eq_none_iff items]
    cases (items.filterMap Item.module?).getLast? with
    | none =>
        constructor
        · intro hfault
          exact ⟨(Except.error.inj hfault).symm, rfl⟩
        · rintro ⟨rfl, -⟩
          rfl
    | some path =>
        constructor
        · intro hfault
          cases hfault
        · rintro ⟨-, hnone⟩
          cases hnone

/-- A path of a single letter. -/
def lettered (c : Char) (h : isBlank c = false ∧ isQuote c = false ∧ c ≠ '/' ∧ c ≠ '(') : ModulePath where
  text := [c]
  isWord := ⟨by simp, by simpa using h.1⟩
  unmarked := unmarked_of_not_mem (by simpa using h.2.2.1.symm)
  unquoted := by simpa using h.2.1
  ne_open := by simpa using h.2.2.2

/-- A manifest with quotes, comments, lines without words and all ways to end a line. -/
def mixed : String := "// m\nrequire (\r\n\n\t\"b\" v// x\n)\r\nmodule a //"

def mixedLines : List (List Char) :=
  ["// m".toList, "require (".toList, [], "\t\"b\" v// x".toList, [')'], "module a //".toList]

def mixedItems : List Item :=
  [.requires [(lettered 'b' (by decide), (lettered 'v' (by decide)).toWord)], .module (lettered 'a' (by decide))]

theorem parse_of_written_mixed :
    Written mixedItems mixedLines ∧ Ended mixedLines mixed.toList ∧
      parse mixed "go.mod" = .ok ⟨["a", "b"]⟩ := by
  have hinner : Entries [(lettered 'b' (by decide), (lettered 'v' (by decide)).toWord)]
      [[], "\t\"b\" v// x".toList] := by
    have hclose : ¬ Laid [[')']] "\t\"b\" v// x".toList := mt Progress.words_eq_close_iff.mpr (by decide)
    have hquoted : Spelled (lettered 'b' (by decide)) ['"', 'b', '"'] := .quoted rfl
    exact .idle (laid_of_words (by decide)) (.entry hquoted (laid_of_words (by decide)) hclose .nil)
  have hmodule : Written [.module (lettered 'a' (by decide))] ["module a ".toList ++ "//".toList] := by
    have hspread : Spread ["module".toList, ['a']] "module a ".toList := fields_eq_iff.mp (by decide)
    have hapart : Apart "module a ".toList "//".toList := by
      intro hslash
      exact absurd hslash (by decide)
    exact .module .plain hspread (.inr (List.prefix_refl _)) hapart .nil
  have hwritten : Written mixedItems mixedLines := by
    apply Written.idle (laid_of_words (by decide))
    exact .requires (laid_of_words (by decide)) hinner (laid_of_words (by decide)) hmodule
  have hended : Ended mixedLines mixed.toList := by
    have htext : mixed.toList = "// m".toList ++ '\n' :: ("require (".toList ++ '\r' :: '\n' ::
        ([] ++ '\n' :: ("\t\"b\" v// x".toList ++ '\n' :: ([')'] ++ '\r' :: '\n' :: "module a //".toList)))) := by
      decide
    rw [htext]
    apply Ended.lf (by decide)
    apply Ended.crlf (by decide)
    apply Ended.lf (by decide)
    apply Ended.lf (by decide)
    apply Ended.crlf (by decide)
    exact .last (by decide)
  obtain ⟨-, hall⟩ := parse_of_written mixedItems "go.mod"
  obtain ⟨hread, -⟩ := hall mixedLines mixed hwritten hended
  exact ⟨hwritten, hended, hread "a" rfl⟩

/-- A path with a slash at its end. -/
def slashed : ModulePath where
  text := "a/".toList
  isWord := by decide
  unmarked := unmarked_iff.mpr (by decide)
  unquoted := by simpa using show "a/".toList.all (!isQuote ·) = true by decide
  ne_open := by decide

/-- An argument that opens a block once its slash is gone. -/
def opened : Word where
  text := "(/".toList
  isWord := by decide
  unmarked := unmarked_iff.mpr (by decide)

/-- **Comments that follow a slash at once** take it along: at the end of a module path it is lost, and what is
left of a lone argument `(/` opens a block, in which the module is not found. -/
theorem parse_glued_comment :
    (¬ ∀ (path : ModulePath) (content comment : List Char) (text : String),
      Spread ["module".toList, path.text] content → Comment comment → Ended [content ++ comment] text.toList →
        parse text "go.mod" = .ok ⟨[path.name]⟩) ∧
    ¬ ∀ (argument : Word) (path : ModulePath) (content comment line : List Char) (text : String),
      argument.text ≠ ['('] → Spread ["exclude".toList, argument.text] content → Comment comment →
      Laid ["module".toList, path.text] line → Ended [content ++ comment, line] text.toList →
        parse text "go.mod" = .ok ⟨[path.name]⟩ := by
  have hcomment : Comment "//x".toList := .inr (by decide)
  constructor
  · intro h
    have hread : parse "module a///x" "go.mod" = .ok ⟨["a"]⟩ := rfl
    have hclaimed := h slashed "module a/".toList "//x".toList "module a///x" (fields_eq_iff.mp (by decide)) hcomment
      (.last (by decide))
    rw [hread] at hclaimed
    exact absurd (congrArg Manifest.roots (Except.ok.inj hclaimed)) (by decide)
  · intro h
    have hread : parse "exclude (///x\nmodule a/" "go.mod" = .error (.noModuleDirective "go.mod") := rfl
    have htext : Ended ["exclude (///x".toList, "module a/".toList]
        ("exclude (///x".toList ++ '\n' :: "module a/".toList) := .lf (by decide) (.last (by decide))
    have hclaimed := h opened slashed "exclude (/".toList "//x".toList "module a/".toList "exclude (///x\nmodule a/"
      (by decide) (fields_eq_iff.mp (by decide)) hcomment (laid_of_words (by decide)) htext
    rw [hread] at hclaimed
    cases hclaimed

end GoExcerpt.Manifest
