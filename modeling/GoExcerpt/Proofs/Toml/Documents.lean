import GoExcerpt.Proofs.Toml.Values

/-!
# `Proofs.Toml.Documents` — documents are read back section by section

`Reads` says of a text that reading it takes a document under way from one state to another, whatever
follows; texts end to end do so in turn (`Reads.append`), so a document is put together from its lines. A
`Section` carries what makes it readable: bare and distinct keys, and values that are read back. Opened under a
name that is new, it adds one table with its entries and changes nothing else (`Section.reads`), and a document
of sections with distinct names is read as the table of all of them (`read_sections`).
-/

namespace GoExcerpt.Toml

/-! ## Keys -/

/-- Whether a key can stand without quotes. -/
def BareKey (key : String) : Prop := key.toList ≠ [] ∧ ∀ c ∈ key.toList, isBare c = true

instance (key : String) : Decidable (BareKey key) :=
  decidable_of_iff (key.toList ≠ [] ∧ key.toList.all isBare = true) (by rw [List.all_eq_true, BareKey])

theorem BareKey.exists_cons {key : String} (h : BareKey key) :
    ∃ c cs, key.toList = c :: cs ∧ isBare c = true ∧ isGap c = false := by
  obtain ⟨c, cs, heq⟩ := List.exists_cons_of_ne_nil h.1
  have hc : isBare c = true := h.2 c (heq ▸ List.mem_cons_self)
  exact ⟨c, cs, heq, hc, isGap_eq_false hc rfl rfl⟩

theorem BareKey.append_ne_cons {key : String} (h : BareKey key) {mark : Char} (hmark : isBare mark = false)
    (rest tail : List Char) : key.toList ++ rest ≠ mark :: tail := by
  obtain ⟨c, cs, heq, hbare, -⟩ := h.exists_cons
  intro hcons
  rw [heq] at hcons
  rw [(List.cons.inj hcons).1, hmark] at hbare
  cases hbare

theorem skipGap_cons {c : Char} (h : isGap c = false) (rest : List Char) : skipGap (c :: rest) = c :: rest :=
  List.dropWhile_cons_of_neg (by simp [h])

/-- **A bare key is read back** up to what cannot belong to it. -/
theorem readKey_bare {key : String} (h : BareKey key) {n : Nat} {c : Char} {tail : List Char}
    (hend : isBare c = false) (hdot : ∀ more, skipGap (c :: tail) ≠ '.' :: more) :
    readKey (n + 1) (key.toList ++ c :: tail) = some ([key], skipGap (c :: tail)) := by
  obtain ⟨d, ds, heq, hbare, hgap⟩ := h.exists_cons
  have hpart : readKeyPart (skipGap (key.toList ++ c :: tail)) = some (key, c :: tail) := by
    have hskip : skipGap (key.toList ++ c :: tail) = key.toList ++ c :: tail := by
      rw [heq]
      exact skipGap_cons hgap _
    have hquote : d ≠ '"' ∧ (d == apostrophe) = false := by
      refine ⟨?_, beq_eq_false_iff_ne.mpr ?_⟩
      · rintro rfl
        exact absurd hbare (by decide)
      · rintro rfl
        exact absurd hbare (by decide)
    have htake : (key.toList ++ c :: tail).takeWhile isBare = key.toList := by
      rw [List.takeWhile_append_of_pos h.2, List.takeWhile_cons_of_neg (by simp [hend]), List.append_nil]
    have hdrop : (key.toList ++ c :: tail).dropWhile isBare = c :: tail := by
      rw [List.dropWhile_append_of_pos h.2, List.dropWhile_cons_of_neg (by simp [hend])]
    rw [hskip, heq, List.cons_append, readKeyPart]
    · rw [if_neg (by simp [hquote.2]), if_pos hbare, ← List.cons_append, ← heq, htake, hdrop,
        String.ofList_toList]
    · exact fun hd => hquote.1 hd
  unfold readKey
  rw [hpart]
  dsimp only [bind, Option.bind]
  split
  next heq => exact absurd heq (hdot _)
  next => rfl

/-! ## Lines -/

/-- Whether reading a text takes the document from `b` to `b'`, whatever follows. The fuel that is left is
enough for what follows if the fuel was enough for all. -/
def Reads (text : List Char) (b b' : Building) : Prop :=
  ∀ fuel rest, (text ++ rest).length < fuel →
    ∃ left, rest.length < left ∧ readLines fuel b (text ++ rest) = readLines left b' rest

theorem Reads.nil (b : Building) : Reads [] b b := fun fuel _ h => ⟨fuel, h, rfl⟩

theorem Reads.append {text more : List Char} {b b' b'' : Building} (h : Reads text b b')
    (h' : Reads more b' b'') : Reads (text ++ more) b b'' := by
  intro fuel rest hfuel
  rw [List.append_assoc] at hfuel ⊢
  obtain ⟨between, hbetween, heq⟩ := h fuel (more ++ rest) hfuel
  obtain ⟨left, hleft, heq'⟩ := h' between rest hbetween
  exact ⟨left, hleft, heq.trans heq'⟩

/-- A line is read, and its end behind it. -/
theorem reads_line {line : List Char} {b b' : Building}
    (hopens : ∃ c tail, line = c :: tail ∧ isGap c = false)
    (hread : ∀ fuel rest, line.length < fuel →
      readLine fuel b (line ++ '\n' :: rest) = some (b', '\n' :: rest)) :
    Reads (line ++ ['\n']) b b' := by
  intro fuel rest hfuel
  obtain ⟨c, tail, heq, hgap⟩ := hopens
  obtain ⟨fuel, rfl⟩ := Nat.exists_eq_succ_of_ne_zero (Nat.ne_zero_of_lt hfuel)
  simp only [List.append_assoc, List.singleton_append, List.length_append, List.length_cons] at hfuel ⊢
  refine ⟨fuel, by omega, ?_⟩
  have hline : readLine (fuel + 1) b (skipGap (line ++ '\n' :: rest)) = some (b', '\n' :: rest) := by
    rw [show skipGap (line ++ '\n' :: rest) = line ++ '\n' :: rest from heq ▸ skipGap_cons hgap _]
    exact hread (fuel + 1) rest (by omega)
  rw [heq, List.cons_append] at hline ⊢
  rw [Nat.succ_eq_add_one, readLines, hline]
  rfl

/-- An empty line changes nothing. -/
theorem reads_empty (b : Building) : Reads ['\n'] b b := by
  intro fuel rest hfuel
  obtain ⟨fuel, rfl⟩ := Nat.exists_eq_succ_of_ne_zero (Nat.ne_zero_of_lt hfuel)
  exact ⟨fuel, Nat.lt_of_succ_lt_succ hfuel, rfl⟩

/-- A header opens its table. -/
theorem reads_header {name : String} (h : BareKey name) {b b' : Building}
    (hopen : b.open [name] false = some b') : Reads (writeHeader name) b b' := by
  have hline : writeHeader name = ('[' :: name.toList ++ [']']) ++ ['\n'] := by
    simp [writeHeader]
  rw [hline]
  refine reads_line ⟨'[', _, rfl, by decide⟩ fun fuel rest _ => ?_
  have hkey : readKey (depthLimit - 1) (name.toList ++ ']' :: '\n' :: rest)
      = some ([name], ']' :: '\n' :: rest) :=
    readKey_bare h (by decide) fun _ heq => absurd (List.cons.inj heq).1 (by decide)
  show readHeader b ('[' :: (name.toList ++ [']'] ++ '\n' :: rest)) = _
  rw [List.append_assoc, List.singleton_append, readHeader]
  · rw [hkey]
    show (b.open [name] false).bind _ = _
    rw [hopen]
    rfl
  · exact h.append_ne_cons (by decide) _

/-- A pair adds its key with its value. -/
theorem reads_pair {key : String} (h : BareKey key) {text : List Char} {value : Value}
    (hvalue : Written text value) {b b' : Building} (hadd : b.add [key] value = some b') :
    Reads (writePair key text) b b' := by
  obtain ⟨c, cs, heq, -, hgap⟩ := h.exists_cons
  refine reads_line ⟨c, cs ++ " = ".toList ++ text, by rw [heq]; rfl, hgap⟩ fun fuel rest hfuel => ?_
  have hkey : readKey (depthLimit - 1) (key.toList ++ ' ' :: '=' :: ' ' :: (text ++ '\n' :: rest))
      = some ([key], '=' :: ' ' :: (text ++ '\n' :: rest)) :=
    readKey_bare h (by decide) fun _ heq => absurd (List.cons.inj heq).1 (by decide)
  have hskip : skipGap (' ' :: (text ++ '\n' :: rest)) = text ++ '\n' :: rest := by
    obtain ⟨d, ds, htext, hgap⟩ := hvalue.opens
    rw [htext]
    exact skipGap_cons hgap _
  have hpair : readLine fuel b (key.toList ++ ' ' :: '=' :: ' ' :: (text ++ '\n' :: rest))
      = readPair fuel b (key.toList ++ ' ' :: '=' :: ' ' :: (text ++ '\n' :: rest)) := by
    rw [readLine]
    · rw [heq]
      exact List.cons_ne_nil _ _
    · exact fun _ => h.append_ne_cons (by decide) _ _
    · exact fun _ => h.append_ne_cons (by decide) _ _
    · exact fun _ => h.append_ne_cons (by decide) _ _
    · exact fun _ => h.append_ne_cons (by decide) _ _
  simp only [List.append_assoc]
  show readLine fuel b (key.toList ++ ' ' :: '=' :: ' ' :: (text ++ '\n' :: rest)) = _
  rw [hpair]
  unfold readPair
  rw [hkey]
  show (readValue fuel 0 (skipGap (' ' :: (text ++ '\n' :: rest)))).bind _ = _
  rw [hskip, hvalue.read fuel rest (by simp only [List.length_append] at hfuel; omega)]
  show (b.add [key] value).bind _ = _
  rw [hadd]
  rfl

/-! ## What lines change -/

section

variable {name : String} {tables : List (String × Value)}

theorem replace_append {old new : Value} (h : tables.lookup name = none) :
    Value.replace name new (tables ++ [(name, old)]) = tables ++ [(name, new)] := by
  induction tables with
  | nil => exact if_pos rfl
  | cons entry tables ih =>
      obtain ⟨key, value⟩ := entry
      rw [List.lookup_cons] at h
      split at h
      next => cases h
      next hne =>
        have hkey : key ≠ name := by
          rintro rfl
          simp at hne
        rw [List.cons_append, Value.replace, if_neg hkey, ih h, List.cons_append]

theorem lookup_append_new {value : Value} (h : tables.lookup name = none) :
    (tables ++ [(name, value)]).lookup name = some value := by
  rw [List.lookup_append, h, List.lookup_cons_self]
  rfl

/-- The document with a last table that is still open. -/
def Building.within (tables : List (String × Value)) (name : String) (entries : List (String × Value)) :
    Building where
  root := .table .header (tables ++ [(name, .table .header entries)])
  current := [name]

/-- A header with a new name opens an empty table. -/
theorem open_new (h : tables.lookup name = none) (current : List String) :
    Building.open ⟨.table .header tables, current⟩ [name] false = some (.within tables name []) := by
  show (Value.openTable name (.table .header tables)).bind _ = _
  unfold Value.openTable
  dsimp only
  rw [h]
  rfl

/-- A new key is added to the open table. -/
theorem add_new (h : tables.lookup name = none) {entries : List (String × Value)} {key : String}
    (hkey : entries.lookup key = none) (value : Value) :
    (Building.within tables name entries).add [key] value
      = some (.within tables name (entries ++ [(key, value)])) := by
  have hinsert : (Value.table .header entries).insert [key] value
      = some (.table .header (entries ++ [(key, value)])) := by
    show Value.addKey false key value (.table .header entries) = _
    unfold Value.addKey
    dsimp only
    rw [hkey]
    rfl
  have hmodify : (Building.within tables name entries).root.modify false (fun t => t.insert [key] value) [name]
      = some (.table .header (tables ++ [(name, .table .header (entries ++ [(key, value)]))])) := by
    unfold Building.within Value.modify
    dsimp only
    rw [lookup_append_new h]
    show (Value.insert (.table .header entries) [key] value).bind _ = _
    rw [hinsert]
    exact congrArg some (congrArg _ (replace_append h))
  show ((Building.within tables name entries).root.modify false _ [name]).bind _ = _
  rw [hmodify]
  rfl

end

/-! ## Sections -/

/-- A key with a value, and the value as it is written. -/
structure Line where
  key : String
  text : List Char
  value : Value
  bare : BareKey key
  written : Written text value

/-- A table of lines below a header. -/
structure Section where
  name : String
  lines : List Line
  bare : BareKey name
  distinct : (lines.map Line.key).Nodup

namespace Section

def text (s : Section) : List Char :=
  writeHeader s.name ++ s.lines.flatMap fun l => writePair l.key l.text

def entries (s : Section) : List (String × Value) := s.lines.map fun l => (l.key, l.value)

end Section

theorem lookup_eq_none_of_not_mem {key : String} {entries : List (String × Value)}
    (h : key ∉ entries.map Prod.fst) : entries.lookup key = none := by
  rw [List.lookup_eq_none_iff]
  intro entry hentry
  refine bne_iff_ne.mpr ?_
  rintro rfl
  exact h (List.mem_map_of_mem hentry)

/-- Lines with new keys are added one after another. -/
theorem reads_lines {name : String} {tables : List (String × Value)} (h : tables.lookup name = none)
    (lines : List Line) (entries : List (String × Value))
    (hdistinct : (entries.map Prod.fst ++ lines.map Line.key).Nodup) :
    Reads (lines.flatMap fun l => writePair l.key l.text) (.within tables name entries)
      (.within tables name (entries ++ lines.map fun l => (l.key, l.value))) := by
  induction lines generalizing entries with
  | nil =>
      rw [List.map_nil, List.append_nil]
      exact Reads.nil _
  | cons l lines ih =>
      have hnew : l.key ∉ entries.map Prod.fst := fun hmem =>
        (List.nodup_append.mp hdistinct).2.2 _ hmem _ List.mem_cons_self rfl
      have hrest := ih (entries ++ [(l.key, l.value)]) (by simpa using hdistinct)
      rw [List.append_assoc] at hrest
      exact (reads_pair l.bare l.written (add_new h (lookup_eq_none_of_not_mem hnew) _)).append hrest

/-- **A section with a new name is read as one more table.** -/
theorem Section.reads (s : Section) {tables : List (String × Value)} (h : tables.lookup s.name = none)
    (current : List String) :
    Reads s.text ⟨.table .header tables, current⟩ (.within tables s.name s.entries) :=
  (reads_header s.bare (open_new h current)).append (reads_lines h s.lines [] (by simpa using s.distinct))

/-- The text of a document: its sections with empty lines between. -/
def sectionsText : List Section → List Char
  | [] => []
  | s :: more => s.text ++ more.flatMap fun s => '\n' :: s.text

/-- The table of all sections. -/
def tablesOf (sections : List Section) : List (String × Value) :=
  sections.map fun s => (s.name, .table .header s.entries)

theorem reads_sections (sections : List Section) (tables : List (String × Value)) (current : List String)
    (h : (tables.map Prod.fst ++ sections.map Section.name).Nodup) :
    ∃ current', Reads (sections.flatMap fun s => '\n' :: s.text) ⟨.table .header tables, current⟩
      ⟨.table .header (tables ++ tablesOf sections), current'⟩ := by
  induction sections generalizing tables current with
  | nil =>
      refine ⟨current, ?_⟩
      rw [tablesOf, List.map_nil, List.append_nil]
      exact Reads.nil _
  | cons s sections ih =>
      have hnew : s.name ∉ tables.map Prod.fst := fun hmem =>
        (List.nodup_append.mp h).2.2 _ hmem _ List.mem_cons_self rfl
      obtain ⟨current', hrest⟩ := ih (tables ++ [(s.name, .table .header s.entries)]) [s.name]
        (by simpa using h)
      rw [List.append_assoc] at hrest
      exact ⟨current', ((reads_empty _).append (s.reads (lookup_eq_none_of_not_mem hnew) current)).append hrest⟩

theorem read_of_reads {text : List Char} {b : Building} (h : Reads text {} b)
    (hmark : text.head? ≠ some byteOrderMark) : read (String.ofList text) = some b.root := by
  obtain ⟨left, -, heq⟩ := h (text.length + 1) [] (by simp)
  rw [List.append_nil] at heq
  have hlines : (readLines (text.length + 1) {} text).map Building.root = some b.root := by
    rw [heq, readLines]
    rfl
  unfold read
  rw [String.toList_ofList]
  cases text with
  | nil => exact hlines
  | cons c rest =>
      have hc : (c == byteOrderMark) = false := beq_eq_false_iff_ne.mpr fun hc => hmark (congrArg some hc)
      dsimp only
      rw [hc]
      exact hlines

/-- **A document of sections with distinct names is read back.** -/
theorem read_sections (sections : List Section) (h : (sections.map Section.name).Nodup) :
    read (String.ofList (sectionsText sections)) = some (.table .header (tablesOf sections)) := by
  cases sections with
  | nil => rfl
  | cons s more =>
      obtain ⟨current, hmore⟩ := reads_sections more [(s.name, .table .header s.entries)] [s.name] h
      have hmark : some '[' ≠ some byteOrderMark := by decide
      exact read_of_reads ((s.reads rfl []).append hmore) hmark

end GoExcerpt.Toml
