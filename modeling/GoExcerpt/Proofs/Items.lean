import GoExcerpt.Proofs.Declared
import GoExcerpt.Proofs.Reading

/-!
# `Proofs.Items` — names in syntax trees

Names are words, so no name of a declared function and no type name has a dot in it. `Tree.Sound` says so of
one tree; a reading keeps it of all trees it builds (`sound_of_run`). Only the two kinds of function items
need a look at their own grammar, since their names are told by roles (`sound_of_readItem`).
-/

namespace GoExcerpt

open Lexeme (Dotless)

namespace Tree

/-- A property of a tree and of all trees below it. -/
inductive Every (p : Tree → Prop) : Tree → Prop where
  | leaf {k : Kind} {r : Option Role} {e : Extent} {text : String} (h : p (.leaf k r e text)) :
      Every p (.leaf k r e text)
  | node {k : Kind} {r : Option Role} {e : Extent} {cs : List Tree} (h : p (.node k r e cs))
      (hcs : ∀ c ∈ cs, Every p c) : Every p (.node k r e cs)

theorem Every.here {p : Tree → Prop} {t : Tree} (h : t.Every p) : p t := by
  cases h with
  | leaf h => exact h
  | node h hcs => exact h

theorem Every.child {p : Tree → Prop} {t c : Tree} (h : t.Every p) (hc : c ∈ t.children) :
    c.Every p := by
  cases h with
  | leaf h => exact absurd hc List.not_mem_nil
  | node h hcs => exact hcs c hc

theorem Every.part? {p : Tree → Prop} {t c : Tree} {role : Role} (h : t.Every p)
    (hc : t.part? role = some c) : c.Every p :=
  h.child (List.mem_of_find?_eq_some hc)

theorem Every.named {p : Tree → Prop} {t c : Tree} (h : t.Every p) (hc : c ∈ t.named) : c.Every p :=
  h.child (List.mem_filter.mp hc).1

theorem Every.withRole {p : Tree → Prop} {t : Tree} {role : Role} (h : t.Every p)
    (hp : p (t.withRole role)) : (t.withRole role).Every p := by
  cases h with
  | leaf h => exact .leaf hp
  | node h hcs => exact .node hp hcs

theorem Every.and {p q r : Tree → Prop} {t : Tree} (hp : t.Every p) (hq : t.Every q)
    (h : ∀ t, p t → q t → r t) : t.Every r := by
  induction hp with
  | leaf hp => exact .leaf (h _ hp hq.here)
  | node hp hcs ih => exact .node (h _ hp hq.here) fun c hc => ih c hc (hq.child hc)

theorem Every.imp {p q : Tree → Prop} {t : Tree} (h : t.Every p) (hpq : ∀ t, p t → q t) :
    t.Every q := by
  induction h with
  | leaf hp => exact .leaf (hpq _ hp)
  | node hp hcs ih => exact .node (hpq _ hp) ih

/-- **What the names in a tree are like.** -/
structure Sound (t : Tree) : Prop where
  /-- comments play no part -/
  comment : t.isComment = true → t.role = none
  typeName : t.kind = .typeIdentifier → Dotless t.text
  function : FileScope.isFunction t = true → ∀ name, t.part? .name = some name → Dotless name.text

theorem Sound.withRole {t : Tree} (h : t.Sound) (hcomment : t.isComment = false) (role : Role) :
    (t.withRole role).Sound := by
  cases t with
  | leaf k r e text => exact ⟨fun hc => absurd (hcomment.symm.trans hc) (by simp), h.typeName, h.function⟩
  | node k r e cs => exact ⟨fun hc => absurd (hcomment.symm.trans hc) (by simp), h.typeName, h.function⟩

end Tree

theorem Lexeme.sound_toLeaf {l : Lexeme} {k : Kind} (h : k = .typeIdentifier → Dotless l.text) :
    (l.toLeaf k).Every Tree.Sound :=
  .leaf ⟨fun _ => rfl, h, fun _ _ hname => nomatch hname⟩

/-- Lexemes and trees that are as they should be. -/
structure ReadState.Sound (s : ReadState) : Prop where
  rest : ∀ l ∈ s.rest, l.cls = .word → Dotless l.text
  built : ∀ t ∈ s.built, t.Every Tree.Sound

/-! ## Readings that make no function -/

/-- Steps that make type names of words only, and neither comments nor functions. -/
def Allowed.plain : Allowed where
  token w k := match k with
    | .comment => false
    | .typeIdentifier => match w with
      | .wordBut _ => true
      | _ => false
    | _ => true
  wrap k := match k with
    | .comment | .typeIdentifier | .functionDeclaration | .methodDeclaration => false
    | _ => true
  rule r := r != .item

theorem Rules.uses_plain {r : Rule} (h : Allowed.plain.rule r = true) :
    (Rules.grammar r).uses .plain = true := by
  cases r with
  | item => cases h
  | binary level =>
      show (Rules.binary level).uses .plain = true
      unfold Rules.binary
      by_cases hlevel : level < 4
      · rw [if_pos hlevel]
        rfl
      · rw [if_neg hlevel]
        rfl
  | _ => rfl

namespace ReadState

/-- The node made of sound trees is sound unless its kind asks for more. -/
theorem sound_gather {k : Kind} {t : Tree} {ts : List Tree} (hts : ∀ c ∈ t :: ts, c.Every Tree.Sound)
    (hcomment : k ≠ .comment) (htype : k ≠ .typeIdentifier)
    (hfunction : FileScope.isFunction (gather k t ts) = true →
      ∀ name, (gather k t ts).part? .name = some name → Dotless name.text) :
    (gather k t ts).Every Tree.Sound :=
  .node ⟨fun h => absurd (beq_iff_eq.mp h) hcomment, fun h => absurd h htype, hfunction⟩ hts

theorem Sound.wrap {s : ReadState} {k : Kind} (hs : s.Sound) (hcomment : k ≠ .comment)
    (htype : k ≠ .typeIdentifier)
    (hfunction : ∀ leading t ts, s.built.reverse = leading ++ t :: ts →
      (∀ c ∈ leading, c.isComment = true) → FileScope.isFunction (gather k t ts) = true →
      ∀ name, (gather k t ts).part? .name = some name → Dotless name.text) :
    Sound ⟨s.rest, ReadState.wrap k s.built⟩ := by
  rcases wrap_cases k s.built with ⟨-, heq⟩ | ⟨leading, t, ts, hbuilt, hleading, heq⟩
  · rw [heq]
    exact hs
  · refine ⟨hs.rest, ?_⟩
    have hmem : ∀ c ∈ leading ++ t :: ts, c.Every Tree.Sound := by
      rw [← hbuilt]
      exact fun c hc => hs.built c (List.mem_reverse.mp hc)
    rw [heq]
    refine List.forall_mem_cons.mpr ⟨?_, ?_⟩
    · exact sound_gather (fun c hc => hmem c (List.mem_append_right _ hc)) hcomment htype
        (hfunction leading t ts hbuilt hleading)
    · exact fun c hc => hmem c (List.mem_append_left _ (List.mem_reverse.mp hc))

end ReadState

theorem sound_kept : Kept .plain fun s s' => s.Sound → s'.Sound where
  refl := fun _ h => h
  trans := fun _ _ _ hst htu h => htu (hst h)
  token := by
    intro w k s s' hallowed htake hs
    obtain ⟨comments, l, hsub, hsat, hbuilt⟩ := ReadState.exists_of_take htake
    have hrest : ∀ l' ∈ comments ++ l :: s'.rest, l' ∈ s.rest := fun _ h => hsub.subset h
    refine ⟨fun l' h => hs.rest l' (hrest l' (by simp [h])), ?_⟩
    rw [hbuilt]
    refine List.forall_mem_cons.mpr ⟨Lexeme.sound_toLeaf ?_, fun t ht => ?_⟩
    · rintro rfl
      -- only a word may become a type name
      cases w with
      | wordBut reserved =>
          refine hs.rest l (hrest l (by simp)) ?_
          simpa using (Bool.and_eq_true_iff.mp hsat).1
      | oneOf texts => cases hallowed
      | ofClass cls => cases hallowed
    · rcases List.mem_append.mp ht with ht | ht
      · obtain ⟨c, -, rfl⟩ := List.mem_map.mp (List.mem_reverse.mp ht)
        exact Lexeme.sound_toLeaf fun h => nomatch h
      · exact hs.built t ht
  terminator := by
    intro s s' htake hs
    obtain ⟨comments, ended, hsub, hbuilt⟩ := ReadState.exists_of_takeTerminator htake
    refine ⟨fun l' h => hs.rest l' (hsub.subset (by simp [h])), ?_⟩
    rw [hbuilt]
    intro t ht
    simp only [List.mem_append, List.mem_reverse, List.mem_map] at ht
    rcases ht with (⟨c, -, rfl⟩ | ⟨c, -, rfl⟩) | ht
    · exact Lexeme.sound_toLeaf fun h => nomatch h
    · exact Lexeme.sound_toLeaf fun h => nomatch h
    · exact hs.built t ht
  wrap := by
    intro k s hallowed hs
    refine hs.wrap ?_ ?_ ?_
    · rintro rfl
      cases hallowed
    · rintro rfl
      cases hallowed
    · intro leading t ts _ _ hfunction
      have hkind : k = .functionDeclaration ∨ k = .methodDeclaration := by
        simpa [FileScope.isFunction, ReadState.gather, Tree.kind] using hfunction
      rcases hkind with rfl | rfl
      · cases hallowed
      · cases hallowed
  tag := by
    intro role s _ hs
    refine ⟨hs.rest, fun t ht => ?_⟩
    obtain ⟨old, hold, rfl⟩ := List.mem_map.mp ht
    split
    next => exact hs.built old hold
    next hcomment =>
      have hold := hs.built old hold
      exact hold.withRole (hold.here.withRole (by simpa using hcomment) role)
  frame := by
    intro s s' hinside hs
    -- a frame begins with nothing built; what was built before it comes back behind
    have hframe := hinside rfl ⟨hs.rest, fun _ h => absurd h List.not_mem_nil⟩
    refine ⟨hframe.rest, fun t ht => ?_⟩
    rcases List.mem_append.mp ht with ht | ht
    · exact hframe.built t ht
    · exact hs.built t ht

/-- **A reading that makes no function keeps names sound.** -/
theorem sound_of_run {fuel : Nat} {m : Reading} {g : Grammar} {s s' : ReadState}
    (hg : g.uses .plain = true) (h : g.run Rules.grammar fuel m s = some s') (hs : s.Sound) :
    s'.Sound :=
  sound_kept.run (fun _ hr => Rules.uses_plain hr) hg h (fun _ => rfl) hs

/-! ## Functions -/

/-- The first tree that plays the part of a name is a word. -/
def Named (built : List Tree) : Prop :=
  ∃ name, built.reverse.find? (·.role == some .name) = some name ∧ Dotless name.text

theorem Named.append {built : List Tree} (h : Named built) (new : List Tree) : Named (new ++ built) := by
  obtain ⟨name, hname, hdotless⟩ := h
  refine ⟨name, ?_, hdotless⟩
  rw [List.reverse_append, List.find?_append, hname]
  rfl

theorem Lacks.find?_eq {role : Role} {built : List Tree} (h : Lacks role built) :
    built.reverse.find? (·.role == some role) = none := by
  refine List.find?_eq_none.mpr fun t ht => ?_
  simpa using h t (List.mem_reverse.mp ht)

section

variable {fuel : Nat} {m : Reading} {s s' : ReadState}

/-- A word that plays the part of a name is the name. -/
theorem named_of_playing {k : Kind} (hk : k ≠ .comment)
    (h : (Grammar.playing .name (Rules.word k)).run Rules.grammar fuel m s = some s')
    (hs : s.Sound) (hunnamed : Lacks .name s.built) : Named s'.built := by
  obtain ⟨n, t, ht, rfl⟩ := Grammar.exists_of_run_playing h
  obtain ⟨comments, l, hsub, hsat, hbuilt⟩ := ReadState.exists_of_take (Grammar.take_of_run_token ht)
  have hword : l.cls = .word := by simpa using (Bool.and_eq_true_iff.mp hsat).1
  refine ⟨(l.toLeaf k).withRole .name, ?_, hs.rest l (hsub.subset (by simp)) hword⟩
  -- what comes before it: trees without that part, and comments
  have hcomments : (comments.map (·.toLeaf .comment)).find? (·.role == some .name) = none := by
    refine List.find?_eq_none.mpr fun c hc => ?_
    obtain ⟨l', -, rfl⟩ := List.mem_map.mp hc
    simp [Lexeme.toLeaf, Tree.role]
  have htag : ReadState.tag .name t.built
      = (l.toLeaf k).withRole .name :: (comments.map (·.toLeaf .comment)).reverse := by
    have hcomments : ∀ c ∈ (comments.map (·.toLeaf .comment)).reverse, c.isComment = true := by
      intro c hc
      obtain ⟨l', -, rfl⟩ := List.mem_map.mp (List.mem_reverse.mp hc)
      rfl
    rw [hbuilt, List.append_nil, ReadState.tag, List.map_cons,
      if_neg (by simpa [Lexeme.toLeaf, Tree.isComment, Tree.kind] using hk)]
    exact congrArg _ (ReadState.tag_comments hcomments)
  rw [htag, List.reverse_append, List.reverse_cons, List.reverse_reverse, List.find?_append,
    hunnamed.find?_eq, Option.none_or, List.find?_append, hcomments, Option.none_or]
  rfl

/-- A node over trees of which the first to play that part is a word has this word for its name. -/
theorem sound_of_named {k : Kind} {t : ReadState} (ht : t.Sound) (hnamed : Named t.built)
    (hcomment : k ≠ .comment) (htype : k ≠ .typeIdentifier) :
    ReadState.Sound ⟨t.rest, ReadState.wrap k t.built⟩ := by
  refine ht.wrap hcomment htype fun leading first more hbuilt hleading _ name hname => ?_
  obtain ⟨named, hfind, hdotless⟩ := hnamed
  have hnone : leading.find? (·.role == some .name) = none := by
    refine List.find?_eq_none.mpr fun c hc => ?_
    have hc' : c ∈ t.built := by
      rw [← List.mem_reverse, hbuilt]
      exact List.mem_append_left _ hc
    rw [(ht.built c hc').here.comment (hleading c hc)]
    simp
  rw [hbuilt, List.find?_append, hnone, Option.none_or] at hfind
  obtain rfl := Option.some.inj (hfind.symm.trans hname)
  exact hdotless

/-- A name stays the first one when more is read. -/
theorem Named.run {g : Grammar} (hnamed : Named s.built) (hg : g.uses .adding = true)
    (h : g.run Rules.grammar fuel m s = some s') : Named s'.built := by
  obtain ⟨new, hnew⟩ := exists_append_of_run hg h
  rw [hnew]
  exact hnamed.append new

/-- A node of a kind with a name is sound if reading its parts gives it one. -/
theorem sound_of_node {k : Kind} {g : Grammar} (hcomment : k ≠ .comment) (htype : k ≠ .typeIdentifier)
    (hg : g.uses .plain = true)
    (hnamed : ∀ fuel m rest t, ReadState.Sound ⟨rest, []⟩ →
      g.run Rules.grammar fuel m ⟨rest, []⟩ = some t → Named t.built)
    (h : (Grammar.node k g).run Rules.grammar fuel m s = some s') (hs : s.Sound) : s'.Sound := by
  obtain ⟨_, t, ht, rfl⟩ := Grammar.exists_of_run_frame h
  obtain ⟨_, u, hu, hwrap⟩ := Grammar.exists_of_run_seq ht
  obtain rfl := Grammar.eq_of_run_wrap hwrap
  have hempty : ReadState.Sound ⟨s.rest, []⟩ := ⟨hs.rest, fun _ h => absurd h List.not_mem_nil⟩
  have hsound := sound_of_named (k := k) (sound_of_run hg hu hempty) (hnamed _ _ _ _ hempty hu)
    hcomment htype
  refine ⟨hsound.rest, fun tree htree => ?_⟩
  rcases List.mem_append.mp htree with htree | htree
  · exact hsound.built tree htree
  · exact hs.built tree htree

theorem sound_of_functionDeclaration
    (h : Rules.functionDeclaration.run Rules.grammar fuel m s = some s') (hs : s.Sound) : s'.Sound := by
  refine sound_of_node (by decide) (by decide) rfl ?_ h hs
  intro fuel m rest t hrest ht
  -- the name comes right after the keyword, so nothing can play its part before it
  obtain ⟨_, _, ht, hbody⟩ := Grammar.exists_of_run_seq ht
  obtain ⟨_, _, ht, hsignature⟩ := Grammar.exists_of_run_seq ht
  obtain ⟨_, _, ht, hparameters⟩ := Grammar.exists_of_run_seq ht
  obtain ⟨_, _, hsign, hname⟩ := Grammar.exists_of_run_seq ht
  have hunnamed : Lacks .name _ := lacks_of_run rfl hsign fun _ h => absurd h List.not_mem_nil
  have hnamed := named_of_playing (by decide) hname (sound_of_run rfl hsign hrest) hunnamed
  exact ((hnamed.run rfl hparameters).run rfl hsignature).run rfl hbody

theorem sound_of_methodDeclaration
    (h : Rules.methodDeclaration.run Rules.grammar fuel m s = some s') (hs : s.Sound) : s'.Sound := by
  refine sound_of_node (by decide) (by decide) rfl ?_ h hs
  intro fuel m rest t hrest ht
  obtain ⟨_, _, ht, hbody⟩ := Grammar.exists_of_run_seq ht
  obtain ⟨_, _, ht, hsignature⟩ := Grammar.exists_of_run_seq ht
  obtain ⟨_, _, ht, hname⟩ := Grammar.exists_of_run_seq ht
  -- here the receiver stands between, and all of it plays the part of the receiver
  obtain ⟨_, _, hsign, hreceiver⟩ := Grammar.exists_of_run_seq ht
  have hsigned := sound_of_run rfl hsign hrest
  have hunnamed : Lacks .name _ := lacks_of_run rfl hsign fun _ h => absurd h List.not_mem_nil
  have hunnamed' := lacks_of_run rfl hreceiver hunnamed
  have hnamed := named_of_playing (by decide) hname (sound_of_run rfl hreceiver hsigned) hunnamed'
  exact (hnamed.run rfl hsignature).run rfl hbody

/-- **Reading an item keeps names sound.** -/
theorem sound_of_readItem {steps : Nat} (h : SourceFile.readItem steps s = some s') (hs : s.Sound) :
    s'.Sound := by
  obtain ⟨_, h⟩ := Grammar.exists_of_run_rule h
  obtain ⟨_, h | h⟩ := Grammar.exists_of_run_alt h
  · exact sound_of_run rfl h hs
  obtain ⟨_, h | h⟩ := Grammar.exists_of_run_alt h
  · exact sound_of_run rfl h hs
  obtain ⟨_, h | h⟩ := Grammar.exists_of_run_alt h
  · exact sound_of_functionDeclaration h hs
  obtain ⟨_, h | h⟩ := Grammar.exists_of_run_alt h
  · exact sound_of_methodDeclaration h hs
  · exact sound_of_run rfl h hs

end

/-! ## Files -/

namespace SourceFile

/-- What reading items keeps if it is kept by reading one, by passing over lexemes, and by keeping the
    comments among them. -/
theorem readItems_keeps (inv : ReadState → Prop) {steps : Nat}
    (hitem : ∀ s s', inv s → readItem steps s = some s' → inv s')
    (hend : ∀ s s', inv s → ReadState.takeTerminator s.built s.rest = some s' → inv s')
    (hskip : ∀ s, inv s → inv ⟨skipLine s.rest, s.built⟩)
    (hcomments : ∀ s, inv s → inv ⟨[], ((s.rest.filter Lexeme.isComment).map
      (·.toLeaf .comment)).reverse ++ s.built⟩)
    (fuel : Nat) (broken : Bool) (s : ReadState) (hs : inv s) :
    inv (readItems steps fuel broken s).1 := by
  induction fuel generalizing broken s with
  | zero => exact hs
  | succ fuel ih =>
      rw [readItems]
      split
      next => exact hcomments s hs
      next =>
        split
        next s' hread =>
          have hs' := hitem s s' hs hread
          split
          next ended hterminated => exact ih broken ended (hend s' ended hs' hterminated)
          next => exact ih true s' hs'
        next => exact ih true _ (hskip s hs)

/-- Names are sound, and all lies between the first row and the row `last`. -/
structure WellRead (last : Nat) (s : ReadState) : Prop where
  sound : s.Sound
  rows : Extent.Rows last 0 s.extents

theorem skipLine_sublist (ls : List Lexeme) : (skipLine ls).Sublist ls :=
  (List.dropWhile_sublist _).trans (List.drop_sublist 1 ls)

theorem inOrder_skip {coord : Position → Nat} {hi lo : Nat} {s : ReadState}
    (h : Extent.InOrder coord hi lo s.extents) :
    Extent.InOrder coord hi lo (ReadState.extents ⟨skipLine s.rest, s.built⟩) :=
  h.sublist (((skipLine_sublist s.rest).map Lexeme.extent).append_left _)

theorem inOrder_comments {coord : Position → Nat} {hi lo : Nat} {s : ReadState}
    (h : Extent.InOrder coord hi lo s.extents) :
    Extent.InOrder coord hi lo (ReadState.extents
      ⟨[], ((s.rest.filter Lexeme.isComment).map (·.toLeaf .comment)).reverse ++ s.built⟩) := by
  refine h.sublist (ReadState.extents_sublist (s.rest.filter Lexeme.isComment) _ ?_ rfl ?_)
  · rw [List.append_nil]
    exact List.filter_sublist
  · rw [List.map_map]
    rfl

theorem wellRead_readItems {last steps : Nat} {s : ReadState} (fuel : Nat) (broken : Bool)
    (hs : WellRead last s) : WellRead last (readItems steps fuel broken s).1 := by
  refine readItems_keeps (WellRead last) ?_ ?_ ?_ ?_ fuel broken s hs
  · intro s s' hs h
    exact ⟨sound_of_readItem h hs.sound, inOrder_of_run h hs.rows⟩
  · intro s s' hs h
    exact ⟨sound_kept.terminator s s' h hs.sound, (inOrder_kept _).terminator s s' h 0 last hs.rows⟩
  · intro s hs
    refine ⟨⟨fun l hl => ?_, hs.sound.built⟩, inOrder_skip hs.rows⟩
    exact hs.sound.rest l ((skipLine_sublist s.rest).subset hl)
  · intro s hs
    refine ⟨⟨fun _ h => absurd h List.not_mem_nil, fun t ht => ?_⟩, inOrder_comments hs.rows⟩
    rcases List.mem_append.mp ht with ht | ht
    · obtain ⟨l, -, rfl⟩ := List.mem_map.mp (List.mem_reverse.mp ht)
      exact Lexeme.sound_toLeaf fun h => nomatch h
    · exact hs.sound.built t ht

/-- **What holds of the items of a file:** their names are sound, and they lie in its rows. -/
structure WellPlaced (text : String) (t : Tree) : Prop where
  sound : t.Every Tree.Sound
  start_le : t.extent.start.row ≤ t.extent.stop.row
  stop_le : t.extent.stop.row ≤ text.toList.count '\n'

theorem wellRead_readSource (text : String) : WellRead (text.toList.count '\n') (readSource text).1 := by
  refine wellRead_readItems _ _ ⟨⟨fun l hl => Lexeme.dotless_of_mem_scan hl, ?_⟩, ?_⟩
  · exact fun _ h => absurd h List.not_mem_nil
  · exact Lexeme.rows_scan text

theorem mem_readSource_of_mem_parse {text : String} {t : Tree} (h : t ∈ (parse text).root.named) :
    t ∈ (readSource text).1.built :=
  List.mem_reverse.mp (List.mem_filter.mp h).1

theorem wellPlaced_of_mem_parse {text : String} {t : Tree} (h : t ∈ (parse text).root.named) :
    WellPlaced text t := by
  have hread := wellRead_readSource text
  have hmem := mem_readSource_of_mem_parse h
  obtain ⟨-, hstart, hstop⟩ := hread.rows.bounds
    (List.mem_append_left _ (List.mem_map_of_mem (List.mem_reverse.mpr hmem)))
  exact ⟨hread.sound.built t hmem, hstart, hstop⟩

/-- **The items of a file stand one after the other.** -/
theorem pairwise_parse (text : String) :
    (parse text).root.named.Pairwise fun s t => s.extent.stop.row ≤ t.extent.start.row := by
  have hrows := (wellRead_readSource text).rows.pairwise
  exact (List.pairwise_map.mp (List.pairwise_append.mp hrows).1).filter _

end SourceFile
end GoExcerpt
