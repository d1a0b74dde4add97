import GoExcerpt.Proofs.Lexemes
import GoExcerpt.Syntax.SourceFile
import Mathlib.Data.List.TakeWhile

/-!
# `Proofs.Reading` — what every reading by a grammar keeps

A reading is made of few kinds of steps, so a relation between states that each step keeps holds between
the beginning and the end of every reading (`Kept.run`). Two such relations stand here: what has been built
is added to, never changed, by a grammar that frames what it wraps (`exists_append_of_run`), and trees and
lexemes stay in order, by rows as by bytes (`inOrder_of_run`).
-/

namespace GoExcerpt

open Extent (InOrder)

/-! ## Steps of a grammar -/

/-- Which steps a grammar may consist of. -/
structure Allowed where
  token : Wanted → Kind → Bool := fun _ _ => true
  wrap : Kind → Bool := fun _ => true
  tag : Role → Bool := fun _ => true
  rule : Rule → Bool := fun _ => true
  /-- whether the steps inside a frame count -/
  inside : Bool := true
  /-- frames that are allowed as a whole, whatever they consist of -/
  special : Grammar → Bool := fun _ => false

namespace Grammar

/-- Whether a grammar consists of allowed steps. -/
def uses (a : Allowed) : Grammar → Bool
  | token w k => a.token w k
  | wrap k => a.wrap k
  | tag role => a.tag role
  | rule r => a.rule r
  | seq g h | alt g h => g.uses a && h.uses a
  | many g | within _ g => g.uses a
  | frame g => a.special g || !a.inside || g.uses a
  | done | terminator | sameLine | outsideHeader | ahead _ => true

end Grammar

/-- **A relation that every allowed step of a reading keeps.** -/
structure Kept (a : Allowed) (rel : ReadState → ReadState → Prop) : Prop where
  refl : ∀ s, rel s s
  trans : ∀ s t u, rel s t → rel t u → rel s u
  token : ∀ w k s s', a.token w k = true → ReadState.take w k s.built s.rest = some s' → rel s s'
  terminator : ∀ s s', ReadState.takeTerminator s.built s.rest = some s' → rel s s'
  wrap : ∀ k s, a.wrap k = true → rel s ⟨s.rest, ReadState.wrap k s.built⟩
  tag : ∀ role s, a.tag role = true → rel s ⟨s.rest, ReadState.tag role s.built⟩
  frame : ∀ s s', (a.inside = true → rel ⟨s.rest, []⟩ s') → rel s ⟨s'.rest, s'.built ++ s.built⟩

/-- **Such a relation holds between the beginning and the end of every reading,** if it does so for the
    frames that are allowed as a whole. The induction is on the fuel, since rules refer to each other; about
    a frame one may use what holds of readings with less fuel. -/
theorem Kept.run_special {a : Allowed} {rel : ReadState → ReadState → Prop} (hrel : Kept a rel)
    {rules : Rule → Grammar} (hrules : ∀ r, a.rule r = true → (rules r).uses a = true)
    (hspecial : ∀ fuel, (∀ n ≤ fuel, ∀ (m : Reading) (g : Grammar) (s s' : ReadState),
        g.uses a = true → g.run rules n m s = some s' → rel s s') →
      ∀ (m : Reading) (g : Grammar) (s s' : ReadState), a.special g = true →
        g.run rules fuel m ⟨s.rest, []⟩ = some s' →
        rel s ⟨s'.rest, s'.built ++ s.built⟩)
    {fuel : Nat} {m : Reading} {g : Grammar} {s s' : ReadState} (hg : g.uses a = true)
    (h : g.run rules fuel m s = some s') : rel s s' := by
  induction fuel using Nat.strongRecOn generalizing m g s s' with
  | ind fuel ih =>
  cases fuel with
  | zero => simp [Grammar.run] at h
  | succ fuel =>
      replace ih : ∀ n ≤ fuel, ∀ (m : Reading) (g : Grammar) (s s' : ReadState), g.uses a = true →
          g.run rules n m s = some s' → rel s s' :=
        fun n hn m g s s' hg h => ih n (Nat.lt_succ_of_le hn) hg h
      have ih' := ih fuel (Nat.le_refl _)
      cases g with
      | done =>
          obtain rfl := Option.some.inj h
          exact hrel.refl s
      | token w k => exact hrel.token w k s s' hg h
      | terminator => exact hrel.terminator s s' h
      | sameLine =>
          rw [Grammar.run] at h
          split at h
          next => cases h
          next =>
            obtain rfl := Option.some.inj h
            exact hrel.refl s
      | outsideHeader =>
          rw [Grammar.run] at h
          split at h
          next => cases h
          next =>
            obtain rfl := Option.some.inj h
            exact hrel.refl s
      | ahead test =>
          rw [Grammar.run] at h
          split at h
          next =>
            obtain rfl := Option.some.inj h
            exact hrel.refl s
          next => cases h
      | seq first second =>
          obtain ⟨hfirst, hsecond⟩ := Bool.and_eq_true_iff.mp hg
          rw [Grammar.run] at h
          split at h
          next t ht =>
            exact hrel.trans s t s' (ih' m first s t hfirst ht) (ih' m second t s' hsecond h)
          next => cases h
      | alt first second =>
          obtain ⟨hfirst, hsecond⟩ := Bool.and_eq_true_iff.mp hg
          rw [Grammar.run] at h
          split at h
          next t ht =>
            obtain rfl := Option.some.inj h
            exact ih' m first s t hfirst ht
          next => exact ih' m second s s' hsecond h
      | many part =>
          have hpart : part.uses a = true := hg
          rw [Grammar.run] at h
          split at h
          next t ht => exact hrel.trans s t s' (ih' m part s t hpart ht) (ih' m _ t s' hg h)
          next =>
            obtain rfl := Option.some.inj h
            exact hrel.refl s
      | rule r => exact ih' m (rules r) s s' (hrules r hg) h
      | within region part =>
          have hpart : part.uses a = true := hg
          exact ih' _ part s s' hpart h
      | frame part =>
          rw [Grammar.run] at h
          split at h
          next t ht =>
            obtain rfl := Option.some.inj h
            by_cases hwhole : a.special part = true
            · exact hspecial fuel ih m part s t hwhole ht
            · refine hrel.frame s t fun hinside => ih' m part _ t ?_ ht
              simpa [Grammar.uses, hinside, hwhole] using hg
          next => cases h
      | wrap k =>
          obtain rfl := Option.some.inj h
          exact hrel.wrap k s hg
      | tag role =>
          obtain rfl := Option.some.inj h
          exact hrel.tag role s hg

/-- **Such a relation holds between the beginning and the end of every reading.** -/
theorem Kept.run {a : Allowed} {rel : ReadState → ReadState → Prop} (hrel : Kept a rel)
    {rules : Rule → Grammar} (hrules : ∀ r, a.rule r = true → (rules r).uses a = true) {fuel : Nat}
    {m : Reading} {g : Grammar} {s s' : ReadState} (hg : g.uses a = true)
    (h : g.run rules fuel m s = some s') (hnone : ∀ g, a.special g = false) : rel s s' := by
  refine hrel.run_special hrules ?_ hg h
  intro fuel _ m g s s' hwhole
  exact absurd (hnone g) (by simp [hwhole])

/-! ## Readings taken apart -/

namespace Grammar

variable {rules : Rule → Grammar} {fuel : Nat} {m : Reading} {a b : Grammar} {s s' : ReadState}

/-- The parts of a sequence are read with less fuel. -/
theorem exists_lt_of_run_seq (h : (a ++ b).run rules fuel m s = some s') :
    ∃ n < fuel, ∃ t, a.run rules n m s = some t ∧ b.run rules n m t = some s' := by
  cases fuel with
  | zero => cases h
  | succ n =>
      have hseq : (Grammar.seq a b).run rules (n + 1) m s = some s' := h
      rw [Grammar.run] at hseq
      split at hseq
      next t ht => exact ⟨n, Nat.lt_succ_self n, t, ht, hseq⟩
      next => cases hseq

theorem exists_of_run_seq (h : (a ++ b).run rules fuel m s = some s') :
    ∃ n t, a.run rules n m s = some t ∧ b.run rules n m t = some s' := by
  obtain ⟨n, -, hn⟩ := exists_lt_of_run_seq h
  exact ⟨n, hn⟩

theorem exists_of_run_alt (h : (a.alt b).run rules fuel m s = some s') :
    ∃ n, a.run rules n m s = some s' ∨ b.run rules n m s = some s' := by
  cases fuel with
  | zero => cases h
  | succ n =>
      rw [run] at h
      split at h
      next t ht => exact ⟨n, .inl (ht.trans h)⟩
      next => exact ⟨n, .inr h⟩

theorem exists_of_run_frame (h : a.frame.run rules fuel m s = some s') :
    ∃ n t, a.run rules n m ⟨s.rest, []⟩ = some t ∧ s' = ⟨t.rest, t.built ++ s.built⟩ := by
  cases fuel with
  | zero => cases h
  | succ n =>
      rw [run] at h
      split at h
      next t ht => exact ⟨n, t, ht, (Option.some.inj h).symm⟩
      next => cases h

theorem exists_of_run_rule {r : Rule} (h : (rule r).run rules fuel m s = some s') :
    ∃ n, (rules r).run rules n m s = some s' := by
  cases fuel with
  | zero => cases h
  | succ n => exact ⟨n, h⟩

theorem take_of_run_token {w : Wanted} {k : Kind} (h : (token w k).run rules fuel m s = some s') :
    ReadState.take w k s.built s.rest = some s' := by
  cases fuel with
  | zero => cases h
  | succ n => exact h

theorem eq_of_run_done (h : done.run rules fuel m s = some s') : s' = s := by
  cases fuel with
  | zero => cases h
  | succ n => exact (Option.some.inj h).symm

theorem eq_of_run_sameLine (h : sameLine.run rules fuel m s = some s') : s' = s := by
  cases fuel with
  | zero => cases h
  | succ n =>
      rw [run] at h
      split at h
      next => cases h
      next => exact (Option.some.inj h).symm

theorem eq_of_run_wrap {k : Kind} (h : (wrap k).run rules fuel m s = some s') :
    s' = ⟨s.rest, ReadState.wrap k s.built⟩ := by
  cases fuel with
  | zero => cases h
  | succ n => exact (Option.some.inj h).symm

theorem eq_of_run_tag {role : Role} (h : (tag role).run rules fuel m s = some s') :
    s' = ⟨s.rest, ReadState.tag role s.built⟩ := by
  cases fuel with
  | zero => cases h
  | succ n => exact (Option.some.inj h).symm

/-- What plays a part is read apart, tagged, and added to what is built. -/
theorem exists_of_run_playing {role : Role} (h : (playing role a).run rules fuel m s = some s') :
    ∃ n t, a.run rules n m ⟨s.rest, []⟩ = some t ∧
      s' = ⟨t.rest, ReadState.tag role t.built ++ s.built⟩ := by
  obtain ⟨_, u, hu, rfl⟩ := exists_of_run_frame h
  obtain ⟨n, t, ht, htag⟩ := exists_of_run_seq hu
  obtain rfl := eq_of_run_tag htag
  exact ⟨n, t, ht, rfl⟩

end Grammar

/-! ## Lexemes taken -/

namespace ReadState

/-- **A wanted lexeme becomes a leaf, after the comments before it.** -/
theorem exists_of_take {w : Wanted} {k : Kind} {built : List Tree} {rest : List Lexeme}
    {s' : ReadState} (h : take w k built rest = some s') :
    ∃ (comments : List Lexeme) (l : Lexeme),
      (comments ++ l :: s'.rest).Sublist rest ∧ l.satisfies w = true ∧
      s'.built = l.toLeaf k :: (comments.map (·.toLeaf .comment)).reverse ++ built := by
  induction rest generalizing built with
  | nil => cases h
  | cons l ls ih =>
      rw [take] at h
      split at h
      next =>
        obtain ⟨comments, wanted, hsub, hsat, hbuilt⟩ := ih h
        exact ⟨comments, wanted, hsub.cons l, hsat, hbuilt⟩
      next =>
        split at h
        next =>
          obtain ⟨comments, wanted, hsub, hsat, hbuilt⟩ := ih h
          refine ⟨l :: comments, wanted, hsub.cons_cons l, hsat, ?_⟩
          rw [hbuilt]
          simp
        next =>
          split at h
          next hsat =>
            obtain rfl := Option.some.inj h
            exact ⟨[], l, List.Sublist.refl _, hsat, rfl⟩
          next => cases h

theorem exists_of_takeEnd {built : List Tree} {rest : List Lexeme} {s' : ReadState}
    (h : takeEnd built rest = some s') :
    ∃ (comments : List Lexeme) (l : Lexeme),
      rest = comments ++ l :: s'.rest ∧ (∀ c ∈ comments, c.cls = .comment) ∧
      (l.cls = .lineEnd ∨ l.text = ";") ∧
      s'.built = l.toLeaf .mark :: (comments.map (·.toLeaf .comment)).reverse ++ built := by
  induction rest generalizing built with
  | nil => cases h
  | cons l ls ih =>
      rw [takeEnd] at h
      split at h
      next hcomment =>
        obtain ⟨comments, ended, rfl, hcomments, hended, hbuilt⟩ := ih h
        refine ⟨l :: comments, ended, rfl, ?_, hended, ?_⟩
        · exact List.forall_mem_cons.mpr ⟨beq_iff_eq.mp hcomment, hcomments⟩
        · rw [hbuilt]
          simp
      next =>
        split at h
        next hend =>
          obtain rfl := Option.some.inj h
          refine ⟨[], l, rfl, fun _ hc => absurd hc List.not_mem_nil, ?_, rfl⟩
          simpa using hend
        next => cases h

/-- The end of a statement becomes a leaf too, unless the text ends here. -/
theorem exists_of_takeTerminator {built : List Tree} {rest : List Lexeme} {s' : ReadState}
    (h : takeTerminator built rest = some s') :
    ∃ (comments ended : List Lexeme),
      (comments ++ ended ++ s'.rest).Sublist rest ∧
      s'.built = (ended.map (·.toLeaf .mark)).reverse
        ++ (comments.map (·.toLeaf .comment)).reverse ++ built := by
  unfold takeTerminator at h
  split at h
  next =>
    obtain rfl := Option.some.inj h
    exact ⟨[], [], List.Sublist.refl _, rfl⟩
  next =>
    obtain ⟨comments, l, rfl, -, -, hbuilt⟩ := exists_of_takeEnd h
    refine ⟨comments, [l], ?_, hbuilt⟩
    rw [List.append_assoc]
    exact List.Sublist.refl _

/-- Wrapping leaves leading comments alone and makes one node of the trees after them, if there are any. -/
theorem wrap_cases (k : Kind) (built : List Tree) :
    (∀ t ∈ built, t.isComment = true) ∧ wrap k built = built ∨
    ∃ leading t ts, built.reverse = leading ++ t :: ts ∧ (∀ c ∈ leading, c.isComment = true) ∧
      wrap k built = gather k t ts :: leading.reverse := by
  unfold wrap
  simp only
  split
  next hnone =>
    refine .inl ⟨fun t ht => ?_, rfl⟩
    exact List.dropWhile_eq_nil_iff.mp hnone t (List.mem_reverse.mpr ht)
  next t ts hrest =>
    refine .inr ⟨_, t, ts, ?_, List.all_eq_true.mp List.all_takeWhile, rfl⟩
    rw [← hrest, List.takeWhile_append_dropWhile]

end ReadState

/-! ## Adding to what is built -/

/-- Steps that only add to what is built. -/
def Allowed.adding : Allowed where
  wrap _ := false
  tag _ := false
  inside := false

theorem Rules.uses_adding (r : Rule) : (Rules.grammar r).uses .adding = true := by
  cases r with
  | binary level =>
      unfold Rules.grammar Rules.binary
      rfl
  | _ => rfl

/-- **A grammar that wraps and tags only inside frames keeps what is built.** -/
theorem exists_append_of_run {fuel : Nat} {m : Reading} {g : Grammar} {s s' : ReadState}
    (hg : g.uses .adding = true) (h : g.run Rules.grammar fuel m s = some s') :
    ∃ new, s'.built = new ++ s.built := by
  have hkept : Kept .adding fun s s' => ∃ new, s'.built = new ++ s.built := {
    refl := fun s => ⟨[], rfl⟩
    trans := by
      rintro s t u ⟨new, hnew⟩ ⟨more, hmore⟩
      exact ⟨more ++ new, by rw [hmore, hnew, List.append_assoc]⟩
    token := by
      intro w k s s' _ htake
      obtain ⟨comments, l, -, -, hbuilt⟩ := ReadState.exists_of_take htake
      exact ⟨_, hbuilt⟩
    terminator := by
      intro s s' htake
      obtain ⟨comments, ended, -, hbuilt⟩ := ReadState.exists_of_takeTerminator htake
      exact ⟨_, hbuilt⟩
    wrap := fun _ _ hwrap => nomatch hwrap
    tag := fun _ _ htag => nomatch htag
    frame := fun s s' _ => ⟨s'.built, rfl⟩ }
  exact hkept.run (fun r _ => Rules.uses_adding r) hg h (fun _ => rfl)

/-! ## Properties of the trees built -/

namespace ReadState

theorem mem_of_take {w : Wanted} {k : Kind} {s s' : ReadState} {t : Tree}
    (h : take w k s.built s.rest = some s') (ht : t ∈ s'.built) :
    t ∈ s.built ∨ ∃ l ∈ s.rest, ∃ kind, (kind = k ∨ kind = .comment) ∧ t = l.toLeaf kind := by
  obtain ⟨comments, l, hsub, -, hbuilt⟩ := exists_of_take h
  rw [hbuilt] at ht
  simp only [List.cons_append, List.mem_cons, List.mem_append, List.mem_reverse, List.mem_map] at ht
  rcases ht with rfl | ⟨c, hc, rfl⟩ | ht
  · exact .inr ⟨l, hsub.subset (by simp), k, .inl rfl, rfl⟩
  · exact .inr ⟨c, hsub.subset (by simp [hc]), .comment, .inr rfl, rfl⟩
  · exact .inl ht

theorem mem_of_takeTerminator {s s' : ReadState} {t : Tree}
    (h : takeTerminator s.built s.rest = some s') (ht : t ∈ s'.built) :
    t ∈ s.built ∨ ∃ l ∈ s.rest, ∃ kind, (kind = .mark ∨ kind = .comment) ∧ t = l.toLeaf kind := by
  obtain ⟨comments, ended, hsub, hbuilt⟩ := exists_of_takeTerminator h
  rw [hbuilt] at ht
  simp only [List.mem_append, List.mem_reverse, List.mem_map] at ht
  rcases ht with (⟨l, hl, rfl⟩ | ⟨c, hc, rfl⟩) | ht
  · exact .inr ⟨l, hsub.subset (by simp [hl]), .mark, .inl rfl, rfl⟩
  · exact .inr ⟨c, hsub.subset (by simp [hc]), .comment, .inr rfl, rfl⟩
  · exact .inl ht

/-- Wrapping leaves comments and one node over what was built. -/
theorem mem_wrap {k : Kind} {built : List Tree} {t : Tree} (h : t ∈ wrap k built) :
    t ∈ built ∧ t.isComment = true ∨
      ∃ first more, t = gather k first more ∧ ∀ c ∈ first :: more, c ∈ built := by
  rcases wrap_cases k built with ⟨hcomments, heq⟩ | ⟨leading, first, more, hbuilt, hleading, heq⟩
  · rw [heq] at h
    exact .inl ⟨h, hcomments t h⟩
  · have hmem : ∀ c ∈ leading ++ first :: more, c ∈ built := by
      rw [← hbuilt]
      exact fun c hc => List.mem_reverse.mp hc
    rw [heq] at h
    rcases List.mem_cons.mp h with rfl | h
    · exact .inr ⟨first, more, rfl, fun c hc => hmem c (List.mem_append_right _ hc)⟩
    · have ht := List.mem_reverse.mp h
      exact .inl ⟨hmem t (List.mem_append_left _ ht), hleading t ht⟩

theorem mem_tag {role : Role} {built : List Tree} {t : Tree} (h : t ∈ tag role built) :
    t ∈ built ∧ t.isComment = true ∨
      ∃ old ∈ built, old.isComment = false ∧ t = old.withRole role := by
  obtain ⟨old, hold, rfl⟩ := List.mem_map.mp h
  split
  next hcomment => exact .inl ⟨hold, hcomment⟩
  next hcomment => exact .inr ⟨old, hold, by simpa using hcomment, rfl⟩

/-- Comments play no part. -/
theorem tag_comments {role : Role} {built : List Tree} (h : ∀ t ∈ built, t.isComment = true) :
    tag role built = built := by
  unfold tag
  conv => rhs; rw [← List.map_id built]
  refine List.map_congr_left fun t ht => ?_
  rw [if_pos (h t ht)]
  rfl

end ReadState

/-- **Every reading keeps a property of the trees built** that lexemes of the kinds allowed have, and that allowed
    nodes and parts inherit. -/
theorem kept_of_trees {a : Allowed} {p : Tree → Prop} (hinside : a.inside = true)
    (hleaf : ∀ (l : Lexeme) (k : Kind), (k = .mark ∨ k = .comment ∨ ∃ w, a.token w k = true) → p (l.toLeaf k))
    (hgather : ∀ k t ts, a.wrap k = true → (∀ c ∈ t :: ts, p c) → p (ReadState.gather k t ts))
    (hrole : ∀ role t, a.tag role = true → t.isComment = false → p t → p (t.withRole role)) :
    Kept a fun s s' => (∀ t ∈ s.built, p t) → ∀ t ∈ s'.built, p t where
  refl := fun _ h => h
  trans := fun _ _ _ hst htu h => htu (hst h)
  token := by
    intro w k s s' hallowed htake hs t ht
    rcases ReadState.mem_of_take htake ht with ht | ⟨l, -, kind, rfl | rfl, rfl⟩
    · exact hs t ht
    · exact hleaf l kind (.inr (.inr ⟨w, hallowed⟩))
    · exact hleaf l .comment (.inr (.inl rfl))
  terminator := by
    intro s s' htake hs t ht
    rcases ReadState.mem_of_takeTerminator htake ht with ht | ⟨l, -, kind, rfl | rfl, rfl⟩
    · exact hs t ht
    · exact hleaf l .mark (.inl rfl)
    · exact hleaf l .comment (.inr (.inl rfl))
  wrap := by
    intro k s hallowed hs t ht
    rcases ReadState.mem_wrap ht with ⟨ht, -⟩ | ⟨first, more, rfl, hmem⟩
    · exact hs t ht
    · exact hgather k first more hallowed fun c hc => hs c (hmem c hc)
  tag := by
    intro role s hallowed hs t ht
    rcases ReadState.mem_tag ht with ⟨ht, -⟩ | ⟨old, hold, hcomment, rfl⟩
    · exact hs t ht
    · exact hrole role old hallowed hcomment (hs old hold)
  frame := by
    intro s s' hframe hs t ht
    rcases List.mem_append.mp ht with ht | ht
    · exact hframe hinside (fun _ h => absurd h List.not_mem_nil) t ht
    · exact hs t ht

/-- A property of trees that lexemes have and that allowed nodes and parts inherit. -/
structure Inherited (a : Allowed) (p : Tree → Prop) : Prop where
  leaf : ∀ (l : Lexeme) (k : Kind), p (l.toLeaf k)
  gather : ∀ k t ts, a.wrap k = true → (∀ c ∈ t :: ts, p c) → p (ReadState.gather k t ts)
  withRole : ∀ role t, a.tag role = true → t.isComment = false → p t → p (t.withRole role)

theorem Inherited.kept {a : Allowed} {p : Tree → Prop} (hp : Inherited a p) (hinside : a.inside = true) :
    Kept a fun s s' => (∀ t ∈ s.built, p t) → ∀ t ∈ s'.built, p t :=
  kept_of_trees hinside (fun l k _ => hp.leaf l k) hp.gather hp.withRole

/-! ## Comments -/

/-- A comment is a leaf that plays no part. -/
def Tree.Bare (t : Tree) : Prop := t.isComment = true → t.role = none ∧ t.children = []

/-- Steps that make no node of comments. -/
def Allowed.bare : Allowed where
  wrap k := k != .comment

theorem Rules.uses_bare (r : Rule) : (Rules.grammar r).uses .bare = true := by
  cases r with
  | binary level =>
      show (Rules.binary level).uses .bare = true
      unfold Rules.binary
      split
      next => rfl
      next => rfl
  | _ => rfl

theorem bare_inherited : Inherited .bare Tree.Bare where
  leaf := fun _ _ _ => ⟨rfl, rfl⟩
  gather := by
    intro k t ts hallowed _ hcomment
    exact absurd (beq_iff_eq.mp hcomment) (bne_iff_ne.mp hallowed)
  withRole := by
    intro role t _ hcomment _ hrole
    cases t <;> exact absurd (hrole.symm.trans hcomment) (by simp)

theorem bare_of_run {fuel : Nat} {m : Reading} {g : Grammar} {s s' : ReadState} (hg : g.uses .bare = true)
    (h : g.run Rules.grammar fuel m s = some s') (hs : ∀ t ∈ s.built, t.Bare) : ∀ t ∈ s'.built, t.Bare :=
  (bare_inherited.kept rfl).run (fun r _ => Rules.uses_bare r) hg h (fun _ => rfl) hs

/-! ## Parts not played -/

/-- No tree plays a part. -/
def Lacks (role : Role) (built : List Tree) : Prop := ∀ t ∈ built, t.role ≠ some role

/-- Steps that give no tree the part. A node plays none yet, and what plays another part does not play
    this one, whatever stands inside. -/
def Allowed.lacking (role : Role) : Allowed where
  tag other := other != role
  rule
    | .parameters | .typeParameters => true
    | .signature => role != .parameters && role != .result
    | _ => false
  special
    | .seq g (.wrap _) => g.uses .bare
    | .seq g (.tag other) => other != role && g.uses .bare
    | _ => false

theorem lacking_inherited (role : Role) : Inherited (.lacking role) fun t => t.role ≠ some role where
  leaf := fun _ _ h => nomatch h
  gather := fun _ _ _ _ _ h => nomatch h
  withRole := by
    intro other t hallowed _ _ hrole
    cases t <;> exact bne_iff_ne.mp hallowed (Option.some.inj hrole)

theorem Rules.uses_lacking {role : Role} {r : Rule} (h : (Allowed.lacking role).rule r = true) :
    (Rules.grammar r).uses (.lacking role) = true := by
  cases r with
  | parameters | typeParameters => rfl
  | signature =>
      cases role with
      | parameters | result => cases h
      | _ => rfl
  | _ => cases h

/-- Such a frame adds comments, and a node or trees in another part. -/
theorem lacks_of_special {role : Role} {fuel : Nat} {m : Reading} {g : Grammar} {s s' : ReadState}
    (hg : (Allowed.lacking role).special g = true)
    (h : g.run Rules.grammar fuel m ⟨s.rest, []⟩ = some s') : Lacks role s'.built := by
  have hnone : ∀ t ∈ ([] : List Tree), t.Bare := fun _ h => absurd h List.not_mem_nil
  cases g with
  | seq part ending =>
      obtain ⟨n, u, hu, hending⟩ := Grammar.exists_of_run_seq h
      cases ending with
      | wrap k =>
          obtain rfl := Grammar.eq_of_run_wrap hending
          intro t ht
          rcases ReadState.mem_wrap ht with ⟨ht, hcomment⟩ | ⟨first, more, rfl, -⟩
          · rw [(bare_of_run hg hu hnone t ht hcomment).1]
            exact fun h => nomatch h
          · exact fun h => nomatch h
      | tag other =>
          obtain ⟨hother, hpart⟩ := Bool.and_eq_true_iff.mp hg
          obtain rfl := Grammar.eq_of_run_tag hending
          intro t ht
          rcases ReadState.mem_tag ht with ⟨ht, hcomment⟩ | ⟨old, -, -, rfl⟩
          · rw [(bare_of_run hpart hu hnone t ht hcomment).1]
            exact fun h => nomatch h
          · cases old <;> exact fun h => bne_iff_ne.mp hother (Option.some.inj h)
      | _ => cases hg
  | _ => cases hg

/-- **A reading that gives no tree the part leaves it unplayed.** -/
theorem lacks_of_run {role : Role} {fuel : Nat} {m : Reading} {g : Grammar} {s s' : ReadState}
    (hg : g.uses (.lacking role) = true) (h : g.run Rules.grammar fuel m s = some s')
    (hs : Lacks role s.built) : Lacks role s'.built := by
  refine ((lacking_inherited role).kept rfl).run_special (fun r hr => Rules.uses_lacking hr) ?_ hg h hs
  intro fuel _ m g s s' hspecial hrun hs t ht
  rcases List.mem_append.mp ht with ht | ht
  · exact lacks_of_special hspecial hrun t ht
  · exact hs t ht

/-! ## Order -/

namespace ReadState

variable {coord : Position → Nat}

/-- The stretches of all that is built, and then of all that is still to be read. -/
def extents (s : ReadState) : List Extent :=
  s.built.reverse.map Tree.extent ++ s.rest.map Lexeme.extent

/-- A node over trees that follow one another lies where they lie. -/
theorem inOrder_gather {lo hi : Nat} (k : Kind) {t : Tree} {ts : List Tree}
    (h : InOrder coord hi lo ((t :: ts).map Tree.extent)) :
    InOrder coord hi lo [(gather k t ts).extent] := by
  obtain ⟨hlo, hcoord, hrest⟩ := h
  show lo ≤ coord t.extent.start ∧ coord t.extent.start ≤ _ ∧ _ ≤ hi
  cases ts with
  | nil => exact ⟨hlo, hcoord, hrest⟩
  | cons u us =>
      have hlast : ((t :: u :: us).getLast (by simp)).extent ∈ (u :: us).map Tree.extent := by
        rw [List.getLast_cons (by simp)]
        exact List.mem_map_of_mem (List.getLast_mem _)
      obtain ⟨hstart, hlastCoord, hstop⟩ := hrest.bounds hlast
      exact ⟨hlo, Nat.le_trans hcoord (Nat.le_trans hstart hlastCoord), hstop⟩

theorem inOrder_wrap {lo hi : Nat} (k : Kind) {s : ReadState} (h : InOrder coord hi lo s.extents) :
    InOrder coord hi lo (extents ⟨s.rest, wrap k s.built⟩) := by
  rcases wrap_cases k s.built with ⟨-, heq⟩ | ⟨leading, t, ts, hbuilt, -, heq⟩
  · rw [heq]
    exact h
  · unfold extents at h ⊢
    rw [hbuilt, List.map_append] at h
    obtain ⟨high, h, hrest⟩ := Extent.inOrder_append.mp h
    obtain ⟨low, hleading, hnode⟩ := Extent.inOrder_append.mp h
    rw [heq, List.reverse_cons, List.reverse_reverse, List.map_append]
    exact Extent.inOrder_append.mpr
      ⟨high, Extent.inOrder_append.mpr ⟨low, hleading, inOrder_gather k hnode⟩, hrest⟩

/-- What is built in a frame comes after what was built before it. -/
theorem inOrder_frame {lo mid hi : Nat} {s s' : ReadState}
    (hbuilt : InOrder coord mid lo (s.built.reverse.map Tree.extent))
    (hframe : InOrder coord hi mid s'.extents) :
    InOrder coord hi lo (extents ⟨s'.rest, s'.built ++ s.built⟩) := by
  unfold extents at hframe ⊢
  rw [List.reverse_append, List.map_append, List.append_assoc]
  exact Extent.inOrder_append.mpr ⟨mid, hbuilt, hframe⟩

theorem extents_tag (role : Role) (s : ReadState) :
    extents ⟨s.rest, tag role s.built⟩ = s.extents := by
  have hextent : ∀ t : Tree, (if t.isComment then t else t.withRole role).extent = t.extent := by
    intro t
    split
    next => rfl
    next => cases t <;> rfl
  unfold extents tag
  rw [← List.map_reverse, List.map_map]
  exact congrArg (· ++ _) (List.map_congr_left fun t _ => hextent t)

/-- Taking lexemes leaves some out and changes no order. -/
theorem extents_sublist {s s' : ReadState} (taken : List Lexeme) (leaves : List Tree)
    (hrest : (taken ++ s'.rest).Sublist s.rest) (hbuilt : s'.built = leaves.reverse ++ s.built)
    (hleaves : leaves.map Tree.extent = taken.map Lexeme.extent) :
    s'.extents.Sublist s.extents := by
  unfold extents
  rw [hbuilt, List.reverse_append, List.reverse_reverse, List.map_append, hleaves, List.append_assoc,
    ← List.map_append]
  exact (hrest.map Lexeme.extent).append_left _

end ReadState

/-- **Trees and lexemes stay in order.** -/
theorem inOrder_kept (coord : Position → Nat) : Kept {} fun s s' =>
    ∀ lo hi, InOrder coord hi lo s.extents → InOrder coord hi lo s'.extents where
  refl := fun _ _ _ h => h
  trans := fun _ _ _ hst htu lo hi h => htu lo hi (hst lo hi h)
  token := by
    intro w k s s' _ htake lo hi h
    obtain ⟨comments, l, hsub, -, hbuilt⟩ := ReadState.exists_of_take htake
    refine h.sublist (ReadState.extents_sublist (comments ++ [l])
      (comments.map (·.toLeaf .comment) ++ [l.toLeaf k]) ?_ ?_ ?_)
    · rw [List.append_assoc]
      exact hsub
    · rw [hbuilt, List.reverse_append]
      rfl
    · rw [List.map_append, List.map_append, List.map_map]
      rfl
  terminator := by
    intro s s' htake lo hi h
    obtain ⟨comments, ended, hsub, hbuilt⟩ := ReadState.exists_of_takeTerminator htake
    refine h.sublist (ReadState.extents_sublist (comments ++ ended)
      (comments.map (·.toLeaf .comment) ++ ended.map (·.toLeaf .mark)) hsub ?_ ?_)
    · rw [hbuilt, List.reverse_append]
    · rw [List.map_append, List.map_append, List.map_map, List.map_map]
      rfl
  wrap := fun k s _ lo hi h => ReadState.inOrder_wrap k h
  tag := by
    intro role s _ lo hi h
    rw [ReadState.extents_tag]
    exact h
  frame := by
    intro s s' hinside lo hi h
    obtain ⟨mid, hbuilt, hrest⟩ := Extent.inOrder_append.mp h
    exact ReadState.inOrder_frame hbuilt (hinside rfl mid hi hrest)

theorem Grammar.uses_all (g : Grammar) : g.uses {} = true := by
  induction g with
  | seq a b iha ihb | alt a b iha ihb => simp [Grammar.uses, iha, ihb]
  | many a ih | within _ a ih | frame a ih => simp [Grammar.uses, ih]
  | _ => rfl

theorem inOrder_of_run {coord : Position → Nat} {fuel : Nat} {m : Reading} {g : Grammar}
    {s s' : ReadState} {lo hi : Nat} (h : g.run Rules.grammar fuel m s = some s')
    (hs : InOrder coord hi lo s.extents) : InOrder coord hi lo s'.extents :=
  (inOrder_kept coord).run (fun _ _ => Grammar.uses_all _) (Grammar.uses_all g) h (fun _ => rfl)
    lo hi hs

end GoExcerpt
