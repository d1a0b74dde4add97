import GoExcerpt.Proofs.Uncommented
import Mathlib.Data.String.Basic

/-!
# `Proofs.Unbroken` — files of which nothing is passed over

Every rule but the one for lists of statements takes a lexeme (`Grammar.length_lt_of_run`), so there are items
enough for all lexemes of a file. A stray character is never taken. Hence a file that is not broken has none
(`SourceFile.not_stray_of_unbroken`).
-/

namespace GoExcerpt

/-! ## Readings that take a lexeme -/

theorem length_kept : Kept {} fun s s' => s'.rest.length ≤ s.rest.length where
  refl := fun _ => Nat.le_refl _
  trans := fun _ _ _ hst htu => Nat.le_trans htu hst
  token := by
    intro w k s s' _ htake
    obtain ⟨comments, l, hsub, -, -⟩ := ReadState.exists_of_take htake
    refine Nat.le_trans ?_ hsub.length_le
    simp only [List.length_append, List.length_cons]
    omega
  terminator := by
    intro s s' htake
    obtain ⟨comments, ended, hsub, -⟩ := ReadState.exists_of_takeTerminator htake
    refine Nat.le_trans ?_ hsub.length_le
    simp only [List.length_append]
    omega
  wrap := fun _ _ _ => Nat.le_refl _
  tag := fun _ _ _ => Nat.le_refl _
  frame := fun _ _ h => h rfl

namespace Grammar

theorem length_le_of_run {fuel : Nat} {m : Reading} {g : Grammar} {s s' : ReadState}
    (h : g.run Rules.grammar fuel m s = some s') : s'.rest.length ≤ s.rest.length :=
  length_kept.run (fun _ _ => uses_all _) (uses_all g) h (fun _ => rfl)

/-- Whether a grammar takes a lexeme whenever it reads at all. -/
def eats : Grammar → Bool
  | token _ _ => true
  | seq a b => a.eats || b.eats
  | alt a b => a.eats && b.eats
  | within _ a | frame a => a.eats
  | rule r => r != .statements
  | _ => false

theorem eats_rule {r : Rule} (h : r ≠ .statements) : (Rules.grammar r).eats = true := by
  cases r with
  | statements => exact absurd rfl h
  | binary level =>
      show (Rules.binary level).eats = true
      unfold Rules.binary
      split
      next => rfl
      next => rfl
  | _ => rfl

/-- **Such a grammar leaves fewer lexemes.** -/
theorem length_lt_of_run {fuel : Nat} {m : Reading} {g : Grammar} {s s' : ReadState} (hg : g.eats = true)
    (h : g.run Rules.grammar fuel m s = some s') : s'.rest.length < s.rest.length := by
  induction fuel generalizing m g s s' with
  | zero => cases h
  | succ fuel ih =>
      cases g with
      | token w k =>
          obtain ⟨comments, l, hsub, -, -⟩ := ReadState.exists_of_take (take_of_run_token h)
          have hle := hsub.length_le
          simp only [List.length_append, List.length_cons] at hle
          omega
      | seq a b =>
          rw [run] at h
          split at h
          next t ht =>
            -- one part takes a lexeme, and the other gives none back
            rcases Bool.or_eq_true_iff.mp hg with ha | hb
            · exact Nat.lt_of_le_of_lt (length_le_of_run h) (ih ha ht)
            · exact Nat.lt_of_lt_of_le (ih hb h) (length_le_of_run ht)
          next => cases h
      | alt a b =>
          obtain ⟨ha, hb⟩ := Bool.and_eq_true_iff.mp hg
          rw [run] at h
          split at h
          next t ht =>
            obtain rfl := Option.some.inj h
            exact ih ha ht
          next => exact ih hb h
      | rule r => exact ih (eats_rule (bne_iff_ne.mp hg)) h
      | within region a => exact ih (g := a) hg h
      | frame a =>
          rw [run] at h
          split at h
          next t ht =>
            obtain rfl := Option.some.inj h
            have hlt : t.rest.length < (ReadState.mk s.rest []).rest.length := ih (g := a) hg ht
            exact hlt
          next => cases h
      | _ => cases hg

end Grammar

/-! ## Stray characters -/

/-- A stray character, unless it could be taken for what ends a statement. -/
def Lexeme.isStray (l : Lexeme) : Bool := l.cls == .stray && l.text != ";"

/-- Steps that ask for no stray character. -/
def Allowed.unstray : Allowed where
  token w _ := match w with
    | .ofClass .stray => false
    | _ => true

theorem Rules.uses_unstray (r : Rule) : (Rules.grammar r).uses .unstray = true := by
  cases r with
  | binary level =>
      show (Rules.binary level).uses .unstray = true
      unfold Rules.binary
      split
      next => rfl
      next => rfl
  | _ => rfl

theorem Lexeme.not_stray_of_satisfies {l : Lexeme} {w : Wanted} {k : Kind}
    (hw : Allowed.unstray.token w k = true) (h : l.satisfies w = true) : l.isStray = false := by
  have hcls : l.cls ≠ .stray := by
    intro hstray
    unfold satisfies at h
    rw [hstray] at h
    cases w with
    | oneOf texts => simp at h
    | wordBut reserved => simp at h
    | ofClass cls =>
        rw [← beq_iff_eq.mp h] at hw
        cases hw
  simp [isStray, hcls]

theorem Lexeme.not_stray_of_isTrivia {l : Lexeme} (h : l.isTrivia = true) : l.isStray = false := by
  simp only [isTrivia, Bool.or_eq_true, beq_iff_eq] at h
  rcases h with h | h <;> simp [isStray, h]

namespace ReadState

theorem strays_of_take {w : Wanted} {k : Kind} {built : List Tree} {rest : List Lexeme} {s' : ReadState}
    (hw : Allowed.unstray.token w k = true) (h : take w k built rest = some s') :
    s'.rest.filter Lexeme.isStray = rest.filter Lexeme.isStray := by
  induction rest generalizing built with
  | nil => cases h
  | cons l ls ih =>
      rw [take] at h
      split at h
      next hcls =>
        rw [ih h, List.filter_cons_of_neg]
        rw [Lexeme.not_stray_of_isTrivia (by simp [Lexeme.isTrivia, beq_iff_eq.mp hcls])]
        exact Bool.false_ne_true
      next =>
        split at h
        next hcls =>
          rw [ih h, List.filter_cons_of_neg]
          rw [Lexeme.not_stray_of_isTrivia (by simp [Lexeme.isTrivia, beq_iff_eq.mp hcls])]
          exact Bool.false_ne_true
        next =>
          split at h
          next hsat =>
            obtain rfl := Option.some.inj h
            rw [List.filter_cons_of_neg]
            rw [Lexeme.not_stray_of_satisfies hw hsat]
            exact Bool.false_ne_true
          next => cases h

theorem strays_of_takeTerminator {built : List Tree} {rest : List Lexeme} {s' : ReadState}
    (h : takeTerminator built rest = some s') :
    s'.rest.filter Lexeme.isStray = rest.filter Lexeme.isStray := by
  unfold takeTerminator at h
  split at h
  next =>
    obtain rfl := Option.some.inj h
    rfl
  next =>
    obtain ⟨comments, l, rfl, hcomments, hended, -⟩ := exists_of_takeEnd h
    have hnone : comments.filter Lexeme.isStray = [] := by
      refine List.filter_eq_nil_iff.mpr fun c hc => ?_
      simp [Lexeme.isStray, hcomments c hc]
    have hl : l.isStray = false := by
      rcases hended with hended | hended <;> simp [Lexeme.isStray, hended]
    rw [List.filter_append, hnone, List.nil_append, List.filter_cons_of_neg (by simp [hl])]

end ReadState

theorem strays_kept : Kept .unstray fun s s' =>
    s'.rest.filter Lexeme.isStray = s.rest.filter Lexeme.isStray where
  refl := fun _ => rfl
  trans := fun _ _ _ hst htu => htu.trans hst
  token := fun _ _ _ _ hw htake => ReadState.strays_of_take hw htake
  terminator := fun _ _ htake => ReadState.strays_of_takeTerminator htake
  wrap := fun _ _ _ => rfl
  tag := fun _ _ _ => rfl
  frame := fun _ _ h => h rfl

namespace Lexeme

/-- A semicolon is an operator. -/
theorem measure_semicolon (cs : List Char) : measure ';' cs = (some .operator, 0) := by
  rfl

theorem isStray_of_mem_scan {source : String} {l : Lexeme} (h : l ∈ scan source) (hstray : l.cls = .stray) :
    l.isStray = true := by
  obtain ⟨_, c, rest, -, htaken⟩ := exists_of_mem_scan h
  have hcls := htaken.cls
  have hc : c ≠ ';' := by
    rintro rfl
    rw [measure_semicolon, hstray] at hcls
    cases hcls
  have hne : l.text ≠ ";" := by
    intro heq
    have hlist := congrArg String.toList (htaken.text.symm.trans heq)
    rw [String.toList_ofList, takenAt] at hlist
    exact hc (List.cons.inj hlist).1
  simp [isStray, hstray, hne]

theorem length_scanFrom_le (fuel : Nat) (p : Position) (cs : List Char) :
    (scanFrom [] fuel p cs).length ≤ fuel := by
  induction fuel generalizing p cs with
  | zero => simp [scanFrom]
  | succ fuel ih =>
      cases cs with
      | nil => simp [scanFrom]
      | cons c cs =>
          rw [scanFrom_cons, List.length_append, Option.length_toList]
          have hrest := ih (p.advance (takenAt c cs)) (cs.drop (measure c cs).2)
          split <;> omega

theorem length_scan_le (source : String) : (scan source).length ≤ source.utf8ByteSize := by
  have hbytes : source.toList.length ≤ source.utf8ByteSize := by
    rw [← String.ofList_toList (s := source), String.utf8ByteSize_ofList, String.toList_ofList]
    induction source.toList with
    | nil => exact Nat.le_refl _
    | cons c cs ih =>
        have hsize := c.utf8Size_pos
        rw [String.utf8Len_cons, List.length_cons]
        omega
  refine Nat.le_trans ?_ hbytes
  unfold scan
  split
  next c cs hsource =>
    rw [hsource, List.length_cons]
    split
    next => exact Nat.le_succ_of_le (length_scanFrom_le _ _ _)
    next => exact length_scanFrom_le _ _ _
  next => exact Nat.zero_le _

end Lexeme

/-! ## Files -/

namespace SourceFile

/-- With items enough, a stray character makes a file broken. -/
theorem strays_of_readItems {steps fuel : Nat} {s : ReadState} (hfuel : s.rest.length < fuel)
    (h : (readItems steps fuel false s).2 = false) : s.rest.filter Lexeme.isStray = [] := by
  induction fuel generalizing s with
  | zero => exact absurd hfuel (Nat.not_lt_zero _)
  | succ fuel ih =>
      rw [readItems] at h
      split at h
      next htrivia =>
        refine List.filter_eq_nil_iff.mpr fun l hl => ?_
        rw [Lexeme.not_stray_of_isTrivia (List.all_eq_true.mp htrivia l hl)]
        exact Bool.false_ne_true
      next =>
        split at h
        next s' hread =>
          split at h
          next ended hended =>
            -- the item took a lexeme, so what is left of the fuel is enough for what is left to read
            have hlt : s'.rest.length < s.rest.length := Grammar.length_lt_of_run rfl hread
            have hle : ended.rest.length ≤ s'.rest.length := length_kept.terminator s' ended hended
            have hitem : s'.rest.filter Lexeme.isStray = s.rest.filter Lexeme.isStray :=
              strays_kept.run (fun r _ => Rules.uses_unstray r) rfl hread (fun _ => rfl)
            rw [← hitem, ← strays_kept.terminator s' ended hended]
            exact ih (by omega) h
          next => exact absurd h (by simp [readItems_broken])
        next => exact absurd h (by simp [readItems_broken])

/-- **A file that is not broken has no stray character.** -/
theorem not_stray_of_unbroken {source : String} (h : (parse source).broken = false) :
    ∀ l ∈ Lexeme.scan source, l.cls ≠ .stray := by
  have hnone := strays_of_readItems (Nat.lt_succ_of_le (Lexeme.length_scan_le source)) h
  intro l hl hstray
  exact List.filter_eq_nil_iff.mp hnone l hl (Lexeme.isStray_of_mem_scan hl hstray)

end SourceFile
end GoExcerpt
