import Mathlib.Data.String.Basic
import Mathlib.Order.Basic
import Mathlib.Order.Defs.LinearOrder

/-!
# `Proofs.ByteOrder` — texts in the order of their bytes

Texts are compared character by character. Their bytes stand in the same order (`bytes_lt_bytes`): of two
characters the smaller one is written with a smaller byte at the first place where the two differ, and neither
is the beginning of the other (`before_utf8EncodeChar`). So what is sorted by texts that all differ stands in
the order of their bytes (`pairwise_bytes_mergeSort`).
-/

namespace GoExcerpt.Text

/-- The bytes of a text. -/
def bytes (text : String) : List UInt8 := text.toUTF8.data.toList

theorem bytes_eq (text : String) : bytes text = text.toList.flatMap String.utf8EncodeChar := by
  unfold bytes
  rw [String.toUTF8_eq_toByteArray, ← String.utf8Encode_toList, List.utf8Encode, List.data_toByteArray]

/-! ## Single characters -/

/-- At the first place where they differ, `a` has the smaller byte. -/
inductive Before : List UInt8 → List UInt8 → Prop where
  | here {x y : UInt8} {a b : List UInt8} (h : x < y) : Before (x :: a) (y :: b)
  | later {x : UInt8} {a b : List UInt8} (h : Before a b) : Before (x :: a) (x :: b)

/-- What comes after the bytes plays no part. -/
theorem Before.append_lt {a b : List UInt8} (h : Before a b) (u v : List UInt8) : a ++ u < b ++ v := by
  induction h with
  | here h => exact List.cons_lt_cons_iff.mpr (.inl h)
  | later h ih => exact List.cons_lt_cons_iff.mpr (.inr ⟨rfl, ih⟩)

theorem before_of_lt {m n : Nat} {a b : List UInt8} (hn : n < 256) (h : m < n) :
    Before (UInt8.ofNat m :: a) (UInt8.ofNat n :: b) := by
  have hm : m < 2 ^ 8 := Nat.lt_trans h hn
  refine .here (UInt8.lt_iff_toNat_lt.mpr ?_)
  rwa [UInt8.toNat_ofNat', UInt8.toNat_ofNat', Nat.mod_eq_of_lt hm, Nat.mod_eq_of_lt hn]

theorem before_of_le {m n : Nat} {a b : List UInt8} (hn : n < 256) (h : m ≤ n)
    (hrest : m = n → Before a b) : Before (UInt8.ofNat m :: a) (UInt8.ofNat n :: b) := by
  rcases Nat.lt_or_eq_of_le h with hlt | rfl
  · exact before_of_lt hn hlt
  · exact .later (hrest rfl)

/-- **The bytes of a smaller character come before those of a greater one.** -/
theorem before_utf8EncodeChar {c d : Char} (h : c < d) :
    Before (String.utf8EncodeChar c) (String.utf8EncodeChar d) := by
  have hlt : c.val.toNat < d.val.toNat := UInt32.lt_iff_toNat_lt.mp (Char.lt_def.mp h)
  have hmax : d.val.toNat < 1114112 := d.valid.elim (fun h => Nat.lt_trans h (by decide)) And.right
  unfold String.utf8EncodeChar
  dsimp only
  generalize c.val.toNat = v, d.val.toNat = w at hlt hmax
  -- where `d` takes more bytes than `c` the first byte says so, else the bytes hold the digits of both
  split
  next =>
    split
    next => exact before_of_lt (by omega) hlt
    next => split <;> [skip; split] <;> exact before_of_lt (by omega) (by omega)
  next hc1 =>
    rw [if_neg (show ¬ w ≤ 127 by omega)]
    split
    next =>
      split
      next =>
        refine before_of_le (by omega) (by omega) fun _ => ?_
        exact before_of_lt (by omega) (by omega)
      next => split <;> exact before_of_lt (by omega) (by omega)
    next hc2 =>
      rw [if_neg (show ¬ w ≤ 2047 by omega)]
      split
      next =>
        split
        next =>
          refine before_of_le (by omega) (by omega) fun _ => ?_
          refine before_of_le (by omega) (by omega) fun _ => ?_
          exact before_of_lt (by omega) (by omega)
        next => exact before_of_lt (by omega) (by omega)
      next hc3 =>
        rw [if_neg (show ¬ w ≤ 65535 by omega)]
        refine before_of_le (by omega) (by omega) fun _ => ?_
        refine before_of_le (by omega) (by omega) fun _ => ?_
        refine before_of_le (by omega) (by omega) fun _ => ?_
        exact before_of_lt (by omega) (by omega)

/-! ## Texts -/

/-- **Texts stand in the order of their bytes.** -/
theorem bytes_lt_bytes {a b : String} (h : a < b) : bytes a < bytes b := by
  have hchars : List.Lex (· < ·) a.toList b.toList := String.lt_iff.mp h
  rw [bytes_eq, bytes_eq]
  generalize a.toList = cs, b.toList = ds at hchars
  induction hchars with
  | @nil d ds =>
      rw [List.flatMap_cons, List.flatMap_nil]
      obtain ⟨x, rest, hx⟩ := List.exists_cons_of_ne_nil (String.utf8EncodeChar_ne_nil (c := d))
      rw [hx]
      exact List.Lex.nil
  | cons _ ih =>
      rw [List.flatMap_cons, List.flatMap_cons]
      exact List.append_left_lt ih
  | rel hlt =>
      rw [List.flatMap_cons, List.flatMap_cons]
      exact (before_utf8EncodeChar hlt).append_lt _ _

theorem bytes_lt_bytes_iff {a b : String} : bytes a < bytes b ↔ a < b := by
  constructor
  · intro h
    rcases lt_trichotomy a b with hlt | rfl | hgt
    · exact hlt
    · exact absurd h (List.lt_irrefl _)
    · exact absurd h (List.lt_asymm (bytes_lt_bytes hgt))
  · exact bytes_lt_bytes

/-- **What is sorted by texts that all differ is in the order of their bytes.** -/
theorem pairwise_bytes_mergeSort {α : Type} {key : α → String} {l : List α} (h : (l.map key).Nodup) :
    (l.mergeSort fun a b => compare (key a) (key b) != .gt).Pairwise
      fun a b => bytes (key a) < bytes (key b) := by
  have hle : ∀ a b : α, (compare (key a) (key b) != .gt) = true ↔ key a ≤ key b := by
    intro a b
    simp [compare_le_iff_le]
  have hsorted : (l.mergeSort fun a b => compare (key a) (key b) != .gt).Pairwise
      fun a b => (compare (key a) (key b) != .gt) = true := by
    refine List.pairwise_mergeSort ?_ ?_ l
    · intro a b c hab hbc
      rw [hle] at hab hbc ⊢
      exact hab.trans hbc
    · intro a b
      rw [Bool.or_eq_true, hle, hle]
      exact le_total _ _
  have hdistinct : ((l.mergeSort fun a b => compare (key a) (key b) != .gt).map key).Nodup :=
    ((List.mergeSort_perm l _).map key).nodup_iff.mpr h
  refine (hsorted.and (List.pairwise_map.mp hdistinct)).imp ?_
  rintro a b ⟨hab, hne⟩
  exact bytes_lt_bytes (lt_of_le_of_ne ((hle a b).mp hab) hne)

end GoExcerpt.Text
