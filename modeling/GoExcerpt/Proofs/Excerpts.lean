import GoExcerpt.Excerpt
import GoExcerpt.Proofs.Items

/-!
# `Proofs.Excerpts` — declarations of a file and its text

The lines that a declaration covers, documentation included, are lines of the file it was read from, so its
text can always be copied from there (`exists_excerptOf`). Its name, and the name of its receiver, have no dot
in them (`dotless_of_mem_unitOf`).
-/

namespace GoExcerpt

open Lexeme (Dotless)

/-! ## Lines -/

namespace LineRange

variable {text : String}

theorem fits_ofTree {t : Tree} (h : SourceFile.WellPlaced text t) :
    (ofTree t).fits (Text.splitOn '\n' text.toList).length = true := by
  have hstart := h.start_le
  have hstop := h.stop_le
  rw [Text.length_splitOn]
  simp only [ofTree, fits, Bool.and_eq_true, bne_iff_ne, decide_eq_true_eq]
  split
  next hcut =>
    have hrow : t.extent.start.row < t.extent.stop.row := hcut.2
    omega
  next => omega

/-- Lines of documentation are lines of items before. -/
theorem mem_docLines {next : Nat} {taken : List LineRange} {before : List Tree} {r : LineRange}
    (h : r ∈ docLines next taken before) : r ∈ taken ∨ ∃ t ∈ before, r = ofTree t := by
  induction before generalizing next taken with
  | nil => exact .inl h
  | cons comment before ih =>
      simp only [docLines] at h
      split at h
      next => exact .inl h
      next =>
        split at h
        next => exact .inl h
        next =>
          rcases ih h with htaken | ⟨t, ht, rfl⟩
          · rcases List.mem_cons.mp htaken with rfl | htaken
            · exact .inr ⟨comment, List.mem_cons_self, rfl⟩
            · exact .inl htaken
          · exact .inr ⟨t, List.mem_cons_of_mem _ ht, rfl⟩

/-- Ranges that fit can be copied. -/
theorem exists_copyAll {lines : List (List Char)} {ranges : List LineRange}
    (h : ∀ r ∈ ranges, r.fits lines.length = true) : ∃ copied, copyAll lines ranges = .ok copied := by
  induction ranges with
  | nil => exact ⟨[], rfl⟩
  | cons r ranges ih =>
      obtain ⟨rest, hrest⟩ := ih fun r' h' => h r' (List.mem_cons_of_mem _ h')
      refine ⟨r.copy lines ++ rest, ?_⟩
      rw [copyAll, if_pos (h r List.mem_cons_self), hrest]
      rfl

end LineRange

/-! ## Trees below -/

namespace Tree

variable {p : Tree → Prop}

/-- The name behind a written type is below it. -/
theorem NamedBehind.every {t core : Tree} (h : t.NamedBehind core) (ht : t.Every p) : core.Every p := by
  induction h with
  | name _ => exact ht
  | pointer _ hu _ ih => exact ih (ht.named (List.mem_of_head? hu))
  | parentheses _ hu _ ih => exact ih (ht.named (List.mem_of_head? hu))
  | arguments _ hu _ ih => exact ih (ht.part? hu)

end Tree

/-! ## Declarations -/

namespace FileScope

variable {f : FileScope} {types : TypeEnv} {path text : String} {d : Declaration}

/-- The base type of a receiver is a type name below it. -/
theorem BaseType.dotless {receiver base : Tree} (h : BaseType receiver base)
    (hreceiver : receiver.Every Tree.Sound) : Dotless base.text := by
  obtain ⟨parameter, type, hparameter, htype, hbehind⟩ := h.written
  have hbelow := hreceiver.named (List.mem_of_find?_eq_some hparameter)
  exact (hbehind.every (hbelow.part? htype)).here.typeName h.kind

theorem Declares.dotless {package : String} {node : Tree} {s : Symbol}
    (h : Declares package node s) (hnode : node.Every Tree.Sound) (hfunction : isFunction node = true) :
    Dotless s.name ∧ ∀ receiver, s.receiver = some receiver → Dotless receiver := by
  cases h with
  | function hkind hname =>
      exact ⟨hnode.here.function hfunction _ hname, fun _ h => nomatch h⟩
  | method hkind hname hreceiver hbase =>
      refine ⟨hnode.here.function hfunction _ hname, fun receiver h => ?_⟩
      obtain rfl := Option.some.inj h
      exact hbase.dotless (hnode.part? hreceiver)

/-- **Names of declared functions and of their receivers have no dots.** -/
theorem dotless_of_mem_unitOf (h : d ∈ (f.unitOf types path (SourceFile.parse text).root).functions) :
    Dotless d.id.name ∧ ∀ receiver, d.id.receiver = some receiver → Dotless receiver := by
  obtain ⟨earlier, node, later, hroot, hfunction, hd⟩ := mem_unitOf.mp h
  obtain ⟨s, hs, hid⟩ := declaredSymbol?_eq_some.mp (declaration?_eq_some.mp hd).1
  have hnode : SourceFile.WellPlaced text node :=
    SourceFile.wellPlaced_of_mem_parse (by rw [hroot]; simp)
  have hdotless := hs.dotless hnode.sound hfunction
  rw [hid]
  split
  next => exact hdotless
  next => exact hdotless

/-- **The text of a declaration can be copied from the file it was read from.** -/
theorem exists_excerptOf (h : d ∈ (f.unitOf types path (SourceFile.parse text).root).functions) :
    ∃ source, d.excerptOf text = .ok source := by
  obtain ⟨earlier, node, later, hroot, -, hd⟩ := mem_unitOf.mp h
  obtain ⟨-, hdoc, hspan, -⟩ := declaration?_eq_some.mp hd
  have hplaced : ∀ t ∈ earlier ++ node :: later, SourceFile.WellPlaced text t := by
    rw [← hroot]
    exact fun t ht => SourceFile.wellPlaced_of_mem_parse ht
  have hfits : ∀ r ∈ d.ranges, r.fits (Text.splitOn '\n' text.toList).length = true := by
    intro r hr
    unfold Declaration.ranges at hr
    rw [hdoc, hspan] at hr
    rcases List.mem_append.mp hr with hr | hr
    · rcases LineRange.mem_docLines hr with hr | ⟨t, ht, rfl⟩
      · exact absurd hr List.not_mem_nil
      · exact LineRange.fits_ofTree (hplaced t (List.mem_append_left _ (List.mem_reverse.mp ht)))
    · obtain rfl := List.mem_singleton.mp hr
      exact LineRange.fits_ofTree (hplaced node (by simp))
  obtain ⟨copied, hcopied⟩ := LineRange.exists_copyAll hfits
  refine ⟨String.ofList copied, ?_⟩
  unfold Declaration.excerptOf
  rw [hcopied]
  rfl

end FileScope
end GoExcerpt
