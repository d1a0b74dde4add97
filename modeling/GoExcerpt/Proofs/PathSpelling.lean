import GoExcerpt.Proofs.PathNames
import GoExcerpt.Symbol
import Mathlib.Data.List.Infix

/-!
# `Proofs.PathSpelling` — what a path says beside how it is written

A path is cut at its slashes. One path begins with the pieces of another exactly if it is that path or continues
it after a slash (`pieces_prefix_iff`). Empty pieces and dots mean nothing, so a path has many spellings, of which
`Path.canonical` picks one: it has the components of the path (`components_canonical`), so paths have the same
canonical spelling exactly if they have the same components (`Path.canonical_eq_iff`). This is what makes two symbols the same
(`Symbol.canonical_eq_iff`), and it keeps files apart to which different names lead (`canonical_filePath_inj`).
-/

namespace GoExcerpt

/-! ## Texts between slashes -/

namespace Text

theorem pieces_append (a b : String) : pieces '/' (a ++ "/" ++ b) = pieces '/' a ++ pieces '/' b :=
  pieces_of_toList (by simp)

theorem intercalate_pieces (path : String) : "/".intercalate (pieces '/' path) = path := by
  have hpieces : (pieces '/' path).map String.toList = splitOn '/' path.toList := by
    unfold pieces
    rw [List.map_map]
    simp
  apply String.toList_inj.mp
  rw [String.toList_intercalate, hpieces]
  exact intercalate_splitOn '/' path.toList

/-- **A path begins with the pieces of another** exactly if it is that path or continues it after a slash. -/
theorem pieces_prefix_iff {a b : String} :
    pieces '/' a <+: pieces '/' b ↔ b = a ∨ ∃ rest, b = a ++ "/" ++ rest := by
  constructor
  · rintro ⟨more, hmore⟩
    have hb : b = "/".intercalate (pieces '/' a ++ more) := by rw [hmore, intercalate_pieces]
    by_cases hnil : more = []
    · left
      rw [hb, hnil, List.append_nil, intercalate_pieces]
    · right
      refine ⟨"/".intercalate more, ?_⟩
      rw [hb, String.intercalate_append_of_ne_nil (pieces_ne_nil '/' a) hnil, intercalate_pieces]
  · rintro (rfl | ⟨rest, rfl⟩)
    · exact List.prefix_refl _
    · rw [pieces_append]
      exact List.prefix_append _ _

end Text

/-! ## Components -/

namespace Path

variable {a b path : String}

/-- A piece that means something. -/
def Meaningful (piece : String) : Prop := piece ≠ "" ∧ piece ≠ "." ∧ '/' ∉ piece.toList

theorem meaningful_of_mem_pieces {piece : String} (h : piece ∈ pieces path) : Meaningful piece := by
  obtain ⟨hmem, hkept⟩ := List.mem_filter.mp h
  obtain ⟨cs, hcs, rfl⟩ := List.mem_map.mp hmem
  simp only [bne_iff_ne, Bool.and_eq_true] at hkept
  refine ⟨hkept.1, hkept.2, ?_⟩
  rw [String.toList_ofList]
  exact Text.not_mem_of_mem_splitOn hcs

/-- Pieces that mean something are read back from a path made of them. -/
theorem pieces_intercalate {parts : List String} (h : ∀ part ∈ parts, Meaningful part) :
    pieces ("/".intercalate parts) = parts := by
  by_cases hne : parts = []
  · subst hne
    rfl
  · unfold pieces
    rw [Text.pieces_intercalate hne fun part hpart => (h part hpart).2.2]
    apply List.filter_eq_self.mpr
    intro part hpart
    simp [(h part hpart).1, (h part hpart).2.1]

theorem pieces_append (a b : String) : pieces (a ++ "/" ++ b) = pieces a ++ pieces b := by
  unfold pieces
  rw [Text.pieces_append, List.filter_append]

theorem toText_componentOf (piece : String) : (componentOf piece).toText = piece := by
  unfold componentOf
  split
  next h => exact (beq_iff_eq.mp h).symm
  next => rfl

/-- How a path begins, where that counts. -/
def front? (path : String) : Option Component :=
  if isAbsolute path then some .root
  else if (Text.pieces '/' path).head? == some "." then some .here
  else none

theorem components_eq (path : String) :
    components path = (front? path).toList ++ (pieces path).map componentOf := by
  unfold components front?
  split
  next => rfl
  next => split <;> rfl

theorem map_toText_componentOf (parts : List String) : (parts.map componentOf).map Component.toText = parts := by
  rw [List.map_map]
  exact (List.map_congr_left fun piece _ => toText_componentOf piece).trans (List.map_id _)

/-- A path in canonical spelling: how it begins, then its pieces. -/
theorem canonical_eq (path : String) :
    canonical path = match front? path with
      | some .root => "/" ++ "/".intercalate (pieces path)
      | some c => "/".intercalate (c.toText :: pieces path)
      | none => "/".intercalate (pieces path) := by
  have htexts := map_toText_componentOf (pieces path)
  unfold canonical
  rw [components_eq]
  cases front? path with
  | some c =>
      rw [Option.toList_some, List.singleton_append]
      cases c with
      | root => simp only [htexts]
      | _ => simp only [List.map_cons, htexts]
  | none =>
      rw [Option.toList_none, List.nil_append]
      cases hpieces : pieces path with
      | nil => rfl
      | cons piece rest =>
          rw [hpieces] at htexts
          -- no piece is the mark of an absolute path
          have hplain : componentOf piece ≠ .root := by
            unfold componentOf
            split <;> simp
          rw [List.map_cons] at htexts ⊢
          cases hfirst : componentOf piece with
          | root => exact absurd hfirst hplain
          | _ =>
              rw [hfirst] at htexts
              simp only [htexts]

/-! ### Reading a canonical path -/

theorem isAbsolute_slash (rest : String) : isAbsolute ("/" ++ rest) = true :=
  String.startsWith_string_iff.mpr ⟨rest.toList, by simp⟩

theorem isAbsolute_intercalate {piece : String} (rest : List String) (hne : piece ≠ "") (hslash : '/' ∉ piece.toList) :
    isAbsolute ("/".intercalate (piece :: rest)) = false := by
  have hfront : ∃ more, "/".intercalate (piece :: rest) = piece ++ more := by
    cases rest with
    | nil => exact ⟨"", by rw [String.intercalate_singleton, String.append_empty]⟩
    | cons next later => exact ⟨_, by rw [String.intercalate_cons_cons, String.append_assoc]⟩
  obtain ⟨more, hmore⟩ := hfront
  rw [hmore, ← Bool.not_eq_true]
  intro habsolute
  obtain ⟨after, hafter⟩ := String.startsWith_string_iff.mp habsolute
  cases hpiece : piece.toList with
  | nil => exact hne (String.toList_eq_nil_iff.mp hpiece)
  | cons c cs =>
      rw [String.toList_append, hpiece] at hafter
      have hc : '/' = c := (List.cons.inj hafter).1
      exact hslash (hpiece ▸ hc ▸ List.mem_cons_self)

section

variable {parts : List String}

theorem components_plain (h : ∀ part ∈ parts, Meaningful part) :
    components ("/".intercalate parts) = parts.map componentOf := by
  have hfront : front? ("/".intercalate parts) = none := by
    unfold front?
    cases parts with
    | nil => decide
    | cons piece rest =>
        obtain ⟨hne, hdot, hslash⟩ := h piece List.mem_cons_self
        rw [isAbsolute_intercalate rest hne hslash,
          Text.pieces_intercalate (List.cons_ne_nil _ _) fun part hpart => (h part hpart).2.2]
        simp [hdot]
  rw [components_eq, hfront, pieces_intercalate h]
  rfl

theorem components_absolute (h : ∀ part ∈ parts, Meaningful part) :
    components ("/" ++ "/".intercalate parts) = .root :: parts.map componentOf := by
  have hpieces : pieces ("/" ++ "/".intercalate parts) = parts :=
    calc pieces ("/" ++ "/".intercalate parts)
      _ = pieces ("" ++ "/" ++ "/".intercalate parts) := by rw [String.empty_append]
      _ = pieces "" ++ pieces ("/".intercalate parts) := pieces_append _ _
      _ = parts := by rw [pieces_intercalate h]; rfl
  rw [components_eq, hpieces]
  unfold front?
  rw [if_pos (isAbsolute_slash _)]
  rfl

theorem components_dotted (h : ∀ part ∈ parts, Meaningful part) :
    components ("/".intercalate ("." :: parts)) = .here :: parts.map componentOf := by
  have hcut : Text.pieces '/' ("/".intercalate ("." :: parts)) = "." :: parts := by
    refine Text.pieces_intercalate (List.cons_ne_nil _ _) fun part hpart => ?_
    rcases List.mem_cons.mp hpart with rfl | hpart
    · decide
    · exact (h part hpart).2.2
  have hpieces : pieces ("/".intercalate ("." :: parts)) = parts := by
    unfold pieces
    rw [hcut, List.filter_cons_of_neg (by simp)]
    refine List.filter_eq_self.mpr fun part hpart => ?_
    simp [(h part hpart).1, (h part hpart).2.1]
  rw [components_eq, hpieces]
  unfold front?
  rw [isAbsolute_intercalate parts (by decide) (by decide), hcut]
  rfl

end

/-- **The canonical spelling of a path has its components.** -/
theorem components_canonical (path : String) : components (canonical path) = components path := by
  have hmeaningful : ∀ piece ∈ pieces path, Meaningful piece := fun _ h => meaningful_of_mem_pieces h
  rw [canonical_eq, components_eq path]
  cases hfront : front? path with
  | none => exact components_plain hmeaningful
  | some c =>
      cases c with
      | root => exact components_absolute hmeaningful
      | here => exact components_dotted hmeaningful
      | _ =>
          exfalso
          unfold front? at hfront
          split at hfront
          next => cases hfront
          next => split at hfront <;> cases hfront

/-- **Two paths have one canonical spelling** exactly if they have the same components. -/
theorem canonical_eq_iff : canonical a = canonical b ↔ components a = components b := by
  constructor
  · intro h
    rw [← components_canonical a, h, components_canonical]
  · intro h
    unfold canonical
    rw [h]

/-- The components of a path tell its pieces. -/
theorem pieces_eq_of_components (h : components a = components b) : pieces a = pieces b := by
  have hpieces : ∀ path, ((components path).map Component.toText).filter
      (fun text => text != "/" && text != ".") = pieces path := by
    intro path
    rw [components_eq, List.map_append, map_toText_componentOf, List.filter_append]
    have hfront : ((front? path).toList.map Component.toText).filter
        (fun text => text != "/" && text != ".") = [] := by
      unfold front?
      split
      next => rfl
      next => split <;> rfl
    rw [hfront, List.nil_append]
    refine List.filter_eq_self.mpr fun piece hpiece => ?_
    obtain ⟨-, hdot, hslash⟩ := meaningful_of_mem_pieces hpiece
    have hne : piece ≠ "/" := by
      rintro rfl
      exact hslash (by decide)
    simp [hne, hdot]
  rw [← hpieces a, ← hpieces b, h]

end Path

/-! ## Files below a directory -/

namespace Load

theorem meaningful_of_isFileName {name : String} (h : isFileName name = true) : Path.Meaningful name := by
  obtain ⟨hne, hslash, hdot, -⟩ := isFileName_iff.mp h
  exact ⟨hne, hdot, hslash⟩

theorem pieces_opened_append (dir below : String) :
    Path.pieces (opened dir ++ below) = Path.pieces dir ++ Path.pieces below := by
  unfold opened
  split
  next hempty =>
    subst hempty
    rw [String.empty_append]
    rfl
  next =>
    split
    next hends =>
      -- the slash at the end is already there
      obtain ⟨before, hbefore⟩ := List.getLast?_eq_some_iff.mp (FileSystem.endsWith_slash_iff.mp hends)
      obtain rfl : dir = String.ofList before ++ "/" := by
        apply String.toList_inj.mp
        simpa using hbefore
      have hdir := Path.pieces_append (String.ofList before) ""
      rw [String.append_empty] at hdir
      rw [Path.pieces_append, hdir]
      exact congrArg (· ++ _) (List.append_nil _).symm
    next => rw [Path.pieces_append]

/-- **Files below a directory to which different names lead are different paths, however spelled.** -/
theorem canonical_filePath_inj {dir : String} {a b : List String} (ha : ∀ name ∈ a, isFileName name = true)
    (hb : ∀ name ∈ b, isFileName name = true) (hane : a ≠ []) (hbne : b ≠ [])
    (h : Path.canonical (filePath dir a) = Path.canonical (filePath dir b)) : a = b := by
  have hpieces := Path.pieces_eq_of_components (Path.canonical_eq_iff.mp h)
  rw [filePath_eq dir ha hane, filePath_eq dir hb hbne, pieces_opened_append, pieces_opened_append,
    Path.pieces_intercalate fun name hname => meaningful_of_isFileName (ha name hname),
    Path.pieces_intercalate fun name hname => meaningful_of_isFileName (hb name hname)] at hpieces
  exact List.append_cancel_left hpieces

end Load

/-! ## Symbols -/

namespace Symbol

/-- **Two symbols are the same:** package, receiver and name are equal, and where they are told apart by a
    place it is the same line of the same file, however its path is spelled. -/
structure Same (s t : Symbol) : Prop where
  package : s.package = t.package
  receiver : s.receiver = t.receiver
  name : s.name = t.name
  site : s.site.map (fun x => (Path.components x.file, x.line)) = t.site.map fun x => (Path.components x.file, x.line)

theorem canonical_eq_iff {s t : Symbol} : s.canonical = t.canonical ↔ s.Same t := by
  obtain ⟨sp, sr, sn, ss⟩ := s
  obtain ⟨tp, tr, tn, ts⟩ := t
  have hsite : (ss.map fun x => ({ x with file := Path.canonical x.file } : Site))
        = (ts.map fun x => ({ x with file := Path.canonical x.file } : Site)) ↔
      (ss.map fun x => (Path.components x.file, x.line)) = ts.map fun x => (Path.components x.file, x.line) := by
    cases ss <;> cases ts <;> simp [Path.canonical_eq_iff]
  constructor
  · intro h
    obtain ⟨h₁, h₂, h₃, h₄⟩ := Symbol.mk.inj h
    exact ⟨h₁, h₂, h₃, hsite.mp h₄⟩
  · rintro ⟨rfl, rfl, rfl, hplace⟩
    show Symbol.mk _ _ _ _ = Symbol.mk _ _ _ _
    rw [hsite.mpr hplace]

end Symbol
end GoExcerpt
