import GoExcerpt.Proofs.CallGraph

/-!
# `Proofs.Locate` — which function a selector finds

A selector finds a declaration of the selected package that the index knows (`exists_of_locate`), so a walk
from it reaches the entry. Where all declarations that answer exactly to receiver and name share one
identity, that identity is found (`locate_eq_ok`).
-/

namespace GoExcerpt
namespace Index

variable {i : Index}

theorem mem_of_lastWhere {p : Declaration → Bool} {ds : List Declaration} {d : Declaration}
    (h : lastWhere p ds = some d) : d ∈ ds ∧ p d = true :=
  ⟨List.mem_reverse.mp (List.mem_of_find?_eq_some h), List.find?_some h⟩

theorem mem_of_choose {receiver : Option String} {ds : List Declaration} {d : Declaration}
    (h : choose receiver ds = some d) : d ∈ ds := by
  unfold choose at h
  rcases Option.or_eq_some_iff.mp h with hexact | ⟨-, hmethod⟩
  · exact (mem_of_lastWhere hexact).1
  · split at hmethod
    · exact (mem_of_lastWhere hmethod).1
    · cases hmethod

/-- Candidates are declarations of the package that have the name and are indexed. -/
theorem mem_candidates {p : Package} {name : String} {d : Declaration} :
    d ∈ i.candidates p name
      ↔ d ∈ p.declarations ∧ d.id.name = name ∧ i.contains d.id.canonical = true := by
  unfold candidates
  rw [List.mem_filter, Bool.and_eq_true, beq_iff_eq]

/-- **What a selector finds is an indexed declaration of the first package of its path.** -/
theorem exists_of_locate {packages : List Package} {s : Selector} {id : Symbol}
    (h : i.locate packages s = .ok id) :
    ∃ p d, packages.find? (·.path == s.package) = some p ∧ d ∈ p.declarations ∧ d.id = id ∧
      d.id.name = (splitName s.name).2 ∧ i.contains id.canonical = true := by
  simp only [locate] at h
  split at h
  next d hfound =>
    obtain ⟨p, hp, hchoose⟩ := Option.bind_eq_some_iff.mp hfound
    obtain ⟨hd, hname, hin⟩ := mem_candidates.mp (mem_of_choose hchoose)
    have hid : d.id = id := Except.ok.inj h
    exact ⟨p, d, hp, hd, hid, hname, hid ▸ hin⟩
  next => cases h

/-- **A selector finds an identity that every exact candidate has.** -/
theorem locate_eq_ok {packages : List Package} {s : Selector} {p : Package} {d : Declaration}
    (hp : packages.find? (·.path == s.package) = some p) (hd : d ∈ i.candidates p (splitName s.name).2)
    (hexact : isExact (splitName s.name).1 d = true)
    (hsame : ∀ d' ∈ i.candidates p (splitName s.name).2,
      isExact (splitName s.name).1 d' = true → d'.id = d.id) :
    i.locate packages s = .ok d.id := by
  obtain ⟨found, hfound⟩ : ∃ found,
      lastWhere (isExact (splitName s.name).1) (i.candidates p (splitName s.name).2) = some found :=
    Option.isSome_iff_exists.mp (List.find?_isSome.mpr ⟨d, List.mem_reverse.mpr hd, hexact⟩)
  obtain ⟨hmem, hp'⟩ := mem_of_lastWhere hfound
  have hchoose : choose (splitName s.name).1 (i.candidates p (splitName s.name).2) = some found := by
    unfold choose
    rw [hfound]
    rfl
  simp only [locate, hp, Option.bind_some, hchoose]
  exact congrArg Except.ok (hsame found hmem hp')

end Index
end GoExcerpt
