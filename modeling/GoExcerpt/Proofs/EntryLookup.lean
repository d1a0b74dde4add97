import GoExcerpt.Proofs.Listed
import GoExcerpt.Proofs.WalkFailure

/-!
# `Proofs.EntryLookup` — the rule by which an entry is found

A selector means a declaration of the first package of its path, among those that the index knows. Which
one is said without running candidates (`Index.Picks`): for a name without a dot the last plain function of
that name, or the last method where there is no such function; for a name with a dot the last method of the
receiver before its first dot. Lookup follows this rule and fails exactly if no declaration answers to the
name (`locate_build`). What it finds is in the index, so that a walk begins there (`Walk.Begins`), and in a
module that was loaded it is a declaration of the selected package.
-/

namespace GoExcerpt

open Lexeme (Dotless)

/-! ## The last of a list -/

/-- `a` is the last element of `l` with `P`. -/
def LastOf {α : Type} (P : α → Prop) (l : List α) (a : α) : Prop :=
  ∃ before after, l = before ++ a :: after ∧ P a ∧ ∀ b ∈ after, ¬ P b

namespace LastOf

variable {α : Type} {P Q : α → Prop} {l : List α} {a : α}

theorem holds (h : LastOf P l a) : P a := by
  obtain ⟨_, _, -, ha, -⟩ := h
  exact ha

theorem mem (h : LastOf P l a) : a ∈ l := by
  obtain ⟨before, after, rfl, -⟩ := h
  exact List.mem_append_right _ List.mem_cons_self

theorem congr (h : ∀ b, P b ↔ Q b) : LastOf P l a ↔ LastOf Q l a := by
  unfold LastOf
  simp only [h]

/-- The last element is the first from behind. -/
theorem iff_find? {p : α → Bool} : LastOf (p · = true) l a ↔ l.reverse.find? p = some a := by
  unfold LastOf
  rw [List.find?_eq_some_iff_append]
  constructor
  · rintro ⟨before, after, rfl, ha, hafter⟩
    refine ⟨ha, after.reverse, before.reverse, by simp, fun b hb => ?_⟩
    simpa using hafter b (List.mem_reverse.mp hb)
  · rintro ⟨ha, after, before, hl, hafter⟩
    refine ⟨before.reverse, after.reverse, ?_, ha, fun b hb => ?_⟩
    · simpa using congrArg List.reverse hl
    · simpa using hafter b (List.mem_reverse.mp hb)

end LastOf

namespace Index

variable {i : Index} {p : Package} {name : String} {d : Declaration}

theorem lastWhere_eq_some_iff {q : Declaration → Bool} {ds : List Declaration} :
    lastWhere q ds = some d ↔ LastOf (q · = true) ds d :=
  LastOf.iff_find?.symm

theorem lastWhere_eq_none_iff {q : Declaration → Bool} {ds : List Declaration} :
    lastWhere q ds = none ↔ ∀ d ∈ ds, q d ≠ true := by
  unfold lastWhere
  rw [List.find?_eq_none]
  simp only [List.mem_reverse]

/-! ## What a name means -/

/-- A declaration whose identity is in the index. -/
def Knows (i : Index) (d : Declaration) : Prop := i.contains d.id.canonical = true

/-- What a selector's name may stand for: a plain name for functions and methods of that name, a name with
    a dot for the methods of the receiver before its first dot. -/
inductive Answers (name : String) (s : Symbol) : Prop where
  | plain : Dotless name → s.name = name → Answers name s
  | ofReceiver {receiver rest : String} : Dotless receiver → name = receiver ++ "." ++ rest →
      s.receiver = some receiver → s.name = rest → Answers name s

/-- **The declaration of a package that a name means.** -/
inductive Picks (i : Index) (p : Package) (name : String) (d : Declaration) : Prop where
  /-- the last plain function of the name -/
  | function : Dotless name →
      LastOf (fun d => i.Knows d ∧ d.id.name = name ∧ d.id.receiver = none) p.declarations d →
      Picks i p name d
  /-- the last method of the name where there is no plain function -/
  | method : Dotless name →
      (∀ f ∈ p.declarations, i.Knows f → f.id.name = name → f.id.receiver ≠ none) →
      LastOf (fun d => i.Knows d ∧ d.id.name = name ∧ d.id.receiver ≠ none) p.declarations d →
      Picks i p name d
  /-- the last method of the receiver that stands before the first dot -/
  | ofReceiver {receiver rest : String} : Dotless receiver → name = receiver ++ "." ++ rest →
      LastOf (fun d => i.Knows d ∧ d.id.name = rest ∧ d.id.receiver = some receiver) p.declarations d →
      Picks i p name d

/-- A name with a dot has a first one. -/
theorem exists_cut_of_not_dotless (h : ¬ Dotless name) :
    ∃ receiver rest, Dotless receiver ∧ name = receiver ++ "." ++ rest := by
  obtain ⟨before, after, hcut, hbefore⟩ := List.eq_append_cons_of_mem (Classical.not_not.mp h)
  refine ⟨String.ofList before, String.ofList after, by simpa [Dotless] using hbefore, ?_⟩
  apply String.toList_inj.mp
  simpa using hcut

theorem not_dotless_cut {receiver rest : String} : ¬ Dotless (receiver ++ "." ++ rest) := by
  simp [Dotless]

/-- A name is cut at its first dot in one way only. -/
theorem cut_inj {receiver receiver' rest rest' : String} (h : Dotless receiver) (h' : Dotless receiver')
    (heq : receiver ++ "." ++ rest = receiver' ++ "." ++ rest') :
    receiver = receiver' ∧ rest = rest' := by
  have hsplit := splitName_of_receiver h rest
  rw [heq, splitName_of_receiver h' rest'] at hsplit
  obtain ⟨hreceiver, hrest⟩ := Prod.mk.inj hsplit
  exact ⟨(Option.some.inj hreceiver).symm, hrest.symm⟩

/-! ## Choosing among candidates -/

/-- Among the candidates the last that satisfies `q` is the last of all declarations that is known, has
    the name and satisfies `q`. -/
theorem lastWhere_candidates {q : Declaration → Bool} {Q : Declaration → Prop}
    (hq : ∀ d, q d = true ↔ Q d) :
    lastWhere q (i.candidates p name) = some d ↔
      LastOf (fun d => i.Knows d ∧ d.id.name = name ∧ Q d) p.declarations d := by
  have hmerge : lastWhere q (i.candidates p name)
      = lastWhere (fun d => (d.id.name == name && i.contains d.id.canonical) && q d) p.declarations := by
    unfold lastWhere candidates
    rw [← List.filter_reverse, List.find?_filter]
    congr 1
    funext d
    rw [Bool.decide_and, Bool.decide_eq_true, Bool.decide_eq_true]
  rw [hmerge, lastWhere_eq_some_iff]
  refine LastOf.congr fun b => ?_
  rw [Bool.and_eq_true, Bool.and_eq_true, beq_iff_eq, hq, and_assoc]
  exact and_left_comm

theorem lastWhere_candidates_eq_none {q : Declaration → Bool} {Q : Declaration → Prop}
    (hq : ∀ d, q d = true ↔ Q d) :
    lastWhere q (i.candidates p name) = none ↔
      ∀ d ∈ p.declarations, i.Knows d → d.id.name = name → ¬ Q d := by
  rw [lastWhere_eq_none_iff]
  constructor
  · intro h d hd hin hname hQ
    exact h d (mem_candidates.mpr ⟨hd, hname, hin⟩) ((hq d).mpr hQ)
  · intro h d hd hqd
    obtain ⟨hmem, hname, hin⟩ := mem_candidates.mp hd
    exact h d hmem hin hname ((hq d).mp hqd)

theorem isExact_iff {receiver : Option String} {d : Declaration} :
    isExact receiver d = true ↔ d.id.receiver = receiver :=
  beq_iff_eq

theorem isSome_receiver_iff {d : Declaration} : d.id.receiver.isSome = true ↔ d.id.receiver ≠ none :=
  Option.isSome_iff_ne_none

/-- **A choice for a plain name is its last function, or else its last method.** -/
theorem choose_plain_iff :
    choose none (i.candidates p name) = some d ↔
      LastOf (fun d => i.Knows d ∧ d.id.name = name ∧ d.id.receiver = none) p.declarations d ∨
      (∀ f ∈ p.declarations, i.Knows f → f.id.name = name → f.id.receiver ≠ none) ∧
        LastOf (fun d => i.Knows d ∧ d.id.name = name ∧ d.id.receiver ≠ none) p.declarations d := by
  unfold choose
  rw [Option.or_eq_some_iff, if_pos Option.isNone_none, lastWhere_candidates fun _ => isExact_iff,
    lastWhere_candidates_eq_none fun _ => isExact_iff, lastWhere_candidates fun _ => isSome_receiver_iff]

theorem choose_ofReceiver_iff {receiver : String} :
    choose (some receiver) (i.candidates p name) = some d ↔
      LastOf (fun d => i.Knows d ∧ d.id.name = name ∧ d.id.receiver = some receiver) p.declarations d := by
  unfold choose
  rw [if_neg (by simp), Option.or_none, lastWhere_candidates fun _ => isExact_iff]

/-- **A choice follows the rule.** -/
theorem choose_eq_some_iff_picks :
    choose (splitName name).1 (i.candidates p (splitName name).2) = some d ↔ i.Picks p name d := by
  -- which candidates count is decided by whether there is a dot to cut at
  by_cases hdot : Dotless name
  · rw [splitName_of_dotless hdot, choose_plain_iff]
    constructor
    · rintro (hfunction | ⟨hnone, hmethod⟩)
      · exact .function hdot hfunction
      · exact .method hdot hnone hmethod
    · rintro (⟨-, hfunction⟩ | ⟨-, hnone, hmethod⟩ | ⟨-, rfl, -⟩)
      · exact .inl hfunction
      · exact .inr ⟨hnone, hmethod⟩
      · exact absurd hdot not_dotless_cut
  · obtain ⟨receiver, rest, hreceiver, rfl⟩ := exists_cut_of_not_dotless hdot
    rw [splitName_of_receiver hreceiver, choose_ofReceiver_iff]
    constructor
    · exact fun h => .ofReceiver hreceiver rfl h
    · rintro (⟨hplain, -⟩ | ⟨hplain, -, -⟩ | ⟨hreceiver', hcut, h⟩)
      · exact absurd hplain hdot
      · exact absurd hplain hdot
      · obtain ⟨rfl, rfl⟩ := cut_inj hreceiver hreceiver' hcut
        exact h

/-- A declaration that is picked is known, and answers to the name. -/
theorem Picks.answers (h : i.Picks p name d) : d ∈ p.declarations ∧ i.Knows d ∧ Answers name d.id := by
  cases h with
  | function hdot hlast => exact ⟨hlast.mem, hlast.holds.1, .plain hdot hlast.holds.2.1⟩
  | method hdot _ hlast => exact ⟨hlast.mem, hlast.holds.1, .plain hdot hlast.holds.2.1⟩
  | ofReceiver hreceiver hcut hlast =>
      exact ⟨hlast.mem, hlast.holds.1, .ofReceiver hreceiver hcut hlast.holds.2.2 hlast.holds.2.1⟩

/-- **Nothing is chosen exactly if no known declaration answers to the name.** -/
theorem choose_eq_none_iff :
    choose (splitName name).1 (i.candidates p (splitName name).2) = none ↔
      ∀ d ∈ p.declarations, i.Knows d → ¬ Answers name d.id := by
  constructor
  · intro h d hd hin hanswers
    unfold choose at h
    obtain ⟨hexact, hmethod⟩ := Option.or_eq_none_iff.mp h
    rw [lastWhere_candidates_eq_none fun _ => isExact_iff] at hexact
    cases hanswers with
    | plain hdot hname =>
        rw [splitName_of_dotless hdot] at hexact hmethod
        rw [if_pos Option.isNone_none, lastWhere_candidates_eq_none fun _ => isSome_receiver_iff] at hmethod
        exact hmethod d hd hin hname (hexact d hd hin hname)
    | ofReceiver hreceiver hcut hrec hname =>
        rw [hcut, splitName_of_receiver hreceiver] at hexact
        exact hexact d hd hin hname hrec
  · intro h
    by_contra hne
    -- whatever were chosen would be known and answer to the name
    obtain ⟨d, hd⟩ := Option.ne_none_iff_exists'.mp hne
    obtain ⟨hmem, hin, hanswers⟩ := (choose_eq_some_iff_picks.mp hd).answers
    exact h d hmem hin hanswers

/-! ## Lookup -/

variable {packages : List Package} {s : Selector}

theorem locate_eq_ok_iff {id : Symbol} :
    i.locate packages s = .ok id ↔
      ∃ p d, packages.find? (·.path == s.package) = some p ∧ i.Picks p s.name d ∧ d.id = id := by
  simp only [locate]
  split
  next d hfound =>
    obtain ⟨p, hp, hd⟩ := Option.bind_eq_some_iff.mp hfound
    constructor
    · intro h
      exact ⟨p, d, hp, choose_eq_some_iff_picks.mp hd, Except.ok.inj h⟩
    · rintro ⟨p', d', hp', hd', rfl⟩
      obtain rfl := Option.some.inj (hp.symm.trans hp')
      obtain rfl := Option.some.inj (hd.symm.trans (choose_eq_some_iff_picks.mpr hd'))
      rfl
  next hfound =>
    constructor
    · intro h
      cases h
    · rintro ⟨p, d, hp, hd, -⟩
      rw [hp, Option.bind_some, choose_eq_some_iff_picks.mpr hd] at hfound
      cases hfound

theorem locate_eq_error_iff {fault : Fault} :
    i.locate packages s = .error fault ↔
      fault = .entryNotFound s.name s.package ∧
        ∀ p, packages.find? (·.path == s.package) = some p →
          ∀ d ∈ p.declarations, i.Knows d → ¬ Answers s.name d.id := by
  have hnone : (packages.find? (·.path == s.package)).bind
        (fun p => choose (splitName s.name).1 (i.candidates p (splitName s.name).2)) = none ↔
      ∀ p, packages.find? (·.path == s.package) = some p →
        ∀ d ∈ p.declarations, i.Knows d → ¬ Answers s.name d.id := by
    rw [Option.bind_eq_none_iff]
    exact forall₂_congr fun p _ => choose_eq_none_iff
  rw [← hnone]
  simp only [locate]
  split
  next d hfound => simp [hfound]
  next hfound => simp [hfound, eq_comm]

end Index

/-! ## Walking from what is found -/

/-- **A walk from the identity `id` begins at the declaration `e`,** whatever budget it has. -/
structure Walk.Begins (w : Walk) (id : Symbol) (e : Indexed) : Prop where
  found : w.index.get? id.canonical = some e
  way : ∀ budget, (w.index.sequence budget id.canonical).head? = some e
  /-- it ends well exactly if the texts on its way can be read, an excluded entry's apart -/
  ends_well : ∀ budget, (∃ c, w.run id budget = .ok c) ↔
    ∀ f ∈ w.emitted (w.index.sequence budget id.canonical), w.Readable f
  visited : ∀ budget c, w.run id budget = .ok c →
    ∃ later, w.visit true budget id.canonical {} = .ok ⟨id.canonical :: later, c⟩
  /-- the first slot is the one of the entry's package -/
  slot : ∀ budget c, w.run id budget = .ok c →
    ∃ text rest, c = ⟨e.package.path, e.package.name, text⟩ :: rest
  /-- and it begins with the entry's text unless the entry is excluded -/
  text : w.excludeRoot = false → ∀ budget c, w.run id budget = .ok c →
    ∃ source more rest, e.declaration.excerpt w.files e.unitPath = .ok source ∧
      c = ⟨e.package.path, e.package.name, "\n" ++ source ++ more⟩ :: rest

/-- A walk begins at what the index finds. -/
theorem Walk.begins {w : Walk} {id : Symbol} {e : Indexed} (he : w.index.get? id.canonical = some e) :
    w.Begins id e := by
  refine ⟨he, ?_, fun _ => run_eq_ok_iff, ?_, fun _ _ h => exists_slot_of_run he h,
    fun hkeep _ _ h => exists_first_slot hkeep he h⟩
  · intro budget
    obtain ⟨stops, hlog⟩ := Index.log_eq_cons he budget
    rw [Index.sequence, hlog]
    rfl
  · intro budget c h
    obtain ⟨stops, hlog⟩ := Index.log_eq_cons he budget
    obtain ⟨_, -, -, hvisit⟩ := exists_of_run h
    have hkey : Stop.key ⟨e, budget⟩ = id.canonical := Index.key_of_get? he
    rw [hlog, Log.keys_cons, hkey] at hvisit
    exact ⟨_, hvisit⟩

/-- **In a loaded module what is found under an identity of a package is a declaration of that package.** -/
theorem Load.package_eq_of_found {l : Loading} {root : String} {tree : Entry} {m m' : Manifest}
    {ps : List Package} {p : Package} {d : Declaration} {e : Indexed}
    (h : packages l root tree m = .ok ps) (hp : p ∈ ps) (hd : d ∈ p.declarations)
    (he : (Index.build ps m').get? d.id.canonical = some e) : e.package = p := by
  obtain ⟨hkey, hq, -, u, hu, -, he⟩ := Index.exists_of_get?_build he
  have hpath : e.package.path = p.path :=
    calc e.package.path
      _ = e.declaration.id.package :=
          (identified_of_mem_declarations h hq (Index.mem_declarations.mpr ⟨u, hu, he⟩)).package.symm
      _ = d.id.package := by rw [← Symbol.canonical_package, hkey, Symbol.canonical_package]
      _ = p.path := (identified_of_mem_declarations h hp hd).package
  have hfound := find?_path_of_mem_packages h hq
  rw [hpath, find?_path_of_mem_packages h hp] at hfound
  exact (Option.some.inj hfound).symm

namespace Index

/-- **Which entry a selector finds.** Lookup takes the declaration that the first package of the path picks
    for the name, and fails exactly if no declaration that package has in the index answers to it. What is
    found is in the index, so every walk from it begins there; and where the packages were loaded it is a
    declaration of the selected package, whose slot is the first. -/
theorem locate_build (packages : List Package) (m : Manifest) (s : Selector) :
    (∀ id, (build packages m).locate packages s = .ok id ↔
      ∃ p d, packages.find? (·.path == s.package) = some p ∧
        (build packages m).Picks p s.name d ∧ d.id = id) ∧
    (∀ fault, (build packages m).locate packages s = .error fault ↔
      fault = .entryNotFound s.name s.package ∧
        ∀ p, packages.find? (·.path == s.package) = some p →
          ∀ d ∈ p.declarations, (build packages m).Knows d → ¬ Answers s.name d.id) ∧
    ∀ id, (build packages m).locate packages s = .ok id →
      ∃ e, (∀ files excludeRoot, Walk.Begins ⟨files, build packages m, excludeRoot⟩ id e) ∧
        ∀ l root tree m', Load.packages l root tree m' = .ok packages →
          packages.find? (·.path == s.package) = some e.package ∧
          ∀ files excludeRoot budget c,
            Walk.run ⟨files, build packages m, excludeRoot⟩ id budget = .ok c →
            (Collected.paths c).head? = some s.package := by
  refine ⟨fun id => locate_eq_ok_iff, fun fault => locate_eq_error_iff, fun id h => ?_⟩
  obtain ⟨p, d, hp, hpick, rfl⟩ := locate_eq_ok_iff.mp h
  obtain ⟨hd, hknown, -⟩ := hpick.answers
  obtain ⟨e, he⟩ := exists_of_contains hknown
  refine ⟨e, fun files excludeRoot => Walk.begins he, fun l root tree m' hload => ?_⟩
  obtain rfl : e.package = p := Load.package_eq_of_found hload (List.mem_of_find?_eq_some hp) hd he
  refine ⟨hp, fun files excludeRoot budget c hrun => ?_⟩
  obtain ⟨text, rest, rfl⟩ := (Walk.begins he).slot budget c hrun
  have hpath : e.package.path = s.package := by simpa using List.find?_some hp
  exact congrArg some hpath

/-- In a loaded module: a plain name that only a method has, and a receiver given to a plain function. -/
theorem locate_build_twoPackages :
    twoPackagesRead.index.locate twoPackagesRead.packages ⟨"m/z", "Stop"⟩
      = .ok (.method "m/z" "T" "Stop") ∧
    twoPackagesRead.index.locate twoPackagesRead.packages ⟨"m/z", "T.Z"⟩
      = .error (.entryNotFound "T.Z" "m/z") ∧
    (∃ d, twoPackagesRead.index.Picks zPackage "Stop" d ∧ d.id = .method "m/z" "T" "Stop") ∧
    (∀ d ∈ zPackage.declarations, twoPackagesRead.index.Knows d → ¬ Answers "T.Z" d.id) ∧
    ∃ e, e.package = zPackage ∧ ∀ files excludeRoot,
      Walk.Begins ⟨files, twoPackagesRead.index, excludeRoot⟩ (.method "m/z" "T" "Stop") e ∧
      ∀ budget c,
        Walk.run ⟨files, twoPackagesRead.index, excludeRoot⟩ (.method "m/z" "T" "Stop") budget = .ok c →
        (Collected.paths c).head? = some "m/z" := by
  have hstop : twoPackagesRead.index.locate twoPackagesRead.packages ⟨"m/z", "Stop"⟩
      = .ok (.method "m/z" "T" "Stop") := by decide +kernel
  have hfails : twoPackagesRead.index.locate twoPackagesRead.packages ⟨"m/z", "T.Z"⟩
      = .error (.entryNotFound "T.Z" "m/z") := by decide +kernel
  have hz : twoPackagesRead.packages.find? (·.path == "m/z") = some zPackage := by decide +kernel
  obtain ⟨-, place, tree, -, hload⟩ := GoModule.exists_of_load (by decide +kernel) load_twoPackages
  obtain ⟨hok, -, hfound⟩ := locate_build twoPackagesRead.packages ⟨["m"]⟩ ⟨"m/z", "Stop"⟩
  obtain ⟨-, herror, -⟩ := locate_build twoPackagesRead.packages ⟨["m"]⟩ ⟨"m/z", "T.Z"⟩
  obtain ⟨p, d, hp, hpick, hid⟩ := (hok _).mp hstop
  obtain rfl := Option.some.inj (hz.symm.trans hp)
  obtain ⟨e, hbegins, hslot⟩ := hfound _ hstop
  obtain ⟨hpackage, hfirst⟩ := hslot _ _ _ _ hload
  exact ⟨hstop, hfails, ⟨d, hpick, hid⟩, ((herror _).mp hfails).2 _ hz, e,
    Option.some.inj (hpackage.symm.trans hz), fun files excludeRoot =>
      ⟨hbegins files excludeRoot, hfirst files excludeRoot⟩⟩

end Index
end GoExcerpt
