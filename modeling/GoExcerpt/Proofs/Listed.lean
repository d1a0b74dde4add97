import GoExcerpt.Proofs.ExcludedRoot
import GoExcerpt.Proofs.Indexing
import GoExcerpt.Proofs.Reread
import GoExcerpt.Proofs.Selectors
import Mathlib.Data.List.TakeWhile

/-!
# `Proofs.Listed` — what is listed can be extracted

A line of a listing has the package and the short name of a declaration. Both are understood when they are
given back: the path of a package means that package (`qualify_of_mem_packages`), a short name is cut into
receiver and name (`splitName_shortName`), and the declaration with both is found (`locate_shortName`). Its
document exists, since all texts can be read, and begins with its own text (`extract_of_listed`).
-/

namespace GoExcerpt

open FileSystem (absolute)
open Lexeme (Dotless)

/-! ## Package paths -/

namespace Load

open Manifest (Bare testMark)

variable {l : Loading} {root : String} {tree : Entry} {m : Manifest} {ps : List Package} {p : Package}

/-- The path of a directory is as bare as the module path. -/
theorem bare_importPath {modulePath : String} {dir : List String} (hdir : ∀ name ∈ dir, isFileName name = true)
    (hroot : Bare modulePath.toList) (hdot : modulePath ≠ ".") : Bare (importPath modulePath dir).toList := by
  unfold importPath
  by_cases hnil : dir = []
  · rw [if_pos (by simpa using hnil)]
    exact hroot
  · rw [if_neg (by simpa using hnil)]
    -- the names of a directory end and begin as its absolute path does
    refine Manifest.bare_below hroot hdot ?_ ?_
    · intro hlast
      refine hnil ((FileSystem.endsWith_absolute hdir).mp (FileSystem.endsWith_slash_iff.mpr ?_))
      show ("/" ++ "/".intercalate dir).toList.getLast? = some '/'
      rw [String.toList_append, List.getLast?_append, hlast]
      rfl
    · intro hempty
      refine hnil ((FileSystem.absolute_inj hdir (by simp)).mp ?_)
      show "/" ++ "/".intercalate dir = _
      rw [hempty]
      rfl

theorem bare_marked {path : String} (h : Bare path.toList) : Bare (path ++ testMark).toList where
  front := by
    rw [String.toList_append]
    exact Manifest.front_append h.front (by decide) fun _ => by decide
  back := by
    rw [String.toList_append, List.getLast?_append]
    simp [testMark]

/-- So is the path of a package, which may have the mark of external tests at its end. -/
theorem bare_importPathOf {modulePath : String} {names : List String} (package : String)
    (hnames : ∀ name ∈ names, isFileName name = true) (hroot : Bare modulePath.toList) (hdot : modulePath ≠ ".") :
    Bare (importPathOf modulePath names package).toList := by
  have hdir : ∀ name ∈ names.dropLast, isFileName name = true := fun name hname =>
    hnames name (List.dropLast_subset _ hname)
  have hbase := bare_importPath hdir hroot hdot
  simp only [importPathOf]
  split
  next => exact bare_marked hbase
  next => exact hbase

/-- **The path of a loaded member package means that package when it is given as a selector.** -/
theorem qualify_of_mem_packages (htree : tree.wellNamed = true)
    (h : packages l root tree m = .ok ps) (hp : p ∈ ps) (hmember : m.isMember p.path = true)
    (hroot : Bare m.modulePath.toList) (hdot : m.modulePath ≠ ".") : m.qualify p.path = p.path := by
  obtain ⟨_, groups, -, rfl, hgroups⟩ := exists_of_packages h
  obtain ⟨g, hg, rfl⟩ := mem_resolve.mp hp
  obtain ⟨f, hf⟩ := List.exists_mem_of_ne_nil _ (hgroups.inhabited g hg)
  obtain ⟨names, -, text, horigin⟩ := hgroups.origin g hg f hf
  obtain ⟨content, hcontent, -⟩ := horigin.found
  have hpath : (packageOf groups g).path = importPathOf m.modulePath names g.name := horigin.importPath
  have hbare := bare_importPathOf g.name (Entry.wellNamed_of_find? htree hcontent).1 hroot hdot
  rw [← hpath] at hbare
  refine Manifest.qualify_eq_self hbare hmember fun habs => ?_
  -- a path that is empty or a dot has neither a slash nor the mark in it
  have hshort : '/' ∉ (packageOf groups g).path.toList ∧ '_' ∉ (packageOf groups g).path.toList := by
    rcases habs with habs | habs
    · rw [habs]
      exact ⟨by decide, by decide⟩
    · rw [habs]
      exact ⟨by decide, by decide⟩
  rcases importPathOf_cases m.modulePath names g.name with heq | ⟨rest, heq⟩ | ⟨heq, -⟩
  · exact hpath.trans heq
  · rw [hpath, heq] at hshort
    exact absurd (by simp) hshort.1
  · rw [hpath, heq] at hshort
    exact absurd (by simp [testMark]) hshort.2

/-- Loading makes one package of each path. -/
theorem find?_path_of_mem_packages (h : packages l root tree m = .ok ps) (hp : p ∈ ps) :
    ps.find? (·.path == p.path) = some p := by
  obtain ⟨_, groups, -, rfl, hgroups⟩ := exists_of_packages h
  have hnodup : ((resolve groups).map Package.path).Nodup := paths_resolve groups ▸ hgroups.nodup
  obtain ⟨q, hq⟩ : ∃ q, (resolve groups).find? (·.path == p.path) = some q :=
    Option.isSome_iff_exists.mp (List.find?_isSome.mpr ⟨p, hp, by simp⟩)
  have hpath : q.path = p.path := by simpa using List.find?_some hq
  rw [hq, List.inj_on_of_nodup_map hnodup (List.mem_of_find?_eq_some hq) hp hpath]

/-! ## Names of functions -/

/-- **The identity of a loaded declaration:** its package is the one it is found in, it has a place only
    where its name may be declared again, and neither its name nor its receiver has a dot. -/
structure Identified (p : Package) (s : Symbol) : Prop where
  package : s.package = p.path
  site : s.name ≠ "init" → s.name ≠ "_" → s.site = none
  name : Dotless s.name
  receiver : ∀ base, s.receiver = some base → Dotless base

theorem identified_of_mem_declarations (h : packages l root tree m = .ok ps) (hp : p ∈ ps)
    {d : Declaration} (hd : d ∈ p.declarations) : Identified p d.id := by
  obtain ⟨_, groups, -, rfl, hgroups⟩ := exists_of_packages h
  have hpackage := package_of_mem_resolve hp hd
  obtain ⟨g, hg, rfl⟩ := mem_resolve.mp hp
  obtain ⟨f, hf, hd⟩ := mem_declarations_packageOf.mp hd
  obtain ⟨names, -, text, horigin⟩ := hgroups.origin g hg f hf
  have hsite := FileScope.site_of_mem_unitOf hd
  rw [horigin.parsed] at hd
  obtain ⟨hname, hreceiver⟩ := FileScope.dotless_of_mem_unitOf hd
  refine ⟨hpackage, fun hinit hblank => hsite.mpr ?_, hname, hreceiver⟩
  simp [FileScope.isRepeatable, hinit, hblank]

end Load

/-- Package, receiver and name are all there is to an identity without a place. -/
theorem Symbol.eq_of_site_none {s t : Symbol} (hpackage : s.package = t.package)
    (hreceiver : s.receiver = t.receiver) (hname : s.name = t.name) (hs : s.site = none)
    (ht : t.site = none) : s = t := by
  obtain ⟨_, _, _, _⟩ := s
  obtain ⟨_, _, _, _⟩ := t
  cases hpackage
  cases hreceiver
  cases hname
  cases hs
  cases ht
  rfl

namespace Index

variable {i : Index} {s : Symbol}

theorem splitName_of_dotless {name : String} (h : Dotless name) : splitName name = (none, name) := by
  have hdrop : name.toList.dropWhile (· != '.') = [] := by
    refine List.dropWhile_eq_nil_iff.mpr fun c hc => ?_
    simp only [bne_iff_ne]
    rintro rfl
    exact h hc
  simp only [splitName, hdrop]

theorem splitName_of_receiver {receiver : String} (h : Dotless receiver) (name : String) :
    splitName (receiver ++ "." ++ name) = (some receiver, name) := by
  have hbefore : ∀ c ∈ receiver.toList, (c != '.') = true := by
    intro c hc
    simp only [bne_iff_ne]
    rintro rfl
    exact h hc
  have hcs : (receiver ++ "." ++ name).toList = receiver.toList ++ '.' :: name.toList := by simp
  have hdrop : (receiver ++ "." ++ name).toList.dropWhile (· != '.') = '.' :: name.toList := by
    rw [hcs, List.dropWhile_append_of_pos hbefore]
    rfl
  have htake : (receiver ++ "." ++ name).toList.takeWhile (· != '.') = receiver.toList := by
    rw [hcs, List.takeWhile_append_of_pos hbefore, List.takeWhile_cons_of_neg (by simp),
      List.append_nil]
  simp only [splitName, hdrop, htake, String.ofList_toList]

/-- **A short name is read back as receiver and name.** -/
theorem splitName_shortName {p : Package} (h : Load.Identified p s) :
    splitName s.shortName = (s.receiver, s.name) := by
  unfold Symbol.shortName
  cases hreceiver : s.receiver with
  | none => exact splitName_of_dotless h.name
  | some base => exact splitName_of_receiver (h.receiver base hreceiver) s.name

/-- **The package and short name of a declaration in the index find its identity** unless its name may
    be declared again. -/
theorem locate_shortName {packages : List Package} {p : Package} {d : Declaration}
    (hp : packages.find? (·.path == p.path) = some p)
    (hids : ∀ d ∈ p.declarations, Load.Identified p d.id) (hd : d ∈ p.declarations)
    (hin : i.contains d.id.canonical = true) (hinit : d.id.name ≠ "init") (hblank : d.id.name ≠ "_") :
    i.locate packages ⟨p.path, d.id.shortName⟩ = .ok d.id := by
  have hsplit := splitName_shortName (hids d hd)
  refine locate_eq_ok hp ?_ ?_ ?_
  · rw [hsplit]
    exact mem_candidates.mpr ⟨hd, rfl, hin⟩
  · rw [hsplit]
    simp [isExact]
  · rw [hsplit]
    intro d' hd' hexact
    obtain ⟨hmem, hname, -⟩ := mem_candidates.mp hd'
    have hsite := (hids d hd).site hinit hblank
    have hsite' := (hids d' hmem).site (hname ▸ hinit) (hname ▸ hblank)
    have hpackage := (hids d' hmem).package.trans (hids d hd).package.symm
    have hreceiver : d'.id.receiver = d.id.receiver := by simpa [isExact] using hexact
    exact Symbol.eq_of_site_none hpackage hreceiver hname hsite' hsite

end Index

/-! ## Walks over readable texts -/

namespace Walk

variable {w : Walk}

theorem exists_notes {isEntry : Bool} {es : List Indexed}
    (h : ∀ e ∈ es, ∃ source, e.declaration.excerpt w.files e.unitPath = .ok source) :
    ∃ ns, w.notes isEntry es = .ok ns := by
  induction es generalizing isEntry with
  | nil => exact ⟨[], rfl⟩
  | cons e rest ih =>
      obtain ⟨source, hsource⟩ := h e List.mem_cons_self
      obtain ⟨ns, hns⟩ := @ih false fun f hf => h f (List.mem_cons_of_mem _ hf)
      have hnote : ∃ n, w.noteOn isEntry e = .ok n := by
        unfold noteOn
        split
        next => exact ⟨_, rfl⟩
        next =>
          rw [hsource]
          exact ⟨_, rfl⟩
      obtain ⟨n, hn⟩ := hnote
      refine ⟨n :: ns, ?_⟩
      rw [notes, hn]
      show (w.notes false rest).bind _ = _
      rw [hns]
      rfl

/-- **A walk succeeds where the text of every indexed function can be read.** -/
theorem exists_run (entry : Symbol) (budget : Nat) (h : ∀ key e, w.index.get? key = some e →
    ∃ source, e.declaration.excerpt w.files e.unitPath = .ok source) :
    ∃ c, w.run entry budget = .ok c := by
  have hreadable : ∀ e ∈ (w.index.log budget entry.canonical).map Stop.reached,
      ∃ source, e.declaration.excerpt w.files e.unitPath = .ok source := by
    intro e he
    obtain ⟨s, hs, rfl⟩ := List.mem_map.mp he
    exact h _ _ ((Index.log_valid budget entry.canonical).indexed s hs)
  obtain ⟨ns, hns⟩ : ∃ ns, w.notes true _ = .ok ns := exists_notes hreadable
  refine ⟨Collected.replay ns, ?_⟩
  rw [run_eq, hns]
  rfl

/-- The first slot of a walk is the one of the entry's package. -/
theorem exists_slot_of_run {entry : Symbol} {budget : Nat} {e : Indexed} {c : Collected}
    (he : w.index.get? entry.canonical = some e) (h : w.run entry budget = .ok c) :
    ∃ text rest, c = ⟨e.package.path, e.package.name, text⟩ :: rest := by
  obtain ⟨hslots, -, -⟩ := collected_of_run (Index.contains_of_get? he) h
  obtain ⟨stops, hlog⟩ := Index.log_eq_cons he budget
  rw [hlog, List.map_cons, List.map_cons, List.eraseDupsBy_cons, List.map_cons] at hslots
  cases c with
  | nil => cases hslots
  | cons slot rest =>
      obtain ⟨hpath, hname⟩ := Prod.mk.inj (List.cons.inj hslots).1
      exact ⟨slot.text, rest, by rw [← hpath, ← hname]⟩

/-- **The first slot of a walk that keeps its entry is the entry's, and begins with its text.** -/
theorem exists_first_slot {entry : Symbol} {budget : Nat} {e : Indexed} {c : Collected}
    (hkeep : w.excludeRoot = false) (he : w.index.get? entry.canonical = some e)
    (h : w.run entry budget = .ok c) :
    ∃ source more rest, e.declaration.excerpt w.files e.unitPath = .ok source ∧
      c = ⟨e.package.path, e.package.name, "\n" ++ source ++ more⟩ :: rest := by
  obtain ⟨text, rest, rfl⟩ := exists_slot_of_run he h
  obtain ⟨-, hread, htext⟩ := collected_of_run (Index.contains_of_get? he) h
  obtain ⟨stops, hlog⟩ := Index.log_eq_cons he budget
  have hemitted : ∀ es, w.emitted es = es := fun es => by rw [emitted, if_neg (by simp [hkeep])]
  rw [hemitted, hlog, List.map_cons] at hread htext
  -- the slot of the entry's package is the first one, so its text is found at once
  have hslot : Collected.textOf (⟨e.package.path, e.package.name, text⟩ :: rest) e.package.path = text := by
    unfold Collected.textOf
    rw [List.find?_cons_of_pos (by simp)]
    rfl
  have hfirst := htext e.package.path
  rw [hslot, List.filter_cons_of_pos (by simp), List.map_cons, String.join_cons] at hfirst
  exact ⟨w.source e, _, rest, hread e List.mem_cons_self, by rw [← hfirst]⟩

end Walk

/-- A document with fences and root slot begins with the fence and the text of that slot. -/
theorem Format.exists_render_cons {f : Format} (hx : f.excludeRoot = false) (hfence : f.codeOnly = false)
    (root : Slot) (rest : Collected) :
    ∃ more, f.render (root :: rest) = fence ++ f.fenceInfo.getD "" ++ root.text ++ more := by
  have hbody : f.body root = fence ++ f.fenceInfo.getD "" ++ root.text ++ fence := by
    rw [body, if_neg (by simp [hfence])]
  cases rest with
  | nil => exact ⟨fence, by rw [render_singleton hx, hbody]⟩
  | cons next later =>
      refine ⟨fence ++ (gap ++ (f.header next ++ ("\n" ++ f.render (next :: later)))), ?_⟩
      rw [render_cons_cons hx, hbody]
      simp only [String.append_assoc]

/-! ## Listing and extracting -/

section

variable {c : Config} {dir : String} {fs after : FileSystem} {m : GoModule}

/-- **The document of a function that is found begins with its text,** where all texts of the module can
    be read. -/
theorem exists_extract {function : String} {package : Option String} {id : Symbol} {e : Indexed}
    (hload : GoModule.load c fs dir = (.ok m, fs))
    (hreadable : ∀ key e, m.index.get? key = some e →
      ∃ source, e.declaration.excerpt fs e.unitPath = .ok source)
    (hlocate : m.index.locate m.packages (m.selector package function) = .ok id)
    (he : m.index.get? id.canonical = some e) (depth : Option Nat) :
    ∃ source more, e.declaration.excerpt fs e.unitPath = .ok source ∧
      extract c ⟨dir, function, package, some false, some false, depth⟩ fs
        = (.ok (Format.fence ++ c.output.fenceInfo.getD "" ++ "\n" ++ source ++ more), fs) := by
  obtain ⟨collected, hrun⟩ := Walk.exists_run (w := ⟨fs, m.index, false⟩) id
    (c.budget false depth) hreadable
  obtain ⟨source, more, rest, hsource, rfl⟩ := Walk.exists_first_slot rfl he hrun
  obtain ⟨last, hrender⟩ := Format.exists_render_cons (f := c.format false false) rfl rfl
    ⟨e.package.path, e.package.name, "\n" ++ source ++ more⟩ rest
  refine ⟨source, more ++ last, hsource, ?_⟩
  have hfrom : extractFrom c ⟨dir, function, package, some false, some false, depth⟩ fs m
      = .ok ((c.format false false).render
          (⟨e.package.path, e.package.name, "\n" ++ source ++ more⟩ :: rest)) := by
    unfold extractFrom
    rw [hlocate]
    show (Walk.run ⟨fs, m.index, false⟩ id (c.budget false depth)).bind _ = _
    rw [hrun]
    rfl
  rw [extract_of_load hload, hfrom, hrender]
  simp only [String.append_assoc]
  rfl

/-- What is listed after a module has been read. -/
theorem mem_rows_of_list {rows : List Row} {line : Row} (hload : GoModule.load c fs dir = (.ok m, after))
    (hlist : list c dir none fs = (.ok rows, after)) (hline : line ∈ rows) :
    ∃ e, m.index.get? e.key = some e ∧ Index.row e = line := by
  unfold list at hlist
  rw [hload] at hlist
  obtain rfl : m.index.listing = rows := Except.ok.inj (Prod.mk.inj hlist).1
  exact Index.mem_listing.mp hline

end

/-- **What is listed can be extracted.** For a line of a listing, and any declaration it stands for whose
    name cannot be declared again, package and name of the line find the identity of that declaration, and
    its document exists for every depth and begins with its own text. -/
theorem extract_of_listed (c : Config) (dir : String) (fs after : FileSystem)
    (hfs : fs.wellFormed = true) (m : GoModule) (hload : GoModule.load c fs dir = (.ok m, after))
    (hdot : m.manifest.modulePath.startsWith "." = false)
    (hslash : m.manifest.modulePath.endsWith "/" = false) (rows : List Row)
    (hlist : list c dir none fs = (.ok rows, after)) (line : Row) (hline : line ∈ rows) :
    after = fs ∧ (∃ e, m.index.get? e.key = some e ∧ Index.row e = line) ∧
    ∀ e, m.index.get? e.key = some e → Index.row e = line →
      e.declaration.id.name ≠ "init" → e.declaration.id.name ≠ "_" →
      m.index.locate m.packages ⟨m.manifest.qualify line.package, line.name⟩
        = .ok e.declaration.id ∧
      ∀ depth : Option Nat, ∃ source more,
        e.declaration.excerpt fs e.unitPath = .ok source ∧
        extract c ⟨dir, line.name, some line.package, some false, some false, depth⟩ fs
          = (.ok (Format.fence ++ c.output.fenceInfo.getD "" ++ "\n" ++ source ++ more), fs) := by
  obtain ⟨hafter, place, tree, htree, hpackages⟩ := GoModule.exists_of_load hfs hload
  refine ⟨hafter, mem_rows_of_list hload hlist hline, ?_⟩
  rw [hafter] at hload
  rintro e he rfl hinit hblank
  obtain ⟨-, hp, hmember, u, hu, -, hd⟩ := Index.exists_of_get?_build he
  have hqualify : m.manifest.qualify e.package.path = e.package.path := by
    obtain ⟨-, hwell⟩ := Entry.wellNamed_of_find? (Bool.and_eq_true_iff.mp hfs).2 htree
    obtain ⟨hbare, hroot⟩ := Manifest.bare_modulePath_of_dot hdot hslash
    exact Load.qualify_of_mem_packages hwell hpackages hp hmember hbare hroot
  have hlocate : m.index.locate m.packages ⟨m.manifest.qualify e.package.path, e.declaration.id.shortName⟩
      = .ok e.declaration.id := by
    rw [hqualify]
    exact Index.locate_shortName (Load.find?_path_of_mem_packages hpackages hp)
      (fun d hd => Load.identified_of_mem_declarations hpackages hp hd)
      (Index.mem_declarations.mpr ⟨u, hu, hd⟩) (Index.contains_of_get? he) hinit hblank
  refine ⟨hlocate, exists_extract hload (fun key f hf => ?_) hlocate he⟩
  -- any function the walk may reach comes from a file that is still there
  obtain ⟨-, hq, -, v, hv, hpath, hg⟩ := Index.exists_of_get?_build hf
  exact hpath ▸ Load.exists_excerpt hfs htree hpackages hq hv hg

/-- The method among the functions of two packages. -/
def stopMethod : Indexed where
  declaration := ⟨.method "m/z" "T" "Stop", [], ⟨7, 7⟩, some [⟨some (.function "m/z" "Z"), 7⟩]⟩
  unitPath := "/z/z.go"
  package := zPackage

theorem extract_of_listed_twoPackages :
    ∃ rows, list {} "/" none twoPackages = (.ok rows, twoPackages) ∧
      (⟨"m/z.(T).Stop", "m/z", "T.Stop", "/z/z.go", 7, true⟩ : Row) ∈ rows ∧
      twoPackagesRead.index.locate twoPackagesRead.packages
          ⟨twoPackagesRead.manifest.qualify "m/z", "T.Stop"⟩ = .ok (.method "m/z" "T" "Stop") ∧
      ∀ depth : Option Nat, ∃ more,
        extract {} ⟨"/", "T.Stop", some "m/z", some false, some false, depth⟩ twoPackages
          = (.ok ("```\nfunc (t *T) Stop() \x7b Z() \x7d\n" ++ more), twoPackages) := by
  have hlist : list {} "/" none twoPackages = (.ok (twoPackagesRead.rows none), twoPackages) := by
    unfold list
    rw [load_twoPackages]
  have htext : stopMethod.declaration.excerpt twoPackages "/z/z.go"
      = .ok "func (t *T) Stop() \x7b Z() \x7d\n" := by decide +kernel
  have hget : twoPackagesRead.index.get? stopMethod.key = some stopMethod := rfl
  have hrow : Index.row stopMethod = ⟨"m/z.(T).Stop", "m/z", "T.Stop", "/z/z.go", 7, true⟩ := by
    decide +kernel
  have hline : Index.row stopMethod ∈ twoPackagesRead.rows none :=
    Index.mem_listing.mpr ⟨stopMethod, hget, rfl⟩
  obtain ⟨-, -, hall⟩ := extract_of_listed {} "/" twoPackages twoPackages (by decide +kernel)
    twoPackagesRead load_twoPackages (by decide +kernel) (by decide +kernel) _ hlist
    (Index.row stopMethod) hline
  obtain ⟨hlocate, hextract⟩ := hall stopMethod hget rfl (by decide) (by decide)
  refine ⟨_, hlist, hrow ▸ hline, hlocate, fun depth => ?_⟩
  obtain ⟨source, more, hsource, hdocument⟩ := hextract depth
  obtain rfl := Except.ok.inj (hsource.symm.trans htext)
  exact ⟨more, hdocument⟩

end GoExcerpt
