/-
The files that a loader holds.

A schema file is a parsed text under a name. Its contents and the packages
around them are read off the text (`SchemaFile.contents`,
`SchemaFile.packages`), and a loader holds a list of files when its graph has
these entries and no others (`Loader.Holds`). A file can be entered into such
a loader exactly when it is valid by itself and stands apart from each of the
files (`enter_succeeds`). Both conditions are about the texts, and the second
does not change when the two files are exchanged.
-/
import ProtoBind.Proofs.Schema.Contents
import ProtoBind.Proofs.Schema.Prefixes

namespace ProtoBind.Schema

open Schema.Graph
open Source (Decl Plain)

namespace Load

variable {c : Context} {s s' : Loader} {index : Nat} {parent : String}

/-! ## Packages -/

/-- Only packages have the names of the entries. -/
def PackagesOnly (l : List Listed) (spaces : List Listed) : Prop :=
  ∀ x ∈ spaces, ∀ y ∈ l, y.1 = x.1 → y.2.body.kind = .package

/-- What looking for a package leaves: some of the packages on the way are new, and all of them are there. -/
structure Opens (spaces : List Listed) (g : Graph) (i : Nat) (space : String) (g' : Graph) : Prop where
  arena : g'.Arena
  listing : ∃ news, g'.listing = g.listing ++ news ∧ ∀ x ∈ news, x ∈ spaces
  present : ∀ x ∈ spaces, x.1 ∈ g'.fullNames
  files : g'.files = g.files
  space : g'.fullNames[i]? = some space

theorem Opens.present_of_mem {spaces : List Listed} {g g' : Graph} {i : Nat} {space name : String}
    (h : Opens spaces g i space g') (hname : name ∈ g.fullNames) : name ∈ g'.fullNames := by
  obtain ⟨news, hnews, -⟩ := h.listing
  rw [Graph.fullNames, hnews, List.map_append]
  exact List.mem_append_left _ hname

/-- One package more around those that were opened: it was there, or it was added first. -/
theorem Opens.cons {x : Listed} {spaces news : List Listed} {g g₁ g' : Graph} {i : Nat} {space : String}
    (h : Opens spaces g₁ i space g') (hlisting : g₁.listing = g.listing ++ news) (hnews : ∀ y ∈ news, y = x)
    (hx : x.1 ∈ g₁.fullNames) (hfiles : g₁.files = g.files) : Opens (x :: spaces) g i space g' where
  arena := h.arena
  listing := by
    obtain ⟨more, hmore, hmem⟩ := h.listing
    refine ⟨news ++ more, by rw [hmore, hlisting, List.append_assoc], fun y hy => ?_⟩
    rcases List.mem_append.mp hy with hy | hy
    · rw [hnews y hy]
      exact List.mem_cons_self
    · exact List.mem_cons_of_mem _ (hmem y hy)
  present := List.forall_mem_cons.mpr ⟨h.present_of_mem hx, h.present⟩
  files := h.files.trans hfiles
  space := h.space

section Part

variable {g : Graph} {n : Node} {current : Nat} {part : String} {rest : List String}

/-- The entry of a package. -/
def packageEntry (part : String) : Entry := { name := part, body := .package }

theorem packagesOnly_cons {l : List Listed} {parent : String} :
    PackagesOnly l (packageEntries parent (part :: rest)) ↔
      (∀ y ∈ l, y.1 = childName parent part → y.2.body.kind = .package) ∧
        PackagesOnly l (packageEntries (childName parent part) rest) :=
  List.forall_mem_cons

/-- A name that is free may become that of a package. -/
theorem packagesOnly_adopt (hfree : childName n.fullName part ∉ g.fullNames) :
    PackagesOnly g.listing (packageEntries n.fullName (part :: rest)) ↔
      PackagesOnly (g.adopt (packageEntry part) current n).listing
        (packageEntries (childName n.fullName part) rest) := by
  rw [packagesOnly_cons, listing_adopt]
  constructor
  · rintro ⟨-, hrest⟩ x hx y hy
    rcases List.mem_append.mp hy with hy | hy
    · exact hrest x hx y hy
    · obtain rfl := List.mem_singleton.mp hy
      exact fun _ => rfl
  · intro hrest
    refine ⟨fun y hy he => absurd (List.mem_map_of_mem hy) (he ▸ hfree), fun x hx y hy => ?_⟩
    exact hrest x hx y (List.mem_append_left _ hy)

/-- A name that a package has is no obstacle. -/
theorem packagesOnly_found (rest : List String) (h : g.Arena) {m : Node} {parent : String} (hm : m ∈ g.nodes)
    (hname : m.fullName = childName parent part) (hk : m.kind = .package) :
    PackagesOnly g.listing (packageEntries parent (part :: rest)) ↔
      PackagesOnly g.listing (packageEntries (childName parent part) rest) := by
  rw [packagesOnly_cons]
  refine ⟨fun hok => hok.2, fun hok => ⟨fun y hy he => ?_, hok⟩⟩
  obtain ⟨k, hkn, hkname, hkentry⟩ := mem_listing.mp hy
  obtain rfl := h.unique hkn hm (by rw [hkname, he, hname])
  rw [← hkentry]
  exact hk

/-- One part of a package name. -/
theorem packageUnder_cons (h : g.Arena) (hn : g.node? current = some n) : g.packageUnder current (part :: rest) =
    match g.find? (childName n.fullName part) with
    | none => (g.adopt (packageEntry part) current n).packageUnder g.nodes.length rest
    | some j =>
      match g.node? j with
      | some m =>
        if m.kind = .package then g.packageUnder j rest
        else (g, .error (.duplicate ⟨childName n.fullName part, none, m.file⟩))
      | none => (g, .error .noParent) := by
  have hfull : (if current = 0 then part else ((g.node? current).map (·.fullName)).getD "" ++ "." ++ part) =
      childName n.fullName part := by
    have hroot := h.fullName_empty hn
    simp only [hn, Option.map_some, Option.getD_some, childName, String.isEmpty_iff, hroot]
  simp only [packageUnder, hfull]
  cases hfind : g.find? (childName n.fullName part) with
  | some j => rfl
  | none =>
    have hadd : g.add (packageEntry part) current = .ok (g.nodes.length, g.adopt (packageEntry part) current n) := by
      simp only [Graph.add, hn, packageEntry, hfind]
      rfl
    unfold packageEntry at hadd
    simp only [hadd]
    rfl

end Part

/-- A package is found or created exactly when nothing else has its name or that of a package around it. -/
theorem packageUnder_opens : ∀ (parts : List String) {g : Graph} {current : Nat} {name : String}, g.Arena →
    g.fullNames[current]? = some name →
    (PackagesOnly g.listing (packageEntries name parts) → ∃ i, (g.packageUnder current parts).2 = .ok i) ∧
    ∀ {g' i}, g.packageUnder current parts = (g', .ok i) →
      PackagesOnly g.listing (packageEntries name parts) ∧
        Opens (packageEntries name parts) g i (parts.foldl childName name) g'
  | [], g, current, name, h, hname => by
    refine ⟨fun _ => ⟨current, rfl⟩, fun hrun => ?_⟩
    cases hrun
    refine ⟨by simp [PackagesOnly, packageEntries], h, ⟨[], by simp⟩, by simp [packageEntries], rfl, hname⟩
  | part :: rest, g, current, name, h, hname => by
    rw [getElem?_fullNames] at hname
    obtain ⟨n, hn, rfl⟩ := Option.map_eq_some_iff.mp hname
    rw [packageUnder_cons h hn]
    cases hfind : g.find? (childName n.fullName part) with
    | none =>
      have hfree : childName n.fullName part ∉ g.fullNames := h.find?_eq_none.mp hfind
      have hlength : g.fullNames.length = g.nodes.length := by rw [fullNames_eq, List.length_map]
      have harena : (g.adopt (packageEntry part) current n).Arena := h.adopt hn hfind
      have hnew : (g.adopt (packageEntry part) current n).fullNames[g.nodes.length]? =
          some (childName n.fullName part) := by
        simp [fullNames_adopt, packageEntry, ← hlength]
      obtain ⟨hrun, honly⟩ := packageUnder_opens rest harena hnew
      refine ⟨fun hok => hrun ((packagesOnly_adopt hfree).mp hok), fun hr => ?_⟩
      obtain ⟨hok, hopens⟩ := honly hr
      refine ⟨(packagesOnly_adopt hfree).mpr hok, hopens.cons listing_adopt ?_ ?_ rfl⟩
      · exact fun y hy => List.mem_singleton.mp hy
      · rw [fullNames_adopt]
        exact List.mem_append_right _ List.mem_cons_self
    | some j =>
      obtain ⟨m, hm, hmname⟩ := h.names.mp hfind
      have hmem : m ∈ g.nodes := List.mem_of_getElem? hm
      have hfound : g.fullNames[j]? = some (childName n.fullName part) := by
        rw [getElem?_fullNames, hm, ← hmname]
        rfl
      obtain ⟨hrun, honly⟩ := packageUnder_opens rest h hfound
      simp only [hm]
      by_cases hk : m.kind = .package
      · have hiff := packagesOnly_found rest h hmem hmname hk
        rw [if_pos hk]
        refine ⟨fun hok => hrun (hiff.mp hok), fun hr => ?_⟩
        obtain ⟨hok, hopens⟩ := honly hr
        have hnone : ∀ y ∈ ([] : List Listed), y = (packageEntry part).under n.fullName := by simp
        exact ⟨hiff.mpr hok, hopens.cons (List.append_nil _).symm hnone (List.mem_of_getElem? hfound) rfl⟩
      · rw [if_neg hk]
        have hlisted : (m.fullName, m.toEntry) ∈ g.listing := mem_listing.mpr ⟨m, hmem, rfl, rfl⟩
        exact ⟨fun hok => absurd ((packagesOnly_cons.mp hok).1 _ hlisted hmname) hk, fun hr => by cases hr⟩

/-- The parts of a package name. -/
def packageParts (name : String) : List String := if name.isEmpty then [] else Text.splitOnChar '.' name

theorem package_eq (g : Graph) (name : String) : g.package name = g.packageUnder 0 (packageParts name) := by
  unfold package packageParts
  split <;> rfl

theorem packageParts_plain (name : String) : ∀ part ∈ packageParts name, Plain part := by
  unfold packageParts
  split
  · simp
  · exact splitOnChar_plain name

/-- An entry that is nothing but a package. -/
def IsPackage (x : Listed) : Prop :=
  ∃ parent part, Plain part ∧ x = ({ name := part, body := .package } : Entry).under parent

theorem packageEntries_isPackage : ∀ {parts : List String} {current : String}, (∀ part ∈ parts, Plain part) →
    ∀ x ∈ packageEntries current parts, IsPackage x
  | [], _, _, x, hx => by cases hx
  | part :: rest, current, hp, x, hx => by
    rcases List.mem_cons.mp hx with rfl | hx
    · exact ⟨current, part, hp part (by simp), rfl⟩
    · exact packageEntries_isPackage (fun q hq => hp q (by simp [hq])) x hx

theorem IsPackage.unique {x y : Listed} (hx : IsPackage x) (hy : IsPackage y) (h : x.1 = y.1) : x = y := by
  obtain ⟨p, a, ha, rfl⟩ := hx
  obtain ⟨q, b, hb, rfl⟩ := hy
  have hname : a = b := childName_right ha hb h
  subst hname
  exact Prod.ext h rfl

end Load

/-- A schema file as it was read. -/
structure SchemaFile where
  context : Load.Context
  decls : List Decl

namespace SchemaFile

open Load

/-- The file that a text is under a name, with what it was parsed to. -/
def ofParsed (name text : String) (parsed : List Decl × List Source.Comment) : SchemaFile :=
  ⟨⟨name, Source.DocIndex.build text.toList parsed.2, dialectOf parsed.1⟩, parsed.1⟩

/-- The file that a text is under a name, if it can be parsed. -/
def ofText [Source.CharacterNames] (name text : String) : Option SchemaFile := (Source.parse text).toOption.map
    (ofParsed name text)

def name (f : SchemaFile) : String := f.context.file

def imports (f : SchemaFile) : List String := importsOf f.decls

def parts (f : SchemaFile) : List String := packageParts (packageOf f.decls)

/-- The full name of the package that the declarations are in. -/
def space (f : SchemaFile) : String := f.parts.foldl childName ""

/-- The packages on the way to the declarations. -/
def packages (f : SchemaFile) : List Listed := packageEntries "" f.parts

/-- What the declarations become. -/
def contents (f : SchemaFile) : List Listed := f.decls.flatMap (declContents f.context f.space)

/-- What a file must be by itself. -/
structure Valid (f : SchemaFile) : Prop where
  fits : ∀ d ∈ f.decls, DeclFits d
  names : (f.contents.map (·.1)).Nodup
  named : ∀ x ∈ f.contents, x.1 ≠ ""
  packages : ∀ x ∈ f.contents, ∀ p ∈ f.packages, x.1 ≠ p.1

/-- Two files that can be in one graph. -/
structure Apart (f f' : SchemaFile) : Prop where
  contents : ∀ x ∈ f.contents, ∀ y ∈ f'.contents, x.1 ≠ y.1
  left : ∀ x ∈ f.packages, ∀ y ∈ f'.contents, x.1 ≠ y.1
  right : ∀ x ∈ f.contents, ∀ y ∈ f'.packages, x.1 ≠ y.1

theorem Apart.symm {f f' : SchemaFile} (h : f.Apart f') : f'.Apart f where
  contents x hx y hy he := h.contents y hy x hx he.symm
  left x hx y hy he := h.right y hy x hx he.symm
  right x hx y hy he := h.left y hy x hx he.symm

variable {f : SchemaFile}

theorem ofText_name [Source.CharacterNames] {name text : String} (h : ofText name text = some f) : f.name = name := by
  obtain ⟨parsed, -, rfl⟩ := Option.map_eq_some_iff.mp h
  rfl

theorem packages_isPackage {x : Listed} (hx : x ∈ f.packages) : IsPackage x :=
  packageEntries_isPackage (packageParts_plain _) x hx

theorem contents_belongs : ∀ x ∈ f.contents, Belongs f.context f.space f.contents x := flatMap_belongs

end SchemaFile

namespace Load

theorem IsPackage.kind {x : Listed} (h : IsPackage x) : x.2.body.kind = .package := by
  obtain ⟨p, a, -, rfl⟩ := h
  rfl

theorem IsPackage.file {x : Listed} (h : IsPackage x) : x.2.file = none := by
  obtain ⟨p, a, -, rfl⟩ := h
  rfl

/-- What adding the declarations of a file leaves: those of its packages that were missing are new. -/
def Gains (f : SchemaFile) (s s' : Loader) : Prop :=
  ∃ spaces, (∀ x ∈ spaces, x ∈ f.packages) ∧
    (∀ x ∈ f.packages, x.1 ∈ s.graph.fullNames ∨ x.1 ∈ spaces.map (·.1)) ∧ Adds (spaces ++ f.contents) s s'

variable {s s' : Loader}

theorem Opens.mem_fullNames {spaces : List Listed} {g g' : Graph} {i : Nat} {space name : String}
    (h : Opens spaces g i space g') :
    name ∈ g'.fullNames ↔ name ∈ g.fullNames ∨ ∃ x ∈ spaces, x.1 = name := by
  constructor
  · intro hin
    obtain ⟨news, hnews, hmem⟩ := h.listing
    rw [Graph.fullNames, hnews, List.map_append, List.mem_append] at hin
    refine hin.imp_right fun hin => ?_
    obtain ⟨x, hx, rfl⟩ := List.mem_map.mp hin
    exact ⟨x, hmem x hx, rfl⟩
  · rintro (hin | ⟨x, hx, rfl⟩)
    · exact h.present_of_mem hin
    · exact h.present x hx

theorem addDeclarations_succeeds {f : SchemaFile} (h : s.graph.Arena) :
    Succeeds (addDeclarations f.context (packageOf f.decls) f.decls) s
      (PackagesOnly s.graph.listing f.packages ∧ (∀ d ∈ f.decls, DeclFits d) ∧
        (f.contents.map (·.1)).Nodup ∧
        ∀ x ∈ f.contents, ¬ (x.1 ∈ s.graph.fullNames ∨ ∃ p ∈ f.packages, p.1 = x.1))
      fun _ s' => Gains f s s' := by
  have hroot : s.graph.fullNames[0]? = some "" := by
    obtain ⟨n, hn, -, -, hname⟩ := h.root
    rw [getElem?_fullNames, hn, ← hname]
    rfl
  obtain ⟨hrun, honly⟩ := packageUnder_opens f.parts h hroot
  have hpackage := package_eq s.graph (packageOf f.decls)
  -- Once the package is there, the rest is a loop over the declarations.
  have hbody : ∀ {g' space}, s.graph.packageUnder 0 f.parts = (g', .ok space) →
      Succeeds (addDeclarations f.context (packageOf f.decls) f.decls) s
        ((∀ d ∈ f.decls, DeclFits d) ∧ g'.Fresh f.contents)
        fun _ s' => Adds f.contents { s with graph := g' } s' := by
    intro g' space hopen
    have hopens := (honly hopen).2
    have hloop := forIn_succeeds (fun d _ hs hps => addDeclaration_succeeds (c := f.context) d hs hps) f.decls
      (s := { s with graph := g' }) hopens.arena hopens.space
    have heq : addDeclarations f.context (packageOf f.decls) f.decls s = _ :=
      addDeclarations_eq (hpackage.trans hopen)
    constructor
    · intro hok
      rw [heq]
      exact hloop.done.run hok
    · intro u s' hr
      rw [heq] at hr
      obtain ⟨hok, -, hadds⟩ := hloop.done.only hr
      exact ⟨hok, hadds⟩
  constructor
  · rintro ⟨hpackages, hfits, hnodup, hfree⟩
    obtain ⟨space, hspace⟩ := hrun hpackages
    have hopen : s.graph.packageUnder 0 f.parts = (_, .ok space) := Prod.ext rfl hspace
    have hopens := (honly hopen).2
    refine (hbody hopen).run ⟨hfits, hopens.arena.fresh_iff.mpr ⟨hnodup, fun x hx => ?_⟩⟩
    rw [hopens.mem_fullNames]
    exact hfree x hx
  · intro u s' hr
    obtain ⟨g', space, hopen⟩ := package_of_addDeclarations hr
    have hopen := hpackage.symm.trans hopen
    obtain ⟨hpackages, hopens⟩ := honly hopen
    obtain ⟨⟨hfits, hfresh⟩, hadds⟩ := (hbody hopen).only hr
    obtain ⟨hnodup, hfree⟩ := hopens.arena.fresh_iff.mp hfresh
    obtain ⟨spaces, hspaces, hmem⟩ := hopens.listing
    refine ⟨⟨hpackages, hfits, hnodup, fun x hx => ?_⟩, spaces, hmem, fun x hx => ?_, hadds.arena, ?_,
      hadds.files.trans hopens.files, hadds.loaded, hadds.loading⟩
    · exact fun hin => hfree x hx (hopens.mem_fullNames.mpr hin)
    · rw [← List.mem_append, Graph.fullNames, ← List.map_append, ← hspaces]
      exact hopens.present x hx
    · rw [hadds.listing, ← List.append_assoc, ← hspaces]

end Load

/-! ## Loaders -/

/-- The root of every graph. -/
def rootListed : Listed := ("", { name := "", body := .package })

/-- The graph of a loader has the entries of the files and no others. -/
structure Loader.Holds (s : Loader) (files : List SchemaFile) : Prop where
  arena : s.graph.Arena
  mem : ∀ {x}, x ∈ s.graph.listing ↔ x = rootListed ∨ ∃ f ∈ files, x ∈ f.packages ∨ x ∈ f.contents
  /-- The declarations stand file by file, those of a file in their order. -/
  declared : s.graph.listing.filter (·.2.file.isSome) = files.flatMap (·.contents)
  loaded : s.loaded = files.map (·.name)
  entered : s.graph.files = files.map (·.name)

namespace Load

variable {s s' : Loader} {files : List SchemaFile} {f : SchemaFile}

theorem holds_empty : Loader.empty.Holds [] where
  arena := Arena.empty
  mem := by simp [Loader.empty, Graph.empty, Graph.listing, Graph.root, rootListed]
  declared := rfl
  loaded := rfl
  entered := rfl

theorem rootListed_isPackage : IsPackage rootListed :=
  ⟨"", "", .empty, rfl⟩

/-- A package of the graph is the entry that every file would have for it. -/
theorem holds_package (h : s.Holds files) {x y : Listed} (hx : x ∈ s.graph.listing)
    (hk : x.2.body.kind = .package) (hy : IsPackage y) (he : x.1 = y.1) : x = y := by
  rcases h.mem.mp hx with rfl | ⟨f, -, hx | hx⟩
  · exact rootListed_isPackage.unique hy he
  · exact (SchemaFile.packages_isPackage hx).unique hy he
  · exact absurd hk (SchemaFile.contents_belongs x hx).kind

/-- The conditions under which the declarations of a file can be added, as conditions on files. -/
theorem addable_iff (h : s.Holds files) :
    (PackagesOnly s.graph.listing f.packages ∧ (∀ d ∈ f.decls, DeclFits d) ∧
      (f.contents.map (·.1)).Nodup ∧
      ∀ x ∈ f.contents, ¬ (x.1 ∈ s.graph.fullNames ∨ ∃ p ∈ f.packages, p.1 = x.1)) ↔
    f.Valid ∧ ∀ f' ∈ files, f.Apart f' := by
  have hname {name : String} : name ∈ s.graph.fullNames ↔ ∃ x ∈ s.graph.listing, x.1 = name := List.mem_map
  constructor
  · rintro ⟨hpackages, hfits, hnodup, hfree⟩
    refine ⟨⟨hfits, hnodup, fun x hx he => ?_, fun x hx p hp he => ?_⟩, fun f' hf' => ⟨?_, ?_, ?_⟩⟩
    · exact hfree x hx (.inl (hname.mpr ⟨rootListed, h.mem.mpr (.inl rfl), he.symm⟩))
    · exact hfree x hx (.inr ⟨p, hp, he.symm⟩)
    · intro x hx y hy he
      exact hfree x hx (.inl (hname.mpr ⟨y, h.mem.mpr (.inr ⟨f', hf', .inr hy⟩), he.symm⟩))
    · intro x hx y hy he
      have hk := hpackages x hx y (h.mem.mpr (.inr ⟨f', hf', .inr hy⟩)) he.symm
      exact (SchemaFile.contents_belongs y hy).kind hk
    · intro x hx y hy he
      exact hfree x hx (.inl (hname.mpr ⟨y, h.mem.mpr (.inr ⟨f', hf', .inl hy⟩), he.symm⟩))
  · rintro ⟨hvalid, hapart⟩
    refine ⟨fun x hx y hy he => ?_, hvalid.fits, hvalid.names, fun x hx => ?_⟩
    · rcases h.mem.mp hy with rfl | ⟨f', hf', hy | hy⟩
      · rfl
      · exact (SchemaFile.packages_isPackage hy).kind
      · exact absurd he.symm ((hapart f' hf').left x hx y hy)
    · rintro (hin | ⟨p, hp, he⟩)
      · obtain ⟨y, hy, he⟩ := hname.mp hin
        rcases h.mem.mp hy with rfl | ⟨f', hf', hy | hy⟩
        · exact hvalid.named x hx he.symm
        · exact (hapart f' hf').right x hx y hy he.symm
        · exact (hapart f' hf').contents x hx y hy he.symm
      · exact hvalid.packages x hx p hp he.symm

/-- The last steps of loading a file: it is entered with its declarations and is no longer being loaded. -/
def enter (f : SchemaFile) : Load Unit := do
  modify fun s => { s with graph := s.graph.addFile f.name }
  addDeclarations f.context (packageOf f.decls) f.decls
  modify fun s => { s with loading := s.loading.dropLast, loaded := s.loaded ++ [f.name] }

theorem listing_addFile (g : Graph) (file : String) : (g.addFile file).listing = g.listing := by
  unfold addFile
  split <;> rfl

theorem arena_addFile {g : Graph} (h : g.Arena) (file : String) : (g.addFile file).Arena := by
  unfold addFile
  split
  · exact h
  · exact ⟨h.root, h.index, h.parent, h.children, h.names⟩

/-- All entries of a file name it. -/
theorem filter_contents (f : SchemaFile) (name : String) :
    f.contents.filter (·.2.file = some name) = if f.name = name then f.contents else [] := by
  split
  next he =>
    refine List.filter_eq_self.mpr fun x hx => ?_
    rw [(SchemaFile.contents_belongs x hx).file, ← he]
    exact decide_eq_true rfl
  next hne =>
    refine List.filter_eq_nil_iff.mpr fun x hx => ?_
    rw [(SchemaFile.contents_belongs x hx).file]
    simpa using fun he : f.context.file = name => hne he

theorem holds_gains (h : s.Holds files) (hfile : f.name ∉ files.map (·.name)) {s₁ : Loader}
    (hp : PackagesOnly s.graph.listing f.packages)
    (hg : Gains f { s with graph := s.graph.addFile f.name } s₁) :
    Loader.Holds { s₁ with loading := s₁.loading.dropLast, loaded := s₁.loaded ++ [f.name] } (files ++ [f]) := by
  obtain ⟨spaces, hspaces, hpresent, hadds⟩ := hg
  have hlisting : s₁.graph.listing = s.graph.listing ++ (spaces ++ f.contents) := by
    rw [hadds.listing, listing_addFile]
  -- A package on the way is new, or it was there already as the same entry.
  have hpackages : ∀ x ∈ f.packages, x ∈ s.graph.listing ++ spaces := by
    intro x hx
    have hpresent := hpresent x hx
    rw [Graph.fullNames, listing_addFile] at hpresent
    rcases hpresent with hin | hin
    · obtain ⟨y, hy, he⟩ := List.mem_map.mp hin
      obtain rfl := holds_package h hy (hp x hx y hy he) (SchemaFile.packages_isPackage hx) he
      exact List.mem_append_left _ hy
    · obtain ⟨y, hy, he⟩ := List.mem_map.mp hin
      obtain rfl := (SchemaFile.packages_isPackage (hspaces y hy)).unique (SchemaFile.packages_isPackage hx) he
      exact List.mem_append_right _ hy
  refine ⟨hadds.arena, fun {x} => ?_, ?_, ?_, ?_⟩
  · rw [hlisting]
    simp only [List.mem_append, List.mem_singleton]
    constructor
    · rintro (hx | hx | hx)
      · refine (h.mem.mp hx).imp_right ?_
        rintro ⟨f', hf', hx⟩
        exact ⟨f', .inl hf', hx⟩
      · exact .inr ⟨f, .inr rfl, .inl (hspaces x hx)⟩
      · exact .inr ⟨f, .inr rfl, .inr hx⟩
    · rintro (rfl | ⟨f', hf' | rfl, hx⟩)
      · exact .inl (h.mem.mpr (.inl rfl))
      · exact .inl (h.mem.mpr (.inr ⟨f', hf', hx⟩))
      · rcases hx with hx | hx
        · exact (List.mem_append.mp (hpackages x hx)).imp_right .inl
        · exact .inr (.inr hx)
  · have hnone : spaces.filter (·.2.file.isSome) = [] := by
      refine List.filter_eq_nil_iff.mpr fun x hx => ?_
      simp [(SchemaFile.packages_isPackage (hspaces x hx)).file]
    have hall : f.contents.filter (·.2.file.isSome) = f.contents :=
      List.filter_eq_self.mpr fun x hx => by simp [(SchemaFile.contents_belongs x hx).file]
    rw [hlisting, List.filter_append, List.filter_append, hnone, hall, h.declared, List.flatMap_append]
    simp
  · show s₁.loaded ++ [f.name] = _
    rw [hadds.loaded, List.map_append]
    exact congrArg (· ++ [f.name]) h.loaded
  · rw [hadds.files, List.map_append]
    have hnew : ¬ s.graph.files.contains f.name = true := by
      rw [h.entered]
      simpa using hfile
    unfold addFile
    rw [if_neg hnew, h.entered]
    rfl

/-- **A file can be entered exactly when it is valid and apart from the others.** -/
theorem enter_succeeds (h : s.Holds files) (hfile : f.name ∉ files.map (·.name)) :
    Succeeds (enter f) s (f.Valid ∧ ∀ f' ∈ files, f.Apart f') fun _ s' =>
      s'.Holds (files ++ [f]) ∧ s'.loading = s.loading.dropLast := by
  have harena := arena_addFile h.arena f.name
  have hadd := addDeclarations_succeeds (f := f) (s := { s with graph := s.graph.addFile f.name }) harena
  rw [Graph.fullNames, listing_addFile] at hadd
  rw [← addable_iff h]
  constructor
  · intro hok
    obtain ⟨u, s₁, hrun⟩ := hadd.run hok
    refine ⟨(), _, bind_eq_ok.mpr ⟨(), _, rfl, bind_eq_ok.mpr ⟨u, s₁, hrun, rfl⟩⟩⟩
  · intro u s' hr
    obtain ⟨_, _, hset, hr⟩ := bind_eq_ok.mp hr
    cases hset
    obtain ⟨_, s₁, hrun, hr⟩ := bind_eq_ok.mp hr
    cases hr
    obtain ⟨hok, hgains⟩ := hadd.only hrun
    refine ⟨hok, holds_gains h hfile hok.1 hgains, ?_⟩
    obtain ⟨spaces, -, -, hadds⟩ := hgains
    exact congrArg List.dropLast hadds.loading

end Load

/-- The declarations of a file are in their order. -/
theorem Loader.Holds.order {s : Loader} {files : List SchemaFile} (h : s.Holds files) (name : String) :
    s.graph.listing.filter (·.2.file = some name) = (files.filter (·.name = name)).flatMap (·.contents) := by
  have hfilter : s.graph.listing.filter (·.2.file = some name) =
      (s.graph.listing.filter (·.2.file.isSome)).filter (·.2.file = some name) := by
    rw [List.filter_filter]
    refine List.filter_congr fun x _ => ?_
    cases hx : x.2.file <;> simp
  have hpick : ∀ files : List SchemaFile, (files.flatMap fun f => f.contents.filter (·.2.file = some name)) =
      (files.filter (·.name = name)).flatMap (·.contents) := by
    intro files
    induction files with
    | nil => rfl
    | cons f files ih =>
      rw [List.flatMap_cons, ih, Load.filter_contents, List.filter_cons]
      by_cases hn : f.name = name <;> simp [hn]
  rw [hfilter, h.declared, List.filter_flatMap, hpick]

end ProtoBind.Schema
