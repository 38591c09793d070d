/-
What the index of a package exports.

An index exports all that stands in its package. What it imports is there: a
declaration is bound by the module of its file (`exports_bound`), and a package
inside has its index in a directory of its own, below that of the package around
it (`planIndexes_below`). Both together are `index_exports`.
-/
import ProtoBind.Proofs.Codegen.Bindings
import ProtoBind.Proofs.Codegen.Partition
import ProtoBind.Proofs.Entries
import ProtoBind.Proofs.Source.Printing

namespace ProtoBind.Codegen

open Schema Schema.Graph
open Source (Plain)
open Code (classNames variableNames)

/-! ## Joined parts -/

/-- A part joined behind others. -/
theorem join_concat (separator last : String) : ∀ {parts : List String}, parts ≠ [] →
    Text.join separator (parts ++ [last]) = Text.join separator parts ++ separator ++ last
  | [], h => absurd rfl h
  | [part], _ => by simp [Text.join]
  | part :: next :: rest, _ => by
    have ih := join_concat separator last (List.cons_ne_nil next rest)
    simp only [Text.join, List.cons_append] at ih ⊢
    rw [String.intercalate_cons_of_ne_nil (List.cons_ne_nil _ _), ih,
      String.intercalate_cons_of_ne_nil (List.cons_ne_nil _ _)]
    simp only [String.append_assoc]

theorem splitOnChar_join {parts : List String} (h : ∀ part ∈ parts, Plain part) (hne : parts ≠ []) :
    Text.splitOnChar '.' (Text.join "." parts) = parts :=
  Source.splitOnChar_join rfl h hne

/-- The parts of a name below another. -/
theorem splitOnChar_childName {space name : String} (hspace : space ≠ "") (hname : Plain name) :
    Text.splitOnChar '.' (childName space name) = Text.splitOnChar '.' space ++ [name] := by
  have hne : Text.splitOnChar '.' space ≠ [] := fun h =>
    Source.splitAtChar_ne_nil '.' space.toList (List.map_eq_nil_iff.mp h)
  have hjoin : Text.join "." (Text.splitOnChar '.' space ++ [name]) = childName space name := by
    rw [join_concat _ _ hne, Source.join_splitOnChar, childName_of_ne hspace]
  rw [← hjoin, splitOnChar_join _ (by simp)]
  exact List.forall_mem_append.mpr ⟨Load.splitOnChar_plain space, List.forall_mem_singleton.mpr hname⟩

/-- Words between dots are told apart. -/
theorem join_dot_inj {cs ds : List String} (hcs : ∀ c ∈ cs, c ≠ "" ∧ Plain c) (hds : ∀ d ∈ ds, d ≠ "" ∧ Plain d)
    (h : Text.join "." cs = Text.join "." ds) : cs = ds := by
  have hsplit {parts : List String} (hparts : ∀ c ∈ parts, c ≠ "" ∧ Plain c) (hne : parts ≠ []) :
      Text.splitOnChar '.' (Text.join "." parts) = parts :=
    splitOnChar_join (fun c hc => (hparts c hc).2) hne
  have hnil {parts : List String} (hparts : ∀ c ∈ parts, c ≠ "" ∧ Plain c) (he : Text.join "." parts = "") :
      parts = [] := by
    by_contra hne
    have hpieces := hsplit hparts hne
    rw [he] at hpieces
    exact (hparts "" (hpieces ▸ List.mem_singleton_self _)).1 rfl
  by_cases hc : cs = []
  · subst hc
    exact (hnil hds h.symm).symm
  · by_cases hd : ds = []
    · subst hd
      exact hnil hcs h
    · rw [← hsplit hcs hc, ← hsplit hds hd, h]

/-! ## Modules -/

variable {g : Graph} {o : Options} {groups : List FileGroup} {n p : Node}

theorem component_plain (o : Options) (part : String) : o.naming.component part ≠ "" ∧ Plain (o.naming.component part) :=
  ⟨component_ne_empty o.naming part, fun h => absurd (component_isWord o.naming part _ h) (by decide)⟩

theorem fileComponents_plain (o : Options) (file : String) : ∀ c ∈ o.fileComponents file, c ≠ "" ∧ Plain c := by
  intro c hc
  obtain ⟨part, -, rfl⟩ := List.mem_map.mp hc
  exact component_plain o part

theorem qualified_inj {a b : String} (h : o.qualified a = o.qualified b) : a = b := by
  -- What is put before a module makes it longer than the package alone.
  have hlonger {m : String} : o.package ≠ o.package ++ "." ++ m := by
    intro he
    have hlength := congrArg (·.toList.length) he
    simp at hlength
  unfold Options.qualified at h
  split at h
  · exact h
  · split at h <;> split at h
    next ha hb => rw [String.isEmpty_iff.mp ha, String.isEmpty_iff.mp hb]
    next => exact absurd h hlonger
    next => exact absurd h.symm hlonger
    next => exact (String.append_right_inj _).mp h

/-- Planned modules have different names. -/
theorem module_inj (hplan : plan g o = .ok groups) {a b : FileGroup} (ha : a ∈ groups) (hb : b ∈ groups)
    (h : a.module = b.module) : a = b := by
  have hpaths := (plan_eq_ok hplan).paths
  obtain rfl := (plan_eq_ok hplan).groups_eq
  have hmodule {group : FileGroup} (hgroup : group ∈ Codegen.groups g o) : group.module = o.moduleForFile group.file := by
    obtain ⟨file, -, rfl⟩ := List.mem_map.mp (List.mem_of_mem_filter hgroup)
    rfl
  refine List.inj_on_of_nodup_map hpaths ha hb ?_
  rw [hmodule ha, hmodule hb] at h
  rw [(mem_groups ha).1, (mem_groups hb).1, Options.pathForFile, Options.pathForFile,
    join_dot_inj (fileComponents_plain o a.file) (fileComponents_plain o b.file) (qualified_inj h)]

/-- There is one planned module of the name, it is assembled, and its text binds a class or a variable of this name. -/
def BoundIn (g : Graph) (o : Options) (groups : List FileGroup) (module name : String) : Prop :=
  ∃ group ∈ groups, group.module = module ∧ (∀ other ∈ groups, other.module = module → other = group) ∧
    ∃ text imports body, assembleWithImports g o group = (.ok text, imports) ∧
      text = textOf group o.maxSuffix imports body ∧ name ∈ classNames body ++ variableNames body

/-! ## Packages -/

theorem packageComponents_child (hg : g.Named) (hn : n ∈ g.nodes) (hp : p ∈ g.nodes)
    (hparent : n.parent = some p.index) :
    o.packageComponents n = o.packageComponents p ++ [o.naming.component n.name] := by
  have hfull := hg.fullName_eq hn hp hparent
  have hne : n.fullName ≠ "" := by
    intro he
    have hzero := (hg.fullName_empty (hg.node?_of_mem hn)).mp he
    have hlt := hg.parent_lt hn hparent
    omega
  have hplain := hg.plain n hn
  unfold Options.packageComponents Options.components
  rw [if_neg (by simpa using hne), hfull]
  split
  next hspace =>
    have hsingle := splitOnChar_join (List.forall_mem_singleton.mpr hplain) (List.cons_ne_nil _ _)
    rw [String.isEmpty_iff.mp hspace, childName_empty]
    simpa [Text.join] using congrArg (List.map o.naming.component) hsingle
  next hspace =>
    rw [splitOnChar_childName (by simpa using hspace) hplain, List.map_append]
    rfl

theorem qualified_append {m : String} (hm : m ≠ "") (rest : String) : o.qualified (m ++ rest) = o.qualified m ++ rest := by
  have hlonger : m ++ rest ≠ "" := by simp [hm]
  unfold Options.qualified
  split
  · rfl
  · rw [if_neg (by simpa using hlonger), if_neg (by simpa using hm)]
    simp only [String.append_assoc]

/-- Only the package at the root has no components. -/
theorem packageComponents_eq_nil {p : Node} (h : o.packageComponents p = []) : p.fullName = "" := by
  unfold Options.packageComponents Options.components at h
  split at h
  next hempty => exact String.isEmpty_iff.mp hempty
  next =>
    rw [List.map_eq_nil_iff, Text.splitOnChar, List.map_eq_nil_iff] at h
    exact absurd h (Source.splitAtChar_ne_nil _ _)

theorem packageComponents_plain (o : Options) (p : Node) : ∀ c ∈ o.packageComponents p, c ≠ "" ∧ Plain c := by
  intro c hc
  unfold Options.packageComponents at hc
  split at hc
  next => cases hc
  next =>
    obtain ⟨part, -, rfl⟩ := List.mem_map.mp hc
    exact component_plain o part

/-- An index lies in a directory of this name, in that of another. -/
structure IndexPlan.Contains (p q : IndexPlan) (name : String) : Prop where
  module : q.module = p.module ++ "." ++ name
  path : ∃ directory, p.path = directory ++ "__init__.py" ∧ q.path = directory ++ name ++ "/__init__.py"

/-- **A package inside another has its index below that of the other.** -/
theorem planIndexes_below (hg : g.Named) {index : IndexPlan} (hindex : index ∈ planIndexes g o)
    (hn : n ∈ g.childrenOf index.package) (hk : n.kind = .package) :
    ∃ inner ∈ planIndexes g o, inner.package = n ∧ index.Contains inner (o.lastComponent n) := by
  obtain ⟨p, hp, rfl⟩ := List.mem_map.mp hindex
  obtain ⟨hp, hplanned⟩ := List.mem_filter.mp hp
  obtain ⟨hpn, -⟩ := List.mem_filter.mp ((packages_perm hg.toArena).mem_iff.mp hp)
  obtain ⟨hnn, hparent⟩ := (hg.mem_childrenOf hpn).mp hn
  have hlt := hg.parent_lt hnn hparent
  have hcomponents := packageComponents_child (o := o) hg hnn hpn hparent
  have hlast : o.lastComponent n = o.naming.component n.name := by
    rw [Options.lastComponent, hcomponents, List.getLastD_concat]
  refine ⟨⟨n, o.moduleForPackage n, o.pathForPackage n⟩, List.mem_map.mpr ⟨n, ?_, rfl⟩, rfl, ?_, ?_⟩
  · refine List.mem_filter.mpr ⟨(packages_perm hg.toArena).mem_iff.mpr (List.mem_filter.mpr ⟨hnn, by simp [hk]⟩), ?_⟩
    simp [show n.index ≠ 0 by omega]
  · rw [hlast]
    unfold Options.moduleForPackage
    rw [hcomponents]
    by_cases hroot : o.packageComponents p = []
    · -- The root has an index only if the output is a package.
      have hzero : p.index = 0 := (hg.fullName_empty (hg.node?_of_mem hpn)).mp (packageComponents_eq_nil hroot)
      have hpackage : o.package.isEmpty = false := by simpa [hzero] using hplanned
      rw [hroot, List.nil_append]
      unfold Options.qualified
      simp [hpackage, Text.join, component_ne_empty]
    · have hjoin : Text.join "." (o.packageComponents p) ≠ "" := fun he =>
        hroot (join_dot_inj (packageComponents_plain o p) (List.forall_mem_nil _) he)
      rw [join_concat _ _ hroot, String.append_assoc, qualified_append hjoin, String.append_assoc]
  · rw [hlast]
    unfold Options.pathForPackage
    rw [hcomponents]
    by_cases hroot : o.packageComponents p = []
    · refine ⟨"", by simp [hroot, Text.join], ?_⟩
      rw [hroot, List.nil_append, join_concat _ _ (by simp), String.empty_append, String.append_assoc]
      rfl
    · refine ⟨Text.join "/" (o.packageComponents p) ++ "/", join_concat _ _ hroot, ?_⟩
      rw [join_concat _ _ (by simp), join_concat _ _ hroot]
      simp only [String.append_assoc]
      rfl

/-! ## Exports -/

/-- The names under which an index exports what stands in its package. -/
def exportNames (o : Options) (n : Node) : List String :=
  if n.kind = .package then [o.lastComponent n] else classesOf n

/-- A package is exported from the index itself, all else from the module of its file. -/
theorem exportOf_eq_ok {index : IndexPlan} {e : Export} (h : exportOf o index n = .ok e) :
    e.names = exportNames o n ∧ (n.kind = .package ∧ e.module = index.module ∨
      n.kind ≠ .package ∧ ∃ file, n.file = some file ∧ e.module = o.moduleForFile file) := by
  have hmodule {names : List String} (h : (do return ⟨← moduleOf o n, names⟩ : Except AssemblyFault Export) = .ok e) :
      e.names = names ∧ ∃ file, n.file = some file ∧ e.module = o.moduleForFile file := by
    obtain ⟨module, hm, rfl⟩ := map_ok_iff.mp h
    unfold moduleOf at hm
    split at hm
    next file hfile => exact ⟨rfl, file, hfile, (Except.ok.inj hm).symm⟩
    next => cases hm
  unfold exportOf at h
  unfold exportNames classesOf shapeName
  cases hk : n.kind with
  | package =>
    rw [hk] at h
    obtain rfl := Except.ok.inj h
    exact ⟨rfl, .inl ⟨rfl, rfl⟩⟩
  | method =>
    rw [hk] at h
    cases h
  | message | enum | service | field =>
    rw [hk] at h
    obtain ⟨hnames, hfile⟩ := hmodule h
    exact ⟨by simpa [className] using hnames, .inr ⟨by decide, hfile⟩⟩

/-- The imports of an index with those of one more export. -/
def importing (imports : List (String × List String)) (e : Export) : List (String × List String) :=
  Entries.put (· == ·) e.module (((imports.lookup e.module).getD []) ++ e.names) imports

theorem byModule_concat (exports : List Export) (e : Export) :
    byModule (exports ++ [e]) = importing (byModule exports) e := by
  rw [byModule, List.foldl_append]
  rfl

theorem importing_perm (e : Export) : ∀ imports : List (String × List String),
    ((importing imports e).flatMap (·.2)).Perm (imports.flatMap (·.2) ++ e.names)
  | [] => by simp [importing, Entries.put]
  | (module, names) :: rest => by
    by_cases h : module = e.module
    · subst h
      simpa [importing, Entries.put] using List.perm_append_comm.append_left names
    · have ih := (importing_perm e rest).append_left names
      simpa [importing, Entries.put, h, List.lookup_cons, beq_false_of_ne (Ne.symm h)] using ih

/-- An index imports what it exports. -/
theorem byModule_perm (exports : List Export) :
    ((byModule exports).flatMap (·.2)).Perm (exports.flatMap (·.names)) := by
  induction exports using List.reverseRecOn with
  | nil => exact .refl _
  | append_singleton exports e ih =>
    rw [byModule_concat, List.flatMap_append, List.flatMap_singleton]
    exact (importing_perm e _).trans (ih.append_right _)

/-- A name is imported from a module that exports it. -/
theorem exists_of_byModule {exports : List Export} : ∀ {entry : String × List String}, entry ∈ byModule exports →
    ∀ {name : String}, name ∈ entry.2 → ∃ e ∈ exports, e.module = entry.1 ∧ name ∈ e.names := by
  induction exports using List.reverseRecOn with
  | nil => exact fun h => nomatch h
  | append_singleton exports e ih =>
    intro entry h name hname
    have hearlier (entry : String × List String) (h : entry ∈ byModule exports) (hname : name ∈ entry.2) :
        ∃ e' ∈ exports ++ [e], e'.module = entry.1 ∧ name ∈ e'.names := by
      obtain ⟨e', he', hboth⟩ := ih h hname
      exact ⟨e', List.mem_append_left _ he', hboth⟩
    rw [byModule_concat] at h
    rcases Entries.mem_put h with rfl | h
    · rcases List.mem_append.mp hname with hname | hname
      · cases hfound : (byModule exports).lookup e.module with
        | none => simp [hfound] at hname
        | some names =>
          rw [hfound] at hname
          exact hearlier (e.module, names) (Entries.mem_of_lookup hfound) hname
      · exact ⟨e, by simp, rfl, hname⟩
    · exact hearlier entry h hname

/-! ## Indexes -/

/-- What an index is to export. -/
structure Exports (g : Graph) (o : Options) (groups : List FileGroup) (index : IndexPlan) (exports : List Export) :
    Prop where
  /-- All that stands in the package, a message under two names. -/
  names : exports.flatMap (·.names) = (g.childrenOf index.package).flatMap (exportNames o)
  imported : ((byModule exports).flatMap (·.2)).Perm (exports.flatMap (·.names))
  /-- What is imported is there, in a module or as the index of a package inside. -/
  present : ∀ entry ∈ byModule exports, ∀ name ∈ entry.2, BoundIn g o groups entry.1 name ∨
    entry.1 = index.module ∧ ∃ inner ∈ planIndexes g o, inner.package ∈ g.childrenOf index.package ∧
      inner.package.kind = .package ∧ name = o.lastComponent inner.package ∧ index.Contains inner name

section Loaded

variable {sources : Sources} {s : Loader}

/-- **What stands in a package is bound by the module of its file.** -/
theorem exports_bound [Source.CharacterNames] (hload : loadSources sources .empty = .ok g s)
    (hplan : plan g o = .ok groups)
    (hok : ∀ group ∈ groups, ∃ text, assemble g o group = .ok text) (hn : Outermost g n) {file : String}
    (hfile : n.file = some file) {name : String} (hname : name ∈ exportNames o n) :
    BoundIn g o groups (o.moduleForFile file) name := by
  have hg : g.Arena := (loadSources_final empty_formed hload).toArena
  have hplanned := plan_eq_ok hplan
  obtain ⟨group, hgroup, rfl⟩ := List.mem_map.mp (mem_files_groups (o := o) hg (loadSources_filed hload) hn.1 hfile)
  have hmem : n ∈ group.nodes := (mem_group_nodes hg hgroup).mpr ⟨hn, hfile⟩
  rw [← hplanned.groups_eq] at hgroup
  have hmodule : group.module = o.moduleForFile group.file := by
    have hgroup := hplanned.groups_eq ▸ hgroup
    obtain ⟨file, -, rfl⟩ := List.mem_map.mp (List.mem_of_mem_filter hgroup)
    rfl
  have hordered : n ∈ group.ordered := (((plan_partition hload hplan).ordered group hgroup).1.mem_iff).mpr hmem
  obtain ⟨text, htext⟩ := hok group hgroup
  obtain ⟨body, hbody, hreads⟩ := loaded_module hload hplan hgroup (Prod.ext htext rfl)
  refine ⟨group, hgroup, hmodule, fun other hother he => module_inj hplan hother hgroup (he.trans hmodule.symm), text,
    _, body, Prod.ext htext rfl, hbody, ?_⟩
  rw [hreads.reads.classes, hreads.assigns, List.mem_append, List.mem_flatMap, List.mem_flatMap]
  rw [exportNames, if_neg hn.2.1] at hname
  by_cases hk : n.kind = .field
  · refine .inr ⟨n, hordered, ?_⟩
    rw [variablesOf, if_pos hk]
    rwa [classesOf, if_neg (by rw [hk]; decide)] at hname
  · exact .inl ⟨n, hordered, by rwa [outerClassesOf, if_neg hk]⟩

/-- **An index imports only names that exist, and all of its package.** When all files of a plan are assembled, the
index of a package exports what stands in the package, each message with its dictionary type. It imports just these
names: each is bound in the text of the one planned module it is imported from, or it is the last part of the name of a
package inside, which has an index in the directory of that name. -/
theorem index_exports [Source.CharacterNames] (hload : loadSources sources .empty = .ok g s)
    (hplan : plan g o = .ok groups)
    (hok : ∀ group ∈ groups, ∃ text, assemble g o group = .ok text) {index : IndexPlan} (hindex : index ∈ planIndexes g o) :
    ∃ reflection statements exports, assembleIndex g o index =
        .ok (Code.text (indexCode reflection index.package statements exports)) ∧ Exports g o groups index exports := by
  have hfinal := loadSources_final empty_formed hload
  have hfiled := loadSources_filed hload
  obtain ⟨hpn, hpk⟩ : index.package ∈ g.nodes ∧ index.package.kind = .package := by
    obtain ⟨p, hp, rfl⟩ := List.mem_map.mp hindex
    simpa using List.mem_filter.mp ((packages_perm hfinal.toArena).mem_iff.mp (List.mem_of_mem_filter hp))
  obtain ⟨exports, hexports⟩ := forall₂_exists fun n hn => exportOf_ok (o := o) hfinal.toShaped hfiled hpn hpk hn
  have htext : ∃ reflection statements, assembleIndex g o index =
      .ok (Code.text (indexCode reflection index.package statements exports)) := by
    unfold assembleIndex
    rw [mapM_ok_iff.mpr hexports]
    exact ⟨_, _, rfl⟩
  obtain ⟨reflection, statements, htext⟩ := htext
  refine ⟨reflection, statements, exports, htext, ?_, byModule_perm exports, ?_⟩
  · have hnames := map_eq_of_forall₂ (f := exportNames o) (h := Export.names) (fun n e he => (exportOf_eq_ok he).1) hexports
    rw [List.flatMap_def, List.flatMap_def, hnames]
  · intro entry hentry name hname
    obtain ⟨e, he, hmodule, hname⟩ := exists_of_byModule hentry hname
    obtain ⟨n, hn, hexport⟩ := forall₂_mem hexports.flip he
    obtain ⟨hnames, ⟨hk, hpackage⟩ | ⟨hk, file, hfile, hdeclared⟩⟩ := exportOf_eq_ok hexport
    · obtain ⟨inner, hinner, rfl, hcontains⟩ := planIndexes_below (o := o) hfinal.named hindex hn hk
      rw [hnames, exportNames, if_pos hk, List.mem_singleton] at hname
      exact .inr ⟨hmodule.symm.trans hpackage, inner, hinner, hn, hk, hname, hname ▸ hcontains⟩
    · obtain ⟨hnn, hparent⟩ := (hfinal.toArena.mem_children hpn).mp hn
      rw [← hmodule, hdeclared]
      exact .inl (exports_bound hload hplan hok ⟨hnn, hk, _, hparent, hpk⟩ hfile (hnames ▸ hname))

end Loaded

/-- A package over two files, with another one in it. -/
def spreadFiles : List (String × List Source.Decl) :=
  [("a.proto", [.package "p", .message "A" [.enum ⟨"E", [⟨"X", 0, 1⟩], 1⟩, .message "B" [] 1] 1]),
    ("b.proto", [.imports "a.proto", .package "p.q", .message "C" [.field ⟨none, "A.E", "e", 1, [], 1⟩] 1])]

def spread : Sources := printedSources spreadFiles

/-- Options of a run with indexes, below a package. -/
def indexed : Options := { Options.default with emitIndex := true, package := "gen" }

/-- The files of a plan if all of them are assembled, the indexes with what they export, and the nodes with their files. -/
def exportedIn (g : Graph) : List String × List (String × List String) × List (String × Kind × Option String) :=
  match plan g indexed with
  | .error _ => ([], [], [])
  | .ok groups =>
    if groups.all fun group => (assemble g indexed group).toOption.isSome then
      (groups.map (·.file),
        (planIndexes g indexed).map fun index => (index.module, (g.childrenOf index.package).flatMap (exportNames indexed)),
        g.nodes.map fun n => (n.fullName, n.kind, n.file))
    else ([], [], [])

theorem spread_exported : succeedsWith (loadSources spread) .empty (fun g => exportedIn g ==
    (["a.proto", "b.proto"], [("gen", ["p"]), ("gen.p", ["IA", "A", "q"]), ("gen.p.q", ["IC", "C"])],
      [("", .package, none), ("p", .package, none), ("p.A", .message, some "a.proto"), ("p.A.E", .enum, some "a.proto"),
        ("p.A.B", .message, some "a.proto"), ("p.q", .package, none), ("p.q.C", .message, some "b.proto"),
        ("p.q.C.e", .field, some "b.proto")])) = true := by
  unfold loadSources loadOne
  rw [Load.load_eq_known spreadFiles (by decide +kernel)]
  decide +kernel

theorem spread_loads : ∃ g s groups, loadSources spread .empty = .ok g s ∧ plan g indexed = .ok groups ∧
    (∀ group ∈ groups, ∃ text, assemble g indexed group = .ok text) ∧ groups.map (·.file) = ["a.proto", "b.proto"] ∧
    (∃ index ∈ planIndexes g indexed, (g.childrenOf index.package).flatMap (exportNames indexed) = ["IA", "A", "q"]) ∧
    ∃ n ∈ g.nodes, n.fullName = "p.A.B" ∧ n.kind = .message ∧ n.file = some "a.proto" := by
  obtain ⟨g, s, hload, htest⟩ := exists_of_succeedsWith spread_exported
  have hexported := eq_of_beq htest
  unfold exportedIn at hexported
  split at hexported
  next => cases hexported
  next groups hplan =>
    split at hexported
    next hall =>
      obtain ⟨hgroups, hexported⟩ := Prod.mk.inj hexported
      obtain ⟨hindexes, hnodes⟩ := Prod.mk.inj hexported
      obtain ⟨index, hindex, hnames⟩ := List.mem_map.mp (hindexes ▸ List.mem_cons_of_mem _ List.mem_cons_self)
      have hinner : ("p.A.B", Kind.message, some "a.proto") ∈ g.nodes.map fun n => (n.fullName, n.kind, n.file) := by
        rw [hnodes]
        simp
      obtain ⟨n, hn, hshown⟩ := List.mem_map.mp hinner
      simp only [Prod.mk.injEq] at hshown
      exact ⟨g, s, groups, hload, hplan, fun group h => exists_ok (List.all_eq_true.mp hall group h), hgroups,
        ⟨index, hindex, congrArg Prod.snd hnames⟩, n, hn, hshown⟩
    next => cases hexported

/-- The index of a package that exports a message and another package. -/
theorem index_exports_spread : ∃ g s groups index reflection statements exports, loadSources spread .empty = .ok g s ∧
    plan g indexed = .ok groups ∧ (∀ group ∈ groups, ∃ text, assemble g indexed group = .ok text) ∧
    index ∈ planIndexes g indexed ∧
    assembleIndex g indexed index = .ok (Code.text (indexCode reflection index.package statements exports)) ∧
    Exports g indexed groups index exports ∧ exports.flatMap (·.names) = ["IA", "A", "q"] := by
  obtain ⟨g, s, groups, hload, hplan, hok, -, ⟨index, hindex, hnames⟩, -⟩ := spread_loads
  obtain ⟨reflection, statements, exports, htext, hexports⟩ := index_exports hload hplan hok hindex
  exact ⟨g, s, groups, index, reflection, statements, exports, hload, hplan, hok, hindex, htext, hexports,
    hexports.names.trans hnames⟩

end ProtoBind.Codegen
