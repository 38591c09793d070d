/-
The names of declarations.

What a file declares is named by identifiers, and so are the groups of a message
and the values of an enum (`contents_identified`); its outermost declarations all
stand in the package of the file (`outermost_space`). So in a loaded graph all
names are identifiers, full names are identifiers between dots
(`loadSources_identified`), and no two outermost declarations of a file share a
name.
-/
import ProtoBind.Proofs.Schema.Filed
import ProtoBind.Proofs.Schema.Forest
import ProtoBind.Proofs.Source.Identifiers

namespace ProtoBind.Schema

open Schema.Graph Load
open Source (Decl Dotted Identifier IdentifiedAll Word identifiedAll_iff)

/-! ## Identifiers -/

/-- The names that stand in a body itself: those of the groups of a message and of the values of an enum. -/
def Body.names : Body → List String
  | .message _ groups => groups.map (·.name)
  | .enum values => values.map (·.name)
  | _ => []

/-- A declaration is named by an identifier, and so is all that stands in its body. -/
structure Entry.Identified (e : Entry) : Prop where
  name : Identifier e.name
  body : ∀ name ∈ e.body.names, Identifier name

theorem Entry.identified_of_names {e : Entry} (hname : Identifier e.name) (hbody : e.body.names = []) : e.Identified :=
  ⟨hname, fun name h => by rw [hbody] at h; cases h⟩

namespace Load

variable {c : Context}

theorem groupsOf_identified {items : List Decl} (h : IdentifiedAll items) :
    ∀ group ∈ groupsOf c items, Identifier group.name := by
  induction items with
  | nil => exact List.forall_mem_nil _
  | cons d items ih =>
    obtain ⟨hd, hrest⟩ := h
    cases d with
    | oneof o => exact List.forall_mem_cons.mpr ⟨hd.1, ih hrest⟩
    | _ => exact ih hrest

theorem enumEntry_identified {e : Source.EnumDecl} (h : (Decl.enum e).Identified) : (enumEntry c e).Identified := by
  refine ⟨h.1, fun name hname => ?_⟩
  obtain ⟨_, hmem, rfl⟩ := List.mem_map.mp hname
  obtain ⟨v, hv, rfl⟩ := List.mem_map.mp hmem
  exact h.2 v hv

mutual

theorem messageContents_identified : ∀ {space : String} {d : Decl}, d.Identified → ∀ x ∈ messageContents c space d,
    x.2.Identified
  | space, .message name items line, hd => by
    intro x hx
    rw [messageContents] at hx
    rcases List.mem_cons.mp hx with rfl | hx
    · refine ⟨hd.1, fun name hname => ?_⟩
      obtain ⟨group, hgroup, rfl⟩ := List.mem_map.mp hname
      exact groupsOf_identified hd.2 group hgroup
    · exact itemsContents_identified hd.2 x hx
  | _, .dialect _, _ | _, .edition _, _ | _, .package _, _ | _, .imports _, _ | _, .option _ _, _ | _, .field _, _
  | _, .map _, _ | _, .oneof _, _ | _, .enum _, _ | _, .service _, _ | _, .extend _, _ => by
    intro x hx
    simp [messageContents] at hx

theorem itemsContents_identified : ∀ {space : String} {items : List Decl}, IdentifiedAll items →
    ∀ x ∈ itemsContents c space items, x.2.Identified
  | space, [], _ => by
    intro x hx
    simp [itemsContents] at hx
  | space, .field _ :: _, hd | space, .map _ :: _, hd => by
    intro x hx
    rw [itemsContents] at hx
    rcases List.mem_cons.mp hx with rfl | hx
    · exact Entry.identified_of_names hd.1 rfl
    · exact itemsContents_identified hd.2 x hx
  | space, .enum _ :: _, hd => by
    intro x hx
    rw [itemsContents] at hx
    rcases List.mem_cons.mp hx with rfl | hx
    · exact enumEntry_identified hd.1
    · exact itemsContents_identified hd.2 x hx
  | space, .oneof _ :: _, hd => by
    intro x hx
    rw [itemsContents] at hx
    rcases List.mem_append.mp hx with hx | hx
    · obtain ⟨f, hf, rfl⟩ := List.mem_map.mp hx
      exact Entry.identified_of_names (hd.1.2 f hf) rfl
    · exact itemsContents_identified hd.2 x hx
  | space, .message _ _ _ :: _, hd => by
    intro x hx
    rw [itemsContents] at hx
    rcases List.mem_append.mp hx with hx | hx
    · exact messageContents_identified hd.1 x hx
    · exact itemsContents_identified hd.2 x hx
  | space, .dialect _ :: _, hd | space, .edition _ :: _, hd | space, .package _ :: _, hd | space, .imports _ :: _, hd
  | space, .option _ _ :: _, hd | space, .service _ :: _, hd | space, .extend _ :: _, hd => by
    simp only [itemsContents]
    exact itemsContents_identified hd.2

end

theorem declContents_identified {space : String} {d : Decl} (hd : d.Identified) :
    ∀ x ∈ declContents c space d, x.2.Identified := by
  intro x hx
  cases d with
  | message name items line => exact messageContents_identified hd x hx
  | enum e =>
    obtain rfl := List.mem_singleton.mp hx
    exact enumEntry_identified hd
  | service d =>
    rcases List.mem_cons.mp hx with rfl | hx
    · exact Entry.identified_of_names hd.1 rfl
    · obtain ⟨rpc, hrpc, rfl⟩ := List.mem_map.mp hx
      exact Entry.identified_of_names (hd.2 rpc hrpc) rfl
  | extend e =>
    obtain ⟨f, hf, rfl⟩ := List.mem_map.mp hx
    exact Entry.identified_of_names (hd f hf) rfl
  | _ => cases hx

/-! ## Packages -/

theorem packageOf_dotted {decls : List Decl} (h : IdentifiedAll decls) : Dotted (packageOf decls) := by
  unfold packageOf
  refine List.foldlRecOn (motive := Dotted) decls _ (List.forall_mem_nil _) fun p hp d hd => ?_
  have hd := identifiedAll_iff.mp h d hd
  cases d with
  | package name => exact hd
  | _ => exact hp

/-- The characters of the parts of a text are those of the text. -/
theorem mem_splitAtChar {sep c : Char} : ∀ {s : List Char} {part : List Char}, part ∈ Text.splitAtChar sep s →
    c ∈ part → c ∈ s := by
  intro s
  induction s with
  | nil =>
    intro part hpart hc
    rw [List.mem_singleton.mp hpart] at hc
    cases hc
  | cons x s ih =>
    intro part hpart hc
    rw [Text.splitAtChar] at hpart
    split at hpart
    · rcases List.mem_cons.mp hpart with rfl | hpart
      · cases hc
      · exact List.mem_cons_of_mem _ (ih hpart hc)
    · cases hparts : Text.splitAtChar sep s with
      | nil =>
        rw [hparts] at hpart
        rw [List.mem_singleton.mp hpart] at hc
        exact List.mem_cons.mpr (.inl (List.mem_singleton.mp hc))
      | cons first rest =>
        rw [hparts] at hpart ih
        rcases List.mem_cons.mp hpart with rfl | hpart
        · rcases List.mem_cons.mp hc with rfl | hc
          · exact List.mem_cons_self
          · exact List.mem_cons_of_mem _ (ih List.mem_cons_self hc)
        · exact List.mem_cons_of_mem _ (ih (List.mem_cons_of_mem _ hpart) hc)

theorem packageParts_dotted {name : String} (h : Dotted name) : ∀ part ∈ packageParts name, Dotted part := by
  unfold packageParts
  split
  · exact List.forall_mem_nil _
  · intro part hpart c hc
    obtain ⟨cs, hcs, rfl⟩ := List.mem_map.mp hpart
    rw [String.toList_ofList] at hc
    exact h c (mem_splitAtChar hcs hc)

theorem packageEntries_dotted {parts : List String} (h : ∀ part ∈ parts, Dotted part) {current : String} :
    ∀ x ∈ packageEntries current parts, Dotted x.2.name := by
  induction parts generalizing current with
  | nil => exact List.forall_mem_nil _
  | cons part rest ih =>
    rw [List.forall_mem_cons] at h
    exact List.forall_mem_cons.mpr ⟨h.1, ih h.2⟩

end Load

variable {find : String → Option String} {files : List SchemaFile} {f : SchemaFile} {s : Loader} {g : Graph}

theorem fileAt_identified [Source.CharacterNames] {file : String} (h : fileAt find file = some f) :
    IdentifiedAll f.decls :=
  (fileAt_parsed h).elim fun _ ⟨_, hp⟩ => Source.parse_identified hp

/-- **What a file declares is named by identifiers.** -/
theorem SchemaFile.contents_identified (hd : IdentifiedAll f.decls) : ∀ x ∈ f.contents, x.2.Identified := by
  intro x hx
  obtain ⟨d, hmem, hx⟩ := List.mem_flatMap.mp hx
  exact declContents_identified (identifiedAll_iff.mp hd d hmem) x hx

theorem SchemaFile.packages_dotted (hd : IdentifiedAll f.decls) : ∀ x ∈ f.packages, Dotted x.2.name :=
  packageEntries_dotted (packageParts_dotted (packageOf_dotted hd))

/-! ## Declarations of a graph -/

variable {missing : List (Node × String)} {n m p : Node}

/-- A node of a resolved graph was the root, a package on the way to a file, or an entry of a file. -/
theorem Loader.Holds.origin (h : s.Holds files) (hf : s.graph.finalize = (g, .ok missing)) (hn : n ∈ g.nodes) :
    ∃ n₀, Resolved s.graph n₀ n ∧ ((n₀.fullName, n₀.toEntry) = rootListed ∨
      ∃ f ∈ files, (n₀.fullName, n₀.toEntry) ∈ f.packages ∨ (n₀.fullName, n₀.toEntry) ∈ f.contents) := by
  obtain ⟨n₀, hn₀, ho⟩ := forall₂_mem (finalize_resolved hf).1.flip hn
  exact ⟨n₀, ho, h.mem.mp (mem_listing.mpr ⟨n₀, hn₀, rfl, rfl⟩)⟩

/-- A declaration of a resolved graph is an entry of one of the files. -/
theorem Loader.Holds.mem_contents (h : s.Holds files) (hf : s.graph.finalize = (g, .ok missing)) (hn : n ∈ g.nodes)
    (hk : n.kind ≠ .package) :
    ∃ f ∈ files, ∃ x ∈ f.contents, n.fullName = x.1 ∧ n.name = x.2.name ∧ n.file = x.2.file := by
  obtain ⟨n₀, ho, he | ⟨f, hf, hx | hx⟩⟩ := h.origin hf hn
  · exact absurd (ho.kind.trans (congrArg (·.2.body.kind) he)) hk
  · exact absurd (ho.kind.trans (SchemaFile.packages_isPackage hx).kind) hk
  · exact ⟨f, hf, _, hx, ho.fullName, congrArg Place.name ho.place, ho.file⟩

/-- Every entry of a file is a declaration of the resolved graph. -/
theorem Loader.Holds.contents_mem (h : s.Holds files) (hf : s.graph.finalize = (g, .ok missing)) {f : SchemaFile}
    (hfile : f ∈ files) {x : Listed} (hx : x ∈ f.contents) :
    ∃ n ∈ g.nodes, n.fullName = x.1 ∧ n.kind = x.2.body.kind ∧ n.file = x.2.file := by
  obtain ⟨n₀, hn₀, hname, hentry⟩ := mem_listing.mp (h.mem.mpr (.inr ⟨f, hfile, .inr hx⟩))
  obtain ⟨n, hn, ho⟩ := forall₂_mem (finalize_resolved hf).1 hn₀
  refine ⟨n, hn, ho.fullName.trans hname, ?_, ?_⟩
  · rw [← hentry]
    exact ho.kind
  · rw [← hentry]
    exact ho.file

/-- No package has the name of an entry of a file. -/
theorem Loader.Holds.package_notMem (h : s.Holds files) (hf : s.graph.finalize = (g, .ok missing)) (hp : p ∈ g.nodes)
    (hk : p.kind = .package) {f : SchemaFile} (hfile : f ∈ files) : p.fullName ∉ f.contents.map (·.1) := by
  intro hmem
  obtain ⟨hr, -, -⟩ := finalize_resolved hf
  obtain ⟨p₀, hp₀, ho⟩ := forall₂_mem hr.flip hp
  obtain ⟨x, hx, hname⟩ := List.mem_map.mp hmem
  obtain ⟨q, hq, hqname, hqx⟩ := mem_listing.mp (h.mem.mpr (.inr ⟨f, hfile, .inr hx⟩))
  obtain rfl := h.arena.unique hq hp₀ (by rw [hqname, hname, ho.fullName])
  refine (SchemaFile.contents_belongs x hx).kind ?_
  rw [← hqx]
  exact ho.kind.symm.trans hk

/-- What a file declares in a package, it declares in its own. -/
theorem Loader.Holds.outermost_space (h : s.Holds files) (hg : g.Arena) (hf : s.graph.finalize = (g, .ok missing))
    (hn : n ∈ g.nodes) (hk : n.kind ≠ .package) (hp : g.parentOf n = some p) (hpk : p.kind = .package) :
    ∃ f ∈ files, n.file = some f.name ∧ p.fullName = f.space := by
  obtain ⟨f, hfile, x, hx, hfull, hname, hnfile⟩ := h.mem_contents hf hn hk
  obtain ⟨hpn, hindex⟩ := hg.parentOf_iff.mp hp
  have hbelongs := SchemaFile.contents_belongs x hx
  obtain ⟨parent, hparent, hwhere⟩ := hbelongs.under
  have hp : p.fullName = parent := by
    rw [← hfull, hg.fullName_eq hn hpn hindex, ← hname] at hparent
    exact childName_left hparent
  refine ⟨f, hfile, hnfile.trans hbelongs.file, hp.trans (hwhere.resolve_right fun hmem => ?_)⟩
  exact h.package_notMem hf hpn hpk hfile (hp ▸ hmem)

/-- The names of declarations are identifiers, and packages and full names have such between dots. -/
structure Graph.Identified (g : Graph) : Prop where
  entries : ∀ n ∈ g.nodes, n.kind ≠ .package → n.toEntry.Identified
  names : ∀ n ∈ g.nodes, Dotted n.name
  paths : ∀ n ∈ g.nodes, Dotted n.fullName

theorem Graph.Identified.groups (h : g.Identified) (hn : n ∈ g.nodes) : ∀ group ∈ n.oneofs, Identifier group.name := by
  cases hb : n.body with
  | message dialect groups =>
    have hbody := (h.entries n hn (by rw [Node.kind, hb]; rintro ⟨⟩)).body
    rw [hb] at hbody
    rw [Node.oneofs, hb]
    exact List.forall_mem_map.mp hbody
  | _ =>
    rw [Node.oneofs, hb]
    exact List.forall_mem_nil _

theorem Graph.Identified.values (h : g.Identified) (hn : n ∈ g.nodes) : ∀ v ∈ n.enumValues, Identifier v.name := by
  cases hb : n.body with
  | enum values =>
    have hbody := (h.entries n hn (by rw [Node.kind, hb]; rintro ⟨⟩)).body
    rw [hb] at hbody
    rw [Node.enumValues, hb]
    exact List.forall_mem_map.mp hbody
  | _ =>
    rw [Node.enumValues, hb]
    exact List.forall_mem_nil _

/-- Resolution leaves the names in a body. -/
theorem Graph.Resolved.names {g₀ : Graph} {n₀ : Node} (h : Resolved g₀ n₀ n) : n.body.names = n₀.body.names := by
  cases hb : n.body with
  | field f =>
    obtain ⟨f₀, v, hb₀, -⟩ := h.field hb
    rw [hb₀]
    rfl
  | method m =>
    obtain ⟨m₀, hb₀, -⟩ := h.method hb
    rw [hb₀]
    rfl
  | _ => rw [← h.other (by rw [Node.kind, hb]; rintro ⟨⟩) (by rw [Node.kind, hb]; rintro ⟨⟩), hb]

/-- A full name has dots between names that have no other dots. -/
theorem Graph.Arena.fullName_dotted (hg : g.Arena) (h : ∀ n ∈ g.nodes, Dotted n.name) :
    ∀ n ∈ g.nodes, Dotted n.fullName := by
  suffices hindex : ∀ i, ∀ n ∈ g.nodes, n.index = i → Dotted n.fullName from fun n hn => hindex n.index n hn rfl
  intro i
  induction i using Nat.strong_induction_on with
  | _ i ih =>
    rintro n hn rfl
    have hnode := hg.node?_of_mem hn
    by_cases h0 : n.index = 0
    · rw [(hg.fullName_empty hnode).mpr h0]
      exact List.forall_mem_nil _
    · obtain ⟨p, pn, -, hlt, hpn, hname⟩ := hg.parent hnode h0
      have hparent : Dotted pn.fullName := ih p hlt pn (List.mem_of_getElem? hpn) (hg.index hpn)
      rw [hname, childName]
      split
      · exact h n hn
      · exact (hparent.append (by simp [Dotted])).append (h n hn)

/-- The graph of files whose names are identifiers. -/
theorem Loader.Holds.identified (h : s.Holds files) (hg : g.Arena) (hfiles : ∀ f ∈ files, IdentifiedAll f.decls)
    (hf : s.graph.finalize = (g, .ok missing)) : g.Identified := by
  have hnames : ∀ n ∈ g.nodes, Dotted n.name := by
    intro n hn
    obtain ⟨n₀, ho, he | ⟨f, hf, hx | hx⟩⟩ := h.origin hf hn
    all_goals rw [show n.name = n₀.name from congrArg Place.name ho.place]
    · rw [show n₀.name = "" from congrArg (·.2.name) he]
      exact List.forall_mem_nil _
    · exact SchemaFile.packages_dotted (hfiles f hf) _ hx
    · exact (SchemaFile.contents_identified (hfiles f hf) _ hx).name.word.dotted
  refine ⟨fun n hn hk => ?_, hnames, hg.fullName_dotted hnames⟩
  obtain ⟨n₀, ho, he | ⟨f, hf, hx | hx⟩⟩ := h.origin hf hn
  · exact absurd (ho.kind.trans (congrArg (·.2.body.kind) he)) hk
  · exact absurd (ho.kind.trans (SchemaFile.packages_isPackage hx).kind) hk
  · have hentry : n₀.toEntry.Identified := SchemaFile.contents_identified (hfiles f hf) _ hx
    rw [ho.entry]
    exact ⟨hentry.name, ho.names ▸ hentry.body⟩

/-- A declaration that stands in a package. -/
def Outermost (g : Graph) (n : Node) : Prop :=
  n ∈ g.nodes ∧ n.kind ≠ .package ∧ ∃ p, g.parentOf n = some p ∧ p.kind = .package

section Loaded

variable [Source.CharacterNames] {sources : Sources} (hload : loadSources sources .empty = .ok g s)

include hload

/-- **The names of a loaded graph are identifiers**, between dots in full names. -/
theorem loadSources_identified : g.Identified := by
  obtain ⟨s₁, heach, missing, hf⟩ := loadSources_eq_ok.mp ⟨s, hload⟩
  obtain ⟨files, hs, ho, -⟩ := loadEach_sound heach
  exact hs.identified (loadSources_final empty_formed hload).toArena
    (fun f hfile => fileAt_identified (ho.read f hfile).1) hf

theorem loadSources_word (hn : n ∈ g.nodes) (hk : n.kind ≠ .package) : Word n.name :=
  ((loadSources_identified hload).entries n hn hk).name.word

/-- The outermost declarations of a file stand in one package. -/
theorem loadSources_outermost_parent (hn : Outermost g n) (hm : Outermost g m) (hfile : n.file = m.file) :
    g.parentOf n = g.parentOf m := by
  obtain ⟨s₁, heach, missing, hf⟩ := loadSources_eq_ok.mp ⟨s, hload⟩
  obtain ⟨files, hs, ho, -⟩ := loadEach_sound heach
  have hg : g.Arena := (loadSources_final empty_formed hload).toArena
  obtain ⟨hn, hnk, p, hp, hpk⟩ := hn
  obtain ⟨hm, hmk, q, hq, hqk⟩ := hm
  obtain ⟨f, hfmem, hnf, hpspace⟩ := hs.outermost_space hg hf hn hnk hp hpk
  obtain ⟨f', hfmem', hmf, hqspace⟩ := hs.outermost_space hg hf hm hmk hq hqk
  have hsame : f.name = f'.name := Option.some.inj (hnf.symm.trans (hfile.trans hmf))
  obtain rfl := List.inj_on_of_nodup_map ho.names_nodup hfmem hfmem' hsame
  rw [hp, hq, hg.unique (hg.parentOf_iff.mp hp).1 (hg.parentOf_iff.mp hq).1 (hpspace.trans hqspace.symm)]

/-- **Outermost declarations of one file have different names.** -/
theorem loadSources_outermost_inj (hn : Outermost g n) (hm : Outermost g m) (hfile : n.file = m.file)
    (hname : n.name = m.name) : n = m := by
  have hg : g.Arena := (loadSources_final empty_formed hload).toArena
  have hparent := loadSources_outermost_parent hload hn hm hfile
  obtain ⟨hn, -, p, hp, -⟩ := hn
  obtain ⟨hpn, hpi⟩ := hg.parentOf_iff.mp hp
  obtain ⟨-, hqi⟩ := hg.parentOf_iff.mp (hparent.symm.trans hp)
  refine hg.unique hn hm.1 ?_
  rw [hg.fullName_eq hn hpn hpi, hg.fullName_eq hm.1 hpn hqi, hname]

end Loaded

end ProtoBind.Schema
