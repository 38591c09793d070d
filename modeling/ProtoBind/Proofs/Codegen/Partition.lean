/-
The plan as a partition of the outermost declarations.

The groups of a plan share out the declarations that stand in packages: each
is in the group of its file and in no other (`Partition.once`). A file has a
group exactly when its text declares something, and the group lists what the
text declares outermost, in the order of the text (`nodes_of_text`); the walk
through the packages, which many files share, does not show in it.
-/
import ProtoBind.Proofs.Codegen.Unordered
import ProtoBind.Proofs.Schema.Realized

namespace ProtoBind.Codegen

open Schema Schema.Graph Schema.Load
open Source (Decl)

/-! ## Outermost declarations of a text -/

/-- What a declaration of a file puts into the package of the file, by kind and name. -/
def outermostNames : Decl → List (Kind × String)
  | .message name _ _ => [(.message, name)]
  | .enum e => [(.enum, e.name)]
  | .service d => [(.service, d.name)]
  | .extend e => e.fields.map fun f => (.field, f.name)
  | _ => []

variable {c : Context} {space : String}

/-- An entry stands in the package of the file. -/
def standsIn (space : String) (x : Listed) : Bool := x.1 = childName space x.2.name

theorem standsIn_under (e : Entry) : standsIn space (e.under space) = true := decide_eq_true rfl

/-- What stands inside a declaration does not stand in the package. -/
theorem not_standsIn {all : List Listed} {name : String} (hname : childName space name ≠ space)
    (hall : space ∉ all.map (·.1)) {x : Listed} (h : Belongs c (childName space name) all x) :
    ¬ standsIn space x = true := by
  intro hx
  obtain ⟨parent, hfull, hparent⟩ := h.under
  have hspace : parent = space := childName_left (hfull.symm.trans (of_decide_eq_true hx))
  rcases hparent with he | hin
  · exact hname (he.symm.trans hspace)
  · exact hall (hspace ▸ hin)

/-- Of a declaration with its contents only its head stands in the package. -/
theorem filter_standsIn_cons {e : Entry} {inner all : List Listed} (hhead : childName space e.name ≠ space)
    (hinner : ∀ x ∈ inner, Belongs c (childName space e.name) all x) (hall : space ∉ all.map (·.1)) :
    (e.under space :: inner).filter (standsIn space) = [e.under space] := by
  rw [List.filter_cons_of_pos (standsIn_under e), List.filter_eq_nil_iff.mpr]
  exact fun x hx => not_standsIn hhead hall (hinner x hx)

/-- The entries of a declaration that stand in the package are its outermost names. -/
theorem filter_declContents {d : Decl} (hspace : space ∉ (declContents c space d).map (·.1)) :
    ((declContents c space d).filter (standsIn space)).map (fun x => (x.2.body.kind, x.2.name)) = outermostNames d := by
  cases d with
  | message name items line =>
    rw [declContents, messageContents, List.map_cons, List.mem_cons, not_or] at hspace
    rw [declContents, messageContents]
    exact congrArg (List.map _) (filter_standsIn_cons (Ne.symm hspace.1) itemsContents_belongs hspace.2)
  | enum e =>
    rw [declContents, List.filter_cons_of_pos (standsIn_under _)]
    rfl
  | service d =>
    rw [declContents, List.map_cons, List.mem_cons, not_or] at hspace
    have hrpcs : ∀ x ∈ d.rpcs.map fun rpc => (rpcEntry c rpc).under (childName space d.name),
        Belongs c (childName space d.name) [] x := by
      intro x hx
      obtain ⟨rpc, -, rfl⟩ := List.mem_map.mp hx
      exact belongs_under rfl (by rintro ⟨⟩) rfl
    rw [declContents, filter_standsIn_cons (Ne.symm hspace.1) hrpcs List.not_mem_nil]
    rfl
  | extend e =>
    rw [declContents, List.filter_eq_self.mpr, List.map_map]
    · rfl
    · intro x hx
      obtain ⟨f, -, rfl⟩ := List.mem_map.mp hx
      exact standsIn_under _
  | _ => rfl

/-- The contents of a file that stand in its package are the outermost names of its text. -/
theorem filter_contents_standsIn {f : SchemaFile} (h : f.Valid) :
    (f.contents.filter (standsIn f.space)).map (fun x => (x.2.body.kind, x.2.name)) = f.decls.flatMap outermostNames := by
  have hspace := h.space_notMem
  rw [SchemaFile.contents, List.filter_flatMap, List.map_flatMap]
  refine List.flatMap_congr fun d hd => filter_declContents fun hin => hspace ?_
  obtain ⟨x, hx, he⟩ := List.mem_map.mp hin
  exact List.mem_map.mpr ⟨x, List.mem_flatMap.mpr ⟨d, hd, hx⟩, he⟩

/-! ## Outermost declarations of a graph -/

section Nodes

variable {find : String → Option String} {files : List SchemaFile} {f : SchemaFile} {s : Loader} {g : Graph}
  {missing : List (Node × String)} {n : Node}

/-- The nodes of a file are its contents, in order. -/
theorem nodes_of_file [Source.CharacterNames] (h : s.Holds files) (ho : Ordered find files)
    (hf : s.graph.finalize = (g, .ok missing))
    (hfile : f ∈ files) : (g.nodes.filter (·.file = some f.name)).map (fun n => (n.fullName, n.name, n.kind)) =
      f.contents.map fun x => (x.1, x.2.name, x.2.body.kind) := by
  have hread : f.contents = (s.graph.listing.filter (·.2.file = some f.name)) := by
    rw [h.order, ho.filter_name, if_pos (List.mem_map_of_mem hfile), (ho.read f hfile).1]
    simp
  have hresolved : List.Forall₂ (Resolved s.graph) (s.graph.nodes.filter (·.file = some f.name))
      (g.nodes.filter (·.file = some f.name)) :=
    List.rel_filter (fun _ _ hr => by simp only [hr.file]) (finalize_resolved hf).1
  rw [hread, listing, List.filter_map, List.map_map]
  refine map_eq_of_forall₂ (fun n₀ n hr => ?_) hresolved
  exact Prod.ext hr.fullName (Prod.ext (congrArg Place.name hr.place) hr.kind)

/-- A node of a file stands in a package when it stands in that of the file. -/
theorem inPackage_iff_space [Source.CharacterNames] (h : s.Holds files) (ho : Ordered find files) (hg : g.Arena)
    (hfiled : g.Filed)
    (hf : s.graph.finalize = (g, .ok missing)) (hfile : f ∈ files) (hn : n ∈ g.nodes) (hnf : n.file = some f.name) :
    inPackage g n = true ↔ n.fullName = childName f.space n.name := by
  have hk : n.kind ≠ .package := fun hk => by
    rw [hfiled.package n hn hk] at hnf
    cases hnf
  rw [inPackage_iff]
  constructor
  · rintro ⟨p, hp, hpk⟩
    obtain ⟨f', hf', hnf', hspace⟩ := h.outermost_space hg hf hn hk hp hpk
    obtain rfl := List.inj_on_of_nodup_map ho.names_nodup hf' hfile (Option.some.inj (hnf'.symm.trans hnf))
    obtain ⟨hpn, hindex⟩ := hg.parentOf_iff.mp hp
    rw [hg.fullName_eq hn hpn hindex, hspace]
  · intro hfull
    obtain ⟨p, hp⟩ := hg.exists_parentOf hn hk
    obtain ⟨hpn, hindex⟩ := hg.parentOf_iff.mp hp
    have hspace : p.fullName = f.space := childName_left ((hg.fullName_eq hn hpn hindex).symm.trans hfull)
    refine ⟨p, hp, by_contra fun hpk => ?_⟩
    have hpf : p.file = some f.name := (hfiled.inside hn hpn hindex hpk).symm.trans hnf
    obtain ⟨f', hf', x, hx, hpx, -, hfx⟩ := h.mem_contents hf hpn hpk
    have hsame : f' = f := List.inj_on_of_nodup_map ho.names_nodup hf' hfile
      (Option.some.inj ((SchemaFile.contents_belongs x hx).file.symm.trans (hfx.symm.trans hpf)))
    exact (ho.read f hfile).2.space_notMem (List.mem_map.mpr ⟨x, hsame ▸ hx, hpx.symm.trans hspace⟩)

/-- **The outermost declarations of a file are those of its text, in the order of the text.** -/
theorem nodes_of_text [Source.CharacterNames] (h : s.Holds files) (ho : Ordered find files) (hg : g.Arena)
    (hfiled : g.Filed) (hf : s.graph.finalize = (g, .ok missing)) (hfile : f ∈ files) :
    ((g.nodes.filter (·.file = some f.name)).filter (inPackage g)).map (fun n => (n.kind, n.name)) =
      f.decls.flatMap outermostNames := by
  have hstands : (g.nodes.filter (·.file = some f.name)).filter (inPackage g) =
      (g.nodes.filter (·.file = some f.name)).filter fun n => n.fullName = childName f.space n.name := by
    refine List.filter_congr fun n hn => Bool.eq_iff_iff.mpr ?_
    obtain ⟨hn, hnf⟩ := List.mem_filter.mp hn
    rw [inPackage_iff_space h ho hg hfiled hf hfile hn (of_decide_eq_true hnf), decide_eq_true_eq]
  -- Both filters see no more than full names and names, in which nodes and contents agree.
  have hnames := congrArg (fun entries : List (String × String × Kind) =>
    (entries.filter fun e => e.1 = childName f.space e.2.1).map fun e => (e.2.2, e.2.1)) (nodes_of_file h ho hf hfile)
  simp only [List.filter_map, List.map_map] at hnames
  rw [hstands, ← filter_contents_standsIn (ho.read f hfile).2]
  exact hnames

end Nodes

/-! ## Groups -/

/-- The place of a kind in a module. -/
def layoutRank : Kind → Nat
  | .enum => 0
  | .message => 1
  | .service => 2
  | .field => 3
  | _ => 4

/-- A declaration stands before another in a module: its kind does, or it was declared first. -/
def Precedes (a b : Node) : Prop := layoutRank a.kind < layoutRank b.kind ∨ a.kind = b.kind ∧ a.index < b.index

theorem FileGroup.ordered_precedes {group : FileGroup} (h : group.nodes.Pairwise (·.index < ·.index)) :
    group.ordered.Pairwise Precedes := by
  have hkind {k : Kind} {n : Node} (hn : n ∈ group.nodes.filter (·.kind == k)) : n.kind = k :=
    beq_iff_eq.mp (List.mem_filter.mp hn).2
  rw [FileGroup.ordered, List.pairwise_flatMap]
  refine ⟨fun k _ => ?_, ?_⟩
  · exact (h.filter _).imp_of_mem fun ha hb hlt => .inr ⟨(hkind ha).trans (hkind hb).symm, hlt⟩
  · have hranks : kindOrder.Pairwise fun k l => layoutRank k < layoutRank l := by decide
    refine hranks.imp fun hlt a ha b hb => .inl ?_
    rw [hkind ha, hkind hb]
    exact hlt

/-- The declarations in their layout are those of the group. -/
theorem FileGroup.ordered_perm {group : FileGroup} (h : group.nodes.Pairwise (·.index < ·.index))
    (hkinds : ∀ n ∈ group.nodes, n.kind ∈ kindOrder) : group.ordered.Perm group.nodes := by
  have hordered : group.ordered.Nodup := (ordered_precedes h).imp fun {a b} hab he => by
    subst he
    rcases hab with hlt | ⟨-, hlt⟩ <;> exact Nat.lt_irrefl _ hlt
  have hnodes : group.nodes.Nodup := h.imp fun {a b} hlt he => by
    subst he
    exact Nat.lt_irrefl _ hlt
  refine (List.perm_ext_iff_of_nodup hordered hnodes).mpr fun n => ?_
  simp only [FileGroup.ordered, List.mem_flatMap, List.mem_filter, beq_iff_eq]
  constructor
  · rintro ⟨_, _, hn, _⟩
    exact hn
  · exact fun hn => ⟨n.kind, hkinds n hn, hn, rfl⟩

/-- The groups share out the outermost declarations of a graph. -/
structure Partition [Source.CharacterNames] (g : Graph) (sources : Sources) (groups : List FileGroup) : Prop where
  /-- Every outermost declaration is in exactly one group. -/
  once : ∀ n, Outermost g n → ∃! group, group ∈ groups ∧ n ∈ group.nodes
  /-- A group has declarations, all of them outermost ones of its file. -/
  own : ∀ group ∈ groups, group.nodes ≠ [] ∧ ∀ n ∈ group.nodes, Outermost g n ∧ n.file = some group.file
  /-- Groups stand in the order of the files, one for a file. -/
  files : (groups.map (·.file)).Sublist g.files ∧ g.files.Nodup
  /-- A file has a group exactly when there is a declaration in it. -/
  planned : ∀ file ∈ g.files, file ∈ groups.map (·.file) ↔ ∃ n ∈ g.nodes, n.file = some file
  /-- A source has a group exactly when its text declares something, and the group lists what the text declares
  outermost, in its order. -/
  declared : ∀ p ∈ sourceMap sources, ∃ f, SchemaFile.ofText p.1 p.2 = some f ∧
    (p.1 ∈ groups.map (·.file) ↔ f.decls.flatMap outermostNames ≠ []) ∧
    ∀ group ∈ groups, group.file = p.1 →
      group.nodes.map (fun n => (n.kind, n.name)) = f.decls.flatMap outermostNames
  increasing : ∀ group ∈ groups, group.nodes.Pairwise (·.index < ·.index)
  /-- In a module enums come first, then messages, services and extensions, each kind as declared. -/
  ordered : ∀ group ∈ groups, group.ordered.Perm group.nodes ∧ group.ordered.Pairwise Precedes

section Loaded

variable {sources : Sources} {g : Graph} {s : Loader} {o : Options} {groups : List FileGroup}

/-- The nodes of a graph are numbered in their order. -/
theorem nodes_pairwise_index (hg : g.Arena) : g.nodes.Pairwise (·.index < ·.index) := by
  rw [← List.pairwise_map (f := Node.index), hg.indices]
  exact List.pairwise_lt_range

/-- The planned declarations are the outermost ones. -/
theorem mem_declarations (hg : g.Arena) {n : Node} : n ∈ declarations g ↔ Outermost g n := by
  have hpackage {p : Node} : p ∈ g.packages ↔ p ∈ g.nodes ∧ p.kind = .package := by
    rw [(packages_perm hg).mem_iff, List.mem_filter, beq_iff_eq]
  simp only [declarations, List.mem_flatMap, List.mem_filter, bne_iff_ne]
  constructor
  · rintro ⟨p, hp, hn, hk⟩
    obtain ⟨hpn, hpk⟩ := hpackage.mp hp
    obtain ⟨hn, hparent⟩ := (hg.mem_children hpn).mp hn
    exact ⟨hn, hk, p, hparent, hpk⟩
  · rintro ⟨hn, hk, p, hparent, hpk⟩
    have hpn := (hg.parentOf_iff.mp hparent).1
    exact ⟨p, hpackage.mpr ⟨hpn, hpk⟩, (hg.mem_children hpn).mpr ⟨hn, hparent⟩, hk⟩

theorem mem_group_nodes (hg : g.Arena) {group : FileGroup} (h : group ∈ Codegen.groups g o) {n : Node} :
    n ∈ group.nodes ↔ Outermost g n ∧ n.file = some group.file := by
  rw [(mem_groups h).2, List.mem_filter, mem_declarations hg, beq_iff_eq]

/-- A group is that of its file. -/
theorem group_unique (hnodup : g.files.Nodup) {a b : FileGroup} (ha : a ∈ Codegen.groups g o)
    (hb : b ∈ Codegen.groups g o) (hfile : a.file = b.file) : a = b := by
  refine List.inj_on_of_nodup_map ?_ ha hb hfile
  rw [files_groups]
  exact hnodup.filter _

/-- **The plan is a partition of the outermost declarations.** -/
theorem plan_partition [Source.CharacterNames] (hload : loadSources sources .empty = .ok g s)
    (hplan : plan g o = .ok groups) :
    Partition g sources groups := by
  have hg : g.Arena := (loadSources_final empty_formed hload).toArena
  have hfiled := loadSources_filed hload
  have hkinds := (plan_eq_ok hplan).kinds
  obtain rfl := (plan_eq_ok hplan).groups_eq
  obtain ⟨s₁, heach, missing, hf⟩ := loadSources_eq_ok.mp ⟨s, hload⟩
  obtain ⟨files, hs, ho, hall⟩ := loadEach_sound heach
  have hnodes {group : FileGroup} (h : group ∈ Codegen.groups g o) :
      group.nodes = (g.nodes.filter (·.file = some group.file)).filter (inPackage g) :=
    (mem_groups h).2.trans (declarations_of_file hload group.file)
  have hincreasing : ∀ group ∈ Codegen.groups g o, group.nodes.Pairwise (·.index < ·.index) := by
    intro group h
    rw [hnodes h]
    exact ((nodes_pairwise_index hg).filter _).filter _
  have hplanned {n : Node} (hn : n ∈ g.nodes) {file : String} (hfile : n.file = some file) :
      file ∈ (Codegen.groups g o).map (·.file) :=
    mem_files_groups hg hfiled hn hfile
  exact {
    once := fun n hn => by
      obtain ⟨file, -, hfile⟩ := hfiled.declared n hn.1 hn.2.1
      obtain ⟨group, hgroup, rfl⟩ := List.mem_map.mp (hplanned hn.1 hfile)
      refine ⟨group, ⟨hgroup, (mem_group_nodes hg hgroup).mpr ⟨hn, hfile⟩⟩, ?_⟩
      rintro other ⟨hother, hmem⟩
      have hsame := ((mem_group_nodes hg hother).mp hmem).2
      exact group_unique hfiled.files hother hgroup (Option.some.inj (hsame.symm.trans hfile))
    own := fun group h => by
      refine ⟨?_, fun n hn => (mem_group_nodes hg h).mp hn⟩
      simpa [Codegen.groups] using (List.mem_filter.mp h).2
    files := by
      rw [files_groups]
      exact ⟨List.filter_sublist, hfiled.files⟩
    planned := fun file _ => by
      refine ⟨fun hmem => ?_, fun h => h.elim fun n hn => hplanned hn.1 hn.2⟩
      obtain ⟨group, hgroup, rfl⟩ := List.mem_map.mp hmem
      obtain ⟨n, hn⟩ := List.exists_mem_of_ne_nil _ (by simpa [Codegen.groups] using (List.mem_filter.mp hgroup).2)
      obtain ⟨hout, hfile⟩ := (mem_group_nodes hg hgroup).mp hn
      exact ⟨n, hout.1, hfile⟩
    declared := fun p hp => by
      obtain ⟨f, hfm, hname, hread⟩ := ho.present (hall p hp)
      have htext : Load.textOf sources p.1 = some p.2 := Entries.lookup_of_mem (Entries.keys_ofList_nodup sources) hp
      rw [fileAt, htext, Option.bind_some] at hread
      have hdeclared := nodes_of_text hs ho hg hfiled hf hfm
      rw [hname] at hdeclared
      refine ⟨f, hread, ?_, fun group h hfile => by rw [hnodes h, hfile, hdeclared]⟩
      have hlisted : p.1 ∈ g.files := by
        rw [(finalize_resolved hf).2.1, hs.entered]
        exact hall p hp
      rw [files_groups, List.mem_filter, declarations_of_file hload, ← hdeclared, Bool.not_eq_true',
        List.isEmpty_eq_false_iff, ne_eq, ne_eq, List.map_eq_nil_iff]
      exact and_iff_right hlisted
    increasing := hincreasing
    ordered := fun group h => by
      refine ⟨FileGroup.ordered_perm (hincreasing group h) fun n hn => hkinds n ?_,
        FileGroup.ordered_precedes (hincreasing group h)⟩
      exact (mem_declarations hg).mpr ((mem_group_nodes hg h).mp hn).1 }

/-- The plan of two files, one of which has a map with keys that are messages. -/
theorem plan_partition_badlyKeyed : ∃ g s groups, loadSources badlyKeyed .empty = .ok g s ∧
    plan g .default = .ok groups ∧ groups ≠ [] ∧ Partition g badlyKeyed groups := by
  obtain ⟨g, s, groups, hload, hplan, group, hgroup, -⟩ := badlyKeyed_loads
  exact ⟨g, s, groups, hload, hplan, List.ne_nil_of_mem hgroup, plan_partition hload hplan⟩

end Loaded

end ProtoBind.Codegen
