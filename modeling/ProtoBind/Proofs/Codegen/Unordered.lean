/-
Modules and the order of sources.

Sources in another order are loaded to a graph with other numbers and other
orders of files and of what stands in packages. But the outermost declarations
of one file stand in one package (`loadSources_outermost_parent`), so a group
lists them in the order of their file (`declarations_of_file`), which is the
same in both graphs. Hence a file is planned for both graphs or for none, and
its module is the same (`assemble_perm`).
-/
import ProtoBind.Proofs.Codegen.Copies
import ProtoBind.Proofs.Codegen.Faults
import ProtoBind.Proofs.Schema.Declared

namespace ProtoBind.Codegen

open Schema Schema.Graph

/-- What one element of a list gives alone. -/
theorem flatMap_eq_of_unique {α β : Type} {f : α → List β} {a : α} : ∀ {l : List α}, l.Nodup → a ∈ l →
    (∀ b ∈ l, b ≠ a → f b = []) → l.flatMap f = f a
  | b :: l, hl, ha, hnil => by
    rw [List.nodup_cons] at hl
    rw [List.flatMap_cons]
    by_cases hb : b = a
    · subst hb
      have hrest : l.flatMap f = [] := List.flatMap_eq_nil_iff.mpr fun c hc =>
        hnil c (List.mem_cons_of_mem _ hc) fun he => hl.1 (he ▸ hc)
      rw [hrest, List.append_nil]
    · have hal : a ∈ l := (List.mem_cons.mp ha).resolve_left (Ne.symm hb)
      rw [hnil b List.mem_cons_self hb, List.nil_append,
        flatMap_eq_of_unique hl.2 hal fun c hc => hnil c (List.mem_cons_of_mem _ hc)]

variable {g g' : Graph} {o : Options} {groups groups' : List FileGroup} {a b : Sources} {s s' : Loader}

/-! ## The groups of a graph -/

/-- The node stands in a package. -/
def inPackage (g : Graph) (n : Node) : Bool := (g.parentOf n).any (·.kind == .package)

theorem inPackage_iff {n : Node} : inPackage g n = true ↔ ∃ p, g.parentOf n = some p ∧ p.kind = .package := by
  simp [inPackage, Option.any_eq_true]

/-- What a package holds of a file. -/
def heldIn (g : Graph) (file : String) (p : Node) : List Node :=
  ((g.childrenOf p).filter (·.kind != .package)).filter (·.file == some file)

theorem mem_heldIn (hg : g.Arena) {p n : Node} (hp : p ∈ g.nodes) (hk : p.kind = .package) {file : String} :
    n ∈ heldIn g file p ↔ Outermost g n ∧ n.file = some file ∧ g.parentOf n = some p := by
  rw [heldIn, List.mem_filter, List.mem_filter, hg.mem_children hp, bne_iff_ne, beq_iff_eq]
  constructor
  · rintro ⟨⟨⟨hn, hparent⟩, hnk⟩, hfile⟩
    exact ⟨⟨hn, hnk, p, hparent, hk⟩, hfile, hparent⟩
  · rintro ⟨⟨hn, hnk, -⟩, hfile, hparent⟩
    exact ⟨⟨⟨hn, hparent⟩, hnk⟩, hfile⟩

/-- **The outermost declarations of a file, in the order of its nodes.** -/
theorem declarations_of_file [Source.CharacterNames] (hload : loadSources a .empty = .ok g s) (file : String) :
    (declarations g).filter (·.file == some file) = (g.nodes.filter (·.file = some file)).filter (inPackage g) := by
  have hg : g.Arena := (loadSources_final empty_formed hload).toArena
  have hf := loadSources_filed hload
  have hpackages {p : Node} (hp : p ∈ g.packages) : p ∈ g.nodes ∧ p.kind = .package := by
    rw [(packages_perm hg).mem_iff, List.mem_filter, beq_iff_eq] at hp
    exact hp
  have hheld : (declarations g).filter (·.file == some file) = g.packages.flatMap (heldIn g file) :=
    List.filter_flatMap
  have hdeclared {n : Node} (hn : n ∈ g.nodes) (hfile : n.file = some file) (hin : inPackage g n = true) :
      Outermost g n := by
    refine ⟨hn, fun hk => ?_, inPackage_iff.mp hin⟩
    rw [hf.package n hn hk] at hfile
    cases hfile
  rw [hheld]
  by_cases hex : ∃ n, Outermost g n ∧ n.file = some file
  · -- All of them stand in the package of the first one.
    obtain ⟨n, hn, hfile⟩ := hex
    obtain ⟨p, hp, hpk⟩ := hn.2.2
    have hpn : p ∈ g.nodes := (hg.parentOf_iff.mp hp).1
    have hpackage : p ∈ g.packages := (packages_perm hg).mem_iff.mpr (List.mem_filter.mpr ⟨hpn, beq_iff_eq.mpr hpk⟩)
    have hparent {m : Node} (hm : Outermost g m) (hmfile : m.file = some file) : g.parentOf m = some p :=
      (loadSources_outermost_parent hload hm hn (hmfile.trans hfile.symm)).trans hp
    have hothers : ∀ q ∈ g.packages, q ≠ p → heldIn g file q = [] := by
      refine fun q hq hne => List.eq_nil_iff_forall_not_mem.mpr fun m hm => hne ?_
      obtain ⟨hm, hmfile, hmq⟩ := (mem_heldIn hg (hpackages hq).1 (hpackages hq).2).mp hm
      exact Option.some.inj (hmq.symm.trans (hparent hm hmfile))
    rw [flatMap_eq_of_unique ((packages_perm hg).nodup_iff.mpr (hg.nodup.filter _)) hpackage hothers, heldIn,
      hg.childrenOf hpn, List.filter_filter, List.filter_filter, List.filter_filter]
    refine List.filter_congr fun m hm => ?_
    rw [Bool.eq_iff_iff]
    simp only [Bool.and_eq_true, beq_iff_eq, bne_iff_ne, decide_eq_true_eq]
    constructor
    · rintro ⟨⟨hmfile, hmk⟩, hindex⟩
      exact ⟨inPackage_iff.mpr ⟨p, hg.parentOf_iff.mpr ⟨hpn, hindex⟩, hpk⟩, hmfile⟩
    · rintro ⟨hin, hmfile⟩
      have hout := hdeclared hm hmfile hin
      exact ⟨⟨hmfile, hout.2.1⟩, (hg.parentOf_iff.mp (hparent hout hmfile)).2⟩
  · have hleft : g.packages.flatMap (heldIn g file) = [] := by
      refine List.flatMap_eq_nil_iff.mpr fun q hq => List.eq_nil_iff_forall_not_mem.mpr fun m hm => hex ?_
      obtain ⟨hm, hmfile, -⟩ := (mem_heldIn hg (hpackages hq).1 (hpackages hq).2).mp hm
      exact ⟨m, hm, hmfile⟩
    rw [hleft, eq_comm, List.filter_eq_nil_iff]
    intro m hm hin
    obtain ⟨hm, hmfile⟩ := List.mem_filter.mp hm
    exact hex ⟨m, hdeclared hm (of_decide_eq_true hmfile) hin, of_decide_eq_true hmfile⟩

/-! ## Groups of copies -/

theorem inPackage_eq (h : g.Copies g') {n n' : Node} (c : Counterpart g g' n n') : inPackage g n = inPackage g' n' := by
  unfold inPackage
  rcases h.parent c with ⟨hp, hp'⟩ | ⟨p, p', hp, hp', cp⟩
  · rw [hp, hp']
  · rw [hp, hp', Option.any_some, Option.any_some, h.kind cp]

/-- Sources in two orders are loaded to copies. -/
theorem copies_of_perm [Source.CharacterNames] (h : (sourceMap a).Perm (sourceMap b))
    (hg : loadSources a .empty = .ok g s) (hg' : loadSources b .empty = .ok g' s') : g.Copies g' where
  toRenumbered := renumbered_of_perm h hg hg'
  left := loadSources_final empty_formed hg
  right := loadSources_final empty_formed hg'

/-- A file has the same outermost declarations in both graphs, in one order. -/
theorem declarations_counterparts [Source.CharacterNames] (h : (sourceMap a).Perm (sourceMap b))
    (hg : loadSources a .empty = .ok g s)
    (hg' : loadSources b .empty = .ok g' s') (file : String) : List.Forall₂ (Counterpart g g')
      ((declarations g).filter (·.file == some file)) ((declarations g').filter (·.file == some file)) := by
  have hcopies := copies_of_perm h hg hg'
  rw [declarations_of_file hg, declarations_of_file hg']
  exact List.rel_filter (fun _ _ c => by simp only [inPackage_eq hcopies c]) (hcopies.nodesIn file)

/-- The files that are planned are those with outermost declarations. -/
theorem files_groups (g : Graph) (o : Options) : (Codegen.groups g o).map (·.file) =
    g.files.filter fun file => !((declarations g).filter (·.file == some file)).isEmpty := by
  rw [Codegen.groups, List.filter_map, List.map_map]
  exact List.map_id _

/-- Every file with a declaration is planned. -/
theorem mem_files_groups (hg : g.Arena) (hf : g.Filed) {n : Node} {file : String} (hn : n ∈ g.nodes)
    (hfile : n.file = some file) : file ∈ (Codegen.groups g o).map (·.file) := by
  have hk : n.kind ≠ .package := fun hk => by
    rw [hf.package n hn hk] at hfile
    cases hfile
  obtain ⟨_, hmem, hsame⟩ := hf.declared n hn hk
  obtain rfl := Option.some.inj (hfile.symm.trans hsame)
  obtain ⟨top, htop, -⟩ := List.mem_flatMap.mp
    ((file_perm hg hf file).mem_iff.mp (List.mem_filter.mpr ⟨hn, beq_iff_eq.mpr hfile⟩))
  rw [files_groups, List.mem_filter]
  refine ⟨hmem, ?_⟩
  rw [Bool.not_eq_true', List.isEmpty_eq_false_iff]
  exact List.ne_nil_of_mem htop

/-- **The module of a file does not depend on the order of the sources.** When sources in two orders are loaded and
planned, the same files are planned, every file with a declaration among them; and the module of a file goes to the same
path and is assembled to the same text, or fails with the same fault. -/
theorem assemble_perm [Source.CharacterNames] (h : (sourceMap a).Perm (sourceMap b))
    (hg : loadSources a .empty = .ok g s)
    (hg' : loadSources b .empty = .ok g' s') (hplan : plan g o = .ok groups) (hplan' : plan g' o = .ok groups') :
    (groups.map (·.file)).Perm (groups'.map (·.file)) ∧
    (∀ n ∈ g.nodes, ∀ file, n.file = some file → ∃ group ∈ groups, group.file = file) ∧
    ∀ group ∈ groups, ∀ group' ∈ groups', group.file = group'.file →
      group.path = group'.path ∧ assemble g o group = assemble g' o group' := by
  have hcopies := copies_of_perm h hg hg'
  obtain rfl := (plan_eq_ok hplan).groups_eq
  obtain rfl := (plan_eq_ok hplan').groups_eq
  refine ⟨?_, fun n hn file hfile => ?_, fun group hgroup group' hgroup' hfile => ?_⟩
  · rw [files_groups, files_groups]
    refine (hcopies.files.filter _).trans (List.Perm.of_eq (List.filter_congr fun file _ => ?_))
    have hlength := (declarations_counterparts h hg hg' file).length_eq
    rw [Bool.eq_iff_iff, Bool.not_eq_true', Bool.not_eq_true', List.isEmpty_eq_false_iff, List.isEmpty_eq_false_iff,
      ← List.length_pos_iff, ← List.length_pos_iff, hlength]
  · have harena := (loadSources_final empty_formed hg).toArena
    exact List.mem_map.mp (mem_files_groups harena (loadSources_filed hg) hn hfile)
  · obtain ⟨hpath, hnodes⟩ := mem_groups hgroup
    obtain ⟨hpath', hnodes'⟩ := mem_groups hgroup'
    refine ⟨by rw [hpath, hpath', hfile], assemble_copies hcopies hfile ?_⟩
    rw [hnodes, hnodes', ← hfile]
    exact declarations_counterparts h hg hg' group.file

/-- A module that fails in one order of two sources fails in the other with the same fault. -/
theorem assemble_perm_badlyKeyed : (sourceMap badlyKeyed).Perm (sourceMap badlyKeyed.reverse) ∧
    ∃ g s g' s' groups groups', loadSources badlyKeyed .empty = .ok g s ∧
      loadSources badlyKeyed.reverse .empty = .ok g' s' ∧ plan g .default = .ok groups ∧
      plan g' .default = .ok groups' ∧ ∃ group ∈ groups, ∃ group' ∈ groups', group.file = group'.file ∧
        assemble g .default group = .error (.badKey "Foo") ∧ assemble g' .default group' = .error (.badKey "Foo") := by
  have hperm : (sourceMap badlyKeyed).Perm (sourceMap badlyKeyed.reverse) := by decide
  obtain ⟨g, s, groups, hg, hplan, group, hgroup, hfile, hfault, -⟩ :=
    exists_of_faults badlyKeyed_faults.1 List.mem_cons_self
  obtain ⟨g', s', groups', hg', hplan', group', hgroup', hfile', -⟩ :=
    exists_of_faults badlyKeyed_faults.2 (List.mem_cons_of_mem _ List.mem_cons_self)
  have hsame := hfile.trans hfile'.symm
  have hassembled := ((assemble_perm hperm hg hg' hplan hplan').2.2 group hgroup group' hgroup' hsame).2
  exact ⟨hperm, g, s, g', s', groups, groups', hg, hg', hplan, hplan', group, hgroup, group', hgroup', hsame, hfault,
    hassembled.symm.trans hfault⟩

end ProtoBind.Codegen
