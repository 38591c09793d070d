/-
The faults of assembly.

A loaded graph has a file for all that is referred to and nothing in its
packages that has no code, so indexes are always given and a module fails for
references without a target or for want of an alias. There are two other
faults. The loader takes any name for the key of a map, where the code of a
message needs a scalar kind, and a tag or the number of an enum may have more
digits than can be written (`assemble_outcomes`). These faults are none that
are reported for their file; they end the run.
-/
import ProtoBind.Codegen.Index
import ProtoBind.Proofs.Codegen.Diagnostics

namespace ProtoBind.Codegen

open Schema Schema.Graph

variable {g : Graph} {o : Options} {groups : List FileGroup} {n : Node}

/-! ## Indexes -/

/-- All that stands in a package is exported. -/
theorem exportOf_ok (hs : g.Shaped) (hf : g.Filed) {index : IndexPlan} (hp : index.package ∈ g.nodes)
    (hk : index.package.kind = .package) (hn : n ∈ g.childrenOf index.package) :
    ∃ e, exportOf o index n = .ok e := by
  obtain ⟨hmem, hparent⟩ := (hs.mem_childrenOf hp).mp hn
  have hplaced := (hs.placed hmem hp hparent).kinds
  have hmodule : n.kind ≠ .package → ∃ module, moduleOf o n = .ok module := by
    intro hpackage
    obtain ⟨file, -, hfile⟩ := hf.declared n hmem hpackage
    exact ⟨o.moduleForFile file, by rw [moduleOf, hfile]⟩
  unfold exportOf
  cases hkind : n.kind with
  | package => exact ⟨_, rfl⟩
  | method => simp [hk, show n.body.kind = .method from hkind] at hplaced
  | message | enum | service | field =>
    obtain ⟨module, hm⟩ := hmodule (by rw [hkind]; decide)
    dsimp only
    rw [hm]
    exact ⟨_, rfl⟩

theorem assembleIndex_ok (hs : g.Shaped) (hf : g.Filed) {index : IndexPlan} (hindex : index ∈ planIndexes g o) :
    ∃ text, assembleIndex g o index = .ok text := by
  obtain ⟨p, hp, rfl⟩ := List.mem_map.mp hindex
  obtain ⟨hmem, hk⟩ := List.mem_filter.mp ((packages_perm hs.toArena).mem_iff.mp (List.mem_of_mem_filter hp))
  have hexports : ∀ n ∈ g.childrenOf p, ∃ e, exportOf o ⟨p, o.moduleForPackage p, o.pathForPackage p⟩ n = .ok e :=
    fun n hn => exportOf_ok hs hf hmem (beq_iff_eq.mp hk) hn
  obtain ⟨exports, hexports⟩ := forall₂_exists hexports
  unfold assembleIndex
  rw [mapM_ok_iff.mpr hexports]
  exact ⟨_, rfl⟩

/-! ## Outcomes -/

section Loaded

variable {sources : Sources} {s : Loader}

/-- **What can become of the files of a plan.** Of a loaded graph with a plan, every index is given. A module is given,
or fails with its unresolved references or for want of an alias, or fails at a map of its file with keys of no scalar
kind or at a number of its file that is too long to be written; and a file with such a map or number is never given: it
fails at such a map or number, or for want of an alias. -/
theorem assemble_outcomes [Source.CharacterNames] (hload : loadSources sources .empty = .ok g s)
    (hplan : plan g o = .ok groups) :
    (∀ group ∈ groups,
      ((∃ text, assemble g o group = .ok text) ∨
        (∃ refs, assemble g o group = .error (.unresolved group.file refs)) ∨
        (∃ c, assemble g o group = .error (.aliasTaken c)) ∨
        (∃ key, assemble g o group = .error (.badKey key) ∧ HasBadKey g group.file key) ∨
        ∃ k, assemble g o group = .error (.unwritable k) ∧ HasLongNumber g group.file k) ∧
      ((∃ key, HasBadKey g group.file key) ∨ (∃ k, HasLongNumber g group.file k) →
        (∃ key, assemble g o group = .error (.badKey key)) ∨ (∃ k, assemble g o group = .error (.unwritable k)) ∨
          ∃ c, assemble g o group = .error (.aliasTaken c))) ∧
    ∀ index ∈ planIndexes g o, ∃ text, assembleIndex g o index = .ok text := by
  have hfinal := loadSources_final empty_formed hload
  have hfiled := loadSources_filed hload
  obtain ⟨rfl, hk, -, -⟩ := plan_eq_ok hplan
  refine ⟨fun group hgroup => ?_, fun index hindex => assembleIndex_ok hfinal.toShaped hfiled hindex⟩
  have hstops {e : AssemblyFault} := mem_group_stops hfinal.toShaped hfiled hk hgroup (e := e)
  have hends := assemble_ends (o := o) (referable_of_final hfinal hfiled)
    (emittable_of_ordered hfinal.toShaped hk hgroup)
  have hgiven (hnone : group.ordered.flatMap (within g stops) = []) :
      ¬ ((∃ key, HasBadKey g group.file key) ∨ ∃ k, HasLongNumber g group.file k) := by
    rw [hnone] at hstops
    rintro (⟨key, hkey⟩ | ⟨k, hlong⟩)
    · exact List.not_mem_nil (hstops.mpr (.inl ⟨key, hkey, rfl⟩))
    · exact List.not_mem_nil (hstops.mpr (.inr ⟨k, hlong, rfl⟩))
  generalize hr : assemble g o group = r at hends
  cases hends with
  | given _ hnone => exact ⟨.inl ⟨_, rfl⟩, fun hbad => absurd hbad (hgiven hnone)⟩
  | unresolved _ hnone => exact ⟨.inr (.inl ⟨_, rfl⟩), fun hbad => absurd hbad (hgiven hnone)⟩
  | aliasTaken => exact ⟨.inr (.inr (.inl ⟨_, rfl⟩)), fun _ => .inr (.inr ⟨_, rfl⟩)⟩
  | stopped he =>
    obtain ⟨key, hkey, rfl⟩ | ⟨k, hlong, rfl⟩ := hstops.mp he
    · exact ⟨.inr (.inr (.inr (.inl ⟨key, rfl, hkey⟩))), fun _ => .inl ⟨key, rfl⟩⟩
    · exact ⟨.inr (.inr (.inr (.inr ⟨k, rfl, hlong⟩))), fun _ => .inr (.inl ⟨k, rfl⟩)⟩

end Loaded

/-- A file with a map whose keys are messages, and a file beside it. -/
def badlyKeyedFiles : List (String × List Source.Decl) :=
  [("a.proto", [.message "Foo" [] 1, .message "A" [.map ⟨"Foo", "int32", "m", 1, [], 1⟩] 1]),
    ("b.proto", [.message "B" [] 1])]

def badlyKeyed : Sources := printedSources badlyKeyedFiles

theorem badlyKeyed_faults :
    succeedsWith (loadSources badlyKeyed) .empty (fun g => faultsOf g ==
      [("a.proto", some (.badKey "Foo"), [.badKey "Foo"]), ("b.proto", none, [])]) = true ∧
    succeedsWith (loadSources badlyKeyed.reverse) .empty (fun g => faultsOf g ==
      [("b.proto", none, []), ("a.proto", some (.badKey "Foo"), [.badKey "Foo"])]) = true := by
  unfold loadSources loadOne
  rw [Load.load_eq_known badlyKeyedFiles (by decide +kernel)]
  decide +kernel

/-- A fault that is found among the faults of a plan. -/
theorem exists_of_faults [Source.CharacterNames] {sources : Sources}
    {faults : List (String × Option AssemblyFault × List AssemblyFault)}
    {file : String} {e : AssemblyFault} {found : List AssemblyFault}
    (h : succeedsWith (loadSources sources) .empty (fun g => faultsOf g == faults) = true)
    (hmem : (file, some e, found) ∈ faults) :
    ∃ g s groups, loadSources sources .empty = .ok g s ∧ plan g .default = .ok groups ∧ ∃ group ∈ groups,
      group.file = file ∧ assemble g .default group = .error e ∧
      (g.nodes.filter (·.file == some group.file)).flatMap stops = found := by
  obtain ⟨g, s, hload, htest⟩ := exists_of_succeedsWith h
  obtain ⟨groups, hplan, hall⟩ := plan_of_faults (eq_of_beq htest) (List.ne_nil_of_mem hmem)
  obtain ⟨group, hgroup, hfile, hfault, hfound⟩ := forall₂_mem hall.flip hmem
  exact ⟨g, s, groups, hload, hplan, group, hgroup, hfile, (hfault e).mpr rfl, hfound⟩

theorem badlyKeyed_loads : ∃ g s groups, loadSources badlyKeyed .empty = .ok g s ∧ plan g .default = .ok groups ∧
    ∃ group ∈ groups, assemble g .default group = .error (.badKey "Foo") ∧ HasBadKey g group.file "Foo" := by
  obtain ⟨g, s, groups, hload, hplan, group, hgroup, -, hfault, hfound⟩ :=
    exists_of_faults badlyKeyed_faults.1 List.mem_cons_self
  have hmem : .badKey "Foo" ∈ (g.nodes.filter (·.file == some group.file)).flatMap stops := by simp [hfound]
  obtain ⟨n, hn, hstop⟩ := List.mem_flatMap.mp hmem
  obtain ⟨hn, hfile⟩ := List.mem_filter.mp hn
  obtain ⟨key, f, leaf, hb, hextendee, ht, hnone, he⟩ | ⟨k, -, -, he⟩ := mem_stops.mp hstop
  · cases he
    exact ⟨g, s, groups, hload, hplan, group, hgroup, hfault, n, hn, beq_iff_eq.mp hfile, f, leaf, hb, hextendee, ht, hnone⟩
  · cases he

/-- The outcomes of a file with a map whose keys are messages. -/
theorem assemble_outcomes_badlyKeyed : ∃ g s groups, loadSources badlyKeyed .empty = .ok g s ∧
    plan g .default = .ok groups ∧ ∃ group ∈ groups, HasBadKey g group.file "Foo" ∧
      ((∃ key, assemble g .default group = .error (.badKey key)) ∨
        (∃ k, assemble g .default group = .error (.unwritable k)) ∨
          ∃ c, assemble g .default group = .error (.aliasTaken c)) := by
  obtain ⟨g, s, groups, hload, hplan, group, hgroup, -, hkey⟩ := badlyKeyed_loads
  exact ⟨g, s, groups, hload, hplan, group, hgroup, hkey,
    ((assemble_outcomes hload hplan).1 group hgroup).2 (.inl ⟨"Foo", hkey⟩)⟩

/-- The fault of a key is not reported for its file. -/
theorem assemble_badKey_escapes : ∃ g s groups, loadSources badlyKeyed .empty = .ok g s ∧
    plan g .default = .ok groups ∧
      ∃ group ∈ groups, ∃ e, assemble g .default group = .error e ∧ e.message? = none := by
  obtain ⟨g, s, groups, hload, hplan, group, hgroup, hfault, -⟩ := badlyKeyed_loads
  exact ⟨g, s, groups, hload, hplan, group, hgroup, _, hfault, rfl⟩

end ProtoBind.Codegen
