/-
The files of declarations.

In a loaded graph every declaration names its file, packages name none, and
what stands in a declaration is in the same file (`loadSources_filed`). The
references that resolution reported are those that the nodes of the resolved
graph still have without a target (`finalize_missing`).
-/
import ProtoBind.Proofs.Schema.Unordered

namespace ProtoBind.Schema

open Schema.Graph Load

namespace Graph

/-- Every declaration is in a file, with all that stands in it. -/
structure Filed (g : Graph) : Prop where
  files : g.files.Nodup
  package : ∀ n ∈ g.nodes, n.kind = .package → n.file = none
  declared : ∀ n ∈ g.nodes, n.kind ≠ .package → ∃ file ∈ g.files, n.file = some file
  inside : ∀ {n p}, n ∈ g.nodes → p ∈ g.nodes → n.parent = some p.index → p.kind ≠ .package → n.file = p.file

/-- The names that a node refers to without a target, each with the full name of the node. -/
def unresolvedIn (n : Node) : List (String × String) := (missing n.body).map (n.fullName, ·)

theorem Settles.unresolvedIn {k : Graph} {n n' : Node} (h : Settles k n n') :
    Graph.unresolvedIn n' = Graph.unresolvedIn n := by
  cases h with
  | field hb _ =>
    rw [Graph.unresolvedIn, Graph.unresolvedIn, hb]
    rfl
  | other _ => rfl

/-- What resolution reported is what is left without a target. -/
theorem finalize_missing {g₀ g : Graph} {missing : List (Node × String)} (hf : g₀.finalize = (g, .ok missing)) :
    missing.map (fun x => (x.1.fullName, x.2)) = g.nodes.flatMap unresolvedIn := by
  unfold finalize at hf
  dsimp only at hf
  split at hf
  next => cases hf
  next hnone =>
    simp only [Prod.mk.injEq, Except.ok.injEq] at hf
    obtain ⟨rfl, rfl⟩ := hf
    have hsettles := setDefaults_settles (Prod.ext rfl hnone)
    have hsame := map_eq_of_forall₂ (fun n n' hs => hs.unresolvedIn) hsettles
    rw [Graph.unresolved, List.map_flatMap, List.flatMap_def, List.flatMap_def, hsame]
    congr 1
    refine List.map_congr_left fun n _ => ?_
    rw [unresolvedIn, List.map_map]
    rfl

end Graph

variable {files : List SchemaFile} {s : Loader} {g : Graph} {missing : List (Node × String)}

/-- The files of a loader and the graph that it was resolved to. -/
theorem Loader.Holds.filed (h : s.Holds files) (hnames : (files.map (·.name)).Nodup)
    (hf : s.graph.finalize = (g, .ok missing)) : g.Filed := by
  obtain ⟨hr, hfiles, -⟩ := finalize_resolved hf
  have hback {n : Node} (hn : n ∈ g.nodes) : ∃ n₀ ∈ s.graph.nodes, Resolved s.graph n₀ n := forall₂_mem hr.flip hn
  have hlisted {n : Node} (hn : n ∈ s.graph.nodes) : (n.fullName, n.toEntry) ∈ s.graph.listing :=
    mem_listing.mpr ⟨n, hn, rfl, rfl⟩
  refine ⟨?_, fun n hn hk => ?_, fun n hn hk => ?_, fun {n p} hn hp hparent hk => ?_⟩
  · rw [hfiles, h.entered]
    exact hnames
  · obtain ⟨n₀, hn₀, ho⟩ := hback hn
    rw [ho.file]
    rcases h.mem.mp (hlisted hn₀) with he | ⟨f, hf, hx | hx⟩
    · exact congrArg (·.2.file) he
    · exact (SchemaFile.packages_isPackage hx).file
    · exact absurd (ho.kind.symm.trans hk) (SchemaFile.contents_belongs _ hx).kind
  · obtain ⟨n₀, hn₀, ho⟩ := hback hn
    have hk₀ : n₀.body.kind ≠ .package := fun he => hk (ho.kind.trans he)
    rw [ho.file]
    rcases h.mem.mp (hlisted hn₀) with he | ⟨f, hf, hx | hx⟩
    · exact absurd (congrArg (·.2.body.kind) he) hk₀
    · exact absurd (SchemaFile.packages_isPackage hx).kind hk₀
    · refine ⟨f.name, ?_, (SchemaFile.contents_belongs _ hx).file⟩
      rw [hfiles, h.entered]
      exact List.mem_map_of_mem hf
  · obtain ⟨n₀, hn₀, ho⟩ := hback hn
    obtain ⟨p₀, hp₀, hop⟩ := hback hp
    have hparent₀ : n₀.parent = some p₀.index := by
      have hn' : n.parent = n₀.parent := congrArg Place.parent ho.place
      have hp' : p.index = p₀.index := congrArg Place.index hop.place
      rw [← hn', ← hp', hparent]
    obtain ⟨file, hfile, hall⟩ := h.inside _ (hlisted hp₀) fun he => hk (hop.kind.trans he)
    have hne : n₀.index ≠ 0 := Nat.ne_of_gt (Nat.lt_of_le_of_lt (Nat.zero_le _) (h.arena.parent_lt hn₀ hparent₀))
    have hunder : IsUnder p₀.fullName (n₀.fullName, n₀.toEntry) :=
      ⟨fun he => hne ((h.arena.fullName_empty (h.arena.node?_of_mem hn₀)).mp he),
        h.arena.fullName_eq hn₀ hp₀ hparent₀⟩
    rw [ho.file, hop.file]
    exact (hall _ (hlisted hn₀) hunder).trans hfile.symm

/-- **In a loaded graph declarations are in the files that they come from.** -/
theorem loadSources_filed [Source.CharacterNames] {sources : Sources} (hr : loadSources sources .empty = .ok g s) :
    g.Filed := by
  obtain ⟨s₁, heach, missing, hf⟩ := loadSources_eq_ok.mp ⟨s, hr⟩
  obtain ⟨files, hs, ho, -⟩ := loadEach_sound heach
  exact hs.filed ho.names_nodup hf

end ProtoBind.Schema
