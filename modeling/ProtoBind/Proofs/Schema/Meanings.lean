/-
What the references of a loaded graph mean.

A reference is looked up from the node that holds the field it stands in, or,
for a method, from the package that holds the service. Resolving gives each the
target that its name means there, also when a default cannot be computed
afterwards, and the references that it reports are those left without one.
-/
import ProtoBind.Proofs.Schema.Forest
import ProtoBind.Proofs.Schema.Printed
import ProtoBind.Proofs.Schema.Reached

namespace ProtoBind.Schema

open Schema.Graph Load

namespace Graph

/-- Every reference has the target that its name means where it is looked up. -/
structure Meaningful (g : Graph) : Prop where
  field : ∀ n ∈ g.nodes, n.kind = .field → ∃ p, g.parentOf n = some p ∧
    ∀ r ∈ n.body.references, g.Meant p.index r.name r.target
  method : ∀ n ∈ g.nodes, n.kind = .method → ∃ service space, g.parentOf n = some service ∧
    service.kind = .service ∧ g.parentOf service = some space ∧ space.kind = .package ∧
    ∀ r ∈ n.body.references, g.Meant space.index r.name r.target

variable {g g' : Graph} {n p : Node}

/-- Every node but the root has a parent, of a kind that may hold it. -/
theorem Shaped.parentOf (h : g.Shaped) (hn : n ∈ g.nodes) (hk : n.kind ≠ .package) :
    ∃ p, g.parentOf n = some p ∧ p.kind.Holds n.body := by
  have hnode := h.node?_of_mem hn
  have h0 : n.index ≠ 0 := by
    intro h0
    obtain ⟨root, hroot, hpackage, -⟩ := h.root
    rw [h0, hroot, Option.some.injEq] at hnode
    exact hk (hnode ▸ hpackage)
  obtain ⟨i, p, hi, -, hp, -⟩ := h.parent hnode h0
  have hparent : g.parentOf n = some p := by rw [Graph.parentOf, hi, Option.bind_some, hp]
  obtain ⟨hmem, hindex⟩ := h.parentOf_iff.mp hparent
  exact ⟨p, hparent, h.placed hn hmem hindex⟩

/-- A method stands in a service, and a service in a package. -/
theorem Shaped.service (h : g.Shaped) (hn : n ∈ g.nodes) (hk : n.kind = .method) : ∃ service space,
    g.parentOf n = some service ∧ service.kind = .service ∧ g.parentOf service = some space ∧ space.kind = .package := by
  obtain ⟨service, hservice, hholds⟩ := h.parentOf hn (by rw [hk]; rintro ⟨⟩)
  have hks : service.kind = .service := by
    rcases hholds.kinds with ⟨-, hne⟩ | ⟨-, hne⟩ | ⟨hks, -⟩
    · exact absurd hk hne
    · rcases hne with hb | hb | hb <;> cases hk.symm.trans hb
    · exact hks
  obtain ⟨space, hspace, hholds⟩ := h.parentOf (h.parentOf_iff.mp hservice).1 (by rw [hks]; rintro ⟨⟩)
  refine ⟨service, space, hservice, hks, hspace, ?_⟩
  rcases hholds.kinds with ⟨hkp, -⟩ | ⟨-, hb | hb | hb⟩ | ⟨-, hb⟩
  · exact hkp
  all_goals cases hks.symm.trans hb

theorem Alike.scopeOf (h : Alike g' g) {n' : Node} (hn : outline n' = outline n) : g'.scopeOf n' = g.scopeOf n := by
  have hp : n'.parent = n.parent := congrArg (·.1.parent) hn
  have hk : n'.kind = n.kind := congrArg Prod.snd hn
  rw [Graph.scopeOf, Graph.scopeOf, hk, hp, h.parentOf hp]

/-- After resolving every target is what its name means. -/
theorem target_finalize (hn : n ∈ g.finalize.1.nodes) :
    ∀ r ∈ n.body.references, r.target = g.finalize.1.resolve r.name (g.finalize.1.scopeOf n) := by
  intro r hr
  obtain ⟨n₀, -, ht⟩ := forall₂_mem g.finalize_treats.flip hn
  have halike := g.finalize_alike
  obtain ⟨r₀, -, rfl⟩ := List.mem_map.mp (ht.references ▸ hr)
  rw [halike.scopeOf (Prod.ext ht.place ht.replaces.kind), halike.resolve]
  rfl

theorem Shaped.meaningful (h : g.Shaped) : g.finalize.1.Meaningful where
  field n hn hk := by
    have h' := h.finalize
    obtain ⟨p, hp, -⟩ := h'.parentOf hn (by rw [hk]; rintro ⟨⟩)
    obtain ⟨hmem, hparent⟩ := h'.parentOf_iff.mp hp
    refine ⟨p, hp, fun r hr => (resolve_eq_iff h'.named (h'.lt_length hmem)).mp ?_⟩
    rw [target_finalize hn r hr, scopeOf, if_neg (by rw [hk]; rintro ⟨⟩), hparent]
  method n hn hk := by
    have h' := h.finalize
    obtain ⟨service, space, hservice, hks, hspace, hkp⟩ := h'.service hn hk
    obtain ⟨hmem, hparent⟩ := h'.parentOf_iff.mp hspace
    refine ⟨service, space, hservice, hks, hspace, hkp, fun r hr =>
      (resolve_eq_iff h'.named (h'.lt_length hmem)).mp ?_⟩
    rw [target_finalize hn r hr, scopeOf, if_pos hk, hservice, Option.bind_some, hparent]

end Graph

/-- **Names mean what the innermost scope has.** In every graph that a loader comes to, a name means at a node the type
that it names in the innermost scope around the node in which it names one. After resolving every reference has the
target that its name means where the reference is looked up, and those that are reported are the ones without a target,
in the order of the nodes. -/
theorem resolution_innermost [Source.CharacterNames] {s : Loader} (h : s.Reached) :
    (∀ i < s.graph.nodes.length, ∀ name target,
      s.graph.resolve name (some i) = target ↔ s.graph.Meant i name target) ∧
    s.graph.finalize.1.Meaningful ∧
    ∀ g missing, s.graph.finalize = (g, .ok missing) → missing.map (fun x => (x.1.fullName, x.2)) =
      g.nodes.flatMap fun n => (n.body.references.filter (·.target.isNone)).map fun r => (n.fullName, r.name) := by
  refine ⟨fun i hi name target => resolve_eq_iff h.shaped.named hi, h.shaped.meaningful, fun g missing hf => ?_⟩
  rw [finalize_missing hf]
  refine List.flatMap_congr fun n _ => ?_
  rw [unresolvedIn, missing_eq, List.map_map]
  rfl

/-- What sources are loaded to is reached. -/
theorem loadSources_reached [Source.CharacterNames] {sources : Sources} {g : Graph} {s : Loader}
    (hload : loadSources sources .empty = .ok g s) : s.Reached ∧ s.graph = g ∧
      ∃ (s₀ : Loader) (missing : List (Node × String)), s₀.Reached ∧ s₀.graph.finalize = (g, .ok missing) := by
  rw [loadSources_eq] at hload
  obtain ⟨_, s₀, heach, hfinish⟩ := bind_eq_ok.mp hload
  have hs₀ : s₀.Reached := by
    have hends : Loader.Reached (endState (loadEach sources .empty)) :=
      endState_forIn (fun p _ s hs => endState_bind (.load _ _ _ _ hs) fun _ _ _ hs => hs) .empty
    rwa [heach] at hends
  obtain ⟨missing, hf⟩ := finish_iff.mp ⟨s, hfinish⟩
  have hs := hs₀.finish
  have hgraph := finish_graph s₀
  rw [hfinish] at hs hgraph
  exact ⟨hs, hgraph.trans (by rw [hf]), s₀, missing, hs₀, hf⟩

/-- A service for a message, with another message inside. -/
def gettingFiles : List (String × List Source.Decl) :=
  [("a.proto", [.message "Foo" [.message "Bar" [] 1] 1,
    .service ⟨"S", [⟨"GetFoo", "Foo", false, "Foo", false, 1⟩], 1⟩])]

def getting : Sources := printedSources gettingFiles

theorem getting_loads : succeedsWith (loadSources getting) .empty (fun g =>
    g.nodes.any fun n => n.fullName == "Foo" && n.kind == .message) = true := by
  unfold loadSources loadOne
  rw [Load.load_eq_known gettingFiles (by decide +kernel)]
  decide +kernel

/-- A service and its message: the message is meant everywhere, and so by the methods. -/
theorem resolution_innermost_getting : ∃ g s, loadSources getting .empty = .ok g s ∧ s.Reached ∧
    s.graph = g ∧ (∃ n ∈ g.nodes, n.fullName = "Foo" ∧ g.resolve "Foo" (some 0) = some n.index) ∧
    ∃ (s₀ : Loader) (missing : List (Node × String)), s₀.Reached ∧ s₀.graph.finalize = (g, .ok missing) ∧
      g.Meaningful := by
  obtain ⟨g, s, hload, htest⟩ := exists_of_succeedsWith getting_loads
  simp only [List.any_eq_true, Bool.and_eq_true, beq_iff_eq] at htest
  obtain ⟨n, hn, hname, hk⟩ := htest
  obtain ⟨hs, hg, s₀, missing, hs₀, hf⟩ := loadSources_reached hload
  obtain ⟨root, hroot, -, hp, hempty⟩ := hs.shaped.root
  have hmeaningful := (resolution_innermost hs₀).2.1
  rw [hf] at hmeaningful
  have hmeant : s.graph.Meant 0 "Foo" (some n.index) := by
    refine @Meant.innermost _ _ _ [] [] root n (by decide) (.outermost hroot hp) ⟨hg ▸ hn, ?_, .inl hk⟩
      fun _ hs => absurd hs List.not_mem_nil
    rw [hname, hempty, childName_empty]
  have hresolve := ((resolution_innermost hs).1 0 (lt_of_node? hroot) "Foo" _).mpr hmeant
  exact ⟨g, s, hload, hs, hg, ⟨n, hn, hname, hg ▸ hresolve⟩, s₀, missing, hs₀, hf, hmeaningful⟩

end ProtoBind.Schema
