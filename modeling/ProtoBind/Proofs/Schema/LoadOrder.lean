/-
The order of loaded files.

Where sources can be loaded, no file imports itself, directly or through
others. The files of the graph are the sources, each once and behind all that
it imports, and its declarations are numbered behind theirs
(`loadSources_topological`).
-/
import Mathlib.Data.Nat.Basic
import Mathlib.Logic.Relation
import Mathlib.Order.Basic
import ProtoBind.Proofs.Schema.Filed

namespace ProtoBind.Schema

open Schema.Graph Load
open Relation (TransGen)

/-- A file imports another that has a text. -/
def Imports [Source.CharacterNames] (find : String → Option String) (a b : String) : Prop :=
  ∃ f, fileAt find a = some f ∧ b ∈ f.imports ∧ (find b).isSome

variable {find : String → Option String} {files : List SchemaFile} {s : Loader} {g : Graph} {a b : String}
  {missing : List (Node × String)} {n m : Node}

/-! ## Ranks -/

namespace Ordered

theorem imports_rank [Source.CharacterNames] (h : Ordered find files) (ha : a ∈ files.map (·.name))
    (hi : Imports find a b) :
    b ∈ files.map (·.name) ∧ rank files b < rank files a := by
  obtain ⟨f, hread, himport, hb⟩ := hi
  obtain ⟨f', hf', rfl, hread'⟩ := h.present ha
  obtain rfl : f' = f := Option.some.inj (hread'.symm.trans hread)
  refine (h.import_lt f' hf' b himport).resolve_right fun hskip => ?_
  rw [hskip.1] at hb
  cases hb

/-- What a file imports through others stands before it too. -/
theorem transGen_rank [Source.CharacterNames] (h : Ordered find files) (ha : a ∈ files.map (·.name))
    (hi : TransGen (Imports find) a b) :
    b ∈ files.map (·.name) ∧ rank files b < rank files a := by
  induction hi with
  | single hi => exact h.imports_rank ha hi
  | tail _ hi ih =>
    obtain ⟨hc, hlt⟩ := h.imports_rank ih.1 hi
    exact ⟨hc, hlt.trans ih.2⟩

end Ordered

theorem pairwise_rank (h : (files.map (·.name)).Nodup) :
    files.Pairwise fun f f' => rank files f.name ≤ rank files f'.name := by
  have hat {k : Nat} (hk : k < files.length) : rank files files[k].name = k := by
    have hidx := h.idxOf_getElem k (by simpa using hk)
    rwa [List.getElem_map] at hidx
  rw [List.pairwise_iff_getElem]
  intro i j hi hj hij
  rw [hat hi, hat hj]
  exact hij.le

/-! ## Declarations -/

namespace Loader.Holds

/-- The files that the nodes name, in the order of the nodes. -/
theorem filterMap_file (h : s.Holds files) :
    s.graph.nodes.filterMap (·.file) = files.flatMap fun f => f.contents.filterMap (·.2.file) := by
  rw [← List.filterMap_flatMap, ← h.declared, List.filterMap_filter, listing, List.filterMap_map]
  refine List.filterMap_congr fun n _ => ?_
  cases hn : n.file <;> simp [hn]

/-- The nodes of earlier files stand before those of later files. -/
theorem pairwise_file (h : s.Holds files) (hnames : (files.map (·.name)).Nodup) :
    s.graph.nodes.Pairwise fun n m => ∀ a, n.file = some a → ∀ b, m.file = some b → rank files a ≤ rank files b := by
  have hname {f : SchemaFile} {a : String} (ha : a ∈ f.contents.filterMap (·.2.file)) : a = f.name := by
    obtain ⟨x, hx, he⟩ := List.mem_filterMap.mp ha
    exact Option.some.inj (he.symm.trans (SchemaFile.contents_belongs x hx).file)
  rw [← List.pairwise_filterMap, h.filterMap_file, List.pairwise_flatMap]
  refine ⟨fun f _ => List.pairwise_of_forall_mem_list fun a ha b hb => ?_, ?_⟩
  · rw [hname ha, hname hb]
  · refine (pairwise_rank hnames).imp fun {f f'} hle a ha b hb => ?_
    rw [hname ha, hname hb]
    exact hle

/-- The nodes of an earlier file have smaller numbers than those of a later file. -/
theorem index_lt (h : s.Holds files) (hnames : (files.map (·.name)).Nodup) (hg : g.Arena)
    (hf : s.graph.finalize = (g, .ok missing)) (hn : n ∈ g.nodes) (hm : m ∈ g.nodes) (ha : n.file = some a)
    (hb : m.file = some b) (hlt : rank files b < rank files a) : m.index < n.index := by
  have hfiles : g.nodes.map (·.file) = s.graph.nodes.map (·.file) :=
    map_eq_of_forall₂ (fun _ _ ho => ho.file) (finalize_resolved hf).1
  have hpairs : g.nodes.Pairwise fun n m =>
      ∀ a, n.file = some a → ∀ b, m.file = some b → rank files a ≤ rank files b := by
    have hmapped : (s.graph.nodes.map (·.file)).Pairwise fun x y =>
        ∀ a, x = some a → ∀ b, y = some b → rank files a ≤ rank files b :=
      List.pairwise_map.mpr (h.pairwise_file hnames)
    rw [← hfiles] at hmapped
    exact List.pairwise_map.mp hmapped
  obtain ⟨hi, hni⟩ := List.getElem?_eq_some_iff.mp (hg.node?_of_mem hn)
  obtain ⟨hj, hmj⟩ := List.getElem?_eq_some_iff.mp (hg.node?_of_mem hm)
  by_contra hle
  rcases Nat.lt_or_eq_of_le (Nat.le_of_not_lt hle) with hij | hij
  · have hbefore := List.pairwise_iff_getElem.mp hpairs _ _ hi hj hij a (by rw [hni, ha]) b (by rw [hmj, hb])
    omega
  · have hsame : n = m := by
      rw [← hni, ← hmj]
      simp only [hij]
    rw [hsame, hb, Option.some.injEq] at ha
    rw [ha] at hlt
    exact Nat.lt_irrefl _ hlt

end Loader.Holds

/-! ## Sources -/

variable {sources : Sources}

/-- A file that imports others is one of the sources. -/
theorem Imports.mem_sources_of_transGen [Source.CharacterNames] (h : TransGen (Imports (textOf sources)) a b) :
    a ∈ (sourceMap sources).map (·.1) := by
  obtain ⟨c, ⟨f, hread, -⟩, -⟩ := TransGen.head'_iff.mp h
  obtain ⟨text, htext, -⟩ := Option.bind_eq_some_iff.mp hread
  exact List.mem_map_of_mem (f := (·.1)) (Entries.mem_of_lookup htext)

/-- **Files are loaded behind all that they import.** The files of a loaded graph are the sources, each once; no
source imports itself, directly or through others; and what a source imports stands before it among the files, with
nodes of smaller numbers. Sources that import themselves are not loaded. -/
theorem loadSources_topological [Source.CharacterNames] (sources : Sources) :
    (∀ g s, loadSources sources .empty = .ok g s → g.files.Nodup ∧ g.files.Perm ((sourceMap sources).map (·.1)) ∧
      (∀ name, ¬ TransGen (Imports (textOf sources)) name name) ∧
      ∀ a b, TransGen (Imports (textOf sources)) a b →
        b ∈ g.files ∧ g.files.idxOf b < g.files.idxOf a ∧
        ∀ n ∈ g.nodes, ∀ m ∈ g.nodes, n.file = some a → m.file = some b → m.index < n.index) ∧
    ((∃ name, TransGen (Imports (textOf sources)) name name) →
      ¬ ∃ g s, loadSources sources .empty = .ok g s) := by
  have hloaded : ∀ g s, loadSources sources .empty = .ok g s →
      g.files.Nodup ∧ g.files.Perm ((sourceMap sources).map (·.1)) ∧
      ∀ a b, TransGen (Imports (textOf sources)) a b →
        b ∈ g.files ∧ g.files.idxOf b < g.files.idxOf a ∧
        ∀ n ∈ g.nodes, ∀ m ∈ g.nodes, n.file = some a → m.file = some b → m.index < n.index := by
    intro g s hr
    have hg := (loadSources_final empty_formed hr).toArena
    obtain ⟨s₁, heach, missing, hf⟩ := loadSources_eq_ok.mp ⟨s, hr⟩
    obtain ⟨files, hs, ho, hall⟩ := loadEach_sound heach
    have hperm := ho.perm_sources hall
    have hfiles : g.files = files.map (·.name) := (finalize_resolved hf).2.1.trans hs.entered
    rw [hfiles]
    refine ⟨ho.names_nodup, hperm, fun a b hi => ?_⟩
    obtain ⟨hb, hlt⟩ := ho.transGen_rank (hperm.mem_iff.mpr (Imports.mem_sources_of_transGen hi)) hi
    exact ⟨hb, hlt, fun n hn m hm hfa hfb => hs.index_lt ho.names_nodup hg hf hn hm hfa hfb hlt⟩
  have hacyclic : ∀ g s, loadSources sources .empty = .ok g s →
      ∀ name, ¬ TransGen (Imports (textOf sources)) name name := by
    intro g s hr name hi
    exact Nat.lt_irrefl _ ((hloaded g s hr).2.2 name name hi).2.1
  refine ⟨fun g s hr => ?_, ?_⟩
  · obtain ⟨hnodup, hperm, hbefore⟩ := hloaded g s hr
    exact ⟨hnodup, hperm, hacyclic g s hr, hbefore⟩
  · rintro ⟨name, hi⟩ ⟨g, s, hr⟩
    exact hacyclic g s hr name hi

end ProtoBind.Schema
