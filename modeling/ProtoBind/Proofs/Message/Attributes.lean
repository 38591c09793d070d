/-
Attributes of messages and members of enums.

The names of the fields of a message are distinct, for they are names of
nodes. Those of its oneof groups and those of the values of an enum are not
compared by the loader, and an underscore behind a keyword or a reserved name
can make it another name of the message. So the attributes of a message are
distinct under conditions on its names, and the members of an enum likewise
(`attributes_nodup_iff`); there are schemas that do not meet them.
-/
import ProtoBind.Proofs.Message.Classes
import ProtoBind.Proofs.Naming
import ProtoBind.Proofs.Schema.Printed

namespace ProtoBind.Message

open Schema (Graph Node Sources Loader loadSources)
open Naming (Escaped)

variable {g : Graph} {n : Node} {sources : Sources} {s : Loader}

/-- The names of a message: those of its fields and those of its oneof groups. -/
def namesOf (g : Graph) (n : Node) : List String :=
  (fieldsOf g n).map (·.1.name) ++ n.oneofs.map (·.name)

theorem attributesOf_eq (g : Graph) (n : Node) : attributesOf g n = (namesOf g n).map Naming.attributeName := by
  rw [attributesOf, namesOf, List.map_append, List.map_map, List.map_map]
  rfl

theorem namesOf_nodup_iff (h : g.Arena) (hn : n ∈ g.nodes) : (namesOf g n).Nodup ↔
    (n.oneofs.map (·.name)).Nodup ∧ ∀ x ∈ fieldsOf g n, ∀ group ∈ n.oneofs, x.1.name ≠ group.name := by
  have hfields := Reflection.fieldNames_nodup h hn
  rw [namesOf, List.nodup_append']
  refine ⟨fun hall => ⟨hall.2.1, fun x hx group hgroup he => ?_⟩, fun hall => ⟨hfields, hall.1, ?_⟩⟩
  · exact hall.2.2 (List.mem_map_of_mem hx) (he ▸ List.mem_map_of_mem hgroup)
  · intro name hx hgroup
    obtain ⟨x, hfield, rfl⟩ := List.mem_map.mp hx
    obtain ⟨group, hgroup, he⟩ := List.mem_map.mp hgroup
    exact hall.2 x hfield group hgroup he.symm

/-- **When no two pieces of a message share an attribute.** In a loaded graph the attributes of the fields and the
oneof groups of a message are distinct just when its groups have distinct names, none of them has the name of a field,
and none of its names is another one escaped. The members of an enum are distinct just when its values have distinct
names and none of them is another one escaped. -/
theorem attributes_nodup_iff [Source.CharacterNames] (hload : loadSources sources .empty = .ok g s) :
    (∀ n ∈ g.nodes, n.kind = .message → ((attributesOf g n).Nodup ↔ (n.oneofs.map (·.name)).Nodup ∧
      (∀ x ∈ fieldsOf g n, ∀ group ∈ n.oneofs, x.1.name ≠ group.name) ∧
      ∀ name ∈ namesOf g n, Escaped Naming.messageReserved name → name ++ "_" ∉ namesOf g n)) ∧
    ∀ n ∈ g.nodes, n.kind = .enum → ((n.enumValues.map fun v => Naming.enumMemberName v.name).Nodup ↔
      (n.enumValues.map (·.name)).Nodup ∧
      ∀ name ∈ n.enumValues.map (·.name), Escaped Naming.enumReserved name →
        name ++ "_" ∉ n.enumValues.map (·.name)) := by
  have harena : g.Arena := (Schema.loadSources_final Schema.Graph.empty_formed hload).toArena
  refine ⟨fun n hn _ => ?_, fun n _ _ => ?_⟩
  · rw [← and_assoc, ← namesOf_nodup_iff harena hn, attributesOf_eq]
    exact Naming.map_guard_nodup_iff Naming.stable_messageReserved
  · rw [← Naming.map_guard_nodup_iff Naming.stable_enumReserved, List.map_map]
    rfl

/-- A message with the fields `class` and `class_`, one with a field in a group of its own name, and an enum with one
name twice. -/
def clashingFiles : List (String × List Source.Decl) :=
  [("a.proto", [.message "M" [.field ⟨some .optional, "int32", "class", 1, [], 1⟩,
      .field ⟨some .optional, "int32", "class_", 2, [], 1⟩] 1,
    .message "N" [.oneof ⟨"x", [⟨none, "int32", "x", 1, [], 1⟩], 1⟩] 1, .enum ⟨"E", [⟨"A", 0, 1⟩, ⟨"A", 1, 1⟩], 1⟩])]

def clashing : Sources := Schema.printedSources clashingFiles

/-- What the names of a graph become: the attributes of each message, and the members of each enum. -/
def escapedNames (g : Graph) : List (List String) × List (List String) :=
  ((g.nodes.filter (·.kind == .message)).map (attributesOf g),
    (g.nodes.filter (·.kind == .enum)).map fun n => n.enumValues.map fun v => Naming.enumMemberName v.name)

theorem clashing_escaped : succeedsWith (loadSources clashing) .empty
    (fun g => escapedNames g == ([["class_", "class_"], ["x", "x"]], [["A", "A"]])) = true := by
  unfold loadSources Schema.loadOne
  rw [Schema.Load.load_eq_known clashingFiles (by decide +kernel)]
  decide +kernel

theorem clashing_loads : ∃ g s, loadSources clashing .empty = .ok g s ∧
    (∃ n ∈ g.nodes, n.kind = .message ∧ attributesOf g n = ["class_", "class_"]) ∧
    ∃ n ∈ g.nodes, n.kind = .enum ∧ (n.enumValues.map fun v => Naming.enumMemberName v.name) = ["A", "A"] := by
  obtain ⟨g, s, hload, htest⟩ := exists_of_succeedsWith clashing_escaped
  obtain ⟨hmessages, henums⟩ := Prod.mk.inj (eq_of_beq htest)
  obtain ⟨n, hn, hattrs⟩ := List.mem_map.mp (hmessages ▸ List.mem_cons_self)
  obtain ⟨e, he, hmembers⟩ := List.mem_map.mp (henums ▸ List.mem_cons_self)
  rw [List.mem_filter, beq_iff_eq] at hn he
  exact ⟨g, s, hload, ⟨n, hn.1, hn.2, hattrs⟩, e, he.1, he.2, hmembers⟩

/-- The condition at the message with the fields `class` and `class_`: it fails, for one is the other escaped. -/
theorem attributes_nodup_iff_clashing : ∃ g s, loadSources clashing .empty = .ok g s ∧
    ∃ n ∈ g.nodes, n.kind = .message ∧ attributesOf g n = ["class_", "class_"] ∧
      ¬ ((n.oneofs.map (·.name)).Nodup ∧
        (∀ x ∈ fieldsOf g n, ∀ group ∈ n.oneofs, x.1.name ≠ group.name) ∧
        ∀ name ∈ namesOf g n, Escaped Naming.messageReserved name → name ++ "_" ∉ namesOf g n) := by
  obtain ⟨g, s, hload, ⟨n, hn, hk, hattrs⟩, -⟩ := clashing_loads
  refine ⟨g, s, hload, n, hn, hk, hattrs, fun hapart => ?_⟩
  have hnodup := ((attributes_nodup_iff hload).1 n hn hk).mpr hapart
  rw [hattrs] at hnodup
  exact absurd hnodup (by decide)

/-- Two fields of a message share an attribute, and two values of an enum a member. -/
theorem attributes_class_collide : ∃ g s, loadSources clashing .empty = .ok g s ∧
    (∃ n ∈ g.nodes, n.kind = .message ∧ ¬ (attributesOf g n).Nodup) ∧
    ∃ n ∈ g.nodes, n.kind = .enum ∧ ¬ (n.enumValues.map fun v => Naming.enumMemberName v.name).Nodup := by
  obtain ⟨g, s, hload, ⟨n, hn, hk, hattrs⟩, e, he, hke, hmembers⟩ := clashing_loads
  refine ⟨g, s, hload, ⟨n, hn, hk, ?_⟩, e, he, hke, ?_⟩
  · rw [hattrs]
    decide
  · rw [hmembers]
    decide

end ProtoBind.Message
