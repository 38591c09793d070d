/-
Groups and the members that are set in them.

The fields of a class have attributes of their own (`Arranged`): a field
outside the groups reads as what its attribute holds, a member of a group as
its value while it is the one that is set and as its default otherwise. An
instance has at most one member set in each group, a declared one (`WellSet`).
-/
import Mathlib.Data.List.Nodup
import ProtoBind.Message.Instance
import ProtoBind.Proofs.Entries
import ProtoBind.Proofs.Results

namespace ProtoBind.Message

/-- The fields of a class have attributes of their own, and each is served as its group says. -/
structure Arranged (c : MessageClass) : Prop where
  attrs : (c.fields.map (·.attr)).Nodup
  descriptor : ∀ f ∈ c.fields, c.descriptor? f.attr = f.oneofAttr.map (.member f.attr)

/-- The field is the member of the group that is set, with the value. -/
def Chosen (m : Instance) (f : Reflection.Field) (group : String) (v : Value) : Prop :=
  f.oneofAttr = some group ∧ m.choices.lookup group = some (f.attr, v)

/-- Each group has at most one member set, and it is one that the class declares. -/
structure WellSet (c : MessageClass) (m : Instance) : Prop where
  groups : (m.choices.map (·.1)).Nodup
  chosen : ∀ x ∈ m.choices, ∃ f ∈ c.fields, f.oneofAttr = some x.1 ∧ f.attr = x.2.1

variable {c : MessageClass} {m : Instance} {f : Reflection.Field} {v : Value}

theorem oneofAttr_eq_none_iff : f.oneofAttr = none ↔ f.oneof = none := Option.map_eq_none_iff

theorem Instance.active?_eq_some {group member : String} :
    m.active? group member = some v ↔ m.choices.lookup group = some (member, v) := by
  simp only [Instance.active?, Instance.choice?]
  split
  next name w h => simp [h, Option.ite_none_right_eq_some]
  next h => simp [h]

theorem setMember_value {attr group : String} (hv : v ≠ .null) :
    MessageClass.setMember m attr group v = m.choose group attr v := by
  cases v <;> first | exact absurd rfl hv | rfl

/-- Only members of a group are set in one. -/
theorem Chosen.grouped {group : String} (h : Chosen m f group v) : f.oneof ≠ none := by
  intro hone
  cases h.1.symm.trans (oneofAttr_eq_none_iff.mpr hone)

theorem MessageClass.isActive_iff : MessageClass.isActive m f = true ↔ ∃ group v, Chosen m f group v := by
  unfold MessageClass.isActive Chosen
  cases f.oneofAttr with
  | none => simp
  | some group => simp [Option.isSome_iff_exists, Instance.active?_eq_some]

namespace Arranged

/-- A class finds the default of each of its fields. -/
theorem defaultOf (hc : Arranged c) (hf : f ∈ c.fields) : c.defaultOf f.attr = .ok f.newDefault := by
  have hby : c.byAttr? f.attr = some f := by
    have hnodup : (c.fields.reverse.map (·.attr)).Nodup := by
      rw [List.map_reverse, List.nodup_reverse]
      exact hc.attrs
    exact find?_of_nodup hnodup (List.mem_reverse.mpr hf)
  rw [MessageClass.defaultOf, hby]

/-- A field of the class is known by its attribute. -/
theorem attr_inj (hc : Arranged c) {f' : Reflection.Field} (hf : f ∈ c.fields) (hf' : f' ∈ c.fields)
    (h : f.attr = f'.attr) : f = f' :=
  List.inj_on_of_nodup_map hc.attrs hf hf' h

theorem descriptor_regular (hc : Arranged c) (hf : f ∈ c.fields) (hone : f.oneof = none) :
    c.descriptor? f.attr = none := by
  rw [hc.descriptor f hf, oneofAttr_eq_none_iff.mpr hone]
  rfl

theorem descriptor_member (hc : Arranged c) (hf : f ∈ c.fields) {group : String} (hgroup : f.oneofAttr = some group) :
    c.descriptor? f.attr = some (.member f.attr group) := by
  rw [hc.descriptor f hf, hgroup]
  rfl

/-- A field outside the groups reads as what its attribute holds. -/
theorem get_regular (hc : Arranged c) (hf : f ∈ c.fields) (hone : f.oneof = none)
    (hv : m.attrs.lookup f.attr = some v) : c.get m f.attr = .ok v := by
  simp only [MessageClass.get, hc.descriptor_regular hf hone, hv]

/-- A member of a group reads as its value while it is set, and as its default otherwise. -/
theorem get_member (hc : Arranged c) (hf : f ∈ c.fields) {group : String} (hgroup : f.oneofAttr = some group)
    (m : Instance) : c.get m f.attr = .ok ((m.active? group f.attr).getD f.newDefault) := by
  simp only [MessageClass.get, hc.descriptor_member hf hgroup, hc.defaultOf hf]
  cases m.active? group f.attr <;> rfl

theorem get_chosen (hc : Arranged c) (hf : f ∈ c.fields) {group : String} (h : Chosen m f group v) :
    c.get m f.attr = .ok v := by
  rw [hc.get_member hf h.1, Instance.active?_eq_some.mpr h.2]
  rfl

/-- A member that is not set reads as its default. -/
theorem get_inactive (hc : Arranged c) (hf : f ∈ c.fields) (hone : f.oneof ≠ none)
    (hactive : MessageClass.isActive m f = false) : c.get m f.attr = .ok f.newDefault := by
  obtain ⟨group, hgroup⟩ := Option.ne_none_iff_exists'.mp fun h => hone (oneofAttr_eq_none_iff.mp h)
  have hnone : m.active? group f.attr = none := by
    simpa [MessageClass.isActive, hgroup] using hactive
  rw [hc.get_member hf hgroup, hnone]
  rfl

end Arranged

end ProtoBind.Message
