/-
Instances of message classes and their attributes.

A regular field is kept under its attribute. The members of a oneof group
share one place, so setting one forgets the others; reading a member that is
not set gives its default, and reading the group gives the name of the member
that is set.
-/
import ProtoBind.Message.Class
import ProtoBind.Wire.Reader

namespace ProtoBind.Message

/-- Why an operation on messages has no result. -/
inductive Fault
  | value (fault : ValueFault)
  | wire (fault : WireFault)
  /-- Something that is no member was assigned to a oneof group. -/
  | notMember (given : Value) (group : String)
  /-- A message field holds something else. -/
  | notMessage (field : Int) (kind : String)
  /-- The type of a field was not found. -/
  | unknownType (field : Int) (type : String)
  deriving Repr, Inhabited

instance : Coe ValueFault Fault := ⟨.value⟩

/-- A message apart from other values. -/
structure Instance where
  home : Option Nat := none
  type : String
  attrs : List (String × Value) := []
  choices : List (String × String × Value) := []
  deriving Repr, Inhabited

namespace Instance

def value (m : Instance) : Value := .message m.home m.type m.attrs m.choices

/-- The message that a value is. -/
def ofValue? : Value → Option Instance
  | .message home type attrs choices => some ⟨home, type, attrs, choices⟩
  | _ => none

theorem ofValue?_value (m : Instance) : ofValue? m.value = some m := rfl

/-- The member of a group that is set, with its value. -/
def choice? (m : Instance) (group : String) : Option (String × Value) := m.choices.lookup group

/-- The value of a member, if it is the one set in its group. -/
def active? (m : Instance) (group member : String) : Option Value :=
  match m.choice? group with
  | some (name, v) => if name = member then some v else none
  | none => none

def keep (m : Instance) (attr : String) (v : Value) : Instance :=
  { m with attrs := Entries.put (· == ·) attr v m.attrs }

def choose (m : Instance) (group member : String) (v : Value) : Instance :=
  { m with choices := Entries.put (· == ·) group (member, v) m.choices }

def clear (m : Instance) (group : String) : Instance :=
  { m with choices := Entries.erase (· == ·) group m.choices }

end Instance

namespace MessageClass

/-- The default of the field with an attribute. -/
def defaultOf (c : MessageClass) (attr : String) : Except Fault Value :=
  match c.byAttr? attr with
  | some f => .ok f.newDefault
  | none => .error (.value .missingKey)

/-- What an attribute of an instance reads as. -/
def get (c : MessageClass) (m : Instance) (attr : String) : Except Fault Value :=
  match c.descriptor? attr with
  | some (.member name group) =>
    match m.active? group name with
    | some v => .ok v
    | none => c.defaultOf name
  | some (.group name _) =>
    match m.choice? name with
    | some (member, _) => .ok (.text member)
    | none => .ok .null
  | none =>
    match m.attrs.lookup attr with
    | some v => .ok v
    | none => .error (.value .noAttribute)

/-- Assigns to a member of a group: null forgets it, anything else makes it the one set. -/
def setMember (m : Instance) (name group : String) (v : Value) : Instance :=
  match v with
  | .null => if (m.active? group name).isSome then m.clear group else m
  | v => m.choose group name v

/-- Assigns to a group: null clears it, the name of a member sets that member to its default
unless it is set. -/
def setGroup (c : MessageClass) (m : Instance) (name : String) (members : List String) (v : Value) :
    Except Fault Instance :=
  match v with
  | .null => .ok (m.clear name)
  | v =>
    match v.string? with
    | some member =>
      if members.contains member then
        if (m.active? name member).isSome then .ok m
        else do return m.choose name member (← c.defaultOf member)
      else .error (.notMember v name)
    | none => .error (.notMember v name)

/-- Assigns to an attribute of an instance. -/
def set (c : MessageClass) (m : Instance) (attr : String) (v : Value) : Except Fault Instance :=
  match c.descriptor? attr with
  | some (.member name group) => .ok (setMember m name group v)
  | some (.group name members) => c.setGroup m name members v
  | none => .ok (m.keep attr v)

/-- Changes what an attribute holds, in place. A default that no instance holds is changed for
nobody. -/
def modify (c : MessageClass) (m : Instance) (attr : String)
    (change : Value → Except ValueFault Value) : Except Fault Instance := do
  let new ← match change (← c.get m attr) with
    | .ok v => pure v
    | .error e => throw (.value e)
  match c.descriptor? attr with
  | some (.member name group) =>
    return if (m.active? group name).isSome then m.choose group name new else m
  | some (.group _ _) => return m
  | none => return m.keep attr new

/-- A new instance: every field outside the groups holds its default. -/
def fresh (c : MessageClass) : Except Fault Instance :=
  (c.fields.filter (·.oneof.isNone)).foldlM (fun m f => c.set m f.attr f.newDefault)
    { type := c.fullName }

/-- The field is the one set in its group. -/
def isActive (m : Instance) (f : Reflection.Field) : Bool :=
  match f.oneofAttr with
  | some group => (m.active? group f.attr).isSome
  | none => false

/-- The fields of an instance that hold something: those outside the groups and those set. -/
def present (c : MessageClass) (m : Instance) : List Reflection.Field :=
  c.fields.filter fun f => f.oneof.isNone || isActive m f

/-- The present fields with what they hold. -/
def contents (c : MessageClass) (m : Instance) : List (String × Value) :=
  (c.present m).filterMap fun f => ((c.get m f.attr).toOption).map fun v => (f.attr, v)

end MessageClass

end ProtoBind.Message
