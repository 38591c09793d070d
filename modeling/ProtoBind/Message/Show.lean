/-
Messages as text and as plain mappings.

Both show the present fields only: those outside the oneof groups, and of each
group the member that is set.
-/
import ProtoBind.Message.Instance

namespace ProtoBind.Message

namespace Library

/-- A message as it is shown: the name of its class around its present fields. -/
def showMessage (lib : Library) (showValue : Value → Except ValueFault String) :
    Value.ShowMessage :=
  fun type attrs choices =>
    match lib.message? type with
    | some c => do
      let m : Instance := { type := type, attrs := attrs, choices := choices }
      let parts ← (c.contents m).mapM fun (attr, v) => do return attr ++ "=" ++ (← showValue v)
      return c.name ++ "(" ++ Text.join ", " parts ++ ")"
    | none => .ok type

/-- A value as it is shown, down to a depth of nesting. -/
def shownUpTo (lib : Library) : Nat → Value → Except ValueFault String
  | 0 => Value.shown
  | fuel + 1 => Value.showWith (lib.showMessage (lib.shownUpTo fuel))

/-- A value as it is shown inside others. -/
def shown (lib : Library) (v : Value) : Except ValueFault String := lib.shownUpTo v.depth v

/-- A value as text of its own. -/
def plainText (lib : Library) (v : Value) : Except ValueFault String :=
  v.plainTextWith (lib.showMessage lib.shown)

/-- A value with mappings in place of messages, down to a depth of nesting. -/
def plainUpTo (lib : Library) : Nat → Value → Value
  | 0, v => v
  | fuel + 1, v =>
    match v with
    | .list items => .list (items.map (lib.plainUpTo fuel))
    | .dict entries => .dict (entries.map fun (k, v) => (k, lib.plainUpTo fuel v))
    | .message home type attrs choices =>
      match lib.message? type with
      | some c =>
        .dict (Entries.ofList Value.sameKey ((c.contents ⟨home, type, attrs, choices⟩).map
          fun (attr, v) => (.text attr, lib.plainUpTo fuel v)))
      | none => v
    | v => v

/-- A value with mappings of the present fields in place of messages. -/
def plain (lib : Library) (v : Value) : Value := lib.plainUpTo v.depth v

end Library

/-- The wording of a fault; some have none of their own, and none has one that would show a number
of too many digits. -/
def Fault.message? (lib : Library) : Fault → Option String
  | value _ => none
  | wire f => f.message?
  | notMember v group =>
    (lib.shown v).toOption.map (· ++ " is not a member of oneof " ++ Text.quoted group)
  | notMessage field kind =>
    (numeral field).toOption.map ("expected a message for field " ++ · ++ ", got " ++ kind)
  | unknownType field type =>
    (numeral field).toOption.map
      ("cannot encode field " ++ · ++ ": unresolved type " ++ Text.quoted type)

end ProtoBind.Message
