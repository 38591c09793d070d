/-
Equality of values.

Numbers are equal when their values are. Messages are equal when they are of
one class, have the same members set, and agree on every present field. Two
holders of one message hold equal things whatever the message contains; this
matters only for contents that are not equal to themselves.
-/
import ProtoBind.Message.Instance

namespace ProtoBind.Message

/-- Two values are the very same message. -/
def isOne : Value → Value → Bool
  | .message (some p) _ _ _, .message (some q) _ _ _ => p == q
  | _, _ => false

/-- Two instances have the same members set. -/
def sameChoices (m n : Instance) : Bool :=
  let names (i : Instance) := i.choices.map fun (group, member, _) => (group, member)
  m.choices.length == n.choices.length &&
    (names m).all fun (group, member) => (names n).lookup group == some member

namespace Library

/-- The values are equal, down to a depth of nesting. `same` says that both are one container. -/
def equalUpTo (lib : Library) : (fuel : Nat) → (same : Bool) → Value → Value → Bool
  | 0, _, a, b => a.sameKey b
  | fuel + 1, same, a, b =>
    let within (x y : Value) : Bool := isOne x y || lib.equalUpTo fuel false x y
    match a, b with
    | .list xs, .list ys => same || (xs.length == ys.length && (xs.zip ys).all fun (x, y) => within x y)
    | .dict xs, .dict ys =>
      same || (xs.length == ys.length && xs.all fun (k, x) =>
        match Entries.get? Value.sameKey k ys with
        | some y => within x y
        | none => false)
    | .message home type attrs choices, .message home' type' attrs' choices' =>
      match lib.message? type with
      | some c =>
        let m : Instance := ⟨home, type, attrs, choices⟩
        let n : Instance := ⟨home', type', attrs', choices'⟩
        type == type' && sameChoices m n && (c.present m).all fun f =>
          match c.get m f.attr, c.get n f.attr with
          | .ok x, .ok y => lib.equalUpTo fuel (isOne a b) x y
          | _, _ => false
      | none => isOne a b
    | a, b => a.sameKey b

def equal (lib : Library) (a b : Value) : Bool := lib.equalUpTo a.depth false a b

end Library
end ProtoBind.Message
